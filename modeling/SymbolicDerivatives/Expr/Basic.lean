import SymbolicDerivatives.Elementary

/-!
# Expression trees

A tree has constants and variables at its leaves and operators, each with a list of operands, at its
inner nodes. Nothing ties the number of operands to the operator: a tree need not come from a
formula, and each pass says what it does with the others. `Expr.WellFormed` picks out the trees that
a formula can denote.

Functions over trees recurse through the operand list by a second function beside the first, so that
they are structural and compute inside proofs. For each such pair a lemma says that the second one
is the `map`, `any` or `mapM` of the first; `Expr.induction` is the matching proof principle.
-/

namespace SymbolicDerivatives

/-- An expression with constants from `K`. -/
inductive Expr (K : Type) where
  /-- A constant. -/
  | const (value : K)
  /-- A variable. -/
  | var (name : String)
  /-- An operator applied to operands. -/
  | op (operator : Operator) (operands : List (Expr K))

namespace Expr

variable {K : Type}

/-- To prove a property of all trees, prove it of the leaves, and of a node from its operands. -/
@[elab_as_elim]
theorem induction {motive : Expr K → Prop} (const : ∀ c, motive (.const c))
    (var : ∀ x, motive (.var x))
    (op : ∀ o operands, (∀ e ∈ operands, motive e) → motive (.op o operands)) (e : Expr K) :
    motive e := by
  refine Expr.rec (motive_1 := motive) (motive_2 := fun es ↦ ∀ e ∈ es, motive e)
    const var op ?_ ?_ e
  · intro e he
    cases he
  · intro head tail hhead htail e he
    cases he with
    | head => exact hhead
    | tail _ he => exact htail e he

/-! ## Building trees -/

def add (operands : List (Expr K)) : Expr K := .op .add operands

def mul (operands : List (Expr K)) : Expr K := .op .mul operands

def sub (left right : Expr K) : Expr K := .op .sub [left, right]

def pow (base exponent : Expr K) : Expr K := .op .pow [base, exponent]

def apply (f : Func) (argument : Expr K) : Expr K := .op (.fn f) [argument]

/-! ## Leaves -/

def const? : Expr K → Option K
  | .const c => some c
  | _ => none

def isConst (e : Expr K) : Bool := e.const?.isSome

@[simp] theorem const?_const (c : K) : (Expr.const c).const? = some c := rfl

@[simp] theorem const?_var (x : String) : (Expr.var x : Expr K).const? = none := rfl

@[simp] theorem const?_op (o : Operator) (es : List (Expr K)) : (Expr.op o es).const? = none := rfl

theorem const?_eq_some_iff {e : Expr K} {c : K} : e.const? = some c ↔ e = .const c := by
  cases e <;> simp

/-- Whether a tree is a constant equal to `c`. -/
def isValue [BEq K] (c : K) : Expr K → Bool
  | .const v => v == c
  | _ => false

mutual

/-- Whether the variable `x` occurs in a tree. -/
def dependsOn (x : String) : Expr K → Bool
  | .const _ => false
  | .var y => y == x
  | .op _ operands => anyDependsOn x operands

def anyDependsOn (x : String) : List (Expr K) → Bool
  | [] => false
  | e :: es => e.dependsOn x || anyDependsOn x es

end

@[simp] theorem dependsOn_const (x : String) (c : K) : (Expr.const c).dependsOn x = false := by
  rw [dependsOn]

@[simp] theorem dependsOn_var (x y : String) : (Expr.var y : Expr K).dependsOn x = (y == x) := by
  rw [dependsOn]

theorem anyDependsOn_eq_any (x : String) (es : List (Expr K)) :
    anyDependsOn x es = es.any (·.dependsOn x) := by
  induction es with
  | nil => rw [anyDependsOn, List.any_nil]
  | cons e es ih => rw [anyDependsOn, ih, List.any_cons]

@[simp] theorem dependsOn_op (x : String) (o : Operator) (es : List (Expr K)) :
    (Expr.op o es).dependsOn x = es.any (·.dependsOn x) := by
  rw [dependsOn, anyDependsOn_eq_any]

mutual

/-- The names that occur in a tree, in writing order, with repetitions. -/
def names : Expr K → List String
  | .const _ => []
  | .var x => [x]
  | .op _ operands => namesList operands

def namesList : List (Expr K) → List String
  | [] => []
  | e :: es => e.names ++ namesList es

end

theorem namesList_eq_flatMap (es : List (Expr K)) : namesList es = es.flatMap names := by
  induction es with
  | nil => rw [namesList, List.flatMap_nil]
  | cons e es ih => rw [namesList, ih, List.flatMap_cons]

@[simp] theorem names_op (o : Operator) (es : List (Expr K)) :
    (Expr.op o es).names = es.flatMap names := by
  rw [names, namesList_eq_flatMap]

theorem dependsOn_eq_true_iff {x : String} {e : Expr K} : e.dependsOn x = true ↔ x ∈ e.names := by
  induction e using Expr.induction with
  | const c => simp [names]
  | var y => rw [dependsOn_var, names, List.mem_singleton, beq_iff_eq, eq_comm]
  | op o es ih =>
    simp only [dependsOn_op, List.any_eq_true, names_op, List.mem_flatMap]
    exact ⟨fun ⟨e, he, h⟩ ↦ ⟨e, he, (ih e he).1 h⟩, fun ⟨e, he, h⟩ ↦ ⟨e, he, (ih e he).2 h⟩⟩

mutual

/-- The constants of a tree, in writing order. -/
def constants : Expr K → List K
  | .const c => [c]
  | .var _ => []
  | .op _ operands => constantsList operands

def constantsList : List (Expr K) → List K
  | [] => []
  | e :: es => e.constants ++ constantsList es

end

theorem constantsList_eq_flatMap (es : List (Expr K)) :
    constantsList es = es.flatMap constants := by
  induction es with
  | nil => rw [constantsList, List.flatMap_nil]
  | cons e es ih => rw [constantsList, ih, List.flatMap_cons]

@[simp] theorem constants_op (o : Operator) (es : List (Expr K)) :
    (Expr.op o es).constants = es.flatMap constants := by
  rw [constants, constantsList_eq_flatMap]

/-! ## Structural equality

Two trees are equal when they have the same shape, operators, operand order and names, and their
constants pass the test of `K`. On doubles that test holds of `0` and `-0`, and fails between a
not-a-number and itself. -/

section Equality

variable [BEq K]

mutual

/-- Whether two trees are equal. -/
def same : Expr K → Expr K → Bool
  | .const c, .const d => c == d
  | .var x, .var y => x == y
  | .op o es, .op p fs => o = p && sameList es fs
  | _, _ => false

def sameList : List (Expr K) → List (Expr K) → Bool
  | [], [] => true
  | e :: es, f :: fs => e.same f && sameList es fs
  | _, _ => false

end

instance : BEq (Expr K) := ⟨same⟩

end Equality

theorem sameList_eq_true_iff_of [BEq K] {es : List (Expr K)}
    (h : ∀ e ∈ es, ∀ f, e.same f = true ↔ e = f) (fs : List (Expr K)) :
    sameList es fs = true ↔ es = fs := by
  induction es generalizing fs with
  | nil => cases fs <;> simp [sameList]
  | cons e es ih =>
    cases fs with
    | nil => simp [sameList]
    | cons f fs =>
      simp [sameList, h e (List.mem_cons_self ..) f,
        ih (fun e he ↦ h e (List.mem_cons_of_mem _ he)) fs]

/-- Where the test of `K` decides equality, so does structural equality. -/
theorem same_eq_true_iff [BEq K] [LawfulBEq K] {e f : Expr K} : e.same f = true ↔ e = f := by
  induction e using Expr.induction generalizing f with
  | const c => cases f <;> simp [same]
  | var x => cases f <;> simp [same]
  | op o es ih =>
    cases f with
    | op p fs => simp [same, sameList_eq_true_iff_of (fun e he _ ↦ ih e he) fs]
    | _ => simp [same]

instance [BEq K] [LawfulBEq K] : LawfulBEq (Expr K) where
  eq_of_beq h := same_eq_true_iff.1 h
  rfl := same_eq_true_iff.2 rfl

/-! ## Well-formed trees -/

/-- The trees that every pass can work on: each node has one of the seven operators, with a number
of operands that it accepts, where sums and products are runs of at least `least` operands. A
formula denotes trees with runs of two or more. -/
inductive WellFormed (least : Nat) : Expr K → Prop
  | const (c : K) : WellFormed least (.const c)
  | var (x : String) : WellFormed least (.var x)
  | op {o : Operator} {operands : List (Expr K)} (accepts : o.Accepts least operands.length)
      (operands_wf : ∀ e ∈ operands, WellFormed least e) : WellFormed least (.op o operands)

theorem WellFormed.mono {a b : Nat} (hab : a ≤ b) {e : Expr K} (h : e.WellFormed b) :
    e.WellFormed a := by
  induction h with
  | const c => exact .const c
  | var x => exact .var x
  | op accepts _ ih => exact .op (accepts.mono hab) ih

end Expr

end SymbolicDerivatives
