import SymbolicDerivatives.Expr.Evaluate
import SymbolicDerivatives.Proofs.Nodes
import SymbolicDerivatives.Proofs.Traversal
import Mathlib.Logic.Function.Basic

/-!
# Values without failures

`Expr.evaluate` fails at a node without a rule and at a node that lacks an operand. `Expr.value`
gives such a node the value zero and never fails, so that it can be rewritten node by node with no
side conditions. Where evaluation succeeds depends on the tree only, not on the point:
`evaluate_eq_ok_iff` says that a tree has the value `a` if and only if every node can be computed
and `Expr.value` is `a`.
-/

namespace SymbolicDerivatives

variable {K : Type}

/-! ## Nodes that can be computed -/

/-- The operator has a rule, and the rule reads no more than `n` operands. -/
def Operator.Computes : Operator → Nat → Prop
  | add, _ | mul, _ => True
  | sub, n | pow, n => 2 ≤ n
  | fn _, n => 1 ≤ n
  | other _, _ => False

theorem Operator.Accepts.computes {least n : Nat} {o : Operator} (h : o.Accepts least n) :
    o.Computes n := by
  cases o with
  | add | mul => trivial
  | sub | pow | fn => exact Nat.le_of_eq h.symm
  | other => exact h

/-- Every node of the tree can be computed. -/
def Expr.Evaluable (e : Expr K) : Prop := e.Everywhere fun o es ↦ o.Computes es.length

theorem Expr.WellFormed.evaluable {least : Nat} {e : Expr K} (h : e.WellFormed least) :
    e.Evaluable :=
  (Expr.wellFormed_iff_everywhere.1 h).imp fun _ _ ↦ Operator.Accepts.computes

variable [Zero K] [One K] [Add K] [Sub K] [Mul K] [Elementary K]

/-! ## One operation -/

namespace Operator

/-- The value of an operation on values, and zero if it has none. -/
def value (o : Operator) (values : List K) : K := (o.apply values).toOption.getD 0

@[simp] theorem value_add (values : List K) : add.value values = sum values := rfl

@[simp] theorem value_mul (values : List K) : mul.value values = product values := rfl

@[simp] theorem value_sub (a b : K) : sub.value [a, b] = a - b := rfl

@[simp] theorem value_pow (a b : K) : pow.value [a, b] = Elementary.pow a b := rfl

@[simp] theorem value_fn (f : Func) (a : K) : (fn f).value [a] = f.eval a := rfl

theorem apply_eq_ok_value {o : Operator} {values : List K} (h : o.Computes values.length) :
    o.apply values = .ok (o.value values) := by
  cases o with
  | add | mul => rfl
  | sub | pow =>
    obtain ⟨a, b, rest, rfl⟩ : ∃ a b rest, values = a :: b :: rest := by
      match values, h with
      | a :: b :: rest, _ => exact ⟨a, b, rest, rfl⟩
    rfl
  | fn f =>
    obtain ⟨a, rest, rfl⟩ := List.exists_cons_of_length_pos (Nat.lt_of_succ_le h)
    rfl
  | other s => exact h.elim

theorem computes_of_apply_eq_ok {o : Operator} {values : List K} {a : K}
    (h : o.apply values = .ok a) : o.Computes values.length := by
  match o, values with
  | add, _ | mul, _ => trivial
  | sub, [] | sub, [_] | pow, [] | pow, [_] | fn _, [] => cases h
  | sub, _ :: _ :: rest | pow, _ :: _ :: rest => exact Nat.le_add_left 2 rest.length
  | fn _, _ :: rest => exact Nat.le_add_left 1 rest.length
  | other _, [] | other _, _ :: _ => cases h

/-- An operation has the value `a` if and only if it has a value and that value is `a`. -/
theorem apply_eq_ok_iff {o : Operator} {values : List K} {a : K} :
    o.apply values = .ok a ↔ o.Computes values.length ∧ o.value values = a := by
  constructor
  · intro h
    have hcomputes := computes_of_apply_eq_ok h
    rw [apply_eq_ok_value hcomputes] at h
    exact ⟨hcomputes, Except.ok.inj h⟩
  · rintro ⟨hcomputes, rfl⟩
    exact apply_eq_ok_value hcomputes

end Operator

/-! ## Trees -/

namespace Expr

mutual

/-- The value of a tree, where a node that cannot be computed counts as zero. -/
def value (point : String → K) : Expr K → K
  | .const c => c
  | .var x => point x
  | .op o operands => o.value (valueList point operands)

def valueList (point : String → K) : List (Expr K) → List K
  | [] => []
  | e :: es => e.value point :: valueList point es

end

theorem valueList_eq_map (point : String → K) (es : List (Expr K)) :
    valueList point es = es.map (value point) := by
  induction es with
  | nil => rw [valueList, List.map_nil]
  | cons e es ih => rw [valueList, ih, List.map_cons]

section Shapes

variable (point : String → K)

@[simp] theorem value_const (c : K) : (Expr.const c).value point = c := by rw [value]

@[simp] theorem value_var (x : String) : (Expr.var x).value point = point x := by rw [value]

theorem value_op (o : Operator) (es : List (Expr K)) :
    (Expr.op o es).value point = o.value (es.map (value point)) := by
  rw [value, valueList_eq_map]

@[simp] theorem value_add (es : List (Expr K)) :
    (add es).value point = sum (es.map (value point)) := value_op point .add es

@[simp] theorem value_mul (es : List (Expr K)) :
    (mul es).value point = product (es.map (value point)) := value_op point .mul es

@[simp] theorem value_sub (u v : Expr K) :
    (sub u v).value point = u.value point - v.value point := value_op point .sub [u, v]

@[simp] theorem value_pow (u v : Expr K) :
    (pow u v).value point = Elementary.pow (u.value point) (v.value point) :=
  value_op point .pow [u, v]

@[simp] theorem value_apply (f : Func) (u : Expr K) :
    (apply f u).value point = f.eval (u.value point) := value_op point (.fn f) [u]

end Shapes

theorem value_congr {p q : String → K} {e : Expr K} (h : ∀ x ∈ e.names, p x = q x) :
    e.value p = e.value q := by
  induction e using Expr.induction with
  | const c => rw [value_const, value_const]
  | var x =>
    rw [value_var, value_var]
    exact h x (by rw [names]; exact List.mem_singleton_self x)
  | op o es ih =>
    rw [value_op, value_op]
    congr 1
    refine List.map_congr_left fun e he ↦ ih e he fun x hx ↦ h x ?_
    rw [names_op]
    exact List.mem_flatMap.2 ⟨e, he, hx⟩

theorem evaluate_congr {p q : String → K} {e : Expr K} (h : ∀ x ∈ e.names, p x = q x) :
    e.evaluate p = e.evaluate q := by
  induction e using Expr.induction with
  | const c => rw [evaluate_const, evaluate_const]
  | var x =>
    rw [evaluate_var, evaluate_var]
    exact congrArg _ (h x (by rw [names]; exact List.mem_singleton_self x))
  | op o es ih =>
    have hoperands : es.mapM (·.evaluate p) = es.mapM (·.evaluate q) := by
      refine mapM_congr fun e he ↦ ih e he fun x hx ↦ h x ?_
      rw [names_op]
      exact List.mem_flatMap.2 ⟨e, he, hx⟩
    rw [evaluate_op, evaluate_op, hoperands]

theorem value_update_of_dependsOn_eq_false {x : String} {e : Expr K} (h : e.dependsOn x = false)
    (point : String → K) (a : K) : e.value (Function.update point x a) = e.value point := by
  refine value_congr fun y hy ↦ Function.update_of_ne ?_ a point
  rintro rfl
  rw [dependsOn_eq_true_iff.2 hy] at h
  cases h

/-! ## Where evaluation succeeds -/

theorem Evaluable.evaluate_eq {point : String → K} {e : Expr K} (h : e.Evaluable) :
    e.evaluate point = .ok (e.value point) := by
  unfold Evaluable at h
  induction h with
  | const c => rw [evaluate_const, value_const]
  | var x => rw [evaluate_var, value_var]
  | @op o es here _ ih =>
    rw [evaluate_op, mapM_eq_ok_map ih, value_op]
    refine Operator.apply_eq_ok_value ?_
    rwa [List.length_map]

theorem evaluable_of_evaluate_eq_ok {point : String → K} {e : Expr K} {a : K}
    (h : e.evaluate point = .ok a) : e.Evaluable := by
  induction e using Expr.induction generalizing a with
  | const c => exact .const c
  | var x => exact .var x
  | op o es ih =>
    rw [evaluate_op] at h
    obtain ⟨values, hvalues, happly⟩ := bind_eq_ok_iff.1 h
    rw [mapM_eq_ok_iff] at hvalues
    have hcomputes := Operator.computes_of_apply_eq_ok happly
    rw [← hvalues.length_eq] at hcomputes
    refine .op hcomputes fun e he ↦ ?_
    obtain ⟨b, -, hb⟩ := exists_mem_right_of_forall₂ hvalues he
    exact ih e he hb

theorem evaluate_eq_ok_iff {point : String → K} {e : Expr K} {a : K} :
    e.evaluate point = .ok a ↔ e.Evaluable ∧ e.value point = a := by
  constructor
  · intro h
    have hevaluable := evaluable_of_evaluate_eq_ok h
    rw [hevaluable.evaluate_eq] at h
    exact ⟨hevaluable, Except.ok.inj h⟩
  · rintro ⟨hevaluable, rfl⟩
    exact hevaluable.evaluate_eq

end Expr

end SymbolicDerivatives
