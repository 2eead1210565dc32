import SymbolicDerivatives.Expr.Basic

/-!
# Simplification

One pass from the leaves up. A node whose operands have all become constants is computed. Otherwise

* a sum or product takes in the operands of nested sums or products, loses its zeros or ones, and
  gathers its constants in front when there are two or more of them,
* a product with a zero is zero,
* a power loses an exponent `0` or `1` or a base `1`, and a difference loses a right operand `0`.

Functions of anything but a constant stay, and so do operators without rules. The constants are
tested with `==`, so on doubles a `-0` counts as zero and a not-a-number as neither zero nor one.
-/

namespace SymbolicDerivatives.Expr

variable {K : Type}

/-- The operands of a run of `o` whose operands may themselves be runs of `o`. -/
def flatten (o : Operator) (operands : List (Expr K)) : List (Expr K) :=
  operands.flatMap fun
    | .op p inner => if p = o then inner else [.op p inner]
    | leaf => [leaf]

/-- A run of `o`, where no operand stands for `unit` and a single operand for itself. -/
def collapse (o : Operator) (unit : K) : List (Expr K) → Expr K
  | [] => .const unit
  | [e] => e
  | operands => .op o operands

variable [Zero K] [One K] [Add K] [Sub K] [Mul K] [BEq K] [Elementary K]

/-- A sum with a non-constant operand: zeros go, and two or more constants become one in front. -/
def simplifySum (operands : List (Expr K)) : Expr K :=
  let kept := operands.filter fun e ↦ !e.isValue 0
  let values := kept.filterMap const?
  if 2 ≤ values.length then
    let others := kept.filter fun e ↦ !e.isConst
    let total := sum values
    collapse .add 0 (if total == 0 then others else .const total :: others)
  else
    collapse .add 0 kept

/-- A product with a non-constant operand: a zero takes all, ones go, and two or more constants
become one in front. -/
def simplifyProduct (operands : List (Expr K)) : Expr K :=
  if operands.any (·.isValue 0) then .const 0
  else
    let kept := operands.filter fun e ↦ !e.isValue 1
    let values := kept.filterMap const?
    if 2 ≤ values.length then
      let others := kept.filter fun e ↦ !e.isConst
      let total := product values
      if total == 0 then .const 0
      else collapse .mul 1 (if total == 1 then others else .const total :: others)
    else
      collapse .mul 1 kept

/-- A power with a non-constant operand. -/
def simplifyPower (base exponent : Expr K) : Expr K :=
  if exponent.isValue 0 then
    if base.isValue 0 then .const 0 else .const 1
  else if exponent.isValue 1 then base
  else if base.isValue 1 then .const 1
  else pow base exponent

/-- A node with a non-constant operand, whose operands are simplified. -/
def simplifySymbolic : Operator → List (Expr K) → Except Failure (Expr K)
  | .add, operands => .ok (simplifySum operands)
  | .mul, operands => .ok (simplifyProduct operands)
  | .pow, [base, exponent] => .ok (simplifyPower base exponent)
  | .pow, _ => .error (.operandCount .pow)
  | .sub, [left, right] => .ok (if right.isValue 0 then left else sub left right)
  | .sub, _ => .error (.operandCount .sub)
  | o, operands => .ok (.op o operands)

/-- A node whose operands are simplified. -/
def simplifyNode (o : Operator) (operands : List (Expr K)) : Except Failure (Expr K) :=
  let operands := if o.isNary then flatten o operands else operands
  match operands.mapM const? with
  | some values => .const <$> o.apply values
  | none => simplifySymbolic o operands

mutual

def simplify : Expr K → Except Failure (Expr K)
  | .const c => .ok (.const c)
  | .var x => .ok (.var x)
  | .op o operands => do simplifyNode o (← simplifyList operands)

def simplifyList : List (Expr K) → Except Failure (List (Expr K))
  | [] => .ok []
  | e :: es => do
    let head ← e.simplify
    let tail ← simplifyList es
    return head :: tail

end

@[simp] theorem simplify_const (c : K) : (Expr.const c).simplify = .ok (.const c) := by
  rw [simplify]

@[simp] theorem simplify_var (x : String) : (Expr.var x : Expr K).simplify = .ok (.var x) := by
  rw [simplify]

theorem simplifyList_eq_mapM (es : List (Expr K)) : simplifyList es = es.mapM simplify := by
  induction es with
  | nil => rw [simplifyList, List.mapM_nil]; rfl
  | cons e es ih => rw [simplifyList, ih, List.mapM_cons]

theorem simplify_op (o : Operator) (es : List (Expr K)) :
    (Expr.op o es).simplify = es.mapM simplify >>= simplifyNode o := by
  rw [simplify, simplifyList_eq_mapM]

end SymbolicDerivatives.Expr
