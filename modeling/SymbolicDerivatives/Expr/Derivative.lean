import SymbolicDerivatives.Expr.Simplify

/-!
# Derivatives

`Expr.derivative` differentiates a tree with respect to one variable and leaves the result as the
rules build it. `Expr.derivatives` does so for several variables, one after the other.
-/

namespace SymbolicDerivatives.Expr

variable {K : Type} [Zero K] [One K] [Neg K] [Sub K] [BEq K]

/-- The product rule: one product for each operand, its derivative in front of the other operands.
The operands before the list come in `before`. -/
def productTerms (before : List (Expr K)) : List (Expr K) → List (Expr K) → List (Expr K)
  | e :: es, d :: ds => mul (d :: (before ++ es)) :: productTerms (before ++ [e]) es ds
  | _, _ => []

mutual

/-- The derivative of a tree with respect to `x`. -/
def derivative (x : String) : Expr K → Except Failure (Expr K)
  | .const _ => .ok (.const 0)
  | .var y => .ok (.const (if y == x then 1 else 0))
  | .op .add operands => do return add (← derivativeList x operands)
  | .op .sub [u, v] => do return sub (← derivative x u) (← derivative x v)
  | .op .mul operands => do return add (productTerms [] operands (← derivativeList x operands))
  | .op .pow [u, v] =>
    if u.dependsOn x && v.dependsOn x then
      if u == .var x && v == .var x then
        .ok (mul [add [apply .ln u, .const 1], pow u u])
      else if u == v then do
        return mul [add [apply .ln u, .const 1], pow u u, ← derivative x u]
      else do
        let dv ← derivative x v
        let du ← derivative x u
        return mul [pow u v, add [mul [dv, apply .ln u], mul [v, pow u (.const (-1)), du]]]
    else if u.dependsOn x then
      match v with
      | .const c =>
        if c == 0 then .ok (.const 0)
        else do return mul [.const c, pow u (.const (c - 1)), ← derivative x u]
      | v => do return mul [v, pow u (add [v, .const (-1)]), ← derivative x u]
    else if v.dependsOn x then
      if u.isValue 0 || u.isValue 1 then .ok (.const 0)
      else do return mul [pow u v, apply .ln u, ← derivative x v]
    else .ok (.const 0)
  | .op (.fn .ln) [u] =>
    if u == .var x then .ok (pow u (.const (-1)))
    else do return mul [pow u (.const (-1)), ← derivative x u]
  | .op (.fn .sin) [u] => do return mul [apply .cos u, ← derivative x u]
  | .op (.fn .cos) [u] => do return mul [.const (-1), apply .sin u, ← derivative x u]
  | .op (.other s) _ => .error (.unsupported .differentiation (.other s))
  | .op o _ => .error (.operandCount o)

def derivativeList (x : String) : List (Expr K) → Except Failure (List (Expr K))
  | [] => .ok []
  | e :: es => do
    let head ← derivative x e
    let tail ← derivativeList x es
    return head :: tail

end

theorem derivativeList_eq_mapM (x : String) (es : List (Expr K)) :
    derivativeList x es = es.mapM (derivative x) := by
  induction es with
  | nil => rw [derivativeList, List.mapM_nil]; rfl
  | cons e es ih => rw [derivativeList, ih, List.mapM_cons]

/-- The derivatives along a list of variables, each of the tree before it as the rules build it. -/
def derivatives : List String → Expr K → Except Failure (List (Expr K))
  | [], _ => .ok []
  | x :: xs, e => do
    let head ← e.derivative x
    let tail ← derivatives xs head
    return head :: tail

end SymbolicDerivatives.Expr
