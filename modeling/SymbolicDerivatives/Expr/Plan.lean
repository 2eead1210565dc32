import SymbolicDerivatives.Expr.Derivative

/-!
# Repeated and mixed derivatives

A plan is a list of variables. It is carried out from left to right, and the tree is simplified
after every derivative. `Expr.differentiateAll` gives the last tree.
-/

namespace SymbolicDerivatives.Expr

variable {K : Type} [Zero K] [One K] [Neg K] [Add K] [Sub K] [Mul K] [BEq K] [Elementary K]

/-- One step of a plan: the simplified derivative. -/
def differentiate (x : String) (e : Expr K) : Except Failure (Expr K) := do
  simplify (← derivative x e)

/-- The tree at the end of a plan. -/
def differentiateAll (plan : List String) (e : Expr K) : Except Failure (Expr K) :=
  plan.foldlM (fun e x ↦ e.differentiate x) e

@[simp] theorem differentiateAll_nil (e : Expr K) : e.differentiateAll [] = .ok e := rfl

theorem differentiateAll_cons (x : String) (plan : List String) (e : Expr K) :
    e.differentiateAll (x :: plan) = e.differentiate x >>= (·.differentiateAll plan) := by
  rw [differentiateAll, List.foldlM_cons]; rfl

theorem differentiateAll_append (first second : List String) (e : Expr K) :
    e.differentiateAll (first ++ second) =
      e.differentiateAll first >>= (·.differentiateAll second) := by
  rw [differentiateAll, List.foldlM_append]; rfl

end SymbolicDerivatives.Expr
