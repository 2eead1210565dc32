import SymbolicDerivatives.Expr.Plan
import SymbolicDerivatives.Proofs.Derivative.Rules
import SymbolicDerivatives.Proofs.Simplify.Steps

/-!
# Plans on well-formed trees

One step of a plan differentiates and simplifies. Both succeed on well-formed trees and keep them
well-formed, so a plan never fails on such a tree, however long it is.
-/

namespace SymbolicDerivatives.Expr

variable {K : Type} [Zero K] [One K] [Neg K] [Add K] [Sub K] [Mul K] [BEq K] [Elementary K]
  {least : Nat} {x : String} {e e' : Expr K}

/-! ## One step -/

theorem differentiate_eq_ok_iff :
    e.differentiate x = .ok e' ↔ ∃ d, Derives x e d ∧ d.simplify = .ok e' := by
  rw [differentiate, bind_eq_ok_iff]
  simp only [derivative_eq_ok_iff]

theorem WellFormed.differentiate (hleast : least ≤ 2) (he : e.WellFormed least)
    (h : e.differentiate x = .ok e') : e'.WellFormed least := by
  obtain ⟨d, hderives, hsimplify⟩ := differentiate_eq_ok_iff.1 h
  exact (he.derives hleast hderives).simplify hleast hsimplify

theorem WellFormed.exists_differentiate_eq_ok (hleast : least ≤ 2) (he : e.WellFormed least)
    (x : String) : ∃ e', e.differentiate x = .ok e' := by
  obtain ⟨d, hd⟩ := he.exists_derivative_eq_ok x
  have hderives := derivative_eq_ok_iff.1 hd
  obtain ⟨e', he'⟩ := ((he.derives hleast hderives).mono (Nat.zero_le least)).exists_simplify_eq_ok
  exact ⟨e', differentiate_eq_ok_iff.2 ⟨d, hderives, he'⟩⟩

/-! ## Whole plans -/

theorem differentiateAll_cons_eq_ok_iff {xs : List String} :
    e.differentiateAll (x :: xs) = .ok e' ↔
      ∃ d, e.differentiate x = .ok d ∧ d.differentiateAll xs = .ok e' := by
  rw [differentiateAll_cons, bind_eq_ok_iff]

theorem WellFormed.differentiateAll {xs : List String} (hleast : least ≤ 2)
    (he : e.WellFormed least) (h : e.differentiateAll xs = .ok e') : e'.WellFormed least := by
  induction xs generalizing e with
  | nil => rwa [← Except.ok.inj h]
  | cons x xs ih =>
    obtain ⟨d, hd, hrest⟩ := differentiateAll_cons_eq_ok_iff.1 h
    exact ih (he.differentiate hleast hd) hrest

theorem WellFormed.exists_differentiateAll_eq_ok (hleast : least ≤ 2) (he : e.WellFormed least)
    (xs : List String) : ∃ e', e.differentiateAll xs = .ok e' := by
  induction xs generalizing e with
  | nil => exact ⟨e, rfl⟩
  | cons x xs ih =>
    obtain ⟨d, hd⟩ := he.exists_differentiate_eq_ok hleast x
    obtain ⟨e', he'⟩ := ih (he.differentiate hleast hd)
    exact ⟨e', differentiateAll_cons_eq_ok_iff.2 ⟨d, hd, he'⟩⟩

/-! ## Constants -/

@[simp] theorem differentiate_const (x : String) (c : K) :
    (Expr.const c).differentiate x = .ok (.const 0) :=
  differentiate_eq_ok_iff.2 ⟨.const 0, .const c, simplify_const 0⟩

theorem differentiateAll_const (plan : List String) (c : K) :
    (Expr.const c).differentiateAll plan = .ok (.const (if plan = [] then c else 0)) := by
  induction plan generalizing c with
  | nil => rfl
  | cons x plan ih =>
    rw [differentiateAll_cons_eq_ok_iff, if_neg (List.cons_ne_nil x plan)]
    exact ⟨.const 0, differentiate_const x c, by rw [ih, ite_self]⟩

end SymbolicDerivatives.Expr
