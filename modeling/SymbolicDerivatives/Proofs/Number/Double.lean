import Mathlib

/-!
# Equality of doubles

The test `==` of doubles holds between a number and itself and between the two zeros, and never of
not-a-number. So it is no equivalence, but it is symmetric and transitive.
-/

namespace SymbolicDerivatives.Number

open Float.Model (UnpackedFloat)

theorem compare_eq_some_eq_iff {a b : UnpackedFloat} :
    a.compare b = some .eq ↔
      (∃ s t, a = .zero s ∧ b = .zero t) ∨ (a = b ∧ a ≠ .notANumber) := by
  cases a with
  | infinity s =>
    cases b with
    | infinity t => cases s <;> cases t <;> simp [UnpackedFloat.compare] <;> decide
    | _ => cases s <;> simp [UnpackedFloat.compare]
  | notANumber => simp [UnpackedFloat.compare]
  | zero s =>
    cases b with
    | infinity t => cases t <;> simp [UnpackedFloat.compare]
    | finite t m e h => cases t <;> simp [UnpackedFloat.compare]
    | _ => simp [UnpackedFloat.compare]
  | finite s m e h =>
    cases b with
    | infinity t => cases s <;> cases t <;> simp [UnpackedFloat.compare]
    | notANumber => cases s <;> simp [UnpackedFloat.compare]
    | zero t => cases s <;> simp [UnpackedFloat.compare]
    | finite t m' e' h' =>
      cases s <;> cases t <;>
        simp [UnpackedFloat.compare, Ordering.swap_eq_eq, Ordering.then_eq_eq] <;> grind

/-- The test holds between the zeros, and between a number and itself. -/
theorem beq_iff {x y : Float} :
    (x == y) = true ↔
      (∃ s t, x.toModel.unpack = .zero s ∧ y.toModel.unpack = .zero t) ∨
        (x.toModel.unpack = y.toModel.unpack ∧ x.toModel.unpack ≠ .notANumber) := by
  rw [← compare_eq_some_eq_iff]
  exact beq_iff_eq (a := x.toModel.unpack.compare y.toModel.unpack)

theorem le_iff {x y : Float} :
    x ≤ y ↔ (x.toModel.unpack.compare y.toModel.unpack).any (·.isLE) = true :=
  decide_eq_true_iff

instance partialEquivBEqFloat : PartialEquivBEq Float where
  symm := by
    intro x y h
    rw [beq_iff] at h ⊢
    rcases h with ⟨s, t, hx, hy⟩ | ⟨heq, hx⟩
    · exact .inl ⟨t, s, hy, hx⟩
    · exact .inr ⟨heq.symm, heq ▸ hx⟩
  trans := by
    intro x y z hxy hyz
    rw [beq_iff] at hxy hyz ⊢
    rcases hxy with ⟨s, t, hx, hy⟩ | ⟨heq, hx⟩
    · rcases hyz with ⟨-, u, -, hz⟩ | ⟨heq', -⟩
      · exact .inl ⟨s, u, hx, hz⟩
      · exact .inl ⟨s, t, hx, heq' ▸ hy⟩
    · rw [heq]
      exact heq ▸ hyz

end SymbolicDerivatives.Number
