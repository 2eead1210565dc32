import SymbolicDerivatives.Number.Hundredths
import SymbolicDerivatives.Proofs.Number.Bounded
import SymbolicDerivatives.Proofs.Number.Double

/-!
# Results that are words

The text of a result is a word for the infinities and for a not-a-number, and digits around a point
for all other numbers. Rounding to hundredths does not make an infinity out of a finite number,
since the numbers that are rounded at all are below `10 ^ 15`. So the text tells whether the value
is finite.
-/

namespace SymbolicDerivatives

open Float.Model (Format UnpackedFloat)
open Float.Model.UnpackedFloat
open Number

/-! ## Finite doubles -/

theorem Double.isFinite_iff (x : Float) :
    x.isFinite = true ↔ ∃ negative n d, (ofFloat x).exact = .finite negative n d := by
  rw [ofFloat_eq, Float.isFinite, Float.Model.isFinite]
  cases x.toModel.unpack with
  | notANumber | infinity =>
    refine iff_of_false Bool.false_ne_true ?_
    rintro ⟨_, _, _, h⟩
    cases h
  | zero s => exact iff_of_true rfl ⟨_, _, _, rfl⟩
  | finite s m e hm => exact iff_of_true rfl ⟨_, _, _, rfl⟩

/-- A bounded double is a quotient with the same bound. -/
theorem Number.IsBounded.exists_exact_eq {x : Float} {k : ℕ} (h : IsBounded k x) :
    ∃ negative n d, (Double.ofFloat x).exact = .finite negative n d ∧ 0 < d ∧ n ≤ 2 ^ k * d := by
  obtain ⟨hc, hle⟩ := h
  rw [Double.ofFloat_eq]
  generalize x.toModel.unpack = u at hc hle
  cases hc with
  | zero s =>
    exact ⟨_, _, _, rfl, Binary.divisor_pos _, by rw [Nat.zero_mul]; exact Nat.zero_le _⟩
  | @finite s m e hm hc =>
    have hdivisor : (0 : ℚ) < (Binary.ofParts s m e).divisor := by
      exact_mod_cast Binary.divisor_pos _
    refine ⟨_, _, _, rfl, Binary.divisor_pos _, ?_⟩
    have hvalue := (Binary.ofParts s m e).cast_mul_factor_div_divisor
    rw [div_eq_iff hdivisor.ne'] at hvalue
    have hscaled := mul_le_mul_of_nonneg_right hle hdivisor.le
    exact_mod_cast hvalue.trans_le hscaled

/-! ## Rounding -/

theorem Double.isBounded_floor {x : Float} {k : ℕ} (h : IsBounded k x) (hk : k ≤ 1023) :
    IsBounded k (floor x) := by
  obtain ⟨negative, n, d, hexact, hd, hle⟩ := h.exists_exact_eq
  rw [floor, hexact]
  cases negative with
  | false => exact isBounded_ofNat (Nat.div_le_of_le_mul (Nat.mul_comm .. ▸ hle)) hk
  | true =>
    refine (isBounded_ofNat (Nat.lt_succ_iff.1 ((Nat.div_lt_iff_lt_mul hd).2 ?_)) hk).neg hk
    rw [Nat.succ_mul]
    omega

theorem represents_hundred : Represents 100.0 .positive 100 := by
  refine ⟨100 * 2 ^ 46, -46, by decide, rfl, ⟨by decide, by decide, .inl (by decide)⟩, ?_⟩
  norm_num

theorem isBounded_hundred : IsBounded 7 100.0 := by
  obtain ⟨m, e, hm, hu, hc, hvalue⟩ := represents_hundred
  refine ⟨hu ▸ .finite _ hm hc, ?_⟩
  rw [hu, magnitude, hvalue]
  norm_num

theorem isBounded_half : IsBounded 0 0.5 := by
  have hu : (0.5 : Float).toModel.unpack = .finite .positive (2 ^ 52) (-53) (by decide) := rfl
  refine ⟨hu ▸ .finite _ _ ⟨by decide, by decide, .inl (by decide)⟩, ?_⟩
  rw [hu, magnitude]
  norm_num

/-- A double that is not at least `10 ^ 15` has at most 50 digits before its point. -/
theorem isBounded_of_not_le {x : Float} (hx : x.isFinite = true) (h : ¬ 1e15 ≤ Float.abs x) :
    IsBounded 50 (Float.abs x) := by
  have hdef : Float.abs x = .ofModel (.pack (.abs x.toModel.unpack)) := rfl
  have hlimit : (1e15 : Float).toModel.unpack =
      .finite .positive (10 ^ 15 * 2 ^ 3) (-3) (by decide) := rfl
  have hc := isCanonical_of_isFinite hx
  generalize hu : x.toModel.unpack = u at hc
  rw [hu] at hdef
  cases hc with
  | zero s => exact hdef ▸ isBounded_pack_zero .positive (by decide)
  | @finite s m e hm hc =>
    rw [le_iff, hlimit, unpack_abs hu] at h
    -- Doubles are compared by their exponents first.
    have he : e ≤ -3 := by
      by_contra hlt
      refine h ?_
      have hcompare : compare (-3 : ℤ) e = .lt := compare_lt_iff_lt.2 (not_le.1 hlt)
      rw [UnpackedFloat.compare, hcompare]
      rfl
    rw [hdef]
    refine isBounded_pack (.finite .positive hm hc) ?_ (by decide)
    have hm' : (m : ℚ) ≤ 2 ^ 53 := by exact_mod_cast hc.mantissa_lt.le
    calc
      (m : ℚ) * 2 ^ e ≤ 2 ^ 53 * 2 ^ (-3 : ℤ) :=
        mul_le_mul hm' (zpow_le_zpow_right₀ one_le_two he) (by positivity) (by positivity)
      _ = 2 ^ 50 := by norm_num

theorem isFinite_roundHundredths (v : Float) : (roundHundredths v).isFinite = v.isFinite := by
  rw [roundHundredths]
  split
  · next negative n d hexact =>
    have hv : v.isFinite = true := (Double.isFinite_iff v).2 ⟨negative, n, d, hexact⟩
    rw [hv]
    split
    · exact hv
    · next hlt =>
      have hsum := ((isBounded_of_not_le hv hlt).mul isBounded_hundred (by decide)).add
        (isBounded_half.mono (Nat.zero_le _)) (by decide)
      have hrounded := Double.isBounded_floor hsum (by decide)
      have hsigned : IsBounded 58 (if negative then -roundHalfUp (Float.abs v * 100.0) else
          roundHalfUp (Float.abs v * 100.0)) := by
        split
        · exact hrounded.neg (by decide)
        · exact hrounded
      exact (hsigned.div represents_hundred (by norm_num) (by decide)).isFinite
  · rfl

/-! ## Texts -/

namespace Exact

/-- The texts of results that are no digits. -/
def words : List String := ["NaN", "Infinity", "-Infinity"]

theorem hundredthsText_notMem_words (negative : Bool) (n : ℕ) :
    hundredthsText negative n ∉ words := by
  have hpoint : '.' ∈ (hundredthsText negative n).toList := by
    rw [hundredthsText, String.toList_ofList]
    exact List.mem_append_right _ List.mem_cons_self
  have hwords : ∀ word ∈ words, '.' ∉ word.toList := by decide
  exact fun h ↦ hwords _ h hpoint

theorem fixed_mem_words_iff {x : Float} :
    (Double.ofFloat x).exact.fixed ∈ words ↔ x.isFinite = false := by
  rw [← Bool.not_eq_true, Double.isFinite_iff]
  cases (Double.ofFloat x).exact with
  | nan => exact iff_of_true (by decide) fun ⟨_, _, _, h⟩ ↦ nomatch h
  | infinite negative =>
    exact iff_of_true (by cases negative <;> decide) fun ⟨_, _, _, h⟩ ↦ nomatch h
  | finite negative n d =>
    exact iff_of_false (hundredthsText_notMem_words _ _) fun h ↦ h ⟨_, _, _, rfl⟩

end Exact

/-- The text of a result is a word exactly if the value is not finite. -/
theorem resultText_mem_words_iff (v : Float) : resultText v ∈ Exact.words ↔ v.isFinite = false := by
  rw [resultText, ← isFinite_roundHundredths]
  exact Exact.fixed_mem_words_iff

end SymbolicDerivatives
