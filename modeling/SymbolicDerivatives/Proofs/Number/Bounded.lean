import SymbolicDerivatives.Proofs.Number.Scientific

/-!
# Doubles of bounded size

An operation on finite doubles may overflow to an infinity. It does not if the exact result is at
most a power of two that is a double: rounding does not pass the power, and packing loses nothing.
-/

namespace SymbolicDerivatives.Number

open Float.Model (Format UnpackedFloat)
open Float.Model.UnpackedFloat

/-- A finite double of size at most `2 ^ k`. -/
structure IsBounded (k : ℕ) (x : Float) : Prop where
  isCanonical : IsCanonical x.toModel.unpack
  magnitude_le : magnitude x.toModel.unpack ≤ 2 ^ k

variable {x y : Float} {s t : Sign} {p q : ℚ} {a b k : ℕ}

theorem Represents.nonneg (h : Represents x s q) : 0 ≤ q := by
  obtain ⟨m, e, -, -, -, rfl⟩ := h
  positivity

theorem exponent_le_of_le_two_pow {m : ℕ} {e : ℤ} (hc : Canonical m e)
    (h : m * 2 ^ e ≤ (2 : ℚ) ^ k) : e + 52 ≤ k := by
  rcases hc.normal with hm | rfl
  · have hle : (2 : ℚ) ^ ((52 : ℕ) + e) ≤ 2 ^ (k : ℤ) := by
      rw [zpow_natCast_add, zpow_natCast]
      refine le_trans ?_ h
      exact mul_le_mul_of_nonneg_right (by exact_mod_cast hm) (by positivity)
    have := (zpow_le_zpow_iff_right₀ one_lt_two).1 hle
    omega
  · omega

theorem isCanonical_of_isFinite (h : x.isFinite = true) : IsCanonical x.toModel.unpack := by
  rw [Float.isFinite, Float.Model.isFinite] at h
  match hu : x.toModel.unpack with
  | .notANumber | .infinity _ => rw [hu] at h; cases h
  | .zero s => exact .zero s
  | .finite s m e hm => exact .finite s hm (Double.canonical_of_unpack_eq hu).1

/-! ## Packing and rounding -/

theorem unpack_ofModel_pack_of_le {u : UnpackedFloat} (hu : IsCanonical u)
    (h : magnitude u ≤ 2 ^ k) (hk : k ≤ 1023) : (Float.ofModel (.pack u)).toModel.unpack = u := by
  cases hu with
  | zero s => exact unpack_pack_zero s
  | finite s hm hc =>
    have := exponent_le_of_le_two_pow hc h
    exact unpack_ofModel_pack hm hc (by omega)

theorem isBounded_pack {u : UnpackedFloat} (hu : IsCanonical u) (h : magnitude u ≤ 2 ^ k)
    (hk : k ≤ 1023) : IsBounded k (.ofModel (.pack u)) := by
  have hunpack := unpack_ofModel_pack_of_le hu h hk
  exact ⟨hunpack.symm ▸ hu, hunpack.symm ▸ h⟩

theorem isBounded_pack_zero (s : Sign) (hk : k ≤ 1023) : IsBounded k (.ofModel (.pack (.zero s))) :=
  isBounded_pack (.zero s) (pow_nonneg zero_le_two k) hk

theorem Rounds.isBounded {u : UnpackedFloat} (h : Rounds s q u) (hq : q ≤ 2 ^ k) (hk : k ≤ 1023) :
    IsBounded k (.ofModel (.pack u)) := by
  refine isBounded_pack h.isCanonical ?_ hk
  rw [← zpow_natCast] at hq ⊢
  exact h.magnitude_le (by omega) hq

theorem RoundsTo.isBounded (h : RoundsTo s q x) (hq : q ≤ 2 ^ k) (hk : k ≤ 1023) :
    IsBounded k x := by
  obtain ⟨u, hu, rfl⟩ := h
  exact hu.isBounded hq hk

theorem isBounded_ofNat {n : ℕ} (hn : n ≤ 2 ^ k) (hk : k ≤ 1023) : IsBounded k (Float.ofNat n) := by
  rcases n.eq_zero_or_pos with rfl | hpos
  · exact isBounded_pack_zero .positive hk
  · have hround : RoundsTo .positive (n * 10 ^ (0 : ℤ)) (Float.ofNat n) :=
      roundsTo_ofScientific hpos rfl (by decide) (by omega)
    rw [zpow_zero, mul_one] at hround
    exact hround.isBounded (by exact_mod_cast hn) hk

/-! ## Operations -/

namespace IsBounded

theorem isFinite (h : IsBounded k x) : x.isFinite = true := by
  have hc := h.isCanonical
  rw [Float.isFinite, Float.Model.isFinite]
  generalize x.toModel.unpack = u at hc
  cases hc <;> rfl

theorem mono (h : IsBounded a x) (hab : a ≤ b) : IsBounded b x :=
  ⟨h.isCanonical, h.magnitude_le.trans (pow_le_pow_right₀ one_le_two hab)⟩

/-- Apart from the zeros, a double is a number with a sign. -/
theorem zero_or_represents (h : IsBounded k x) :
    (∃ s, x.toModel.unpack = .zero s) ∨ ∃ s q, Represents x s q ∧ q ≤ 2 ^ k := by
  obtain ⟨hc, hle⟩ := h
  generalize hu : x.toModel.unpack = u at hc hle
  cases hc with
  | zero s => exact .inl ⟨s, rfl⟩
  | finite s hm hc => exact .inr ⟨s, _, ⟨_, _, hm, hu, hc, rfl⟩, hle⟩

theorem mul (hx : IsBounded a x) (hy : IsBounded b y) (hab : a + b ≤ 1023) :
    IsBounded (a + b) (x * y) := by
  have hdef : x * y = .ofModel (.pack (.mul .binary64 x.toModel.unpack y.toModel.unpack)) := rfl
  obtain ⟨s, hs⟩ | ⟨s, p, hp, hpa⟩ := hx.zero_or_represents
  · obtain ⟨t, ht⟩ | ⟨t, q, ⟨m, e, hm, ht, -⟩, -⟩ := hy.zero_or_represents <;>
      rw [hdef, hs, ht] <;> exact isBounded_pack_zero (s * t) hab
  · obtain ⟨t, ht⟩ | ⟨t, q, hq, hqb⟩ := hy.zero_or_represents
    · obtain ⟨m, e, hm, hs, -⟩ := hp
      rw [hdef, hs, ht]
      exact isBounded_pack_zero (s * t) hab
    · refine (roundsTo_mul hp hq).isBounded ?_ hab
      rw [pow_add]
      exact mul_le_mul hpa hqb hq.nonneg (by positivity)

/-- A quotient by at least one is no larger than the dividend. -/
theorem div (hx : IsBounded k x) (hy : Represents y t q) (hq : 1 ≤ q) (hk : k ≤ 1023) :
    IsBounded k (x / y) := by
  have hdef : x / y = .ofModel (.pack (.div .binary64 x.toModel.unpack y.toModel.unpack)) := rfl
  obtain ⟨s, hs⟩ | ⟨s, p, hp, hpk⟩ := hx.zero_or_represents
  · obtain ⟨m, e, hm, ht, -⟩ := hy
    rw [hdef, hs, ht]
    exact isBounded_pack_zero (s / t) hk
  · exact (roundsTo_div hp hy).isBounded ((div_le_self hp.nonneg hq).trans hpk) hk

theorem neg (hx : IsBounded k x) (hk : k ≤ 1023) : IsBounded k (-x) := by
  have hdef : -x = .ofModel (.pack (.neg x.toModel.unpack)) := rfl
  obtain ⟨hc, hle⟩ := hx
  rw [hdef]
  generalize x.toModel.unpack = u at hc hle
  cases hc with
  | zero s => exact isBounded_pack (.zero (-s)) hle hk
  | finite s hm hc => exact isBounded_pack (.finite (-s) hm hc) hle hk

end IsBounded

/-! ## Sums -/

theorem isBounded_normalize {n e : ℤ} (s : Sign) (h : (n.natAbs : ℚ) * 2 ^ e ≤ 2 ^ k)
    (hk : k ≤ 1023) : IsBounded k (.ofModel (.pack (.normalize .binary64 n e s))) := by
  rw [UnpackedFloat.normalize]
  rcases lt_trichotomy n 0 with hn | rfl | hn
  · rw [compare_lt_iff_lt.2 hn]
    have habs : (-n).toNat = n.natAbs := by omega
    exact (rounds_round .negative e (by omega)).isBounded (habs ▸ h) hk
  · rw [compare_eq_iff_eq.2 rfl]
    exact isBounded_pack_zero s hk
  · rw [compare_gt_iff_gt.2 hn]
    have habs : n.toNat = n.natAbs := by omega
    exact (rounds_round .positive e (by omega)).isBounded (habs ▸ h) hk

theorem cast_decreaseExponent_mul (m : ℕ) {e t : ℤ} (ht : t ≤ e) :
    ((decreaseExponent m e t).1 : ℚ) * 2 ^ t = m * 2 ^ e := by
  obtain ⟨d, rfl⟩ : ∃ d : ℕ, e = d + t := ⟨(e - t).toNat, by omega⟩
  rw [decreaseExponent_eq (show (d + t - t : ℤ).toNat = d by omega), zpow_natCast_add, ← mul_assoc]
  push_cast
  rfl

theorem natAbs_apply (s : Sign) (m : ℕ) : (s.apply m).natAbs = m := by
  cases s with
  | positive => exact Int.natAbs_natCast m
  | negative => exact (Int.natAbs_neg m).trans (Int.natAbs_natCast m)

theorem IsBounded.add (hx : IsBounded k x) (hy : IsBounded k y) (hk : k + 1 ≤ 1023) :
    IsBounded (k + 1) (x + y) := by
  have hdef : x + y = .ofModel (.pack (.add .binary64 x.toModel.unpack y.toModel.unpack)) := rfl
  have hsucc : (2 : ℚ) ^ k ≤ 2 ^ (k + 1) := pow_le_pow_right₀ one_le_two (Nat.le_succ k)
  obtain ⟨hcx, hlex⟩ := hx
  obtain ⟨hcy, hley⟩ := hy
  rw [hdef]
  generalize x.toModel.unpack = u at hcx hlex
  generalize y.toModel.unpack = v at hcy hley
  cases hcx with
  | zero s =>
    cases hcy with
    | zero t => cases s <;> cases t <;> exact isBounded_pack_zero _ hk
    | finite t hm hc => exact isBounded_pack (.finite t hm hc) (hley.trans hsucc) hk
  | @finite s m₁ e₁ h₁ hc₁ =>
    cases hcy with
    | zero t => exact isBounded_pack (.finite s h₁ hc₁) (hlex.trans hsucc) hk
    | @finite t m₂ e₂ h₂ hc₂ =>
      -- The exact sum is computed on the finer of the two grids.
      refine isBounded_normalize .positive ?_ hk
      rw [magnitude, ← cast_decreaseExponent_mul m₁ (min_le_left e₁ e₂)] at hlex
      rw [magnitude, ← cast_decreaseExponent_mul m₂ (min_le_right e₁ e₂)] at hley
      have hsum := Int.natAbs_add_le (s.apply (decreaseExponent m₁ e₁ (min e₁ e₂)).1)
        (t.apply (decreaseExponent m₂ e₂ (min e₁ e₂)).1)
      rw [natAbs_apply, natAbs_apply] at hsum
      rw [pow_succ, mul_two]
      refine le_trans ?_ (add_le_add hlex hley)
      rw [← add_mul]
      exact mul_le_mul_of_nonneg_right (by exact_mod_cast hsum) (by positivity)

end SymbolicDerivatives.Number
