import Mathlib

/-!
# Rounding to doubles

The operations on doubles compute a mantissa with two more bits, which say how the exact result lies
to it, shift it until it fits, and round. This file says what comes out in terms of the exact result
alone: the natural number nearest to it on the grid of the doubles of its size.

An extended mantissa `Extends` to a rational number `y` if its mantissa is the whole part of `y` and
its two bits say whether the rest is zero, below one half, one half, or above. That is kept by every
shift, and it decides what rounding gives.
-/

namespace SymbolicDerivatives.Number

open Float.Model (Format UnpackedFloat totalExponent)
open Float.Model.UnpackedFloat

/-! ## The nearest natural number -/

/-- The natural number `n` is nearest to `y`, and even if another one is as near. -/
structure IsNearest (n : ℕ) (y : ℚ) : Prop where
  lower : (n : ℚ) - 1 / 2 ≤ y
  upper : y ≤ n + 1 / 2
  even_of_tie : y = n - 1 / 2 ∨ y = n + 1 / 2 → n % 2 = 0

namespace IsNearest

variable {n k : ℕ} {y : ℚ}

theorem of_lt (hlower : (n : ℚ) - 1 / 2 < y) (hupper : y < n + 1 / 2) : IsNearest n y where
  lower := hlower.le
  upper := hupper.le
  even_of_tie h := by rcases h with h | h <;> linarith

theorem le_of_le (h : IsNearest n y) (hy : y ≤ k) : n ≤ k := by
  have hn : (n : ℚ) < k + 1 := by linarith [h.lower]
  exact Nat.lt_succ_iff.1 (by exact_mod_cast hn)

theorem ge_of_ge (h : IsNearest n y) (hy : (k : ℚ) ≤ y) : k ≤ n := by
  have hk : (k : ℚ) < n + 1 := by linarith [h.upper]
  exact Nat.lt_succ_iff.1 (by exact_mod_cast hk)

/-- Of two natural numbers out of order, at the same distance from `y`, one is odd. -/
theorem mono {z : ℚ} (hn : IsNearest n y) (hk : IsNearest k z) (hyz : y ≤ z) : n ≤ k := by
  by_contra hlt
  have hle : (k : ℚ) + 1 ≤ n := by exact_mod_cast not_le.1 hlt
  have hy : y = n - 1 / 2 := by linarith [hn.lower, hk.upper]
  have hz : z = k + 1 / 2 := by linarith [hn.lower, hk.upper]
  have hsucc : (n : ℚ) = k + 1 := by linarith [hn.lower, hk.upper]
  have hn' : n = k + 1 := by exact_mod_cast hsucc
  have heven := hn.even_of_tie (.inl hy)
  have heven' := hk.even_of_tie (.inr hz)
  omega

theorem unique (hn : IsNearest n y) (hk : IsNearest k y) : n = k :=
  (hn.mono hk le_rfl).antisymm (hk.mono hn le_rfl)

end IsNearest

/-! ## Extended mantissas -/

/-- The mantissa with its first additional bit, as a number of halves. -/
def halves (em : ExtendedMantissa) : ℕ := 2 * em.mantissa + em.roundBit.toNat

theorem halves_shiftRightOne (em : ExtendedMantissa) : halves em.shiftRightOne = em.mantissa := by
  rw [halves, ExtendedMantissa.shiftRightOne]
  rcases Nat.mod_two_eq_zero_or_one em.mantissa with h | h <;> simp only [h] <;>
    simp only [bne_self_eq_false, Bool.toNat_false, Nat.reduceBneDiff, Bool.toNat_true] <;> omega

theorem cast_halves (em : ExtendedMantissa) :
    (halves em : ℚ) = 2 * em.mantissa + if em.roundBit then 1 else 0 := by
  rw [halves]
  cases em.roundBit <;> simp

/-- An extended mantissa has all halves of `y`, and its last bit says whether there is a rest. -/
structure Extends (em : ExtendedMantissa) (y : ℚ) : Prop where
  halves_le : (halves em : ℚ) ≤ 2 * y
  lt_halves_add_one : 2 * y < halves em + 1
  stickyBit_iff : em.stickyBit = true ↔ 2 * y ≠ halves em

namespace Extends

variable {em : ExtendedMantissa} {y : ℚ}

theorem exact (m : ℕ) : Extends (.ofMantissaAndAccuracy m .exact) m := by
  have hhalves : (halves (.ofMantissaAndAccuracy m .exact) : ℚ) = 2 * m := by
    exact_mod_cast Nat.add_zero (2 * m)
  exact ⟨hhalves.le, hhalves ▸ lt_add_one _, iff_of_false Bool.false_ne_true fun h ↦ h hhalves.symm⟩

theorem mantissa_le (h : Extends em y) : (em.mantissa : ℚ) ≤ y := by
  have hle := h.halves_le
  rw [cast_halves] at hle
  split at hle <;> linarith

theorem lt_mantissa_add_one (h : Extends em y) : y < em.mantissa + 1 := by
  have hlt := h.lt_halves_add_one
  rw [cast_halves] at hlt
  split at hlt <;> linarith

theorem mantissa_ofMantissaAndAccuracy (m : ℕ) (accuracy : Accuracy) :
    (ExtendedMantissa.ofMantissaAndAccuracy m accuracy).mantissa = m := by
  cases accuracy with
  | exact => rfl
  | inexact o => cases o <;> rfl

section Bits

variable {m : ℕ} {accuracy : Accuracy} (h : Extends (.ofMantissaAndAccuracy m accuracy) y)

include h

theorem lt_two_pow : y < 2 ^ (m.log2 + 1) := by
  have hy := h.lt_mantissa_add_one
  rw [mantissa_ofMantissaAndAccuracy] at hy
  have hm : m + 1 ≤ 2 ^ (m.log2 + 1) := Nat.lt_log2_self
  exact hy.trans_le (by exact_mod_cast hm)

theorem two_pow_le (hm : m ≠ 0) : 2 ^ m.log2 ≤ y := by
  have hy := h.mantissa_le
  rw [mantissa_ofMantissaAndAccuracy] at hy
  exact le_trans (by exact_mod_cast Nat.log2_self_le hm) hy

end Bits

/-- The two additional bits say whether there is anything after the mantissa. -/
theorem bits_iff (h : Extends em y) : (em.roundBit || em.stickyBit) = true ↔ y ≠ em.mantissa := by
  have hle := h.halves_le
  have hsticky := h.stickyBit_iff
  rw [cast_halves] at hle hsticky
  cases hround : em.roundBit with
  | false =>
    rw [hround, if_neg Bool.false_ne_true, add_zero] at hsticky
    rw [Bool.false_or, hsticky, Ne, Ne, mul_right_inj' two_ne_zero]
  | true =>
    rw [hround, if_pos rfl] at hle
    refine iff_of_true rfl fun heq ↦ ?_
    linarith

/-- A shift makes the mantissa the halves, and the two additional bits one. -/
theorem shiftRightOne (h : Extends em y) : Extends em.shiftRightOne (y / 2) := by
  refine ⟨?_, ?_, ?_⟩ <;> rw [halves_shiftRightOne, mul_div_cancel₀ _ two_ne_zero]
  · exact h.mantissa_le
  · exact h.lt_mantissa_add_one
  · exact h.bits_iff

theorem shiftRight (h : Extends em y) (k : ℕ) : Extends (em >>> k) (y / 2 ^ k) := by
  change Extends (k.repeat ExtendedMantissa.shiftRightOne em) (y / 2 ^ k)
  induction k with
  | zero => rwa [pow_zero, div_one]
  | succ k ih =>
    rw [pow_succ, ← div_div]
    exact ih.shiftRightOne

theorem isNearest (h : Extends em y) : IsNearest em.roundedMantissa y := by
  have hle := h.halves_le
  have hlt := h.lt_halves_add_one
  have hsticky := h.stickyBit_iff
  rw [cast_halves] at hle hlt hsticky
  obtain ⟨m, r, s⟩ := em
  cases r with
  | false =>
    -- Less than a half is dropped.
    have hround : ExtendedMantissa.roundedMantissa ⟨m, false, s⟩ = m := by cases s <;> rfl
    simp only [Bool.false_eq_true, if_false] at hle hlt
    rw [hround]
    exact .of_lt (by linarith) (by linarith)
  | true =>
    simp only [if_true] at hle hlt hsticky
    cases s with
    | true =>
      -- More than a half counts as one.
      have hlt' : 2 * (m : ℚ) + 1 < 2 * y := lt_of_le_of_ne hle (Ne.symm (hsticky.1 rfl))
      have hround : ExtendedMantissa.roundedMantissa ⟨m, true, true⟩ = m + 1 := rfl
      rw [hround]
      exact .of_lt (by push_cast; linarith) (by push_cast; linarith)
    | false =>
      -- A half goes to the even neighbour.
      have heq : 2 * y = 2 * (m : ℚ) + 1 := not_not.1 (mt hsticky.2 Bool.false_ne_true)
      have hround : ExtendedMantissa.roundedMantissa ⟨m, true, false⟩ = m + m % 2 := rfl
      have hbit : ((m % 2 : ℕ) : ℚ) ≤ 1 := by exact_mod_cast Nat.lt_succ_iff.1 (m.mod_lt two_pos)
      have hbit' : (0 : ℚ) ≤ (m % 2 : ℕ) := Nat.cast_nonneg _
      rw [hround]
      exact ⟨by push_cast; linarith, by push_cast; linarith, fun _ ↦ by omega⟩

/-- A proper fraction after the mantissa. -/
theorem of_fraction (m : ℕ) {r d : ℕ} (hr : 0 < r) (hrd : r < d) :
    Extends (.ofMantissaAndAccuracy m (.inexact (compare (2 * r) d))) (m + (r : ℚ) / d) := by
  have hd : (0 : ℚ) < d := by exact_mod_cast hr.trans hrd
  have hpos : (0 : ℚ) < r / d := div_pos (by exact_mod_cast hr) hd
  have hlt : (r : ℚ) / d < 1 := (div_lt_one hd).2 (by exact_mod_cast hrd)
  rcases hcompare : compare (2 * r) d with _ | _ | _
  · have hhalf : 2 * ((r : ℚ) / d) < 1 := by
      rw [← mul_div_assoc, div_lt_one hd]
      exact_mod_cast Nat.compare_eq_lt.1 hcompare
    have hhalves : halves (.ofMantissaAndAccuracy m (.inexact .lt)) = 2 * m := rfl
    refine ⟨?_, ?_, iff_of_true rfl fun h ↦ ?_⟩ <;> rw [hhalves] at * <;>
      push_cast at * <;> linarith
  · have hhalf : 2 * ((r : ℚ) / d) = 1 := by
      rw [← mul_div_assoc, div_eq_one_iff_eq hd.ne']
      exact_mod_cast Nat.compare_eq_eq.1 hcompare
    have hhalves : halves (.ofMantissaAndAccuracy m (.inexact .eq)) = 2 * m + 1 := rfl
    refine ⟨?_, ?_, iff_of_false Bool.false_ne_true (not_not.2 ?_)⟩ <;> rw [hhalves] <;>
      push_cast <;> linarith
  · have hhalf : 1 < 2 * ((r : ℚ) / d) := by
      rw [← mul_div_assoc, one_lt_div hd]
      exact_mod_cast Nat.compare_eq_gt.1 hcompare
    have hhalves : halves (.ofMantissaAndAccuracy m (.inexact .gt)) = 2 * m + 1 := rfl
    refine ⟨?_, ?_, iff_of_true rfl fun h ↦ ?_⟩ <;> rw [hhalves] at * <;>
      push_cast at * <;> linarith

/-- The accuracy of a whole quotient is that of the exact quotient. -/
theorem quotient (a : ℕ) {d : ℕ} (hd : 0 < d) :
    Extends (.ofMantissaAndAccuracy (a / d) (accuracyOfFraction (a % d) d)) ((a : ℚ) / d) := by
  have hd' : (d : ℚ) ≠ 0 := by exact_mod_cast hd.ne'
  have ha : (a : ℚ) / d = (a / d : ℕ) + ((a % d : ℕ) : ℚ) / d := by
    rw [div_eq_iff hd', add_mul, div_mul_cancel₀ _ hd', mul_comm]
    exact_mod_cast (Nat.div_add_mod a d).symm
  rw [ha, accuracyOfFraction]
  split
  · next hr =>
    rw [hr, Nat.cast_zero, zero_div, add_zero]
    exact exact (a / d)
  · next hr => exact of_fraction (a / d) (Nat.pos_of_ne_zero hr) (a.mod_lt hd)

end Extends

/-! ## Rounding -/

theorem targetExponent_binary64 (e : ℤ) :
    Format.binary64.targetExponent e = max (e - 53) (-1074) := rfl

theorem targetExponent_eq (m : ℕ) (e : ℤ) :
    Format.binary64.targetExponent (totalExponent m e) = max (m.log2 + e - 52) (-1074) := by
  rw [targetExponent_binary64, totalExponent]
  congr 1
  ring

/-- The double `n · 2 ^ t` with a mantissa of at most 53 bits. -/
def onGrid (s : Sign) (n : ℕ) (t : ℤ) : UnpackedFloat :=
  if h : n = 0 then .zero s
  else if n = 2 ^ 53 then .finite s (2 ^ 52) (t + 1) (Nat.two_pow_pos 52)
  else .finite s n t (Nat.pos_of_ne_zero h)

theorem shiftToTargetExponent_of_eq {m : ℕ} {e : ℤ} {accuracy : Accuracy} {k : ℕ}
    (hk : (max (m.log2 + e - 52) (-1074) - e).toNat = k) :
    shiftToTargetExponent .binary64 m e accuracy =
      (ExtendedMantissa.ofMantissaAndAccuracy m accuracy >>> k, e + k) := by
  rw [shiftToTargetExponent, targetExponent_eq, shiftToExponent, hk]

theorem log2_le_of_lt {n k : ℕ} (hn : n < 2 ^ (k + 1)) : n.log2 ≤ k := by
  rcases n.eq_zero_or_pos with rfl | hpos
  · exact Nat.zero_le k
  · exact Nat.lt_succ_iff.1 ((Nat.log2_lt hpos.ne').2 hn)

/-- A mantissa of at most 53 bits stays as it is, and one that rounding made longer is shifted once
more. -/
theorem roundWithAccuracy_of_rounded {s : Sign} {m n : ℕ} {e : ℤ} {accuracy : Accuracy} {k : ℕ}
    (hk : e + k = max (m.log2 + e - 52) (-1074))
    (hround : (ExtendedMantissa.ofMantissaAndAccuracy m accuracy >>> k).roundedMantissa = n)
    (hn : n ≤ 2 ^ 53) : roundWithAccuracy .binary64 s m e accuracy = onGrid s n (e + k) := by
  have hfirst : shiftToTargetExponent .binary64 m e accuracy =
      (ExtendedMantissa.ofMantissaAndAccuracy m accuracy >>> k, e + k) :=
    shiftToTargetExponent_of_eq (by omega)
  rw [roundWithAccuracy, hfirst]
  dsimp only
  rw [hround]
  rcases hn.eq_or_lt with rfl | hlt
  · have hsecond : shiftToTargetExponent .binary64 (2 ^ 53) (e + k) .exact =
        (ExtendedMantissa.ofMantissaAndAccuracy (2 ^ 53) .exact >>> 1, e + k + (1 : ℕ)) :=
      shiftToTargetExponent_of_eq (by rw [Nat.log2_two_pow]; omega)
    rw [hsecond]
    rfl
  · have hsecond : shiftToTargetExponent .binary64 n (e + k) .exact =
        (ExtendedMantissa.ofMantissaAndAccuracy n .exact >>> 0, e + k + (0 : ℕ)) :=
      shiftToTargetExponent_of_eq (by have := log2_le_of_lt hlt; omega)
    have hmantissa : (ExtendedMantissa.ofMantissaAndAccuracy n .exact >>> 0).mantissa = n := rfl
    rw [hsecond, Nat.cast_zero, add_zero]
    simp only [hmantissa, onGrid, hlt.ne, if_false]

theorem roundWithAccuracy_eq {s : Sign} {m n : ℕ} {e : ℤ} {accuracy : Accuracy} {y : ℚ}
    (h : Extends (.ofMantissaAndAccuracy m accuracy) y) {k : ℕ}
    (hk : e + k = max (m.log2 + e - 52) (-1074)) (hn : IsNearest n (y / 2 ^ k)) :
    roundWithAccuracy .binary64 s m e accuracy = onGrid s n (e + k) := by
  have hround := (h.shiftRight k).isNearest.unique hn
  refine roundWithAccuracy_of_rounded hk hround (hn.le_of_le ?_)
  have hpow : (2 : ℕ) ^ (m.log2 + 1) ≤ 2 ^ 53 * 2 ^ k := by
    rw [← pow_add]
    exact Nat.pow_le_pow_right two_pos (by omega)
  rw [div_le_iff₀ (by positivity)]
  exact (h.lt_two_pow.trans_le (by exact_mod_cast hpow)).le

/-- The doubles of the size of `x` are the multiples of `2 ^ t` with 53 bits, where the first one is
set unless `t` is least. -/
structure IsGrid (t : ℤ) (x : ℚ) : Prop where
  ge : -1074 ≤ t
  lt : x < 2 ^ 53 * 2 ^ t
  normal : 2 ^ 52 * 2 ^ t ≤ x ∨ t = -1074

/-- The double `u` is nearest to `x` in its size, with the sign `s`. -/
inductive Rounds (s : Sign) (x : ℚ) : UnpackedFloat → Prop
  | intro {n : ℕ} {t : ℤ} (grid : IsGrid t x) (nearest : IsNearest n (x / 2 ^ t)) :
      Rounds s x (onGrid s n t)

theorem zpow_natCast_add (k : ℕ) (e : ℤ) : (2 : ℚ) ^ (k + e) = 2 ^ k * 2 ^ e := by
  rw [zpow_add₀ two_ne_zero, zpow_natCast]

theorem le_targetExponent {m : ℕ} {e : ℤ} (hsize : 2 ^ 52 ≤ m ∨ e ≤ -1074) :
    e ≤ max (m.log2 + e - 52) (-1074) := by
  rcases hsize with hm | he
  · have hlog : 52 ≤ m.log2 := (Nat.le_log2 (by omega)).2 hm
    omega
  · omega

theorem isGrid_of_extends {m : ℕ} {e : ℤ} {accuracy : Accuracy} {y : ℚ}
    (h : Extends (.ofMantissaAndAccuracy m accuracy) y) (hsize : 2 ^ 52 ≤ m ∨ e ≤ -1074) :
    IsGrid (max (m.log2 + e - 52) (-1074)) (y * 2 ^ e) where
  ge := le_max_right _ _
  lt := by
    calc
      y * 2 ^ e < 2 ^ (m.log2 + 1) * 2 ^ e := mul_lt_mul_of_pos_right h.lt_two_pow (by positivity)
      _ = 2 ^ ((m.log2 + 1 : ℕ) + e) := (zpow_natCast_add _ e).symm
      _ ≤ 2 ^ ((53 : ℕ) + max (m.log2 + e - 52) (-1074)) :=
        zpow_le_zpow_right₀ one_le_two (by omega)
      _ = 2 ^ 53 * 2 ^ max (m.log2 + e - 52) (-1074) := zpow_natCast_add _ _
  normal := by
    rcases le_or_gt (m.log2 + e - 52 : ℤ) (-1074) with hle | hlt
    · exact .inr (max_eq_right hle)
    · have hm : m ≠ 0 := by
        rintro rfl
        rw [Nat.log2_zero] at hlt
        omega
      left
      calc
        2 ^ 52 * 2 ^ max (m.log2 + e - 52 : ℤ) (-1074) = 2 ^ (m.log2 + e) := by
          rw [max_eq_left hlt.le, ← zpow_natCast_add]
          congr 1
          omega
        _ = 2 ^ m.log2 * 2 ^ e := zpow_natCast_add _ e
        _ ≤ y * 2 ^ e := mul_le_mul_of_nonneg_right (h.two_pow_le hm) (by positivity)

/-- **Rounding.** With enough bits in the mantissa, or a small enough exponent, the result is the
double nearest to the exact number. -/
theorem rounds_roundWithAccuracy (s : Sign) {m : ℕ} {e : ℤ} {accuracy : Accuracy} {y : ℚ}
    (h : Extends (.ofMantissaAndAccuracy m accuracy) y) (hsize : 2 ^ 52 ≤ m ∨ e ≤ -1074) :
    Rounds s (y * 2 ^ e) (roundWithAccuracy .binary64 s m e accuracy) := by
  have hgrid := isGrid_of_extends h hsize
  obtain ⟨k, hk⟩ : ∃ k : ℕ, e + k = max (m.log2 + e - 52) (-1074) :=
    ⟨_, by rw [Int.toNat_of_nonneg (sub_nonneg.2 (le_targetExponent hsize)), add_sub_cancel]⟩
  have hnearest := (h.shiftRight k).isNearest
  rw [← hk] at hgrid
  rw [roundWithAccuracy_eq h hk hnearest]
  refine .intro hgrid ?_
  rwa [add_comm, zpow_natCast_add, mul_div_mul_right _ _ (by positivity)]

/-! ## Operations -/

section Operations

variable (s s₁ s₂ : Sign) {m₁ m₂ : ℕ} {e₁ e₂ : ℤ} (h₁ : 0 < m₁) (h₂ : 0 < m₂)

theorem rounds_mul (hsize : 2 ^ 52 ≤ m₁ * m₂ ∨ e₁ + e₂ ≤ -1074) :
    Rounds (s₁ * s₂) (m₁ * 2 ^ e₁ * (m₂ * 2 ^ e₂))
      (UnpackedFloat.mul .binary64 (.finite s₁ m₁ e₁ h₁) (.finite s₂ m₂ e₂ h₂)) := by
  have h := rounds_roundWithAccuracy (s₁ * s₂) (.exact (m₁ * m₂)) hsize
  rwa [Nat.cast_mul, zpow_add₀ two_ne_zero, mul_mul_mul_comm] at h

/-- A mantissa made long enough for its exponent. -/
theorem decreaseExponent_eq {m : ℕ} {e t : ℤ} {k : ℕ} (hk : (e - t).toNat = k) :
    decreaseExponent m e t = (m * 2 ^ k, e - k) := by
  rw [decreaseExponent, hk, Nat.shiftLeft_eq]

theorem rounds_round {m : ℕ} (e : ℤ) (h : 0 < m) :
    Rounds s (m * 2 ^ e) (UnpackedFloat.round .binary64 s m e) := by
  obtain ⟨k, hk⟩ : ∃ k, (e - max (m.log2 + e - 52) (-1074)).toNat = k := ⟨_, rfl⟩
  have hsize : 2 ^ 52 ≤ m * 2 ^ k ∨ e - k ≤ -1074 := by
    by_cases hleast : (m.log2 + e - 52 : ℤ) ≤ -1074
    · right
      omega
    · left
      calc
        2 ^ 52 ≤ 2 ^ (m.log2 + k) := Nat.pow_le_pow_right two_pos (by omega)
        _ = 2 ^ m.log2 * 2 ^ k := pow_add ..
        _ ≤ m * 2 ^ k := Nat.mul_le_mul_right _ (Nat.log2_self_le h.ne')
  have hround := rounds_roundWithAccuracy s (.exact (m * 2 ^ k)) hsize
  have hvalue : ((m * 2 ^ k : ℕ) : ℚ) * 2 ^ (e - k) = m * 2 ^ e := by
    rw [Nat.cast_mul, Nat.cast_pow, Nat.cast_ofNat, mul_assoc, ← zpow_natCast_add, add_sub_cancel]
  rw [UnpackedFloat.round, targetExponent_eq, decreaseExponent_eq hk]
  rwa [hvalue] at hround

/-- The quotient has enough bits, because the dividend is made long enough. -/
theorem rounds_div :
    Rounds (s₁ / s₂) (m₁ * 2 ^ e₁ / (m₂ * 2 ^ e₂))
      (UnpackedFloat.div .binary64 (.finite s₁ m₁ e₁ h₁) (.finite s₂ m₂ e₂ h₂)) := by
  have htarget : Format.binary64.targetExponent (totalExponent m₁ e₁ - totalExponent m₂ e₂) =
      max (m₁.log2 + e₁ - (m₂.log2 + e₂) - 53) (-1074) := by
    rw [targetExponent_binary64, totalExponent, totalExponent]
    congr 1
    ring
  rw [UnpackedFloat.div, divCore, htarget]
  obtain ⟨t, ht⟩ : ∃ t, min (e₁ - e₂) (max (m₁.log2 + e₁ - (m₂.log2 + e₂) - 53) (-1074)) = t :=
    ⟨_, rfl⟩
  obtain ⟨k, hk⟩ : ∃ k, (e₁ - e₂ - t).toNat = k := ⟨_, rfl⟩
  simp only [ht, hk, Nat.shiftLeft_eq]
  have hsize : 2 ^ 52 ≤ m₁ * 2 ^ k / m₂ ∨ t ≤ -1074 := by
    by_cases hleast : t ≤ -1074
    · exact .inr hleast
    · left
      rw [Nat.le_div_iff_mul_le h₂]
      calc
        2 ^ 52 * m₂ ≤ 2 ^ 52 * 2 ^ (m₂.log2 + 1) := Nat.mul_le_mul_left _ Nat.lt_log2_self.le
        _ = 2 ^ (52 + (m₂.log2 + 1)) := (pow_add ..).symm
        _ ≤ 2 ^ (m₁.log2 + k) := Nat.pow_le_pow_right two_pos (by omega)
        _ = 2 ^ m₁.log2 * 2 ^ k := pow_add ..
        _ ≤ m₁ * 2 ^ k := Nat.mul_le_mul_right _ (Nat.log2_self_le h₁.ne')
  have hround := rounds_roundWithAccuracy (s₁ / s₂) (.quotient (m₁ * 2 ^ k) h₂) hsize
  have hvalue : ((m₁ * 2 ^ k : ℕ) : ℚ) / m₂ * 2 ^ t = m₁ * 2 ^ e₁ / (m₂ * 2 ^ e₂) := by
    have hexponent : (k + t : ℤ) = e₁ - e₂ := by omega
    rw [mul_div_mul_comm, ← zpow_sub₀ two_ne_zero, ← hexponent, zpow_natCast_add, Nat.cast_mul,
      Nat.cast_pow, Nat.cast_ofNat]
    ring
  rwa [hvalue] at hround

theorem exists_rounds {q : ℚ} (hq : 0 < q) : ∃ u, Rounds .positive q u := by
  have hnum : 0 < q.num.toNat := by
    rw [Int.lt_toNat]
    exact Rat.num_pos.2 hq
  have hround := @rounds_div .positive .positive q.num.toNat q.den 0 0 hnum q.den_pos
  have hcast : ((q.num.toNat : ℤ) : ℚ) = q.num := by
    rw [Int.toNat_of_nonneg (Rat.num_pos.2 hq).le]
  have hvalue : (q.num.toNat : ℚ) * 2 ^ (0 : ℤ) / (q.den * 2 ^ (0 : ℤ)) = q := by
    rw [zpow_zero, mul_one, mul_one, ← Int.cast_natCast, hcast, Rat.num_div_den]
  rw [hvalue] at hround
  exact ⟨_, hround⟩

end Operations

end SymbolicDerivatives.Number
