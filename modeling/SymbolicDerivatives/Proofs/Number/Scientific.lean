import SymbolicDerivatives.Proofs.Number.Nearest

/-!
# Products, quotients and decimals

The product and the quotient of two doubles are rounded once, from the exact result. So is a decimal
`m · 10 ^ e`: if it has few digits it is a product or a quotient of doubles that are exact, and
otherwise it is computed from mantissas of any length.
-/

namespace SymbolicDerivatives.Number

open Float.Model (Format UnpackedFloat)
open Float.Model.UnpackedFloat

/-! ## Doubles and the numbers they are -/

/-- The double `x` is the number `q` with the sign `s`. -/
def Represents (x : Float) (s : Sign) (q : ℚ) : Prop :=
  ∃ m e h, x.toModel.unpack = .finite s m e h ∧ Canonical m e ∧ (m : ℚ) * 2 ^ e = q

/-- The double `x` is nearest to `q`, with the sign `s`, if it is not too large. -/
def RoundsTo (s : Sign) (q : ℚ) (x : Float) : Prop :=
  ∃ u, Rounds s q u ∧ x = .ofModel (.pack u)

theorem unpack_ofModel_pack {s : Sign} {m : ℕ} {e : ℤ} (h : 0 < m) (hc : Canonical m e)
    (he : e ≤ 971) :
    (Float.ofModel (.pack (.finite s m e h))).toModel.unpack = .finite s m e h :=
  unpack_pack_finite h hc he

theorem unpack_abs {x : Float} {s : Sign} {m : ℕ} {e : ℤ} {h : 0 < m}
    (hx : x.toModel.unpack = .finite s m e h) :
    (Float.abs x).toModel.unpack = .finite .positive m e h := by
  have hdef : Float.abs x = .ofModel (.pack (.abs x.toModel.unpack)) := rfl
  obtain ⟨hc, he⟩ := Double.canonical_of_unpack_eq hx
  rw [hx] at hdef
  exact hdef ▸ unpack_ofModel_pack h hc he

variable {x y : Float} {s t : Sign} {p q : ℚ}

theorem roundsTo_mul (hx : Represents x s p) (hy : Represents y t q) :
    RoundsTo (s * t) (p * q) (x * y) := by
  obtain ⟨m₁, e₁, h₁, hx, hc₁, rfl⟩ := hx
  obtain ⟨m₂, e₂, h₂, hy, hc₂, rfl⟩ := hy
  have hsize : 2 ^ 52 ≤ m₁ * m₂ ∨ e₁ + e₂ ≤ -1074 := by
    rcases hc₁.normal with hm₁ | rfl
    · exact .inl (hm₁.trans (Nat.le_mul_of_pos_right m₁ h₂))
    · rcases hc₂.normal with hm₂ | rfl
      · exact .inl (hm₂.trans (Nat.le_mul_of_pos_left m₂ h₁))
      · exact .inr (by decide)
  refine ⟨_, rounds_mul s t h₁ h₂ hsize, ?_⟩
  rw [← hx, ← hy]
  rfl

theorem roundsTo_div (hx : Represents x s p) (hy : Represents y t q) :
    RoundsTo (s / t) (p / q) (x / y) := by
  obtain ⟨m₁, e₁, h₁, hx, -, rfl⟩ := hx
  obtain ⟨m₂, e₂, h₂, hy, -, rfl⟩ := hy
  refine ⟨_, rounds_div s t h₁ h₂, ?_⟩
  rw [← hx, ← hy]
  rfl

/-! ## Exact doubles -/

theorem exists_canonical_eq {n : ℕ} (hpos : 0 < n) (hn : n < 2 ^ 53) :
    ∃ m e, 0 < m ∧ Canonical m e ∧ e ≤ 0 ∧ (m : ℚ) * 2 ^ e = n := by
  have hlog : n.log2 < 53 := (Nat.log2_lt hpos.ne').2 hn
  obtain ⟨k, hk⟩ : ∃ k, n.log2 + k = 52 := ⟨52 - n.log2, by omega⟩
  have hlower : 2 ^ 52 ≤ n * 2 ^ k := by
    rw [← hk, pow_add]
    exact Nat.mul_le_mul_right _ (Nat.log2_self_le hpos.ne')
  have hupper : n * 2 ^ k < 2 ^ 53 := by
    have h53 : n.log2 + 1 + k = 53 := by omega
    rw [← h53, pow_add]
    exact Nat.mul_lt_mul_of_pos_right Nat.lt_log2_self (Nat.two_pow_pos k)
  refine ⟨n * 2 ^ k, -k, by positivity, ⟨hupper, by omega, .inl hlower⟩, by omega, ?_⟩
  rw [Nat.cast_mul, Nat.cast_pow, Nat.cast_ofNat, mul_assoc, ← zpow_natCast_add, add_neg_cancel,
    zpow_zero, mul_one]

/-- A number that is a double itself is rounded to it. -/
theorem Rounds.eq_of_eq {u : UnpackedFloat} {m : ℕ} {e : ℤ} (hu : Rounds s q u) (h : 0 < m)
    (hc : Canonical m e) (hq : (m : ℚ) * 2 ^ e = q) : u = .finite s m e h := by
  have hm : q / 2 ^ e = m := by rw [← hq, mul_div_cancel_right₀ _ (by positivity)]
  exact hu.eq_finite h hc (hm ▸ .self m _)

theorem represents_toFloat {n : ℕ} (hpos : 0 < n) (hn : n < 2 ^ 53) :
    Represents n.toUInt64.toFloat .positive n := by
  obtain ⟨m, e, h, hc, he, hvalue⟩ := exists_canonical_eq hpos hn
  have hcompare : compare (n : ℤ) 0 = .gt := by
    rw [compare_gt_iff_gt]
    exact_mod_cast hpos
  have hround : ofUInt64 .binary64 n.toUInt64 = round .binary64 .positive n 0 := by
    have hnat : n.toUInt64.toNat = n := Nat.mod_eq_of_lt (by omega)
    rw [ofUInt64, hnat, ofNat, ofInt, UnpackedFloat.normalize, hcompare]
    rfl
  have hunpacked : ofUInt64 .binary64 n.toUInt64 = .finite .positive m e h := by
    rw [hround]
    refine (rounds_round .positive 0 hpos).eq_of_eq h hc ?_
    rw [hvalue, zpow_zero, mul_one]
  refine ⟨m, e, h, ?_, hc, hvalue⟩
  rw [UInt64.toFloat, Float.Model.ofUInt64, hunpacked]
  exact unpack_ofModel_pack h hc (by omega)

def isPowerOfTen (k : ℕ) : UnpackedFloat → Bool
  | .finite .positive m e _ =>
    2 ^ 52 ≤ m && m < 2 ^ 53 && -52 ≤ e && m * 2 ^ (e + 52).toNat == 10 ^ k * 2 ^ 52
  | _ => false

theorem represents_of_isPowerOfTen {k : ℕ} (h : isPowerOfTen k x.toModel.unpack = true) :
    Represents x .positive (10 ^ k) := by
  generalize hu : x.toModel.unpack = u at h
  match u with
  | .infinity _ | .notANumber | .zero _ | .finite .negative .. => cases h
  | .finite .positive m e hm =>
    simp only [isPowerOfTen, Bool.and_eq_true, decide_eq_true_eq, beq_iff_eq] at h
    obtain ⟨⟨⟨hlower, hupper⟩, he⟩, hvalue⟩ := h
    refine ⟨m, e, hm, hu, ⟨hupper, by omega, .inl hlower⟩, ?_⟩
    obtain ⟨d, hd⟩ : ∃ d : ℕ, (d : ℤ) = e + 52 := ⟨(e + 52).toNat, by omega⟩
    rw [← hd, Int.toNat_natCast] at hvalue
    have hvalue' : (m : ℚ) * 2 ^ d = 10 ^ k * 2 ^ 52 := by exact_mod_cast hvalue
    have hpow : (2 : ℚ) ^ d = 2 ^ 52 * 2 ^ e := by
      rw [← zpow_natCast, hd, add_comm, ← zpow_natCast_add]
      rfl
    rw [hpow, mul_left_comm, mul_comm] at hvalue'
    exact mul_right_cancel₀ (by positivity) hvalue'

theorem represents_powerOfTen {k : ℕ} (hk : k < Float.exactlyRepresentablePowersOfTen.size) :
    Represents Float.exactlyRepresentablePowersOfTen[k] .positive (10 ^ k) := by
  have hall : ∀ i : Fin 23,
      isPowerOfTen i (Float.exactlyRepresentablePowersOfTen[i]).toModel.unpack = true := by
    decide +kernel
  exact represents_of_isPowerOfTen (hall ⟨k, hk⟩)

/-! ## Decimals -/

/-- A decimal of any length, within the powers of ten that are computed at all. -/
theorem rounds_ofScientific {m : ℕ} (hm : 0 < m) {e : ℤ} (hlarge : e ≤ 2 ^ 11)
    (hsmall : -(2 ^ 11 + m.log2 : ℤ) ≤ e) :
    Rounds .positive (m * 10 ^ e) (UnpackedFloat.ofScientific .binary64 m e) := by
  rw [UnpackedFloat.ofScientific, dif_neg hm.ne', if_neg (not_lt.2 hlarge),
    if_neg (not_lt.2 hsmall)]
  split
  · next he =>
    obtain ⟨k, rfl⟩ := Int.eq_ofNat_of_zero_le he
    have hmantissa : 0 < m <<< 53 := by
      rw [Nat.shiftLeft_eq]
      positivity
    have hlong : 2 ^ 52 ≤ m <<< 53 * 10 ^ k := by
      calc
        2 ^ 52 ≤ 1 * 2 ^ 53 * 1 := by decide
        _ ≤ m * 2 ^ 53 * 10 ^ k :=
          Nat.mul_le_mul (Nat.mul_le_mul_right _ hm) (Nat.pow_pos (by decide))
        _ = m <<< 53 * 10 ^ k := by rw [Nat.shiftLeft_eq]
    have hround := @rounds_mul .positive .positive _ _ (-53) 0 hmantissa
      (Nat.pow_pos (by decide)) (.inl hlong)
    have hvalue : ((m <<< 53 : ℕ) : ℚ) * 2 ^ (-53 : ℤ) * ((10 ^ k : ℕ) * 2 ^ (0 : ℤ)) =
        m * 10 ^ (k : ℤ) := by
      rw [Nat.shiftLeft_eq, Nat.cast_mul, zpow_zero, mul_one, zpow_natCast, Nat.cast_pow,
        Nat.cast_pow, Nat.cast_ofNat, Nat.cast_ofNat, mul_assoc (m : ℚ), ← zpow_natCast_add]
      norm_num
    rwa [hvalue] at hround
  · next he =>
    obtain ⟨k, rfl⟩ := Int.exists_eq_neg_ofNat (not_le.1 he).le
    have hround := @rounds_div .positive .positive m (10 ^ k) 0 0 hm (Nat.pow_pos (by decide))
    have hvalue : (m : ℚ) * 2 ^ (0 : ℤ) / ((10 ^ k : ℕ) * 2 ^ (0 : ℤ)) =
        m * 10 ^ (-(k : ℤ)) := by
      rw [zpow_zero, mul_one, mul_one, zpow_neg, zpow_natCast, Nat.cast_pow, div_eq_mul_inv]
      rfl
    rw [hvalue] at hround
    simp only [neg_neg, Int.toNat_natCast]
    exact hround

/-- A decimal whose power of ten is not too far from its digits is rounded once. -/
theorem roundsTo_ofScientific {m : ℕ} (hm : 0 < m) {negative : Bool} {e : ℕ} {k : ℤ}
    (hk : (if negative then -e else e : ℤ) = k) (hlarge : k ≤ 2 ^ 11)
    (hsmall : -(2 ^ 11 + m.log2 : ℤ) ≤ k) :
    RoundsTo .positive (m * 10 ^ k) (Float.ofScientific m negative e) := by
  rw [Float.ofScientific]
  by_cases hfast : m < 2 ^ 53 ∧ e ≤ 22
  · rw [dif_pos hfast]
    have hfactor := represents_toFloat hm hfast.1
    have hpower := represents_powerOfTen (k := e) (Nat.lt_succ_of_le hfast.2)
    cases negative with
    | true =>
      rw [← hk, if_pos rfl, zpow_neg, zpow_natCast, ← div_eq_mul_inv]
      exact roundsTo_div hfactor hpower
    | false =>
      rw [← hk, if_neg Bool.false_ne_true, zpow_natCast]
      exact roundsTo_mul hfactor hpower
  · rw [dif_neg hfast]
    have hexponent : (if negative then Int.negOfNat e else Int.ofNat e) = k := by
      rw [← hk]
      cases negative with
      | true => exact Int.negOfNat_eq
      | false => rfl
    refine ⟨_, rounds_ofScientific hm hlarge hsmall, ?_⟩
    rw [← hexponent]
    rfl

end SymbolicDerivatives.Number
