import SymbolicDerivatives.Proofs.Number.Reading

/-!
# When an exponent is written

A whole number is written with all its digits. Any other double is below `2 ^ 52`, so it is written
with an exponent exactly if its leading digit stands further than the fourth place after the point.
The shortest decimal of a double is at least `0.0001` exactly if the double is at least the one
nearest to `0.0001`: rounding keeps the order, and that double is written as `0.0001` itself.
-/

namespace SymbolicDerivatives

open Float.Model (UnpackedFloat)
open Float.Model.UnpackedFloat
open Number

/-! ## The order of doubles -/

section Order

variable {x y : Float} {m m' : ℕ} {e e' : ℤ} {hm : 0 < m} {hm' : 0 < m'}

theorem Canonical.isGrid (hc : Canonical m e) : IsGrid e (m * 2 ^ e) where
  ge := hc.exponent_ge
  lt := mul_lt_mul_of_pos_right (by exact_mod_cast hc.mantissa_lt) (by positivity)
  normal := hc.normal.imp_left fun hm ↦
    mul_le_mul_of_nonneg_right (by exact_mod_cast hm) (by positivity)

/-- A size has one mantissa and one exponent. -/
theorem Canonical.eq_of_eq (hc : Canonical m e) (hc' : Canonical m' e')
    (h : (m : ℚ) * 2 ^ e = m' * 2 ^ e') : m = m' ∧ e = e' := by
  obtain rfl : e = e' := (h ▸ hc.isGrid).unique hc'.isGrid
  exact ⟨by exact_mod_cast mul_right_cancel₀ (by positivity) h, rfl⟩

theorem Number.le_iff_of_positive (hx : x.toModel.unpack = .finite .positive m e hm)
    (hy : y.toModel.unpack = .finite .positive m' e' hm') :
    x ≤ y ↔ (m : ℚ) * 2 ^ e ≤ m' * 2 ^ e' := by
  have hgrid := (Double.canonical_of_unpack_eq hx).1.isGrid
  have hgrid' := (Double.canonical_of_unpack_eq hy).1.isGrid
  rw [le_iff, hx, hy, UnpackedFloat.compare]
  -- Doubles are compared by their exponents first.
  rcases lt_trichotomy e e' with hlt | rfl | hlt
  · rw [compare_lt_iff_lt.2 hlt]
    exact iff_of_true rfl (hgrid.lt_of_lt hgrid' hlt).le
  · have hpos : (0 : ℚ) < 2 ^ e := by positivity
    rw [compare_eq_iff_eq.2 rfl, mul_le_mul_iff_left₀ hpos, Nat.cast_le]
    exact Nat.isLE_compare
  · rw [compare_gt_iff_gt.2 hlt]
    exact iff_of_false Bool.false_ne_true (not_le.2 (hgrid'.lt_of_lt hgrid hlt))

end Order

namespace Number

/-! ## Decimals without an exponent -/

/-- A decimal is written without an exponent if its leading digit stands between the fourth place
after the point and the sixteenth before it. -/
theorem e_notMem_decimalText_iff {d : Decimal} (hd : 0 < d.digits) :
    'e' ∉ decimalText d ↔ (10 : ℚ) ^ (-4 : ℤ) ≤ d.digits * 10 ^ d.exponent ∧
      (d.digits : ℚ) * 10 ^ d.exponent < 10 ^ (16 : ℤ) := by
  have hcount : (Nat.toDigits 10 d.digits).length = digitCount d.digits := rfl
  have hone := digitCount_pos d.digits
  obtain ⟨hge, hlt⟩ := decimal_bounds hd d.exponent
  have hten : (1 : ℚ) < 10 := by norm_num
  rw [decimalText, hcount]
  split
  · next hplaces =>
    simp only [Bool.and_eq_true, decide_eq_true_eq] at hplaces
    refine iff_of_true (spells_positional _ _).e_notMem ⟨le_trans ?_ hge, hlt.trans_le ?_⟩
    · exact zpow_le_zpow_right₀ hten.le (by omega)
    · exact zpow_le_zpow_right₀ hten.le (by omega)
  · next hplaces =>
    simp only [Bool.and_eq_true, decide_eq_true_eq] at hplaces
    refine iff_of_false (not_not.2 (exponential_scientific _ _).e_mem) ?_
    rintro ⟨hlow, hhigh⟩
    have hlow' := (zpow_lt_zpow_iff_right₀ hten).1 (hlow.trans_lt hlt)
    have hhigh' := (zpow_lt_zpow_iff_right₀ hten).1 (hge.trans_lt hhigh)
    omega

/-! ## Whole numbers -/

def IsWhole (x : Float) : Prop :=
  ∃ negative n d, (Double.ofFloat x).exact = .finite negative n d ∧ d ∣ n

section Texts

variable {x : Float} {s : Sign} {m : ℕ} {e : ℤ} {hm : 0 < m}

theorem isWhole_iff (hx : x.toModel.unpack = .finite s m e hm) :
    IsWhole x ↔ ∃ n, (Binary.ofParts s m e).whole? = some n := by
  rw [IsWhole, ofFloat_of_unpack_eq hx, Double.exact, ← Option.isSome_iff_exists, Binary.whole?,
    Option.isSome_ite, ← Nat.dvd_iff_mod_eq_zero]
  constructor
  · rintro ⟨negative, n, d, heq, hdvd⟩
    cases heq
    exact hdvd
  · exact fun hdvd ↦ ⟨_, _, _, rfl, hdvd⟩

/-- A double that is not whole has places after the point. -/
theorem exponent_neg_of_whole?_eq_none {b : Binary} (h : b.whole? = none) : b.exponent < 0 := by
  by_contra hge
  have hdivisor : b.divisor = 1 := by
    rw [Binary.divisor, Int.toNat_of_nonpos (by omega), Nat.pow_eq, pow_zero]
  rw [Binary.whole?, hdivisor, if_pos (Nat.mod_one _)] at h
  cases h

/-! ## The double nearest to `0.0001` -/

theorem unpack_tenThousandth : (0.0001 : Float).toModel.unpack =
    .finite .positive 7378697629483821 (-66) (by decide) := rfl

theorem rounds_tenThousandth : Rounds .positive ((1 : ℕ) * 10 ^ (-4 : ℤ))
    (.finite .positive 7378697629483821 (-66) (by decide)) := by
  refine IsAround.rounds _ ⟨by decide, by decide, .inl (by decide)⟩ (.of_lt ?_ ?_)
  · norm_num
  · norm_num

/-- The shortest decimal of a double is at least `0.0001` if and only if the double is at least the
one nearest to `0.0001`. -/
theorem tenThousandth_le_shortest_iff (hx : x.toModel.unpack = .finite s m e hm) {d : Decimal}
    (hd : (Binary.ofParts s m e).shortest = d)
    (hrounds : Rounds .positive (d.digits * 10 ^ d.exponent) (.finite .positive m e hm)) :
    (10 : ℚ) ^ (-4 : ℤ) ≤ d.digits * 10 ^ d.exponent ↔ 0.0001 ≤ Float.abs x := by
  rw [le_iff_of_positive unpack_tenThousandth (unpack_abs hx)]
  have hlimit := rounds_tenThousandth
  rw [Nat.cast_one, one_mul] at hlimit
  constructor
  · exact hlimit.magnitude_mono hrounds
  · intro hle
    by_contra hlt
    -- Rounding keeps the order, so the double is the limit, which is written as the limit.
    have hge := hrounds.magnitude_mono hlimit (not_le.1 hlt).le
    obtain ⟨rfl, rfl⟩ := (Double.canonical_of_unpack_eq hx).1.eq_of_eq
      (Double.canonical_of_unpack_eq unpack_tenThousandth).1 (hge.antisymm hle)
    have hshortest : (Binary.ofParts s 7378697629483821 (-66)).shortest = ⟨1, -4⟩ := by
      cases s <;> decide +kernel
    rw [← hd, hshortest, Nat.cast_one, one_mul] at hlt
    exact hlt le_rfl

/-- A double that is not whole is too small for an exponent above the digits. -/
theorem e_notMem_shortest_iff (hx : x.toModel.unpack = .finite s m e hm)
    (hwhole : (Binary.ofParts s m e).whole? = none) :
    'e' ∉ decimalText (Binary.ofParts s m e).shortest ↔ 0.0001 ≤ Float.abs x := by
  obtain ⟨hc, -⟩ := Double.canonical_of_unpack_eq hx
  have haround := isAround_shortest_ofParts s hm hc
  generalize hd : (Binary.ofParts s m e).shortest = d at haround
  have hrounds : Rounds .positive (d.digits * 10 ^ d.exponent) (.finite .positive m e hm) :=
    haround.rounds hm hc
  have hlow : (0 : ℚ) < 10 ^ (-330 : ℤ) := by positivity
  have hdigits := pos_of_decimal_pos (hlow.trans_le (haround.ten_zpow_le hm hc))
  have hupper : (d.digits : ℚ) * 10 ^ d.exponent < 10 ^ (16 : ℤ) := by
    have hneg : e < 0 := exponent_neg_of_whole?_eq_none hwhole
    have hlt := haround.lt hc.mantissa_lt
    rw [div_lt_iff₀ (by positivity)] at hlt
    calc
      (d.digits : ℚ) * 10 ^ d.exponent < 2 ^ 53 * 2 ^ e := hlt
      _ ≤ 2 ^ 53 * 1 :=
        mul_le_mul_of_nonneg_left (zpow_le_one_of_nonpos₀ one_le_two hneg.le) (by positivity)
      _ < 10 ^ (16 : ℤ) := by norm_num
  rw [e_notMem_decimalText_iff hdigits, tenThousandth_le_shortest_iff hx hd hrounds]
  exact and_iff_left hupper

/-- **When an exponent is written.** A finite double is written without an exponent if and only if
it is a whole number or at least `0.0001` in size. -/
theorem e_notMem_plainText_iff (hfinite : x.isFinite = true) :
    'e' ∉ (plainText x).toList ↔ IsWhole x ∨ 0.0001 ≤ Float.abs x := by
  have hc := isCanonical_of_isFinite hfinite
  generalize hx : x.toModel.unpack = u at hc
  cases hc with
  | zero s =>
    refine iff_of_true ?_ (.inl ?_)
    · rw [toList_plainText_of_zero hx]
      decide
    · rw [IsWhole, Double.ofFloat_eq, hx]
      exact ⟨_, _, _, rfl, by rw [Nat.zero_mul]; exact Nat.dvd_zero _⟩
  | @finite s m e hm hc =>
    cases hwhole : (Binary.ofParts s m e).whole? with
    | some n =>
      rw [toList_plainText_of_whole hx hwhole, e_mem_signed_iff]
      exact iff_of_true (spells_toDigits n).e_notMem (.inl ((isWhole_iff hx).2 ⟨n, hwhole⟩))
    | none =>
      have hnot : ¬IsWhole x := by
        rw [isWhole_iff hx, hwhole]
        exact fun ⟨n, hn⟩ ↦ nomatch hn
      rw [toList_plainText_of_not_whole hx hwhole, e_mem_signed_iff, or_iff_right hnot]
      exact e_notMem_shortest_iff hx hwhole

end Texts

end Number

end SymbolicDerivatives
