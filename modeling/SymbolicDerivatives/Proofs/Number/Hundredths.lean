import SymbolicDerivatives.Number.Hundredths
import SymbolicDerivatives.Proofs.Number.Digits
import Mathlib.Data.Rat.Floor
import Mathlib.Order.Monotone.Odd
import Mathlib.Tactic.Linarith

/-!
# Rounding fractions to hundredths

`roundHundredths` is written for any type of numbers. Here it is read over the fractions, where the
product with a hundred and the added half are exact.

`lt_roundMagnitude` and `roundMagnitude_le` put the result into an interval of a hundredth around
the magnitude, open at its lower end, and that end is what sends a tie upwards. The sign is taken
off before and put back after, so rounding is odd, and what holds of magnitudes holds of all
fractions. A magnitude just below the limit may round up to the limit, but not above it, so the
order is kept across the limit too.

A multiple of a hundredth is written exactly: its last two digits are the places, and a minus sign
stands in front of it only if it is below zero.
-/

namespace SymbolicDerivatives

open Number (Spells)

/-- Fractions are exact, and their zero has no sign. -/
instance : Roundable ℚ where
  exact q := .finite (decide (q < 0)) q.num.natAbs q.den
  abs q := |q|
  floor q := ⌊q⌋

/-! ## Whole numbers -/

theorem roundHalfUp_eq (q : ℚ) : roundHalfUp q = ⌊q + 1 / 2⌋ := by
  have hhalf : (0.5 : ℚ) = 1 / 2 := by norm_num
  rw [roundHalfUp, hhalf]
  rfl

theorem roundHalfUp_le (q : ℚ) : roundHalfUp q ≤ q + 1 / 2 := by
  rw [roundHalfUp_eq]
  exact Int.floor_le _

theorem lt_roundHalfUp (q : ℚ) : q - 1 / 2 < roundHalfUp q := by
  rw [roundHalfUp_eq]
  have h := Int.lt_floor_add_one (q + 1 / 2)
  linarith

theorem monotone_roundHalfUp : Monotone (roundHalfUp : ℚ → ℚ) := by
  intro p q hpq
  rw [roundHalfUp_eq, roundHalfUp_eq]
  exact_mod_cast Int.floor_mono (add_le_add_left hpq (1 / 2))

theorem roundHalfUp_natCast (n : ℕ) : roundHalfUp (n : ℚ) = n := by
  have hfloor : ⌊(1 / 2 : ℚ)⌋ = 0 := by norm_num
  rw [roundHalfUp_eq, Int.floor_natCast_add, hfloor, add_zero, Int.cast_natCast]

theorem exists_roundHalfUp_eq {q : ℚ} (hq : 0 ≤ q) : ∃ n : ℕ, roundHalfUp q = n := by
  have hfloor : 0 ≤ ⌊q + 1 / 2⌋ := Int.floor_nonneg.2 (by linarith)
  obtain ⟨n, hn⟩ := Int.eq_ofNat_of_zero_le hfloor
  exact ⟨n, by rw [roundHalfUp_eq, hn, Int.cast_natCast]⟩

/-! ## Magnitudes -/

/-- The nearest multiple of a hundredth to a magnitude, the upper one of two. -/
def roundMagnitude (q : ℚ) : ℚ := roundHalfUp (q * 100) / 100

theorem roundMagnitude_le (q : ℚ) : roundMagnitude q ≤ q + 1 / 200 := by
  have h := roundHalfUp_le (q * 100)
  rw [roundMagnitude, div_le_iff₀ (by norm_num)]
  linarith

theorem lt_roundMagnitude (q : ℚ) : q - 1 / 200 < roundMagnitude q := by
  have h := lt_roundHalfUp (q * 100)
  rw [roundMagnitude, lt_div_iff₀ (by norm_num)]
  linarith

theorem monotone_roundMagnitude : Monotone roundMagnitude := by
  intro p q hpq
  have hscaled : p * 100 ≤ q * 100 := mul_le_mul_of_nonneg_right hpq (by norm_num)
  exact div_le_div_of_nonneg_right (monotone_roundHalfUp hscaled) (by norm_num)

theorem roundMagnitude_hundredths (n : ℕ) : roundMagnitude (n / 100) = n / 100 := by
  rw [roundMagnitude, div_mul_cancel₀ _ (by norm_num), roundHalfUp_natCast]

theorem exists_roundMagnitude_eq {q : ℚ} (hq : 0 ≤ q) :
    ∃ n : ℕ, roundMagnitude q = n / 100 := by
  obtain ⟨n, hn⟩ := exists_roundHalfUp_eq (mul_nonneg hq (by norm_num : (0 : ℚ) ≤ 100))
  exact ⟨n, by rw [roundMagnitude, hn]⟩

theorem roundMagnitude_le_limit {q : ℚ} (hq : q ≤ 10 ^ 15) : roundMagnitude q ≤ 10 ^ 15 := by
  have hlimit : (10 ^ 15 : ℚ) = (10 ^ 17 : ℕ) / 100 := by norm_num
  calc
    roundMagnitude q ≤ roundMagnitude (10 ^ 15) := monotone_roundMagnitude hq
    _ = 10 ^ 15 := by rw [hlimit, roundMagnitude_hundredths]

/-! ## Fractions of any sign -/

variable {q r : ℚ}

theorem roundHundredths_eq (q : ℚ) :
    roundHundredths q =
      if 10 ^ 15 ≤ |q| then q else if q < 0 then -roundMagnitude |q| else roundMagnitude |q| := by
  have hlimit : (1e15 : ℚ) = 10 ^ 15 := by norm_num
  have hhundred : (100.0 : ℚ) = 100 := by norm_num
  have hunfold : roundHundredths q = if 10 ^ 15 ≤ |q| then q else
      (if decide (q < 0) then -roundHalfUp (|q| * 100) else roundHalfUp (|q| * 100)) / 100 := by
    rw [← hlimit, ← hhundred]
    rfl
  rw [hunfold]
  simp only [decide_eq_true_eq, ite_div, neg_div, roundMagnitude]

theorem roundHundredths_of_limit_le (h : 10 ^ 15 ≤ |q|) : roundHundredths q = q := by
  rw [roundHundredths_eq, if_pos h]

theorem roundHundredths_of_nonneg (hq : 0 ≤ q) (h : |q| < 10 ^ 15) :
    roundHundredths q = roundMagnitude q := by
  rw [roundHundredths_eq, if_neg h.not_ge, if_neg hq.not_gt, abs_of_nonneg hq]

theorem roundHundredths_zero : roundHundredths (0 : ℚ) = 0 := by
  have h := roundMagnitude_hundredths 0
  rw [Nat.cast_zero, zero_div] at h
  rw [roundHundredths_of_nonneg le_rfl (by norm_num), h]

theorem roundHundredths_neg (q : ℚ) : roundHundredths (-q) = -roundHundredths q := by
  rcases eq_or_ne q 0 with rfl | hq
  · rw [neg_zero, roundHundredths_zero, neg_zero]
  -- away from zero exactly one of the two numbers has a minus sign
  have hsign : -q < 0 ↔ ¬q < 0 := by rw [neg_lt_zero, not_lt, hq.symm.le_iff_lt]
  rw [roundHundredths_eq, roundHundredths_eq, abs_neg]
  simp only [hsign]
  split_ifs <;> simp

/-- What holds of the rounding of magnitudes, and of the opposite where it holds, holds of all
fractions. -/
theorem roundHundredths_induction {motive : ℚ → ℚ → Prop}
    (neg : ∀ q r, motive q r → motive (-q) (-r))
    (nonneg : ∀ q, 0 ≤ q → motive q (roundHundredths q)) (q : ℚ) :
    motive q (roundHundredths q) := by
  rcases le_total 0 q with hq | hq
  · exact nonneg q hq
  · have h := neg _ _ (nonneg (-q) (neg_nonneg.2 hq))
    rwa [roundHundredths_neg, neg_neg, neg_neg] at h

/-- `r` is the multiple of a hundredth nearest to `q`, and the one further from zero of two. -/
structure IsNearestHundredth (q r : ℚ) : Prop where
  whole : ∃ n : ℤ, 100 * r = n
  near : |r - q| ≤ 1 / 200
  away : |r - q| = 1 / 200 → |q| < |r|

theorem IsNearestHundredth.neg (h : IsNearestHundredth q r) : IsNearestHundredth (-q) (-r) := by
  obtain ⟨n, hn⟩ := h.whole
  have hdistance : |-r - -q| = |r - q| := by rw [← neg_sub', abs_neg]
  refine ⟨⟨-n, ?_⟩, ?_, fun htie ↦ ?_⟩
  · rw [mul_neg, hn, Int.cast_neg]
  · rw [hdistance]
    exact h.near
  · rw [hdistance] at htie
    rw [abs_neg, abs_neg]
    exact h.away htie

theorem isNearestHundredth_roundMagnitude (hq : 0 ≤ q) :
    IsNearestHundredth q (roundMagnitude q) := by
  obtain ⟨n, hn⟩ := exists_roundMagnitude_eq hq
  have hlower := lt_roundMagnitude q
  have hupper := roundMagnitude_le q
  refine ⟨⟨n, ?_⟩, abs_le.2 ⟨by linarith, by linarith⟩, fun htie ↦ ?_⟩
  · rw [hn, mul_div_cancel₀ _ (by norm_num), Int.cast_natCast]
  · -- the lower end of the interval is open, so the tie is at its upper end
    have habove : q < roundMagnitude q := by
      rcases (abs_eq (by norm_num)).1 htie with htie | htie <;> linarith
    rwa [abs_of_nonneg hq, abs_of_pos (hq.trans_lt habove)]

theorem isNearestHundredth_roundHundredths (h : |q| < 10 ^ 15) :
    IsNearestHundredth q (roundHundredths q) := by
  refine roundHundredths_induction (motive := fun q r ↦ |q| < 10 ^ 15 → IsNearestHundredth q r)
    (fun q r ih h ↦ ?_) (fun q hq h ↦ ?_) q h
  · exact (ih (by rwa [abs_neg] at h)).neg
  · rw [roundHundredths_of_nonneg hq h]
    exact isNearestHundredth_roundMagnitude hq

/-- Numbers from the limit on stay as they are, and so do multiples of a hundredth below it. -/
theorem roundHundredths_idem (q : ℚ) :
    roundHundredths (roundHundredths q) = roundHundredths q := by
  refine roundHundredths_induction (motive := fun _ r ↦ roundHundredths r = r)
    (fun _ r ih ↦ ?_) (fun q hq ↦ ?_) q
  · rw [roundHundredths_neg, ih]
  rcases le_or_gt (10 ^ 15) |q| with hlimit | hlimit
  · rw [roundHundredths_of_limit_le hlimit, roundHundredths_of_limit_le hlimit]
  · rw [roundHundredths_of_nonneg hq hlimit]
    obtain ⟨n, hn⟩ := exists_roundMagnitude_eq hq
    have hpos : (0 : ℚ) ≤ n / 100 := by positivity
    rw [hn]
    rcases le_or_gt (10 ^ 15) |(n / 100 : ℚ)| with hlimit | hlimit
    · exact roundHundredths_of_limit_le hlimit
    · rw [roundHundredths_of_nonneg hpos hlimit, roundMagnitude_hundredths]

theorem monotone_roundHundredths : Monotone (roundHundredths : ℚ → ℚ) := by
  refine monotone_of_odd_of_monotoneOn_nonneg roundHundredths_neg fun p hp q hq hpq ↦ ?_
  rcases lt_or_ge |q| (10 ^ 15) with hlimit | hlimit
  · have hp' : |p| < 10 ^ 15 := by
      rw [abs_of_nonneg hp]
      exact hpq.trans_lt ((abs_of_nonneg hq).symm.trans_lt hlimit)
    rw [roundHundredths_of_nonneg hp hp', roundHundredths_of_nonneg hq hlimit]
    exact monotone_roundMagnitude hpq
  rw [roundHundredths_of_limit_le hlimit]
  rcases lt_or_ge |p| (10 ^ 15) with hlimit' | hlimit'
  · rw [roundHundredths_of_nonneg hp hlimit']
    rw [abs_of_nonneg hp] at hlimit'
    rw [abs_of_nonneg hq] at hlimit
    exact (roundMagnitude_le_limit hlimit'.le).trans hlimit
  · rwa [roundHundredths_of_limit_le hlimit']

/-! ## Texts -/

/-- A number in decimal notation with two places: digits, a point and two digits, perhaps after a
minus sign. -/
inductive TwoPlaces : List Char → ℚ → Prop
  | unsigned {whole fraction : List Char} {q : ℚ} (spells : Spells (whole ++ '.' :: fraction) q)
      (places : fraction.length = 2) : TwoPlaces (whole ++ '.' :: fraction) q
  | negative {whole fraction : List Char} {q : ℚ} (spells : Spells (whole ++ '.' :: fraction) q)
      (places : fraction.length = 2) : TwoPlaces ('-' :: (whole ++ '.' :: fraction)) (-q)

theorem roundHalfEven_mul (n : ℕ) {d : ℕ} (hd : 0 < d) : roundHalfEven (n * d) d = n := by
  rw [roundHalfEven, Nat.mul_mod_left, Nat.mul_div_cancel _ hd, mul_zero]
  have hdown : (decide (d < 0) || decide (0 = d) && decide (n % 2 = 1)) = false := by
    rw [decide_eq_false (Nat.not_lt_zero d), decide_eq_false hd.ne]
    rfl
  simp only [hdown, Bool.false_eq_true, if_false]

namespace Exact

/-- The digits of a number of hundredths, with a point before the last two. -/
def places (n : ℕ) : List Char :=
  Nat.toDigits 10 (n / 100) ++ ['.', Nat.digitChar (n / 10 % 10), Nat.digitChar (n % 10)]

theorem toList_hundredthsText (negative : Bool) (n : ℕ) :
    (hundredthsText negative n).toList =
      (if negative && n != 0 then ['-'] else []) ++ places n := by
  rw [hundredthsText, String.toList_ofList, List.append_assoc, places]

theorem spells_places (n : ℕ) : Spells (places n) (n / 100) := by
  have htens : n / 10 % 10 < 10 := Nat.mod_lt _ (by decide)
  have hones : n % 10 < 10 := Nat.mod_lt _ (by decide)
  have hall : ∀ c ∈ Nat.toDigits 10 (n / 100) ++
      [Nat.digitChar (n / 10 % 10), Nat.digitChar (n % 10)], c.isDigit = true := by
    refine List.forall_mem_append.2 ⟨fun _ ↦ Number.isDigit_of_mem_toDigits, ?_⟩
    simp [Nat.isDigit_digitChar, htens, hones]
  have hspells := Spells.pointed Nat.toDigits_ne_nil hall
  rw [Nat.ofDigitChars_append, Nat.ofDigitChars_ten_toDigits,
    Nat.ofDigitChars_cons_digitChar_of_lt_ten htens,
    Nat.ofDigitChars_cons_digitChar_of_lt_ten hones, Nat.ofDigitChars_nil] at hspells
  have hvalue : 10 * (10 * (n / 100) + n / 10 % 10) + n % 10 = n := by omega
  rw [hvalue] at hspells
  norm_num at hspells
  exact hspells

theorem minus_notMem_places (n : ℕ) : '-' ∉ places n := by
  intro hminus
  rcases (spells_places n).mem_cases '-' hminus with hdigit | hpoint
  · exact absurd hdigit (by decide)
  · exact absurd hpoint (by decide)

theorem eq_zero_of_places_eq {n : ℕ} (h : places n = places 0) : n = 0 := by
  obtain ⟨hwhole, hplaces⟩ := List.append_inj' h rfl
  have hhundreds : n / 100 = 0 / 100 := by
    have hvalue := congrArg (Nat.ofDigitChars 10 · 0) hwhole
    simpa only [Nat.ofDigitChars_ten_toDigits] using hvalue
  simp only [Nat.zero_div, Nat.zero_mod, List.cons.injEq, true_and, and_true] at hplaces
  have htens := Nat.digitChar_eq_zero.1 (hplaces.1.trans rfl)
  have hones := Nat.digitChar_eq_zero.1 (hplaces.2.trans rfl)
  omega

/-- Zero is written without a sign, also if it has one. -/
theorem fixed_ne_negative_zero (e : Exact) : e.fixed ≠ "-0.00" := by
  rcases e with _ | negative | ⟨negative, numerator, denominator⟩
  · decide
  · cases negative <;> decide
  intro h
  have hchars := congrArg String.toList h
  have hzero : "-0.00".toList = '-' :: places 0 := by decide
  rw [fixed, toList_hundredthsText, hzero] at hchars
  split at hchars
  · next hsign =>
    have hn := eq_zero_of_places_eq (List.cons.inj hchars).2
    rw [hn] at hsign
    simp at hsign
  · exact minus_notMem_places _ (hchars ▸ List.mem_cons_self)

/-- A multiple of a hundredth is written without being rounded again. -/
theorem fixed_exact {n : ℕ} (h : |r| = n / 100) :
    (Roundable.exact r).fixed = hundredthsText (decide (r < 0)) n := by
  have hnumerator : (r.num.natAbs : ℚ) = |r| * r.den := by
    rw [Nat.cast_natAbs, Int.cast_abs, ← Rat.mul_den_eq_num, abs_mul, Nat.abs_cast]
  have hmul : 100 * r.num.natAbs = n * r.den := by
    have hcast : (100 * r.num.natAbs : ℚ) = n * r.den := by
      rw [hnumerator, h]
      ring
    exact_mod_cast hcast
  have hunfold : (Roundable.exact r).fixed =
      hundredthsText (decide (r < 0)) (roundHalfEven (100 * r.num.natAbs) r.den) := rfl
  rw [hunfold, hmul, roundHalfEven_mul n r.den_pos]

end Exact

open Exact (places)

theorem toList_resultText (h : |q| < 10 ^ 15) :
    ∃ n : ℕ, |roundHundredths q| = n / 100 ∧
      (resultText q).toList = (if roundHundredths q < 0 then ['-'] else []) ++ places n := by
  obtain ⟨z, hz⟩ := (isNearestHundredth_roundHundredths h).whole
  have habs : |roundHundredths q| = z.natAbs / 100 := by
    rw [eq_div_iff (by norm_num), Nat.cast_natAbs, Int.cast_abs, ← hz, abs_mul, mul_comm]
    norm_num
  refine ⟨z.natAbs, habs, ?_⟩
  rw [resultText, Exact.fixed_exact habs, Exact.toList_hundredthsText]
  by_cases hneg : roundHundredths q < 0
  · -- a number below zero is no zero, so it keeps its sign
    have hne : z.natAbs ≠ 0 := by
      intro hzero
      rw [hzero, Nat.cast_zero, zero_div, abs_eq_zero] at habs
      exact hneg.ne habs
    simp [hneg, hne]
  · simp [hneg]

theorem twoPlaces_resultText (h : |q| < 10 ^ 15) :
    TwoPlaces (resultText q).toList (roundHundredths q) := by
  obtain ⟨n, hn, htext⟩ := toList_resultText h
  rw [htext]
  by_cases hneg : roundHundredths q < 0
  · rw [abs_of_neg hneg] at hn
    rw [if_pos hneg, ← neg_neg (roundHundredths q), hn]
    exact .negative (Exact.spells_places n) rfl
  · rw [abs_of_nonneg (not_lt.1 hneg)] at hn
    rw [if_neg hneg, hn]
    exact .unsigned (Exact.spells_places n) rfl

theorem head?_resultText_iff (h : |q| < 10 ^ 15) :
    (resultText q).toList.head? = some '-' ↔ roundHundredths q < 0 := by
  obtain ⟨n, -, htext⟩ := toList_resultText h
  rw [htext]
  by_cases hneg : roundHundredths q < 0
  · exact iff_of_true (by rw [if_pos hneg]; rfl) hneg
  · rw [if_neg hneg, List.nil_append]
    exact iff_of_false (fun hhead ↦ Exact.minus_notMem_places n (List.mem_of_mem_head? hhead)) hneg

/-- **Results are rounded to hundredths, halves away from zero.** Below `10 ^ 15` a fraction goes to
a multiple of a hundredth at most half a hundredth away, and of two such multiples to the one
further from zero; from `10 ^ 15` on it stays as it is. Rounding is odd, keeps the order, and does
nothing the second time. The text of a result below `10 ^ 15` writes the rounded number with two
places, with a minus sign in front exactly if that number is below zero; no fraction and no double
has the text of zero with a sign. -/
theorem roundHundredths_halfAway :
    (∀ v : ℚ, |v| < 10 ^ 15 →
      (∃ n : ℤ, 100 * roundHundredths v = n) ∧ |roundHundredths v - v| ≤ 1 / 200 ∧
        (|roundHundredths v - v| = 1 / 200 → |v| < |roundHundredths v|)) ∧
    (∀ v : ℚ, 10 ^ 15 ≤ |v| → roundHundredths v = v) ∧
    (∀ v : ℚ, roundHundredths (-v) = -roundHundredths v) ∧
    (∀ v : ℚ, roundHundredths (roundHundredths v) = roundHundredths v) ∧
    (∀ v w : ℚ, v ≤ w → roundHundredths v ≤ roundHundredths w) ∧
    (∀ v : ℚ, |v| < 10 ^ 15 →
      TwoPlaces (resultText v).toList (roundHundredths v) ∧
        ((resultText v).toList.head? = some '-' ↔ roundHundredths v < 0)) ∧
    (∀ v : ℚ, resultText v ≠ "-0.00") ∧ ∀ x : Float, resultText x ≠ "-0.00" := by
  refine ⟨fun v hv ↦ ?_, fun v hv ↦ roundHundredths_of_limit_le hv, roundHundredths_neg,
    roundHundredths_idem, fun v w hvw ↦ monotone_roundHundredths hvw, fun v hv ↦ ?_, fun v ↦ ?_,
    fun x ↦ ?_⟩
  · obtain ⟨whole, near, away⟩ := isNearestHundredth_roundHundredths hv
    exact ⟨whole, near, away⟩
  · exact ⟨twoPlaces_resultText hv, head?_resultText_iff hv⟩
  · exact Exact.fixed_ne_negative_zero _
  · exact Exact.fixed_ne_negative_zero _

/-- A tie below zero goes down, a smaller magnitude to zero without a sign, and a tie just below the
limit goes up to the limit. -/
theorem roundHundredths_halfAway_of_ties :
    let tie : ℚ := -1 / 200
    let high : ℚ := 10 ^ 15 - 1 / 200
    roundHundredths tie = -1 / 100 ∧ |tie| < 10 ^ 15 ∧
      |roundHundredths tie - tie| = 1 / 200 ∧ |tie| < |roundHundredths tie| ∧
      TwoPlaces (resultText tie).toList (-1 / 100) ∧ resultText tie = "-0.01" ∧
      resultText (-1 / 201 : ℚ) = "0.00" ∧
      high ≤ 10 ^ 15 ∧ roundHundredths high ≤ roundHundredths (10 ^ 15) ∧
      roundHundredths high = 10 ^ 15 ∧
      10 ^ 15 ≤ |(10 ^ 15 : ℚ)| ∧ roundHundredths (10 ^ 15 : ℚ) = 10 ^ 15 := by
  intro tie high
  obtain ⟨hnear, hlimit, -, -, hmono, htext, -⟩ := roundHundredths_halfAway
  have hround : roundHundredths tie = -1 / 100 := by decide +kernel
  have htie : |tie| < 10 ^ 15 := by decide +kernel
  have hdistance : |roundHundredths tie - tie| = 1 / 200 := by decide +kernel
  have hhigh : high ≤ 10 ^ 15 := by decide +kernel
  have hten : 10 ^ 15 ≤ |(10 ^ 15 : ℚ)| := by decide +kernel
  exact ⟨hround, htie, hdistance, (hnear tie htie).2.2 hdistance, hround ▸ (htext tie htie).1,
    by decide +kernel, by decide +kernel, hhigh, hmono _ _ hhigh, by decide +kernel, hten,
    hlimit _ hten⟩

end SymbolicDerivatives
