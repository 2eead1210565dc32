import SymbolicDerivatives.Proofs.Number.Bounded
import SymbolicDerivatives.Proofs.Number.Double
import SymbolicDerivatives.Proofs.Number.Shortest

/-!
# Texts of doubles read back

A literal is read as the double nearest to what it writes. So the text of a finite double is read as
that double again, for a whole number with all its digits as well as for the shortest decimal. The
text must not have an exponent, though, which literals do not have.
-/

namespace SymbolicDerivatives.Number

open Float.Model (Format UnpackedFloat)
open Float.Model.UnpackedFloat

/-! ## Literals are rounded once -/

theorem digitCount_le_log2 {n : ℕ} (h : 0 < n) : digitCount n ≤ n.log2 + 1 := by
  by_contra hlt
  have hpow := calc
    2 ^ (n.log2 + 1) ≤ 10 ^ (n.log2 + 1) := Nat.pow_le_pow_left (by decide) _
    _ ≤ 10 ^ (digitCount n - 1) := Nat.pow_le_pow_right (by decide) (by omega)
    _ ≤ n := pow_digitCount_le h
  exact absurd Nat.lt_log2_self (not_lt.2 hpow)

/-- A number lies between the powers of ten that its digits and its scale say. -/
theorem decimal_bounds {n : ℕ} (hn : 0 < n) (k : ℤ) :
    (10 : ℚ) ^ ((digitCount n - 1 : ℕ) + k : ℤ) ≤ n * 10 ^ k ∧
      (n : ℚ) * 10 ^ k < 10 ^ (digitCount n + k : ℤ) := by
  have hpos : (0 : ℚ) < 10 ^ k := by positivity
  rw [zpow_add₀ (by decide), zpow_add₀ (by decide), zpow_natCast, zpow_natCast]
  exact ⟨mul_le_mul_of_nonneg_right (by exact_mod_cast pow_digitCount_le hn) hpos.le,
    mul_lt_mul_of_pos_right (by exact_mod_cast lt_pow_digitCount n) hpos⟩

theorem pos_of_decimal_pos {n : ℕ} {k : ℤ} (h : (0 : ℚ) < n * 10 ^ k) : 0 < n := by
  exact_mod_cast pos_of_mul_pos_left h (by positivity)

theorem two_zpow_bounds : (10 : ℚ) ^ (-330 : ℤ) ≤ 2 ^ (-1075 : ℤ) ∧
    (2 : ℚ) ^ (1024 : ℤ) ≤ 10 ^ (309 : ℤ) := by
  constructor
  · have hpow : (2 : ℚ) ^ (1075 : ℤ) ≤ 10 ^ (330 : ℤ) := by decide +kernel
    rw [zpow_neg, zpow_neg]
    exact inv_anti₀ (by positivity) hpow
  · decide +kernel

/-- A number that is too large is packed as an infinity. -/
theorem pack_of_large (s : Sign) {m : ℕ} {e : ℤ} (h : 0 < m) (he : 972 ≤ e) :
    Float.Model.pack (.finite s m e h) = .pack (.infinity s) := by
  have hbias : (Format.binary64.exponentBias : ℤ) = 1023 := by decide
  have hbits : pack .binary64 (.finite s m e h) = pack .binary64 (.infinity s) := by
    simp only [pack, hbias]
    rw [if_pos (by omega)]
  simp only [Float.Model.pack, hbits]

theorem roundsTo_infinity {q : ℚ} (hq : (2 : ℚ) ^ (1024 : ℤ) ≤ q) :
    RoundsTo .positive q infinity := by
  have hpos : (0 : ℚ) < q := lt_of_lt_of_le (by positivity) hq
  obtain ⟨u, hu⟩ := exists_rounds hpos
  refine ⟨u, hu, ?_⟩
  -- the grid of such a number has an exponent that no double has
  obtain @⟨n, t, grid, nearest⟩ := hu
  have ht : 972 ≤ t := by
    have hlt := hq.trans_lt grid.lt
    rw [← zpow_natCast_add, zpow_lt_zpow_iff_right₀ one_lt_two] at hlt
    omega
  have hn : 2 ^ 52 ≤ n := (grid.le_nearest nearest).resolve_right (by omega)
  have hinfinity : infinity = .ofModel (.pack (.infinity .positive)) := by decide +kernel
  rw [hinfinity, onGrid, dif_neg (by omega)]
  split
  · rw [pack_of_large _ _ (by omega)]
  · rw [pack_of_large _ _ ht]

/-- Decades that doubles may reach are computed, and all above them are beyond the doubles. -/
theorem roundsTo_nearest {n : ℕ} {k : ℤ} (hn : 0 < n) (hlow : -330 ≤ digitCount n + k) :
    RoundsTo .positive (n * 10 ^ k) (nearest n k) := by
  have hcount := digitCount_le_log2 hn
  have hpos := digitCount_pos n
  have hzero : ¬((n = 0 || digitCount n + k < -330) = true) := by
    simp only [Bool.or_eq_true, decide_eq_true_eq]
    omega
  rw [nearest, if_neg hzero]
  split
  · next hhigh =>
    refine roundsTo_infinity (two_zpow_bounds.2.trans (le_trans ?_ (decimal_bounds hn k).1))
    exact zpow_le_zpow_right₀ (by norm_num) (by omega)
  · next hhigh =>
    refine roundsTo_ofScientific hn ?_ (by omega) (by omega)
    split
    · next hk => rw [decide_eq_true_eq] at hk; omega
    · next hk => rw [decide_eq_true_eq] at hk; omega

theorem roundsTo_nearest_of_le {n : ℕ} {k : ℤ} {q : ℚ} (hq : (n : ℚ) * 10 ^ k = q)
    (hlow : (10 : ℚ) ^ (-330 : ℤ) ≤ q) : RoundsTo .positive q (nearest n k) := by
  have hpos : (0 : ℚ) < 10 ^ (-330 : ℤ) := by positivity
  have hn : 0 < n := pos_of_decimal_pos (k := k) (by linarith)
  have hlt := (decimal_bounds hn k).2
  rw [hq] at hlt
  have hlow' := (zpow_lt_zpow_iff_right₀ (by decide)).1 (hlow.trans_lt hlt)
  rw [← hq]
  exact roundsTo_nearest hn (by omega)

theorem ne_point_of_isDigit {c : Char} (h : c.isDigit = true) : (c != '.') = true := by
  rw [bne_iff_ne]
  rintro rfl
  cases h

theorem ofLiteral_of_isDigit {cs : List Char} (h : ∀ c ∈ cs, c.isDigit = true) :
    ofLiteral (String.ofList cs) = nearest (Nat.ofDigitChars 10 cs 0) 0 := by
  have hpoint : ∀ c ∈ cs, (c != '.') = true := fun c hc ↦ ne_point_of_isDigit (h c hc)
  rw [ofLiteral, String.toList_ofList, List.takeWhile_eq_self_iff.2 hpoint,
    List.dropWhile_eq_nil_iff.2 hpoint, List.drop_nil, ofDigits, List.append_nil,
    Text.natOfDigits_eq_ofDigitChars h, List.length_nil, Nat.cast_zero, sub_zero]

theorem ofLiteral_toDigits (n : ℕ) :
    ofLiteral (String.ofList (Nat.toDigits 10 n)) = nearest n 0 := by
  rw [ofLiteral_of_isDigit fun c ↦ isDigit_of_mem_toDigits, Nat.ofDigitChars_ten_toDigits]

/-- A literal is read as the double nearest to what it writes. -/
theorem Spells.roundsTo {cs : List Char} {q : ℚ} (h : Spells cs q)
    (hlow : (10 : ℚ) ^ (-330 : ℤ) ≤ q) : RoundsTo .positive q (ofLiteral (String.ofList cs)) := by
  cases h with
  | whole _ all =>
    rw [ofLiteral_of_isDigit all]
    refine roundsTo_nearest_of_le ?_ hlow
    rw [zpow_zero, mul_one]
  | @pointed whole fraction ne_nil all =>
    have hpoint : ∀ c ∈ whole, (c != '.') = true := fun c hc ↦
      ne_point_of_isDigit (all c (List.mem_append_left _ hc))
    rw [ofLiteral, String.toList_ofList, List.takeWhile_append_of_pos hpoint,
      List.dropWhile_append_of_pos hpoint, List.takeWhile_cons_of_neg (by decide),
      List.dropWhile_cons_of_neg (by decide), List.append_nil, List.drop_one, List.tail_cons,
      ofDigits, Text.natOfDigits_eq_ofDigitChars all]
    refine roundsTo_nearest_of_le ?_ hlow
    rw [zero_sub, zpow_neg, zpow_natCast, ← div_eq_mul_inv]

/-! ## The double in the middle of its interval -/

section Interval

variable {x : Float} {s : Sign} {m : ℕ} {e : ℤ} {q : ℚ}

/-- The numbers around a double are at least half the least one. -/
theorem IsAround.ten_zpow_le {narrow : Bool} (hm : 0 < m) (hc : Canonical m e)
    (hq : IsAround m narrow (q / 2 ^ e)) : (10 : ℚ) ^ (-330 : ℤ) ≤ q := by
  have hlower : (2 : ℚ) ^ (-1 : ℤ) ≤ q / 2 ^ e := by
    have hm' : (1 : ℚ) ≤ m := by exact_mod_cast hm
    have hwidth : (if narrow then 1 else 2 : ℚ) ≤ 2 := by split <;> norm_num
    have := hq.lower
    rw [zpow_neg_one]
    linarith
  rw [le_div_iff₀ (by positivity), ← zpow_add₀ two_ne_zero] at hlower
  have hge := hc.exponent_ge
  refine two_zpow_bounds.1.trans (le_trans ?_ hlower)
  exact zpow_le_zpow_right₀ one_le_two (by omega)

theorem IsAround.rounds {n : ℕ} {k : ℤ} (hm : 0 < m) (hc : Canonical m e)
    (hq : IsAround m (m == 2 ^ 52 && e != -1074) (n * 10 ^ k / 2 ^ e)) :
    Rounds .positive (n * 10 ^ k) (.finite .positive m e hm) := by
  obtain ⟨u, hu, -⟩ := roundsTo_nearest_of_le rfl (hq.ten_zpow_le hm hc)
  rwa [hu.eq_finite hm hc hq] at hu

/-- A literal of a number around a double is read as the double. -/
theorem Spells.unpack_ofLiteral {cs : List Char} (h : Spells cs q) (hm : 0 < m)
    (hc : Canonical m e) (he : e ≤ 971)
    (hq : IsAround m (m == 2 ^ 52 && e != -1074) (q / 2 ^ e)) :
    (ofLiteral (String.ofList cs)).toModel.unpack = .finite .positive m e hm := by
  obtain ⟨u, hu, heq⟩ := h.roundsTo (hq.ten_zpow_le hm hc)
  rw [heq, hu.eq_finite hm hc hq]
  exact unpack_ofModel_pack hm hc he

/-- A sign is not read with the digits, but put in front of the number. -/
theorem unpack_signed {y : Float} {hm : 0 < m} (hx : x.toModel.unpack = .finite s m e hm)
    (hy : y.toModel.unpack = .finite .positive m e hm) :
    (if s == .negative then -y else y).toModel.unpack = .finite s m e hm := by
  obtain ⟨hc, he⟩ := Double.canonical_of_unpack_eq hx
  cases s with
  | positive => exact hy
  | negative =>
    have hneg : -y = .ofModel (.pack (.neg y.toModel.unpack)) := rfl
    rw [hy] at hneg
    exact hneg ▸ unpack_ofModel_pack hm hc he

theorem signed_beq {y : Float} (hm : 0 < m) (hx : x.toModel.unpack = .finite s m e hm)
    (hy : y.toModel.unpack = .finite .positive m e hm) :
    ((if s == .negative then -y else y) == x) = true := by
  rw [beq_iff, unpack_signed hx hy, hx]
  exact .inr ⟨rfl, fun h ↦ nomatch h⟩

end Interval

/-! ## Texts -/

theorem Spells.e_notMem {cs : List Char} {q : ℚ} (h : Spells cs q) : 'e' ∉ cs := by
  intro hmem
  rcases h.mem_cases _ hmem with hdigit | hpoint
  · exact absurd hdigit (by decide)
  · exact absurd hpoint (by decide)

/-- A text with an exponent: two literals with the letter and a sign between them. -/
inductive Exponential : List Char → Prop
  | intro {mantissa magnitude : List Char} {q r : ℚ} {sign : Char}
      (mantissa_spells : Spells mantissa q) (sign_mem : sign ∈ ['+', '-'])
      (magnitude_spells : Spells magnitude r) :
      Exponential (mantissa ++ 'e' :: sign :: magnitude)

/-- The digits before an exponent, with a point after the first one if there are more. -/
theorem spells_mantissa (n : ℕ) :
    Spells (if (Nat.toDigits 10 n).length = 1 then Nat.toDigits 10 n
      else pointed (Nat.toDigits 10 n) 1) (n / 10 ^ (digitCount n - 1)) := by
  split
  · next hone =>
    rw [digitCount, hone, Nat.sub_self, pow_zero, div_one]
    exact spells_toDigits n
  · have hne : (Nat.toDigits 10 n).take 1 ≠ [] := by
      rw [← List.length_pos_iff, List.length_take]
      exact Nat.lt_min.2 ⟨Nat.one_pos, digitCount_pos n⟩
    have hall : ∀ c ∈ (Nat.toDigits 10 n).take 1 ++ (Nat.toDigits 10 n).drop 1,
        c.isDigit = true := by
      rw [List.take_append_drop]
      exact fun _ ↦ isDigit_of_mem_toDigits
    have hspells := Spells.pointed hne hall
    rwa [List.take_append_drop, Nat.ofDigitChars_ten_toDigits, List.length_drop] at hspells

theorem exponential_scientific (n : ℕ) (e : ℤ) :
    Exponential (scientific (Nat.toDigits 10 n) e) := by
  have hsign : (if e < 0 then '-' else '+') ∈ ['+', '-'] := by split <;> decide
  rw [scientific, List.append_assoc]
  exact .intro (spells_mantissa n) hsign
    (.whole (List.append_ne_nil_of_right_ne_nil _ Nat.toDigits_ne_nil)
      (isDigit_of_mem_padded _ _))

theorem Exponential.e_mem {cs : List Char} (h : Exponential cs) : 'e' ∈ cs := by
  cases h with
  | intro => exact List.mem_append_right _ List.mem_cons_self

/-- A decimal is written as a literal, or with an exponent. -/
theorem decimalText_cases (d : Decimal) :
    Spells (decimalText d) (d.digits * 10 ^ d.exponent) ∨ Exponential (decimalText d) := by
  rw [decimalText]
  split
  · exact .inl (spells_positional d.digits d.exponent)
  · exact .inr (exponential_scientific _ _)

theorem cast_of_whole?_eq_some {b : Binary} {n : ℕ} (h : b.whole? = some n) :
    (n : ℚ) = b.mantissa * 2 ^ b.exponent := by
  have hdivisor : (b.divisor : ℚ) ≠ 0 := by exact_mod_cast b.divisor_pos.ne'
  rw [Binary.whole?] at h
  split at h
  · next hmod =>
    rw [← b.cast_mul_factor_div_divisor, ← Option.some.inj h, eq_div_iff hdivisor]
    exact_mod_cast Nat.div_mul_cancel (Nat.dvd_of_mod_eq_zero hmod)
  · cases h

section Texts

variable {x : Float} {s : Sign} {m : ℕ} {e : ℤ} {hm : 0 < m}

theorem ofFloat_of_unpack_eq (hx : x.toModel.unpack = .finite s m e hm) :
    Double.ofFloat x = .finite (.ofParts s m e) := by
  rw [Double.ofFloat_eq, hx]
  rfl

theorem toList_plainText_of_zero (hx : x.toModel.unpack = .zero s) :
    (plainText x).toList = ['0'] := by
  have hwhole : Binary.whole? ⟨s == .negative, 0, -1074, false⟩ = some 0 := by
    simp [Binary.whole?]
  rw [plainText, Double.ofFloat_eq, hx, Double.ofUnpacked]
  dsimp only
  rw [hwhole]
  simp [signed]

/-- The text of a whole number other than zero has all its digits. -/
theorem toList_plainText_of_whole {n : ℕ} (hx : x.toModel.unpack = .finite s m e hm)
    (hwhole : (Binary.ofParts s m e).whole? = some n) :
    (plainText x).toList = signed (s == .negative) (Nat.toDigits 10 n) := by
  have hn : n ≠ 0 := by
    rintro rfl
    have hzero := cast_of_whole?_eq_some hwhole
    have hpos : (0 : ℚ) < m * 2 ^ e := mul_pos (by exact_mod_cast hm) (by positivity)
    rw [Nat.cast_zero] at hzero
    exact hpos.ne hzero
  rw [plainText, ofFloat_of_unpack_eq hx]
  dsimp only
  rw [hwhole]
  dsimp only
  rw [bne_iff_ne.2 hn, Bool.and_true]
  exact String.toList_ofList

/-- The text of a finite number other than zero is that of its shortest decimal. -/
theorem toList_text (hx : x.toModel.unpack = .finite s m e hm) :
    (text x).toList = signed (s == .negative) (decimalText (Binary.ofParts s m e).shortest) := by
  have hne : (Binary.ofParts s m e).mantissa ≠ 0 := hm.ne'
  rw [text, ofFloat_of_unpack_eq hx]
  dsimp only
  rw [if_neg hne]
  exact String.toList_ofList

theorem toList_plainText_of_not_whole (hx : x.toModel.unpack = .finite s m e hm)
    (hwhole : (Binary.ofParts s m e).whole? = none) :
    (plainText x).toList =
      signed (s == .negative) (decimalText (Binary.ofParts s m e).shortest) := by
  rw [plainText, ofFloat_of_unpack_eq hx]
  dsimp only
  rw [hwhole]
  exact toList_text hx

theorem isAround_shortest_ofParts (s : Sign) (hm : 0 < m) (hc : Canonical m e) :
    IsAround m (m == 2 ^ 52 && e != -1074) ((Binary.ofParts s m e).shortest.digits *
      10 ^ (Binary.ofParts s m e).shortest.exponent / 2 ^ e) :=
  Binary.isAround_shortest (b := .ofParts s m e) hm hc.exponent_ge hc.mantissa_lt
    fun hnarrow ↦ beq_iff_eq.1 (Bool.and_eq_true_iff.1 hnarrow).1

/-- The shortest decimal of a finite double is written as a literal that is read as the double, or
with an exponent. -/
theorem shortest_cases (hx : x.toModel.unpack = .finite s m e hm) :
    (∃ q, Spells (decimalText (Binary.ofParts s m e).shortest) q ∧
      ((if s == .negative then
          -ofLiteral (String.ofList (decimalText (Binary.ofParts s m e).shortest))
        else ofLiteral (String.ofList (decimalText (Binary.ofParts s m e).shortest))) == x) =
          true) ∨
      Exponential (decimalText (Binary.ofParts s m e).shortest) := by
  obtain ⟨hc, he⟩ := Double.canonical_of_unpack_eq hx
  refine (decimalText_cases _).imp_left fun hspells ↦ ⟨_, hspells, signed_beq hm hx ?_⟩
  exact hspells.unpack_ofLiteral hm hc he (isAround_shortest_ofParts s hm hc)

theorem e_mem_signed_iff {negative : Bool} {cs : List Char} :
    'e' ∈ signed negative cs ↔ 'e' ∈ cs := by
  cases negative with
  | false => rfl
  | true =>
    rw [signed, if_pos rfl, List.mem_cons]
    exact or_iff_right (by decide)

/-- The text of a finite double has a minus sign in front or none. After it stands a literal that is
read as the same double, or a text with an exponent. -/
theorem plainText_cases (hfinite : x.isFinite = true) :
    ∃ negative cs, (plainText x).toList = signed negative cs ∧
      ((∃ q, Spells cs q ∧ ((if negative then -ofLiteral (String.ofList cs)
        else ofLiteral (String.ofList cs)) == x) = true) ∨ Exponential cs) := by
  have hc := isCanonical_of_isFinite hfinite
  generalize hx : x.toModel.unpack = u at hc
  cases hc with
  | zero s =>
    exact ⟨false, ['0'], toList_plainText_of_zero hx,
      .inl ⟨_, spells_toDigits 0, beq_iff.2 (.inl ⟨.positive, s, rfl, hx⟩)⟩⟩
  | @finite s m e hm hc =>
    obtain ⟨-, he⟩ := Double.canonical_of_unpack_eq hx
    cases hwhole : (Binary.ofParts s m e).whole? with
    | some n =>
      have hvalue : (n : ℚ) / 2 ^ e = m := by
        rw [div_eq_iff (by positivity)]
        exact cast_of_whole?_eq_some hwhole
      have hread := (spells_toDigits n).unpack_ofLiteral hm hc he (hvalue ▸ .self m _)
      exact ⟨_, _, toList_plainText_of_whole hx hwhole,
        .inl ⟨_, spells_toDigits n, signed_beq hm hx hread⟩⟩
    | none => exact ⟨_, _, toList_plainText_of_not_whole hx hwhole, shortest_cases hx⟩

/-- **The text of a finite double without an exponent reads back.** It is a literal, perhaps with a
minus sign in front, that is read as the same double. -/
theorem exists_literal (hfinite : x.isFinite = true) (hexponent : 'e' ∉ (plainText x).toList) :
    ∃ negative cs q, (plainText x).toList = signed negative cs ∧ Spells cs q ∧
      ((if negative then -ofLiteral (String.ofList cs) else ofLiteral (String.ofList cs)) == x) =
        true := by
  obtain ⟨negative, cs, htext, ⟨q, hspells, hread⟩ | hexponential⟩ := plainText_cases hfinite
  · exact ⟨negative, cs, q, htext, hspells, hread⟩
  · rw [htext] at hexponent
    exact absurd (e_mem_signed_iff.2 hexponential.e_mem) hexponent

/-- The text of a finite double with a point is a literal too, if it has no exponent. -/
theorem exists_literal_text (hfinite : x.isFinite = true) (hzero : (x == 0) = false)
    (hexponent : 'e' ∉ (text x).toList) :
    ∃ negative cs q, (text x).toList = signed negative cs ∧ Spells cs q ∧
      (if negative then -ofLiteral (String.ofList cs) else ofLiteral (String.ofList cs)) = x := by
  have hc := isCanonical_of_isFinite hfinite
  generalize hx : x.toModel.unpack = u at hc
  cases hc with
  | zero s => exact absurd (beq_iff.2 (.inl ⟨s, .positive, hx, rfl⟩)) (Bool.eq_false_iff.1 hzero)
  | @finite s m e hm hc =>
    rcases shortest_cases hx with ⟨q, hspells, hread⟩ | hexponential
    · refine ⟨_, _, q, toList_text hx, hspells, ?_⟩
      rcases beq_iff.1 hread with ⟨-, t, -, ht⟩ | ⟨heq, -⟩
      · rw [hx] at ht
        cases ht
      · exact Double.eq_of_unpack_eq heq
    · rw [toList_text hx, e_mem_signed_iff] at hexponent
      exact absurd hexponential.e_mem hexponent

theorem exists_exponential (hfinite : x.isFinite = true) (hexponent : 'e' ∈ (plainText x).toList) :
    ∃ negative cs, (plainText x).toList = signed negative cs ∧ Exponential cs := by
  obtain ⟨negative, cs, htext, ⟨q, hspells, -⟩ | hexponential⟩ := plainText_cases hfinite
  · rw [htext, e_mem_signed_iff] at hexponent
    exact absurd hexponent hspells.e_notMem
  · exact ⟨negative, cs, htext, hexponential⟩

end Texts

end SymbolicDerivatives.Number
