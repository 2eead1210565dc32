import SymbolicDerivatives.Proofs.Formula.Scanning
import SymbolicDerivatives.Proofs.Number.Numeral
import SymbolicDerivatives.Proofs.Words

/-!
# Doubles written as words

The words that give values to names may have exponents, unlike the literals of formulas. `Writes`
extends `Spells` by them, and every shortest decimal is a text of this kind. It is read as the
nearest double, which is the one it was made from. Infinities and the not-a-number have words of
their own, and a zero keeps its sign; so `ofWord?_text` has no condition.
-/

namespace SymbolicDerivatives.Number

open Float.Model (UnpackedFloat)
open Float.Model.UnpackedFloat

/-! ## Numbers with exponents -/

/-- The exponent that a sign and digits write. -/
def exponentOf (negative : Bool) (digits : List Char) : ℤ :=
  if negative then -(Nat.ofDigitChars 10 digits 0 : ℤ) else Nat.ofDigitChars 10 digits 0

/-- A text without a sign and the number that it writes: a literal, or a literal with an exponent.
-/
inductive Writes : List Char → ℚ → Prop
  | literal {cs : List Char} {q : ℚ} (spells : Spells cs q) : Writes cs q
  | scaled {mantissa digits : List Char} {q : ℚ} (negative : Bool) (spells : Spells mantissa q)
      (ne_nil : digits ≠ []) (all : ∀ c ∈ digits, c.isDigit = true) :
      Writes (mantissa ++ 'e' :: (if negative then '-' else '+') :: digits)
        (q * 10 ^ exponentOf negative digits)

theorem exponent?_sign (negative : Bool) {digits : List Char} (ne_nil : digits ≠ [])
    (all : ∀ c ∈ digits, c.isDigit = true) :
    exponent? ('e' :: (if negative then '-' else '+') :: digits) =
      some (exponentOf negative digits) := by
  have hall : digits.all Text.isDigit = true :=
    List.all_eq_true.2 fun c hc ↦ Text.isDigit_of_isDigit (all c hc)
  have hempty : digits.isEmpty = false := by rwa [List.isEmpty_eq_false_iff]
  cases negative <;>
    simp [exponent?, splitSign, exponentOf, hall, hempty, Text.natOfDigits_eq_ofDigitChars all]

section Unsigned

variable {cs whole fraction tail : List Char}

theorem ofUnsigned?_whole (ne_nil : cs ≠ []) (all : ∀ c ∈ cs, Text.isDigit c = true)
    (hends : Token.EndsNumber tail) :
    ofUnsigned? (cs ++ tail) = (exponent? tail).map (ofDigits cs []) := by
  have hdigit : ∀ c ∈ tail.head?, Text.isDigit c = false := fun c hc ↦ (hends c hc).1
  have hempty : cs.isEmpty = false := by rwa [List.isEmpty_eq_false_iff]
  rw [ofUnsigned?, Token.takeWhile_append_of_head? all hdigit,
    Token.dropWhile_append_of_head? all hdigit, hempty]
  split
  · next heq =>
    split at heq
    · next rest => exact absurd rfl (hends '.' rfl).2
    · cases heq
      rfl

theorem ofUnsigned?_pointed (ne_nil : whole ≠ []) (hwhole : ∀ c ∈ whole, Text.isDigit c = true)
    (hfraction : ∀ c ∈ fraction, Text.isDigit c = true)
    (htail : ∀ c ∈ tail.head?, Text.isDigit c = false) :
    ofUnsigned? (whole ++ '.' :: fraction ++ tail) =
      (exponent? tail).map (ofDigits whole fraction) := by
  have hempty : whole.isEmpty = false := by rwa [List.isEmpty_eq_false_iff]
  rw [List.append_assoc, List.cons_append, ofUnsigned?, List.takeWhile_append_of_pos hwhole,
    List.dropWhile_append_of_pos hwhole, List.takeWhile_cons_of_neg Token.not_isDigit_point,
    List.dropWhile_cons_of_neg Token.not_isDigit_point, List.append_nil, hempty]
  simp only
  rw [Token.takeWhile_append_of_head? hfraction htail,
    Token.dropWhile_append_of_head? hfraction htail]
  rfl

/-- A literal is read as what it writes, scaled by the exponent after it. -/
theorem Spells.exists_ofUnsigned? {q : ℚ} {k : ℤ} (h : Spells cs q) (hends : Token.EndsNumber tail)
    (hk : exponent? tail = some k) :
    ∃ x, ofUnsigned? (cs ++ tail) = some x ∧
      ((10 : ℚ) ^ (-330 : ℤ) ≤ q * 10 ^ k → RoundsTo .positive (q * 10 ^ k) x) := by
  obtain ⟨ne_nil, all⟩ | @⟨whole, fraction, ne_nil, all⟩ := h
  · have hall : ∀ c ∈ cs, Text.isDigit c = true := fun c hc ↦ Text.isDigit_of_isDigit (all c hc)
    refine ⟨ofDigits cs [] k, ?_, ?_⟩
    · rw [ofUnsigned?_whole ne_nil hall hends, hk, Option.map_some]
    · refine roundsTo_nearest_of_le ?_
      rw [List.append_nil, Text.natOfDigits_eq_ofDigitChars all, List.length_nil, Nat.cast_zero,
        sub_zero]
  · have hall : ∀ c ∈ whole ++ fraction, Text.isDigit c = true :=
      fun c hc ↦ Text.isDigit_of_isDigit (all c hc)
    obtain ⟨hwhole, hfraction⟩ := List.forall_mem_append.1 hall
    refine ⟨ofDigits whole fraction k, ?_, ?_⟩
    · rw [ofUnsigned?_pointed ne_nil hwhole hfraction fun c hc ↦ (hends c hc).1, hk,
        Option.map_some]
    · refine roundsTo_nearest_of_le ?_
      rw [Text.natOfDigits_eq_ofDigitChars all, zpow_sub₀ (by decide), zpow_natCast]
      ring

end Unsigned

/-- A number is read as the double nearest to it. -/
theorem Writes.exists_ofUnsigned? {cs : List Char} {q : ℚ} (h : Writes cs q) :
    ∃ x, ofUnsigned? cs = some x ∧ ((10 : ℚ) ^ (-330 : ℤ) ≤ q → RoundsTo .positive q x) := by
  obtain spells | @⟨mantissa, digits, q, negative, spells, ne_nil, all⟩ := h
  · have hends : Token.EndsNumber [] := fun _ h ↦ nomatch h
    have hexponent : exponent? [] = some 0 := rfl
    have hread := spells.exists_ofUnsigned? hends hexponent
    rwa [List.append_nil, zpow_zero, mul_one] at hread
  · refine spells.exists_ofUnsigned? ?_ (exponent?_sign negative ne_nil all)
    rintro c ⟨⟩
    decide

/-! ## Decimals -/

theorem exponentOf_padded (e : ℤ) :
    exponentOf (decide (e < 0)) (List.replicate (2 - (Nat.toDigits 10 e.natAbs).length) '0' ++
      Nat.toDigits 10 e.natAbs) = e := by
  rw [exponentOf, ofDigitChars_padded]
  split
  · next h => rw [decide_eq_true_eq] at h; omega
  · next h => rw [decide_eq_true_eq] at h; omega

theorem writes_scientific (n : ℕ) (e : ℤ) :
    Writes (scientific (Nat.toDigits 10 n) e) (n / 10 ^ (digitCount n - 1) * 10 ^ e) := by
  have hwrites := Writes.scaled (decide (e < 0)) (spells_mantissa n)
    (List.append_ne_nil_of_right_ne_nil _ Nat.toDigits_ne_nil)
    (isDigit_of_mem_padded (2 - (Nat.toDigits 10 e.natAbs).length) e.natAbs)
  rw [exponentOf_padded] at hwrites
  rw [scientific, List.append_assoc, List.cons_append, List.cons_append]
  simpa only [decide_eq_true_eq] using hwrites

theorem writes_decimalText (d : Decimal) :
    Writes (decimalText d) (d.digits * 10 ^ d.exponent) := by
  rw [decimalText]
  split
  · exact .literal (spells_positional d.digits d.exponent)
  · have hvalue : (d.digits : ℚ) * 10 ^ d.exponent = d.digits / 10 ^ (digitCount d.digits - 1) *
        10 ^ (d.exponent + (Nat.toDigits 10 d.digits).length - 1) := by
      have hcount := digitCount_pos d.digits
      have hexponent : d.exponent + (Nat.toDigits 10 d.digits).length - 1 =
          (digitCount d.digits - 1 : ℕ) + d.exponent := by
        rw [digitCount] at hcount ⊢
        omega
      rw [hexponent, zpow_add₀ (by decide), zpow_natCast, ← mul_assoc,
        div_mul_cancel₀ _ (by positivity)]
    rw [hvalue]
    exact writes_scientific _ _

theorem exists_ofUnsigned?_shortest {x : Float} {s : Sign} {m : ℕ} {e : ℤ} {hm : 0 < m}
    (hx : x.toModel.unpack = .finite s m e hm) :
    ∃ y, ofUnsigned? (decimalText (Binary.ofParts s m e).shortest) = some y ∧
      y.toModel.unpack = .finite .positive m e hm := by
  obtain ⟨hc, he⟩ := Double.canonical_of_unpack_eq hx
  have haround := isAround_shortest_ofParts s hm hc
  obtain ⟨y, hread, hrounds⟩ :=
    (writes_decimalText (Binary.ofParts s m e).shortest).exists_ofUnsigned?
  obtain ⟨u, hu, heq⟩ := hrounds (haround.ten_zpow_le hm hc)
  refine ⟨y, hread, ?_⟩
  rw [heq, hu.eq_finite hm hc haround]
  exact unpack_ofModel_pack hm hc he

/-! ## Words -/

section Characters

variable {cs : List Char}

theorem underscoresSeparate_of_notMem (previous : Option Char) (h : '_' ∉ cs) :
    underscoresSeparate previous cs = true := by
  induction cs generalizing previous with
  | nil => rfl
  | cons c cs ih =>
    rw [List.mem_cons, not_or] at h
    rw [underscoresSeparate, ih _ h.2, Bool.and_true, bne_iff_ne.2 (Ne.symm h.1), Bool.true_or]

theorem toLower_of_isDigit {c : Char} (h : c.isDigit = true) : c.toLower = c := by
  rw [Char.toLower, dif_neg]
  rintro ⟨hlower, -⟩
  have hupper := (Char.isDigit_iff_toNat.1 h).2
  have hnine : '9'.toNat = 57 := rfl
  have hbound : 65 ≤ c.val.toNat := UInt32.le_iff_toNat_le.1 hlower
  rw [Char.toNat] at hupper
  omega

theorem ofWord?_signed {negative : Bool} {y : Float} (h : Numeral cs)
    (hread : ofUnsigned? cs = some y) :
    ofWord? (String.ofList (signed negative cs)) = some (if negative then -y else y) := by
  have hunderscore : '_' ∉ cs := fun hmem ↦ by
    rcases h.mem_cases _ hmem with hdigit | hother
    · cases hdigit
    · exact absurd hother (by decide)
  have hfilter : cs.filter (· != '_') = cs :=
    List.filter_eq_self.2 fun c hc ↦ bne_iff_ne.2 (ne_of_mem_of_not_mem hc hunderscore)
  -- a number starts with a digit, which the other words do not
  have hhead : ∀ w : String, w.toList.head?.all (!·.isDigit) = true →
      String.ofList (cs.map Char.toLower) ≠ w := by
    rintro w hw rfl
    obtain ⟨c, hc, hdigit⟩ := h.head?_isDigit
    rw [String.toList_ofList, List.head?_map, Option.mem_def.1 hc, Option.map_some,
      toLower_of_isDigit hdigit, Option.all_some, hdigit] at hw
    cases hw
  rw [ofWord?, String.toList_ofList, splitSign_signed h,
    ← Option.map_some (f := fun x ↦ if negative then -x else x)]
  refine congrArg (Option.map _) ?_
  split
  · next heq => exact absurd heq (hhead _ (by decide))
  · next heq => exact absurd heq (hhead _ (by decide))
  · next heq => exact absurd heq (hhead _ (by decide))
  · rw [underscoresSeparate_of_notMem none hunderscore, if_pos rfl, hfilter, hread]

end Characters

/-! ## Texts are read back -/

section Texts

variable {x : Float}

theorem text_of_notANumber (hx : x.toModel.unpack = .notANumber) : text x = "nan" := by
  rw [text, Double.ofFloat_eq, hx, Double.ofUnpacked]

theorem text_of_infinity {s : Sign} (hx : x.toModel.unpack = .infinity s) :
    text x = String.ofList (signed (s == .negative) ['i', 'n', 'f']) := by
  rw [text, Double.ofFloat_eq, hx, Double.ofUnpacked]

theorem text_of_zero {s : Sign} (hx : x.toModel.unpack = .zero s) :
    text x = String.ofList (signed (s == .negative) ['0', '.', '0']) := by
  rw [text, Double.ofFloat_eq, hx, Double.ofUnpacked]
  rfl

theorem ofWord?_eq_some {w : String} {y : Float} (hread : ofWord? w = some y)
    (hy : y.toModel.unpack = x.toModel.unpack) : ofWord? w = some x :=
  hread.trans (congrArg some (Double.eq_of_unpack_eq hy))

/-- **Every double is read back from its text**, with the sign of a zero, and also if it is infinite
or not a number. -/
theorem ofWord?_text (x : Float) : ofWord? (text x) = some x := by
  cases hx : x.toModel.unpack with
  | notANumber =>
    have hread : ofWord? "nan" = some notANumber := by decide +kernel
    rw [text_of_notANumber hx]
    exact ofWord?_eq_some hread (by rw [hx]; rfl)
  | infinity s =>
    rw [text_of_infinity hx]
    cases s with
    | positive =>
      have hread : ofWord? "inf" = some infinity := by decide +kernel
      exact ofWord?_eq_some hread (by rw [hx]; rfl)
    | negative =>
      have hread : ofWord? "-inf" = some (-infinity) := by decide +kernel
      exact ofWord?_eq_some hread (by rw [hx]; rfl)
  | zero s =>
    rw [text_of_zero hx]
    cases s with
    | positive =>
      have hread : ofWord? "0.0" = some 0 := by decide +kernel
      exact ofWord?_eq_some hread (by rw [hx]; rfl)
    | negative =>
      have hread : ofWord? "-0.0" = some (-0) := by decide +kernel
      exact ofWord?_eq_some hread (by rw [hx]; rfl)
  | finite s m e hm =>
    obtain ⟨y, hread, hy⟩ := exists_ofUnsigned?_shortest hx
    rw [← String.ofList_toList (s := text x), toList_text hx]
    exact ofWord?_eq_some (ofWord?_signed (numeral_decimalText _) hread)
      ((unpack_signed hx hy).trans hx.symm)

theorem Numeral.isWord_signed {cs : List Char} (h : Numeral cs) (negative : Bool) :
    Text.IsWord (String.ofList (signed negative cs)) := by
  have hother : ∀ c ∈ ['.', 'e', '+', '-'], Text.isBlank c = false :=
    Text.solid_of_any (by decide)
  have hsolid : ∀ c ∈ cs, Text.isBlank c = false := fun c hc ↦ (h.mem_cases c hc).elim
    (fun hdigit ↦ Text.isBlank_of_isDigit (Text.isDigit_of_isDigit hdigit)) (hother c)
  obtain ⟨c, hc, -⟩ := h.head?_isDigit
  refine Text.isWord_ofList_iff.2 ?_
  cases negative with
  | false => exact ⟨List.ne_nil_of_mem (List.mem_of_mem_head? hc), hsolid⟩
  | true => exact ⟨List.cons_ne_nil _ _, List.forall_mem_cons.2 ⟨by decide, hsolid⟩⟩

theorem isWord_text (x : Float) : Text.IsWord (text x) := by
  cases hx : x.toModel.unpack with
  | notANumber =>
    rw [text_of_notANumber hx]
    have hnan : Text.IsWord (String.ofList ['n', 'a', 'n']) :=
      Text.isWord_ofList_iff.2 ⟨List.cons_ne_nil _ _, Text.solid_of_any (by decide)⟩
    exact hnan
  | infinity s =>
    rw [text_of_infinity hx, Text.isWord_ofList_iff]
    cases s <;> exact ⟨List.cons_ne_nil _ _, Text.solid_of_any (by decide)⟩
  | zero s =>
    rw [text_of_zero hx, Text.isWord_ofList_iff]
    cases s <;> exact ⟨List.cons_ne_nil _ _, Text.solid_of_any (by decide)⟩
  | finite s m e hm =>
    rw [← String.ofList_toList (s := text x), toList_text hx]
    exact (numeral_decimalText _).isWord_signed _

end Texts

end SymbolicDerivatives.Number
