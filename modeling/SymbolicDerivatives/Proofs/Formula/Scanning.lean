import SymbolicDerivatives.Formula.Token
import SymbolicDerivatives.Proofs.Number.Digits
import SymbolicDerivatives.Proofs.Traversal
import Mathlib

/-!
# Scanning back what was written

A token is found again in a text if nothing that follows prolongs it. In the formulas that are
written, an operand is followed by an operator sign, by a closing parenthesis or by nothing. These
prolong neither numbers nor names, and before them a keyword is a plain name. A keyword that is
written as a function is followed by an opening parenthesis.
-/

namespace SymbolicDerivatives

/-! ## Character classes -/

theorem Text.isBlank_eq_false {c : Char} (hlower : 0x20 < c.toNat) (hupper : c.toNat < 0x85) :
    isBlank c = false := by
  rw [isBlank, List.any_eq_false]
  intro range hrange
  have hall : ∀ range ∈ blanks, range.2 ≤ 0x20 ∨ 0x85 ≤ range.1 := by decide
  have := hall range hrange
  simp only [Bool.and_eq_true, decide_eq_true_eq]
  omega

theorem Text.isDigit_eq_false {c : Char} (hdigit : c.isDigit = false) (hupper : c.toNat < 0x660) :
    isDigit c = false := by
  have hnone : (zeros.find? fun z ↦ z ≤ c.toNat && c.toNat < z + 10) = none := by
    rw [List.find?_eq_none]
    intro z hz
    have hall : ∀ z ∈ zeros, z = 0x30 ∨ 0x660 ≤ z := by decide
    have hrange : ¬('0'.toNat ≤ c.toNat ∧ c.toNat ≤ '9'.toNat) := by
      rw [← Char.isDigit_iff_toNat, hdigit]
      exact Bool.false_ne_true
    have hzero : '0'.toNat = 0x30 := rfl
    have hnine : '9'.toNat = 0x39 := rfl
    have := hall z hz
    simp only [Bool.and_eq_true, decide_eq_true_eq]
    omega
  rw [isDigit, digit?, hnone]
  rfl

theorem Text.isBlank_of_isDigit {c : Char} (h : isDigit c = true) : isBlank c = false := by
  obtain ⟨d, hd⟩ := Option.isSome_iff_exists.1 h
  obtain ⟨z, hfind, -⟩ := Option.map_eq_some_iff.1 hd
  have hz := List.mem_of_find?_eq_some hfind
  have hc := List.find?_some hfind
  have hapart : ∀ z ∈ zeros, ∀ range ∈ blanks, range.2 < z ∨ z + 10 ≤ range.1 := by decide
  rw [isBlank, List.any_eq_false]
  intro range hrange
  have := hapart z hz range hrange
  simp only [Bool.and_eq_true, decide_eq_true_eq] at hc ⊢
  omega

namespace Token

theorem range_of_isNameStart {c : Char} (h : isNameStart c = true) :
    0x40 < c.toNat ∧ c.toNat < 0x7b := by
  rw [isNameStart, Bool.or_eq_true, decide_eq_true_eq] at h
  rcases h with h | rfl
  · simp only [Char.isAlpha, Char.isUpper, Char.isLower, Bool.or_eq_true, Bool.and_eq_true,
      decide_eq_true_eq, ge_iff_le, UInt32.le_iff_toNat_le] at h
    have hbounds : 65 ≤ c.val.toNat ∧ c.val.toNat ≤ 90 ∨ 97 ≤ c.val.toNat ∧ c.val.toNat ≤ 122 := h
    rw [Char.toNat]
    omega
  · decide

theorem isBlank_of_isNameStart {c : Char} (h : isNameStart c = true) : Text.isBlank c = false := by
  obtain ⟨hlower, hupper⟩ := range_of_isNameStart h
  exact Text.isBlank_eq_false (by omega) (by omega)

theorem isDigit_of_isNameStart {c : Char} (h : isNameStart c = true) : Text.isDigit c = false := by
  obtain ⟨hlower, hupper⟩ := range_of_isNameStart h
  refine Text.isDigit_eq_false ?_ (by omega)
  have hnine : '9'.toNat = 0x39 := rfl
  rw [← Bool.not_eq_true, Char.isDigit_iff_toNat]
  omega

theorem isNamePart_of_isNameStart {c : Char} (h : isNameStart c = true) : isNamePart c = true := by
  rw [isNameStart, Bool.or_eq_true] at h
  rw [isNamePart, Char.isAlphanum, Bool.or_eq_true, Bool.or_eq_true]
  exact h.imp_left .inl

/-! ## Names -/

/-- A word that a name token can have. -/
inductive IsName : List Char → Prop
  | intro {first : Char} {rest : List Char} (start : isNameStart first = true)
      (parts : ∀ c ∈ rest, isNamePart c = true) : IsName (first :: rest)

theorem isName_of_scanWord {c : Char} (hc : isNameStart c = true) {cs rest : List Char}
    {word : String} (h : scanWord c cs = (.name word, rest)) : IsName word.toList := by
  have hword : IsName (String.ofList (c :: cs.takeWhile isNamePart)).toList := by
    rw [String.toList_ofList]
    exact .intro hc fun d hd ↦ List.mem_takeWhile_imp hd
  rw [scanWord] at h
  split at h
  · split at h
    · cases h
    · cases h
      exact hword
  · cases h
    exact hword

theorem isName_of_scanNext? {cs rest : List Char} {word : String}
    (h : scanNext? cs = some (.name word, rest)) : IsName word.toList := by
  cases cs with
  | nil => cases h
  | cons c cs =>
    rw [scanNext?] at h
    split at h
    · have hnumber := Option.some.inj h
      rw [scanNumber] at hnumber
      split at hnumber <;> cases hnumber
    split at h
    · next hc => exact isName_of_scanWord hc (Option.some.inj h)
    · obtain ⟨t, ht, heq⟩ := Option.map_eq_some_iff.1 h
      cases heq
      unfold sign? at ht
      split at ht <;> cases ht

theorem isName_of_mem_scanFrom {position : ℕ} {cs : List Char} {tokens : List Token}
    (h : scanFrom position cs = .ok tokens) {word : String} (hword : .name word ∈ tokens) :
    IsName word.toList := by
  fun_induction scanFrom position cs generalizing tokens with
  | case1 position =>
    cases h
    cases hword
  | case2 position c cs hblank ih => exact ih h hword
  | case3 position c cs hblank hnext => cases h
  | case4 position c cs hblank token rest hnext hlt ih =>
    obtain ⟨tail, htail, rfl⟩ := map_eq_ok_iff.1 h
    rcases List.mem_cons.1 hword with rfl | hword
    · exact isName_of_scanNext? hnext
    · exact ih htail hword

/-! ## Tokens before a text -/

/-- Before `rest`, the characters are cut into the tokens. -/
def Scans (cs : List Char) (tokens : List Token) (rest : List Char) : Prop :=
  ∀ position,
    scanFrom position (cs ++ rest) = (tokens ++ ·) <$> scanFrom (position + cs.length) rest

namespace Scans

variable {cs cs' rest : List Char} {tokens tokens' : List Token}

theorem append (h : Scans cs tokens (cs' ++ rest)) (h' : Scans cs' tokens' rest) :
    Scans (cs ++ cs') (tokens ++ tokens') rest := by
  intro position
  rw [List.append_assoc, h, h', List.length_append, ← Nat.add_assoc]
  cases scanFrom (position + cs.length + cs'.length) rest with
  | error e => rfl
  | ok tail => exact congrArg Except.ok (List.append_assoc ..).symm

theorem scan_eq {text : String} (h : Scans text.toList tokens []) : scan text = .ok tokens := by
  have heq := h 0
  rw [List.append_nil, scanFrom] at heq
  rw [scan, heq]
  exact congrArg Except.ok (List.append_nil _)

theorem of_scanNext? {t : Token} {c : Char} (hblank : Text.isBlank c = false)
    (h : scanNext? (c :: cs ++ rest) = some (t, rest)) : Scans (c :: cs) [t] rest := by
  intro position
  have hlength : (c :: cs ++ rest).length - rest.length = (c :: cs).length := by
    rw [List.length_append, Nat.add_sub_cancel]
  rw [List.cons_append] at h hlength ⊢
  rw [scanFrom, if_neg (ne_true_of_eq_false hblank)]
  split
  · next hnone =>
    rw [hnone] at h
    cases h
  · next token rest' hsome =>
    obtain ⟨rfl, rfl⟩ := Prod.mk.inj (Option.some.inj (hsome.symm.trans h))
    rw [hlength]
    rfl

end Scans

/-! ## Numbers, names and signs -/

/-- The characters that can follow an operand. -/
def enders : List Char := ['+', '-', '*', '^', ')']

/-- A text that does not go on with the operand before it: it is at its end, or starts with an
operator sign or a closing parenthesis. -/
def EndsOperand (rest : List Char) : Prop := ∀ c ∈ rest.head?, c ∈ enders

theorem endsOperand_nil : EndsOperand [] := fun _ h ↦ nomatch h

theorem endsOperand_cons {c : Char} (h : c ∈ enders) (rest : List Char) :
    EndsOperand (c :: rest) := by
  rintro d hd
  rwa [← Option.some.inj hd]

/-- A text that does not go on with the number before it. -/
def EndsNumber (rest : List Char) : Prop := ∀ c ∈ rest.head?, Text.isDigit c = false ∧ c ≠ '.'

section Operands

variable {cs rest : List Char} {p : Char → Bool}

theorem takeWhile_append_of_head? (hcs : ∀ c ∈ cs, p c = true)
    (hrest : ∀ c ∈ rest.head?, p c = false) : (cs ++ rest).takeWhile p = cs := by
  rw [List.takeWhile_append_of_pos hcs]
  cases rest with
  | nil => rw [List.takeWhile_nil, List.append_nil]
  | cons c rest =>
    rw [List.takeWhile_cons_of_neg (ne_true_of_eq_false (hrest c rfl)), List.append_nil]

theorem dropWhile_append_of_head? (hcs : ∀ c ∈ cs, p c = true)
    (hrest : ∀ c ∈ rest.head?, p c = false) : (cs ++ rest).dropWhile p = rest := by
  rw [List.dropWhile_append_of_pos hcs]
  cases rest with
  | nil => rfl
  | cons c rest =>
    rw [List.dropWhile_cons_of_neg (ne_true_of_eq_false (hrest c rfl))]

theorem EndsOperand.head?_eq_false (hrest : EndsOperand rest) (hp : enders.any p = false) :
    ∀ c ∈ rest.head?, p c = false :=
  fun c hc ↦ Bool.eq_false_of_not_eq_true (List.any_eq_false.1 hp c (hrest c hc))

theorem EndsOperand.endsNumber (hrest : EndsOperand rest) : EndsNumber rest := by
  have hnone : enders.any (fun c ↦ Text.isDigit c || c = '.') = false := by decide
  intro c hc
  simpa using hrest.head?_eq_false hnone c hc

theorem EndsOperand.admitsFunction_eq (hrest : EndsOperand rest) : admitsFunction rest = false := by
  have hnone : enders.any (fun c ↦ Text.isBlank c || c = '(') = false := by decide
  cases rest with
  | nil => rfl
  | cons c rest => exact hrest.head?_eq_false hnone c rfl

/-- A word that nothing prolongs is a function or a name. -/
theorem scanNext?_word (hrest : ∀ c ∈ rest.head?, isNamePart c = false) (h : IsName cs) :
    scanNext? (cs ++ rest) =
      match Func.ofKeyword? (String.ofList cs) with
      | some f => some (if admitsFunction rest then .function f else .name (String.ofList cs), rest)
      | none => some (.name (String.ofList cs), rest) := by
  obtain @⟨first, parts, start, hparts⟩ := h
  rw [List.cons_append, scanNext?, isDigit_of_isNameStart start, if_neg Bool.false_ne_true,
    if_pos start, scanWord, takeWhile_append_of_head? hparts hrest,
    dropWhile_append_of_head? hparts hrest]
  cases Func.ofKeyword? (String.ofList (first :: parts)) <;> rfl

theorem Scans.of_isName (h : IsName cs) {t : Token}
    (hnext : scanNext? (cs ++ rest) = some (t, rest)) : Scans cs [t] rest := by
  obtain ⟨start, -⟩ := h
  exact .of_scanNext? (isBlank_of_isNameStart start) hnext

/-- A name is found again, even if it is a keyword. -/
theorem scans_name (hrest : EndsOperand rest) (h : IsName cs) :
    Scans cs [.name (String.ofList cs)] rest := by
  refine .of_isName h ?_
  rw [scanNext?_word (hrest.head?_eq_false (by decide)) h]
  split
  · -- a keyword is a name unless a parenthesis or white space follows
    rw [hrest.admitsFunction_eq]
    rfl
  · rfl

theorem not_isDigit_point : ¬Text.isDigit '.' = true := by decide

theorem scanNumber_whole (hrest : EndsNumber rest) {c : Char}
    (hcs : ∀ c ∈ cs, Text.isDigit c = true) :
    scanNumber c (cs ++ rest) = (.number (String.ofList (c :: cs)), rest) := by
  have hdigit : ∀ c ∈ rest.head?, Text.isDigit c = false := fun c hc ↦ (hrest c hc).1
  rw [scanNumber, takeWhile_append_of_head? hcs hdigit, dropWhile_append_of_head? hcs hdigit]
  split
  · next tail => exact absurd rfl (hrest '.' rfl).2
  · rfl

theorem scanNumber_pointed (hrest : ∀ c ∈ rest.head?, Text.isDigit c = false) {c : Char}
    {fraction : List Char} (hcs : ∀ c ∈ cs, Text.isDigit c = true)
    (hfraction : ∀ c ∈ fraction, Text.isDigit c = true) :
    scanNumber c (cs ++ '.' :: fraction ++ rest) =
      (.number (String.ofList (c :: cs ++ '.' :: fraction)), rest) := by
  rw [List.append_assoc, List.cons_append, scanNumber, List.takeWhile_append_of_pos hcs,
    List.dropWhile_append_of_pos hcs, List.takeWhile_cons_of_neg not_isDigit_point,
    List.dropWhile_cons_of_neg not_isDigit_point, List.append_nil]
  simp only
  rw [takeWhile_append_of_head? hfraction hrest, dropWhile_append_of_head? hfraction hrest]

theorem scans_number (hrest : EndsNumber rest) {q : ℚ} (h : Number.Spells cs q) :
    Scans cs [.number (String.ofList cs)] rest := by
  cases h with
  | whole ne_nil all =>
    obtain ⟨c, digits, rfl⟩ := List.exists_cons_of_ne_nil ne_nil
    obtain ⟨hc, hdigits⟩ := List.forall_mem_cons.1 all
    refine .of_scanNext? (Text.isBlank_of_isDigit (Text.isDigit_of_isDigit hc)) ?_
    rw [List.cons_append, scanNext?, if_pos (Text.isDigit_of_isDigit hc),
      scanNumber_whole hrest fun d hd ↦ Text.isDigit_of_isDigit (hdigits d hd)]
  | @pointed whole fraction ne_nil all =>
    obtain ⟨c, digits, rfl⟩ := List.exists_cons_of_ne_nil ne_nil
    obtain ⟨hc, hdigits⟩ := List.forall_mem_cons.1 all
    obtain ⟨hwhole, hfraction⟩ := List.forall_mem_append.1 hdigits
    refine .of_scanNext? (Text.isBlank_of_isDigit (Text.isDigit_of_isDigit hc)) ?_
    rw [List.cons_append, scanNext?, if_pos (Text.isDigit_of_isDigit hc)]
    exact congrArg some (scanNumber_pointed (fun d hd ↦ (hrest d hd).1)
      (fun d hd ↦ Text.isDigit_of_isDigit (hwhole d hd))
      fun d hd ↦ Text.isDigit_of_isDigit (hfraction d hd))

end Operands

theorem class_of_sign? {c : Char} {t : Token} (h : sign? c = some t) :
    Text.isBlank c = false ∧ Text.isDigit c = false ∧ isNameStart c = false := by
  unfold sign? at h
  split at h
  · decide
  · decide
  · decide
  · decide
  · decide
  · decide
  · cases h

theorem scanNext?_sign {c : Char} {t : Token} (h : sign? c = some t) (rest : List Char) :
    scanNext? (c :: rest) = some (t, rest) := by
  obtain ⟨-, hdigit, hname⟩ := class_of_sign? h
  rw [scanNext?, hdigit, hname, h]
  rfl

theorem scans_sign {c : Char} {t : Token} (h : sign? c = some t) (rest : List Char) :
    Scans [c] [t] rest :=
  .of_scanNext? (class_of_sign? h).1 (scanNext?_sign h rest)

theorem isName_keyword (f : Func) : IsName f.keyword.toList := by
  cases f <;> exact .intro (by decide) (List.all_eq_true.1 (by decide))

theorem scans_function (f : Func) (rest : List Char) :
    Scans f.keyword.toList [.function f] ('(' :: rest) := by
  have hparen : ∀ c ∈ ('(' :: rest).head?, isNamePart c = false := by
    rintro c ⟨⟩
    decide
  refine .of_isName (isName_keyword f) ?_
  rw [scanNext?_word hparen (isName_keyword f), String.ofList_toList, Func.ofKeyword?_keyword]
  rfl

end Token

end SymbolicDerivatives
