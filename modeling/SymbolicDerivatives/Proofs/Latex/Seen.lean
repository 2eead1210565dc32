import SymbolicDerivatives.Proofs.Number.Numeral
import SymbolicDerivatives.Proofs.Formula.Scanning

/-!
# What is seen of a typeset formula

Typesetting puts the base of a power into braces that are not seen, so a power shows as its base
with a raised exponent. `Latex.seen` leaves these braces out. What is left can be cut into the
tokens of a formula: words, signs, parentheses, and the raised exponent as a parenthesis after `^`.
A numeral is a word like any other here, since a sign before it is a sign of its own. Where an
operand follows a numeral directly, they are multiplied.
-/

namespace SymbolicDerivatives.Latex

open Token (isNameStart isNamePart IsName)

/-! ## Braces that are not seen -/

/-- What is seen of the characters of a LaTeX text. An opening brace is that of a base unless it
directly follows `^`, and a closing brace is that of a base if `^` directly follows it. -/
def seenFrom (afterCaret : Bool) : List Char → List Char
  | [] => []
  | c :: cs =>
    if c = '\x7b' && !afterCaret || c = '\x7d' && cs.head? = some '^' then seenFrom false cs
    else c :: seenFrom (c = '^') cs

/-- What is seen of a LaTeX text. -/
def seen (latex : String) : String := String.ofList (seenFrom false latex.toList)

theorem toList_power (base exponent : String) :
    ("\x7b" ++ base ++ "\x7d^\x7b" ++ exponent ++ "\x7d").toList =
      '\x7b' :: (base.toList ++ '\x7d' :: '^' :: '\x7b' :: (exponent.toList ++ ['\x7d'])) := by
  simp only [String.toList_append, List.append_assoc]
  rfl

/-! ## Tokens of what is seen -/

/-- Whether a character can stand in the digits of a numeral. -/
def isNumeralPart (c : Char) : Bool := c.isDigit || c = '.'

/-- The numeral at the front of a text, with its exponent if it has one, and what follows it. -/
def splitNumeral (cs : List Char) : List Char × List Char :=
  let digits := cs.takeWhile isNumeralPart
  match cs.dropWhile isNumeralPart with
  | 'e' :: sign :: rest =>
    if sign ∈ ['+', '-'] then
      (digits ++ 'e' :: sign :: rest.takeWhile isNumeralPart, rest.dropWhile isNumeralPart)
    else (digits, 'e' :: sign :: rest)
  | rest => (digits, rest)

/-- Whether a character can start an operand after a numeral. -/
def startsFactor (c : Char) : Bool := isNameStart c || c = '(' || c = '\\'

/-- The tokens of a sign at the front of a text, and what follows them. -/
def nextSign : Char → List Char → List Token × List Char
  | '(', cs => ([.opening], cs)
  | ')', cs | '\x7d', cs => ([.closing], cs)
  | '^', '\x7b' :: cs => ([.caret, .opening], cs)
  | '-', cs => ([.minus], cs)
  | ' ', '+' :: ' ' :: cs => ([.plus], cs)
  | ' ', '-' :: ' ' :: cs => ([.minus], cs)
  | ' ', '\\' :: 'c' :: 'd' :: 'o' :: 't' :: ' ' :: cs => ([.times], cs)
  | '\\', 'l' :: 'n' :: '(' :: cs => ([.function .ln, .opening], cs)
  | '\\', 's' :: 'i' :: 'n' :: '(' :: cs => ([.function .sin, .opening], cs)
  | '\\', 'c' :: 'o' :: 's' :: '(' :: cs => ([.function .cos, .opening], cs)
  | _, cs => ([], cs)

/-- The tokens at the front of a text that is not empty, and what follows them. -/
def nextTokens (c : Char) (cs : List Char) : List Token × List Char :=
  if c.isDigit then
    let (numeral, rest) := splitNumeral (c :: cs)
    (.name (String.ofList numeral) :: if rest.head?.any startsFactor then [.times] else [], rest)
  else if isNameStart c then
    ([.name (String.ofList (c :: cs.takeWhile isNamePart))], cs.dropWhile isNamePart)
  else nextSign c cs

def tokens : List Char → List Token
  | [] => []
  | c :: cs =>
    let next := nextTokens c cs
    if next.2.length ≤ cs.length then next.1 ++ tokens next.2 else []
termination_by cs => cs.length

theorem tokens_cons {c : Char} {cs rest : List Char} {ts : List Token}
    (h : nextTokens c cs = (ts, rest)) (hlength : rest.length ≤ cs.length) :
    tokens (c :: cs) = ts ++ tokens rest := by
  rw [tokens, h, if_pos hlength]

/-- The tokens of what is seen of a LaTeX text. -/
def reads (latex : List Char) : List Token := tokens (seenFrom false latex)

/-! ## Words -/

/-- A text that does not go on with the formula before it. -/
def Ends (rest : List Char) : Prop := ∀ c ∈ rest.head?, c ∈ [' ', ')', '\x7d']

theorem ends_nil : Ends [] := fun _ h ↦ by cases h

theorem ends_cons {c : Char} (h : c ∈ [' ', ')', '\x7d']) (cs : List Char) : Ends (c :: cs) := by
  rintro d hd
  rwa [← Option.some.inj hd]

/-- What can follow directly after what is seen of a formula. -/
def enders : List Char := [' ', ')', '\x7d', '^']

theorem Ends.mem_enders {rest : List Char} (h : Ends rest) :
    ∀ c ∈ (seenFrom false rest).head?, c ∈ enders := by
  match rest with
  | [] => exact fun _ hc ↦ by cases hc
  | c :: cs =>
    have hc := h c rfl
    -- the closing brace of a base is not seen, but the `^` after it is
    by_cases hbase : c = '\x7d' ∧ cs.head? = some '^'
    · obtain ⟨rfl, hcaret⟩ := hbase
      obtain ⟨tail, rfl⟩ := List.head?_eq_some_iff.1 hcaret
      intro d hd
      rw [← Option.some.inj hd]
      decide
    · have hopening : c ≠ '\x7b' := by
        rintro rfl
        exact absurd hc (by decide)
      rw [seenFrom, if_neg (by simpa [hopening] using hbase)]
      intro d hd
      rw [← Option.some.inj hd]
      exact List.mem_append_left ['^'] hc

theorem Ends.head?_eq_false {rest : List Char} (h : Ends rest) {p : Char → Bool}
    (hp : enders.any p = false) : ∀ c ∈ (seenFrom false rest).head?, p c = false :=
  fun c hc ↦ Bool.eq_false_of_not_eq_true (List.any_eq_false.1 hp c (h.mem_enders c hc))

/-- A word without braces is seen as it is. -/
theorem seenFrom_append {word : List Char} (h : ∀ c ∈ word, c ∉ ['\x7b', '\x7d', '^'])
    (rest : List Char) : seenFrom false (word ++ rest) = word ++ seenFrom false rest := by
  induction word with
  | nil => rfl
  | cons c word ih =>
    obtain ⟨hc, hword⟩ := List.forall_mem_cons.1 h
    simp only [List.mem_cons, List.not_mem_nil, or_false, not_or] at hc
    obtain ⟨hopening, hclosing, hcaret⟩ := hc
    rw [List.cons_append, seenFrom, if_neg (by simp [hopening, hclosing]), decide_eq_false hcaret,
      ih hword, List.cons_append]

theorem notMem_of_isNamePart {c : Char} (h : isNamePart c = true) :
    c ∉ ['\x7b', '\x7d', '^'] := by
  have hnone : ['\x7b', '\x7d', '^'].any isNamePart = false := by decide
  exact fun hmem ↦ absurd h (List.any_eq_false.1 hnone c hmem)

theorem isDigit_of_isNameStart {c : Char} (h : isNameStart c = true) : c.isDigit = false := by
  rw [← Bool.not_eq_true]
  intro hdigit
  have hfalse := Token.isDigit_of_isNameStart h
  rw [Text.isDigit_of_isDigit hdigit] at hfalse
  cases hfalse

theorem seenFrom_name {word : List Char} (h : IsName word) (rest : List Char) :
    seenFrom false (word ++ rest) = word ++ seenFrom false rest := by
  obtain @⟨first, parts, start, hparts⟩ := h
  exact seenFrom_append (List.forall_mem_cons.2 ⟨notMem_of_isNamePart
    (Token.isNamePart_of_isNameStart start), fun c hc ↦ notMem_of_isNamePart (hparts c hc)⟩) rest

theorem reads_name {word rest : List Char} (h : IsName word) (hrest : Ends rest) :
    reads (word ++ rest) = .name (String.ofList word) :: reads rest := by
  have hends := hrest.head?_eq_false (p := isNamePart) (by decide)
  rw [reads, seenFrom_name h]
  obtain @⟨first, parts, start, hparts⟩ := h
  have hnext : nextTokens first (parts ++ seenFrom false rest) =
      ([.name (String.ofList (first :: parts))], seenFrom false rest) := by
    rw [nextTokens, isDigit_of_isNameStart start, if_neg Bool.false_ne_true, if_pos start,
      Token.takeWhile_append_of_head? hparts hends, Token.dropWhile_append_of_head? hparts hends]
  exact tokens_cons hnext (by simp)

/-! ## Numerals -/

/-- A text that does not go on with the numeral before it. -/
structure EndsNumeral (rest : List Char) : Prop where
  head : ∀ c ∈ rest.head?, isNumeralPart c = false
  exponent : ∀ sign tail, rest = 'e' :: sign :: tail → sign ∉ ['+', '-']

theorem isNumeralPart_of_isDigit {c : Char} (h : c.isDigit = true) : isNumeralPart c = true := by
  rw [isNumeralPart, h, Bool.true_or]

theorem isNumeralPart_of_mem_spells {cs : List Char} {q : ℚ} (h : Number.Spells cs q) :
    ∀ c ∈ cs, isNumeralPart c = true := by
  intro c hc
  rcases h.mem_cases c hc with hdigit | rfl
  · exact isNumeralPart_of_isDigit hdigit
  · rfl

theorem isNumeralPart_or_mem {numeral : List Char} (h : Number.Numeral numeral) :
    ∀ c ∈ numeral, isNumeralPart c = true ∨ c ∈ ['e', '+', '-'] := by
  intro c hc
  rcases h.mem_cases c hc with hdigit | hother
  · exact .inl (isNumeralPart_of_isDigit hdigit)
  · rcases List.mem_cons.1 hother with rfl | hsign
    · exact .inl rfl
    · exact .inr hsign

theorem splitNumeral_append {numeral rest : List Char} (h : Number.Numeral numeral)
    (hrest : EndsNumeral rest) : splitNumeral (numeral ++ rest) = (numeral, rest) := by
  rcases h with ⟨q, hspells⟩ | @⟨mantissa, magnitude, _, _, sign, hmantissa, hsign, hmagnitude⟩
  · have hall := isNumeralPart_of_mem_spells hspells
    rw [splitNumeral, Token.takeWhile_append_of_head? hall hrest.head,
      Token.dropWhile_append_of_head? hall hrest.head]
    split
    · next sign tail => rw [if_neg (hrest.exponent sign tail rfl)]
    · rfl
  · have hall := isNumeralPart_of_mem_spells hmantissa
    have hall' := isNumeralPart_of_mem_spells hmagnitude
    have he : ∀ c ∈ ('e' :: sign :: magnitude ++ rest).head?, isNumeralPart c = false := by
      intro c hc
      rw [← Option.some.inj hc]
      decide
    rw [List.append_assoc, splitNumeral, Token.takeWhile_append_of_head? hall he,
      Token.dropWhile_append_of_head? hall he]
    change (if sign ∈ ['+', '-'] then (mantissa ++ 'e' :: sign :: (magnitude ++ rest).takeWhile
      isNumeralPart, (magnitude ++ rest).dropWhile isNumeralPart) else _) = _
    rw [if_pos hsign, Token.takeWhile_append_of_head? hall' hrest.head,
      Token.dropWhile_append_of_head? hall' hrest.head]

theorem tokens_numeral {numeral rest : List Char} (h : Number.Numeral numeral)
    (hrest : EndsNumeral rest) : tokens (numeral ++ rest) = .name (String.ofList numeral) ::
      (if rest.head?.any startsFactor then [.times] else []) ++ tokens rest := by
  obtain ⟨c, hc, hdigit⟩ := h.head?_isDigit
  obtain ⟨digits, rfl⟩ := List.head?_eq_some_iff.1 hc
  have hsplit := splitNumeral_append h hrest
  rw [List.cons_append] at hsplit ⊢
  refine tokens_cons ?_ (by simp)
  rw [nextTokens, if_pos hdigit, hsplit]

/-- What is seen of a factor that can follow a numeral directly. -/
structure StartsFactor (factor : List Char) : Prop where
  head : ∃ c ∈ factor.head?, startsFactor c = true
  exponent : ∀ sign tail, factor = 'e' :: sign :: tail → sign ∉ ['+', '-']

theorem seenFrom_numeral {numeral : List Char} (h : Number.Numeral numeral) (rest : List Char) :
    seenFrom false (numeral ++ rest) = numeral ++ seenFrom false rest := by
  have hnone : ['\x7b', '\x7d', '^'].any (fun c ↦ isNumeralPart c || c ∈ ['e', '+', '-']) =
      false := by decide
  refine seenFrom_append (fun c hc hmem ↦ List.any_eq_false.1 hnone c hmem ?_) rest
  rw [Bool.or_eq_true, decide_eq_true_eq]
  exact isNumeralPart_or_mem h c hc

theorem reads_numeral {numeral rest : List Char} (h : Number.Numeral numeral) (hrest : Ends rest) :
    reads (numeral ++ rest) = .name (String.ofList numeral) :: reads rest := by
  have hends : EndsNumeral (seenFrom false rest) := by
    refine ⟨hrest.head?_eq_false (by decide), fun sign tail heq ↦ ?_⟩
    exact absurd (hrest.mem_enders 'e' (by rw [heq]; rfl)) (by decide)
  have hnone : (seenFrom false rest).head?.any startsFactor = false :=
    (Option.any_eq_false _ _).2 (hrest.head?_eq_false (by decide))
  rw [reads, seenFrom_numeral h, tokens_numeral h hends, hnone]
  rfl

theorem isNumeralPart_of_startsFactor {c : Char} (h : startsFactor c = true) :
    isNumeralPart c = false := by
  simp only [startsFactor, Bool.or_eq_true, decide_eq_true_eq] at h
  rcases h with (hstart | rfl) | rfl
  · have hpoint : c ≠ '.' := by
      rintro rfl
      exact absurd hstart (by decide)
    rw [isNumeralPart, isDigit_of_isNameStart hstart, decide_eq_false hpoint]
    rfl
  · decide
  · decide

/-- A numeral that another factor directly follows is multiplied by it. -/
theorem reads_coefficient {numeral rest : List Char} (h : Number.Numeral numeral)
    (hrest : StartsFactor (seenFrom false rest)) :
    reads (numeral ++ rest) = .name (String.ofList numeral) :: .times :: reads rest := by
  obtain ⟨c, hc, hstarts⟩ := hrest.head
  have hends : EndsNumeral (seenFrom false rest) := by
    refine ⟨fun d hd ↦ ?_, hrest.exponent⟩
    obtain rfl := Option.some.inj (hc.symm.trans hd)
    exact isNumeralPart_of_startsFactor hstarts
  have hsome : (seenFrom false rest).head?.any startsFactor = true := by
    rw [hc]
    exact hstarts
  rw [reads, seenFrom_numeral h, tokens_numeral h hends, if_pos hsome]
  rfl

end SymbolicDerivatives.Latex
