import SymbolicDerivatives.Formula.Tree
import SymbolicDerivatives.Proofs.Formula.Scanning

/-!
# How a text is cut into tokens

A `Segmentation` writes a text as white space, tokens with white space after each, and a rest that
is not cut. Which tokens it may have is said without the scanner: a `Lexeme` is a token with a
spelling of its kind that the character after it cannot prolong.

`scanNext?_eq_some_iff` says that the scanner takes exactly the lexeme at the front of a text, so a
text has one segmentation only, and scanning finds it. The rest is empty, or it starts with a
character that is no white space and starts no lexeme.
-/

namespace SymbolicDerivatives.Token

/-! ## Lexemes -/

/-- A spelling of a number: digits, and at most one point, which stands after a digit. -/
inductive IsLiteral : List Char → Prop
  | whole {digits : List Char} (ne_nil : digits ≠ [])
      (all : ∀ c ∈ digits, Text.isDigit c = true) : IsLiteral digits
  | pointed {whole fraction : List Char} (ne_nil : whole ≠ [])
      (whole_digits : ∀ c ∈ whole, Text.isDigit c = true)
      (fraction_digits : ∀ c ∈ fraction, Text.isDigit c = true) :
      IsLiteral (whole ++ '.' :: fraction)

/-- White space or an opening parenthesis is next. -/
def AdmitsFunction (next : Option Char) : Prop := ∃ c ∈ next, Text.isBlank c = true ∨ c = '('

/-- A token of a text in which `next` is the character after the token, if there is one. -/
inductive Lexeme : Token → Option Char → Prop
  | number {literal : String} {next : Option Char} (spelled : IsLiteral literal.toList)
      (longest : ∀ c ∈ next, ¬IsLiteral (literal.toList ++ [c])) : Lexeme (.number literal) next
  | name {word : String} {next : Option Char} (spelled : IsName word.toList)
      (longest : ∀ c ∈ next, ¬IsName (word.toList ++ [c]))
      (plain : ∀ f : Func, word = f.keyword → ¬AdmitsFunction next) : Lexeme (.name word) next
  | function {f : Func} {next : Option Char}
      (longest : ∀ c ∈ next, ¬IsName (f.keyword.toList ++ [c])) (admits : AdmitsFunction next) :
      Lexeme (.function f) next
  | sign {c : Char} {t : Token} {next : Option Char} (spelled : sign? c = some t) : Lexeme t next

/-- A character that is no white space and starts no token, whatever comes after it. -/
def IsStray (c : Char) : Prop :=
  Text.isBlank c = false ∧ ∀ t next, Lexeme t next → t.spelling.toList.head? ≠ some c

/-! ## What prolongs a spelling -/

section Prolonging

variable {cs rest : List Char} {c : Char}

theorem IsLiteral.exists_cons (h : IsLiteral cs) :
    ∃ c rest, cs = c :: rest ∧ Text.isDigit c = true := by
  obtain ⟨ne_nil, all⟩ | ⟨ne_nil, whole_digits, -⟩ := h
  · obtain ⟨c, rest, rfl⟩ := List.exists_cons_of_ne_nil ne_nil
    exact ⟨c, rest, rfl, all c List.mem_cons_self⟩
  · obtain ⟨c, rest, rfl⟩ := List.exists_cons_of_ne_nil ne_nil
    exact ⟨c, _, rfl, whole_digits c List.mem_cons_self⟩

/-- A literal goes on with digits, or with a point while it has none. -/
theorem IsLiteral.last (h : IsLiteral (cs ++ [c])) :
    Text.isDigit c = true ∨ c = '.' ∧ ∀ d ∈ cs, Text.isDigit d = true := by
  generalize htext : cs ++ [c] = text at h
  obtain ⟨-, all⟩ | @⟨whole, fraction, -, whole_digits, fraction_digits⟩ := h
  · exact .inl (all c (htext ▸ List.mem_concat_self))
  rcases fraction.eq_nil_or_concat with rfl | ⟨init, d, rfl⟩
  · obtain ⟨rfl, hpoint⟩ := List.append_inj' htext rfl
    exact .inr ⟨List.singleton_inj.1 hpoint, whole_digits⟩
  · rw [List.concat_eq_append] at fraction_digits
    rw [List.concat_eq_append, ← List.cons_append, ← List.append_assoc] at htext
    obtain ⟨-, hd⟩ := List.append_inj' htext rfl
    rw [List.singleton_inj.1 hd]
    exact .inl (fraction_digits d List.mem_concat_self)

theorem forall_mem_concat {p : Char → Prop} (h : ∀ d ∈ cs, p d) (hc : p c) :
    ∀ d ∈ cs ++ [c], p d :=
  List.forall_mem_append.2 ⟨h, List.forall_mem_singleton.2 hc⟩

theorem endsNumber_of_longest (ne_nil : cs ≠ []) (all : ∀ c ∈ cs, Text.isDigit c = true)
    (longest : ∀ c ∈ rest.head?, ¬IsLiteral (cs ++ [c])) : EndsNumber rest := by
  refine fun c hc ↦ ⟨Bool.eq_false_of_not_eq_true fun hdigit ↦ ?_, ?_⟩
  · have hne : cs ++ [c] ≠ [] := List.append_ne_nil_of_right_ne_nil _ (List.cons_ne_nil _ _)
    exact longest c hc (.whole hne (forall_mem_concat all hdigit))
  · rintro rfl
    exact longest '.' hc (.pointed ne_nil all fun _ h ↦ absurd h List.not_mem_nil)

theorem isDigit_head?_of_longest {fraction : List Char} (ne_nil : cs ≠ [])
    (all : ∀ c ∈ cs, Text.isDigit c = true) (hfraction : ∀ c ∈ fraction, Text.isDigit c = true)
    (longest : ∀ c ∈ rest.head?, ¬IsLiteral (cs ++ '.' :: fraction ++ [c])) :
    ∀ c ∈ rest.head?, Text.isDigit c = false := by
  refine fun c hc ↦ Bool.eq_false_of_not_eq_true fun hdigit ↦ longest c hc ?_
  rw [List.append_assoc, List.cons_append]
  exact .pointed ne_nil all (forall_mem_concat hfraction hdigit)

theorem IsName.exists_cons (h : IsName cs) : ∃ c rest, cs = c :: rest ∧ isNameStart c = true := by
  obtain ⟨start, -⟩ := h
  exact ⟨_, _, rfl, start⟩

/-- A name goes on with the characters of names. -/
theorem IsName.concat_iff (h : IsName cs) : IsName (cs ++ [c]) ↔ isNamePart c = true := by
  obtain @⟨first, parts, start, hparts⟩ := h
  constructor
  · rintro ⟨-, hall⟩
    exact hall c List.mem_concat_self
  · exact fun hc ↦ .intro start (forall_mem_concat hparts hc)

end Prolonging

/-! ## The scanner takes lexemes -/

section Scanner

variable {cs rest : List Char} {c : Char} {t : Token}

theorem head?_dropWhile_eq_false {p : Char → Bool} : ∀ c ∈ (cs.dropWhile p).head?, p c = false := by
  intro c hc
  have := List.head?_dropWhile_not p cs
  rw [Option.mem_def.1 hc] at this
  simpa using this

theorem lexeme_scanNumber (hc : Text.isDigit c = true) (cs : List Char) :
    Lexeme (scanNumber c cs).1 (scanNumber c cs).2.head? := by
  have hwhole : ∀ d ∈ c :: cs.takeWhile Text.isDigit, Text.isDigit d = true :=
    List.forall_mem_cons.2 ⟨hc, fun d hd ↦ List.mem_takeWhile_imp hd⟩
  rw [scanNumber]
  split
  · next rest hrest =>
    refine .number ?_ fun d hd hlonger ↦ ?_
    · rw [String.toList_ofList]
      exact .pointed (List.cons_ne_nil _ _) hwhole fun d hd ↦ List.mem_takeWhile_imp hd
    · rw [String.toList_ofList] at hlonger
      rcases hlonger.last with hdigit | ⟨-, hall⟩
      · exact ne_true_of_eq_false (head?_dropWhile_eq_false d hd) hdigit
      · exact not_isDigit_point (hall '.' (List.mem_append_right _ List.mem_cons_self))
  · next hnot =>
    refine .number ?_ fun d hd hlonger ↦ ?_
    · rw [String.toList_ofList]
      exact .whole (List.cons_ne_nil _ _) hwhole
    · rw [String.toList_ofList] at hlonger
      rcases hlonger.last with hdigit | ⟨rfl, -⟩
      · exact ne_true_of_eq_false (head?_dropWhile_eq_false d hd) hdigit
      · obtain ⟨rest, hrest⟩ := List.head?_eq_some_iff.1 hd
        exact hnot rest hrest

theorem admitsFunction_iff : admitsFunction rest = true ↔ AdmitsFunction rest.head? := by
  cases rest with
  | nil => simp [admitsFunction, AdmitsFunction]
  | cons c rest => simp [admitsFunction, AdmitsFunction]

theorem lexeme_scanWord (hc : isNameStart c = true) (cs : List Char) :
    Lexeme (scanWord c cs).1 (scanWord c cs).2.head? := by
  have hword : IsName (String.ofList (c :: cs.takeWhile isNamePart)).toList := by
    rw [String.toList_ofList]
    exact .intro hc fun d hd ↦ List.mem_takeWhile_imp hd
  have longest : ∀ d ∈ (cs.dropWhile isNamePart).head?,
      ¬IsName ((String.ofList (c :: cs.takeWhile isNamePart)).toList ++ [d]) := by
    intro d hd hlonger
    rw [hword.concat_iff, head?_dropWhile_eq_false d hd] at hlonger
    cases hlonger
  rw [scanWord]
  split
  · next f hf =>
    have hkeyword := Func.ofKeyword?_eq_some_iff.1 hf
    split
    · next hadmits =>
      rw [hkeyword] at longest
      exact .function longest (admitsFunction_iff.1 hadmits)
    · next hrefuses => exact .name hword longest fun _ _ h ↦ hrefuses (admitsFunction_iff.2 h)
  · next hnone =>
    refine .name hword longest fun f hf _ ↦ ?_
    rw [hf, Func.ofKeyword?_keyword] at hnone
    cases hnone

theorem lexeme_of_scanNext? (h : scanNext? cs = some (t, rest)) : Lexeme t rest.head? := by
  cases cs with
  | nil => cases h
  | cons c cs =>
    rw [scanNext?] at h
    split at h
    · next hc =>
      have := lexeme_scanNumber hc cs
      rwa [Option.some.inj h] at this
    split at h
    · next hc =>
      have := lexeme_scanWord hc cs
      rwa [Option.some.inj h] at this
    · obtain ⟨s, hs, heq⟩ := Option.map_eq_some_iff.1 h
      cases heq
      exact .sign hs

theorem scanNext?_of_isLiteral (h : IsLiteral cs)
    (longest : ∀ c ∈ rest.head?, ¬IsLiteral (cs ++ [c])) :
    scanNext? (cs ++ rest) = some (.number (String.ofList cs), rest) := by
  obtain ⟨ne_nil, all⟩ | @⟨whole, fraction, ne_nil, whole_digits, fraction_digits⟩ := h
  · have hrest := endsNumber_of_longest ne_nil all longest
    obtain ⟨c, digits, rfl⟩ := List.exists_cons_of_ne_nil ne_nil
    obtain ⟨hc, hdigits⟩ := List.forall_mem_cons.1 all
    rw [List.cons_append, scanNext?, if_pos hc, scanNumber_whole hrest hdigits]
  · have hrest := isDigit_head?_of_longest ne_nil whole_digits fraction_digits longest
    obtain ⟨c, digits, rfl⟩ := List.exists_cons_of_ne_nil ne_nil
    obtain ⟨hc, hdigits⟩ := List.forall_mem_cons.1 whole_digits
    rw [List.cons_append, List.cons_append, scanNext?, if_pos hc,
      scanNumber_pointed hrest hdigits fraction_digits]
    rfl

theorem isNamePart_head?_of_longest (h : IsName cs)
    (longest : ∀ c ∈ rest.head?, ¬IsName (cs ++ [c])) :
    ∀ c ∈ rest.head?, isNamePart c = false :=
  fun c hc ↦ Bool.eq_false_of_not_eq_true fun hpart ↦ longest c hc (h.concat_iff.2 hpart)

theorem scanNext?_of_lexeme (h : Lexeme t rest.head?) :
    scanNext? (t.spelling.toList ++ rest) = some (t, rest) := by
  generalize hnext : rest.head? = next at h
  obtain ⟨spelled, longest⟩ | @⟨word, next, spelled, longest, plain⟩ | @⟨f, next, longest, admits⟩ |
    spelled := h
  · rw [spelling, scanNext?_of_isLiteral spelled (hnext ▸ longest), String.ofList_toList]
  · rw [spelling, scanNext?_word (isNamePart_head?_of_longest spelled (hnext ▸ longest)) spelled,
      String.ofList_toList]
    split
    · next f hf =>
      have hrefuses := plain f (Func.ofKeyword?_eq_some_iff.1 hf)
      rw [← hnext, ← admitsFunction_iff] at hrefuses
      rw [if_neg hrefuses]
    · rfl
  · have hname := isName_keyword f
    rw [← hnext, ← admitsFunction_iff] at admits
    rw [spelling, scanNext?_word (isNamePart_head?_of_longest hname (hnext ▸ longest)) hname,
      String.ofList_toList, Func.ofKeyword?_keyword]
    simp only
    rw [if_pos admits]
  · rw [spelling_of_sign? spelled]
    exact scanNext?_sign spelled rest

/-- The scanner takes the lexeme at the front of a text. -/
theorem scanNext?_eq_some_iff :
    scanNext? cs = some (t, rest) ↔ t.spelling.toList ++ rest = cs ∧ Lexeme t rest.head? := by
  constructor
  · exact fun h ↦ ⟨scanNext?_append h, lexeme_of_scanNext? h⟩
  · rintro ⟨rfl, h⟩
    exact scanNext?_of_lexeme h

theorem scanNext?_eq_none_iff (c : Char) (cs : List Char) :
    scanNext? (c :: cs) = none ↔
      Text.isDigit c = false ∧ isNameStart c = false ∧ sign? c = none := by
  rw [scanNext?]
  split
  · next h => simp [h]
  split
  · next h => simp [h]
  · next hdigit hname => simp [hdigit, hname]

theorem Lexeme.exists_cons {next : Option Char} (h : Lexeme t next) :
    ∃ c cs, t.spelling.toList = c :: cs ∧ Text.isBlank c = false := by
  obtain ⟨spelled, -⟩ | ⟨spelled, -, -⟩ | @⟨f, -, -, -⟩ | spelled := h
  · obtain ⟨c, rest, hcs, hdigit⟩ := spelled.exists_cons
    exact ⟨c, rest, hcs, Text.isBlank_of_isDigit hdigit⟩
  · obtain ⟨c, rest, hcs, hstart⟩ := spelled.exists_cons
    exact ⟨c, rest, hcs, isBlank_of_isNameStart hstart⟩
  · obtain ⟨c, rest, hcs, hstart⟩ := (isName_keyword f).exists_cons
    exact ⟨c, rest, hcs, isBlank_of_isNameStart hstart⟩
  · exact ⟨_, [], spelling_of_sign? spelled, (class_of_sign? spelled).1⟩

theorem scanNext?_ne_none_of_lexeme {next : Option Char} (h : Lexeme t next)
    (hc : t.spelling.toList.head? = some c) (cs : List Char) : scanNext? (c :: cs) ≠ none := by
  obtain ⟨tail, hspelling⟩ := List.head?_eq_some_iff.1 hc
  have hnext : next.toList.head? = next := by cases next <;> rfl
  have hsome := scanNext?_of_lexeme (hnext ▸ h)
  rw [hspelling, List.cons_append] at hsome
  rw [Ne, scanNext?_eq_none_iff, ← scanNext?_eq_none_iff c (tail ++ next.toList), hsome]
  exact Option.some_ne_none _

theorem isStray_iff (hblank : Text.isBlank c = false) : IsStray c ↔ scanNext? (c :: cs) = none := by
  constructor
  · rintro ⟨-, hstarts⟩
    rw [← Option.not_isSome_iff_eq_none, Option.isSome_iff_exists]
    rintro ⟨⟨t, rest⟩, hnext⟩
    obtain ⟨happend, hlexeme⟩ := scanNext?_eq_some_iff.1 hnext
    obtain ⟨d, tail, hspelling, -⟩ := hlexeme.exists_cons
    rw [hspelling, List.cons_append] at happend
    refine hstarts t _ hlexeme ?_
    rw [hspelling, List.head?_cons, (List.cons.inj happend).1]
  · exact fun hnone ↦ ⟨hblank, fun t next h hc ↦ scanNext?_ne_none_of_lexeme h hc cs hnone⟩

end Scanner

/-! ## Segmentations -/

/-- The characters of tokens with white space after each. -/
def spell (pieces : List (Token × List Char)) : List Char :=
  pieces.flatMap fun (t, blank) ↦ t.spelling.toList ++ blank

@[simp] theorem spell_nil : spell [] = [] := rfl

@[simp] theorem spell_cons (t : Token) (blank : List Char) (pieces : List (Token × List Char)) :
    spell ((t, blank) :: pieces) = t.spelling.toList ++ (blank ++ spell pieces) := by
  rw [spell, List.flatMap_cons, List.append_assoc, spell]

/-- Before `rest`, each token is a lexeme for what comes after it, and has white space after it. -/
inductive Cut (rest : List Char) : List (Token × List Char) → Prop
  | nil : Cut rest []
  | cons {t : Token} {blank : List Char} {pieces : List (Token × List Char)}
      (lexeme : Lexeme t (blank ++ (spell pieces ++ rest)).head?)
      (white : ∀ c ∈ blank, Text.isBlank c = true) (tail : Cut rest pieces) :
      Cut rest ((t, blank) :: pieces)

namespace Cut

variable {rest : List Char} {c : Char} {pieces : List (Token × List Char)}

/-- What is cut, and also the rest, starts with no white space. -/
theorem isBlank_head? (h : Cut rest pieces) (hstray : ∀ c ∈ rest.head?, IsStray c) :
    ∀ c ∈ (spell pieces ++ rest).head?, Text.isBlank c = false := by
  intro c hc
  obtain _ | ⟨hlexeme, -, -⟩ := h
  · exact (hstray c hc).1
  · obtain ⟨d, tail, hspelling, hd⟩ := hlexeme.exists_cons
    rw [spell_cons, hspelling] at hc
    rwa [← Option.some.inj hc]

theorem mem_spell (h : Cut rest pieces) (hc : c ∈ spell pieces) :
    Text.isBlank c = true ∨ ∃ t next, Lexeme t next ∧ c ∈ t.spelling.toList := by
  induction h with
  | nil => exact absurd hc List.not_mem_nil
  | @cons t blank pieces hlexeme hwhite htail ih =>
    rw [spell_cons, List.mem_append, List.mem_append] at hc
    rcases hc with hc | hc | hc
    · exact .inr ⟨t, _, hlexeme, hc⟩
    · exact .inl (hwhite c hc)
    · exact ih hc

end Cut

/-- A text in parts. -/
structure Segmentation where
  /-- The white space before the first token. -/
  blank : List Char
  /-- The tokens, each with the white space after it. -/
  pieces : List (Token × List Char)
  /-- What is not cut into tokens. -/
  rest : List Char

namespace Segmentation

def tokens (s : Segmentation) : List Token := s.pieces.map Prod.fst

/-- The part that is cut into tokens. -/
def front (s : Segmentation) : List Char := s.blank ++ spell s.pieces

/-- The parts are those of a text: no character is lost, all tokens are lexemes where they stand,
and the rest can start neither with white space nor with a token. -/
structure Of (s : Segmentation) (cs : List Char) : Prop where
  lossless : s.front ++ s.rest = cs
  white : ∀ c ∈ s.blank, Text.isBlank c = true
  cut : Cut s.rest s.pieces
  stray : ∀ c ∈ s.rest.head?, IsStray c

/-- What scanning gives for a text in these parts that starts at a position. -/
def outcome (s : Segmentation) (position : ℕ) : Except StrayCharacter (List Token) :=
  match s.rest with
  | [] => .ok s.tokens
  | c :: _ => .error ⟨position + s.front.length, c⟩

/-! ### Existence -/

variable {s : Segmentation} {cs rest : List Char} {c : Char} {t : Token}

theorem Of.blank_cons (h : s.Of cs) (hc : Text.isBlank c = true) :
    Of { s with blank := c :: s.blank } (c :: cs) where
  lossless := congrArg (c :: ·) h.lossless
  white := List.forall_mem_cons.2 ⟨hc, h.white⟩
  cut := h.cut
  stray := h.stray

theorem outcome_blank_cons (s : Segmentation) (c : Char) (position : ℕ) :
    outcome { s with blank := c :: s.blank } position = s.outcome (position + 1) := by
  obtain ⟨blank, pieces, _ | ⟨d, rest⟩⟩ := s
  · rfl
  · simp only [outcome, front, List.cons_append, List.length_cons]
    rw [Nat.add_right_comm, Nat.add_assoc]

theorem Of.token_cons (h : s.Of rest) (hnext : scanNext? cs = some (t, rest)) :
    Of ⟨[], (t, s.blank) :: s.pieces, s.rest⟩ cs := by
  obtain ⟨happend, hlexeme⟩ := scanNext?_eq_some_iff.1 hnext
  have hlossless := h.lossless
  rw [front, List.append_assoc] at hlossless
  constructor
  · rw [front, List.nil_append, spell_cons, List.append_assoc, List.append_assoc, hlossless,
      happend]
  · exact fun c hc ↦ absurd hc List.not_mem_nil
  · exact .cons (hlossless ▸ hlexeme) h.white h.cut
  · exact h.stray

theorem outcome_token_cons (s : Segmentation) (t : Token) (position : ℕ) :
    outcome ⟨[], (t, s.blank) :: s.pieces, s.rest⟩ position =
      (t :: ·) <$> s.outcome (position + t.spelling.toList.length) := by
  obtain ⟨blank, pieces, _ | ⟨d, rest⟩⟩ := s
  · rfl
  · simp only [outcome, front, List.nil_append, spell_cons, List.length_append, Nat.add_assoc]
    rfl

theorem exists_of (position : ℕ) (cs : List Char) :
    ∃ s : Segmentation, s.Of cs ∧ scanFrom position cs = s.outcome position := by
  fun_induction scanFrom position cs with
  | case1 position =>
    exact ⟨⟨[], [], []⟩, ⟨rfl, by simp, .nil, by simp⟩, rfl⟩
  | case2 position c cs hblank ih =>
    obtain ⟨s, hs, hscan⟩ := ih
    exact ⟨_, hs.blank_cons hblank, by rw [hscan, outcome_blank_cons]⟩
  | case3 position c cs hblank hnone =>
    have hstray := (isStray_iff (Bool.eq_false_of_not_eq_true hblank)).2 hnone
    refine ⟨⟨[], [], c :: cs⟩, ⟨rfl, by simp, .nil, ?_⟩, rfl⟩
    rintro d ⟨⟩
    exact hstray
  | case4 position c cs hblank token rest hnext hlt ih =>
    obtain ⟨s, hs, hscan⟩ := ih
    have hlength : (c :: cs).length - rest.length = token.spelling.toList.length := by
      rw [← scanNext?_append hnext, List.length_append, Nat.add_sub_cancel]
    rw [hscan, hlength, ← outcome_token_cons]
    exact ⟨_, hs.token_cons hnext, rfl⟩

/-! ### Uniqueness -/

/-- Tokens and rest come after all the white space at the front. -/
theorem Of.dropWhile_eq (h : s.Of cs) : cs.dropWhile Text.isBlank = spell s.pieces ++ s.rest := by
  rw [← h.lossless, front, List.append_assoc,
    dropWhile_append_of_head? h.white (h.cut.isBlank_head? h.stray)]

theorem Of.blank_eq (h : s.Of cs) : s.blank = cs.takeWhile Text.isBlank := by
  rw [← h.lossless, front, List.append_assoc,
    takeWhile_append_of_head? h.white (h.cut.isBlank_head? h.stray)]

section Parts

variable {blank white : List Char} {pieces : List (Token × List Char)}

theorem Of.scanNext?_eq_none (h : Of ⟨white, [], rest⟩ cs) :
    scanNext? (cs.dropWhile Text.isBlank) = none := by
  rw [h.dropWhile_eq, spell_nil, List.nil_append]
  cases rest with
  | nil => rfl
  | cons c rest =>
    have hc := h.stray c rfl
    exact (isStray_iff hc.1).1 hc

theorem Of.scanNext?_eq_some (h : Of ⟨white, (t, blank) :: pieces, rest⟩ cs) :
    scanNext? (cs.dropWhile Text.isBlank) = some (t, blank ++ (spell pieces ++ rest)) := by
  obtain _ | ⟨hlexeme, -, -⟩ := h.cut
  rw [h.dropWhile_eq, spell_cons, List.append_assoc, List.append_assoc]
  exact scanNext?_of_lexeme hlexeme

theorem Of.tail (h : Of ⟨white, (t, blank) :: pieces, rest⟩ cs) :
    Of ⟨blank, pieces, rest⟩ (blank ++ (spell pieces ++ rest)) := by
  obtain _ | ⟨-, hwhite, hcut⟩ := h.cut
  exact ⟨List.append_assoc .., hwhite, hcut, h.stray⟩

end Parts

/-- A text has one segmentation only: the scanner gives its first token, and the text after that
token has one segmentation only. -/
theorem Of.unique {s' : Segmentation} (h : s.Of cs) (h' : s'.Of cs) : s = s' := by
  have hblank : s.blank = s'.blank := h.blank_eq.trans h'.blank_eq.symm
  obtain ⟨blank, pieces, rest⟩ := s
  obtain ⟨blank', pieces', rest'⟩ := s'
  obtain rfl : blank = blank' := hblank
  induction pieces generalizing blank pieces' cs with
  | nil =>
    cases pieces' with
    | nil =>
      have hrest : rest = rest' := h.dropWhile_eq.symm.trans h'.dropWhile_eq
      rw [hrest]
    | cons piece pieces' =>
      exact absurd (h'.scanNext?_eq_some.symm.trans h.scanNext?_eq_none) (Option.some_ne_none _)
  | cons piece pieces ih =>
    cases pieces' with
    | nil =>
      exact absurd (h.scanNext?_eq_some.symm.trans h'.scanNext?_eq_none) (Option.some_ne_none _)
    | cons piece' pieces' =>
      obtain ⟨t, white⟩ := piece
      obtain ⟨t', white'⟩ := piece'
      have hnext := h.scanNext?_eq_some.symm.trans h'.scanNext?_eq_some
      obtain ⟨rfl, htext⟩ := Prod.mk.inj (Option.some.inj hnext)
      have htail' := htext ▸ h'.tail
      obtain rfl : white = white' := h.tail.blank_eq.trans htail'.blank_eq.symm
      cases ih white h.tail pieces' htail'
      rfl

/-- A character that is no white space and in no token keeps a text from being cut to its end. -/
theorem Of.rest_ne_nil (h : s.Of cs) (hc : c ∈ cs) (hblank : Text.isBlank c = false)
    (hforeign : ∀ t next, Lexeme t next → c ∉ t.spelling.toList) : s.rest ≠ [] := by
  intro hnil
  rw [← h.lossless, hnil, List.append_nil, front, List.mem_append] at hc
  have hcases : Text.isBlank c = true ∨ ∃ t next, Lexeme t next ∧ c ∈ t.spelling.toList :=
    hc.elim (fun hwhite ↦ .inl (h.white c hwhite)) fun hspelled ↦ h.cut.mem_spell hspelled
  rcases hcases with hwhite | ⟨t, next, hlexeme, hmem⟩
  · exact ne_true_of_eq_false hblank hwhite
  · exact hforeign t next hlexeme hmem

end Segmentation

/-- Scanning loses no character and takes the longest tokens. Every text has exactly one
segmentation. If nothing is left of the text after it, its tokens and the end are what scanning
gives. Otherwise the character after it is reported with its position, and so it is when the text is
parsed, whatever tokens are before it; this happens to every text with a character that is no white
space and in no token. -/
theorem scan_segmentation (formula : String) :
    ∃ s : Segmentation, s.Of formula.toList ∧ (∀ s', s'.Of formula.toList → s' = s) ∧
      (s.rest = [] ∧ withEnd <$> scan formula = .ok (s.tokens.map some ++ [none]) ∨
        ∃ c rest, s.rest = c :: rest ∧ scan formula = .error ⟨s.front.length, c⟩ ∧
          (SyntaxError.stray ⟨s.front.length, c⟩).message =
            "Unexpected character at position " ++ s.front.length.repr ++ ": '" ++ c.toString ++
              "'" ∧
          ∀ known, Formula.parse known formula = ⟨.error (.stray ⟨s.front.length, c⟩), []⟩) ∧
      ∀ c ∈ formula.toList, Text.isBlank c = false →
        (∀ t next, Lexeme t next → c ∉ t.spelling.toList) → s.rest ≠ [] := by
  obtain ⟨s, hs, hscan⟩ := Segmentation.exists_of 0 formula.toList
  rw [← scan] at hscan
  refine ⟨s, hs, fun s' hs' ↦ hs'.unique hs, ?_, fun c hc ↦ hs.rest_ne_nil hc⟩
  rw [Segmentation.outcome] at hscan
  split at hscan
  · next hrest => exact .inl ⟨hrest, by rw [hscan]; rfl⟩
  · next c rest hrest =>
    rw [Nat.zero_add] at hscan
    refine .inr ⟨c, rest, hrest, hscan, rfl, fun known ↦ ?_⟩
    rw [Formula.parse, hscan]

/-- Digits end before letters, and a point after a fraction starts no token. -/
example : scan "2lnx ln 3.5.1" = .error ⟨11, '.'⟩ := by decide +kernel

end SymbolicDerivatives.Token
