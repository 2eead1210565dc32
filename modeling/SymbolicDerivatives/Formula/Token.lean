import SymbolicDerivatives.Operator
import SymbolicDerivatives.Text.Blank
import SymbolicDerivatives.Text.Digit

/-!
# Tokens of a formula

A formula is cut into numbers, names, function keywords, the four operator signs and parentheses,
with white space between them. A number is a run of digits, with at most one point that follows a
digit; a name is a letter or underscore and all the letters, digits and underscores after it, in
ASCII. The words `ln`, `sin` and `cos` are keywords where white space or an opening parenthesis
follows, and plain names anywhere else.

`Token.scan` takes the longest token at each position. `scanNext?_length_lt` is what makes it end:
each step leaves a shorter text.
-/

namespace SymbolicDerivatives

inductive Token where
  /-- A number without a sign, as spelled. -/
  | number (literal : String)
  /-- A name. -/
  | name (word : String)
  /-- A function keyword. -/
  | function (f : Func)
  | plus
  | minus
  | times
  | caret
  /-- An opening parenthesis. -/
  | opening
  /-- A closing parenthesis. -/
  | closing
  deriving DecidableEq

namespace Token

def spelling : Token → String
  | number literal => literal
  | name word => word
  | function f => f.keyword
  | plus => "+"
  | minus => "-"
  | times => "*"
  | caret => "^"
  | opening => "("
  | closing => ")"

/-- The kind of a token, as messages call it. -/
def kind : Token → String
  | number _ => "NUMBER"
  | name _ => "SYMBOL"
  | function _ => "FUNCTION"
  | plus | minus | times | caret => "OPERATOR"
  | opening => "LPAREN"
  | closing => "RPAREN"

/-! ## Character classes -/

def isNameStart (c : Char) : Bool := c.isAlpha || c = '_'

def isNamePart (c : Char) : Bool := c.isAlphanum || c = '_'

/-- The sign or parenthesis that a character is, if it is one. -/
def sign? : Char → Option Token
  | '+' => some plus
  | '-' => some minus
  | '*' => some times
  | '^' => some caret
  | '(' => some opening
  | ')' => some closing
  | _ => none

/-! ## Scanning -/

/-- A number from its first digit on: the literal and what follows it. -/
def scanNumber (first : Char) (cs : List Char) : Token × List Char :=
  let whole := first :: cs.takeWhile Text.isDigit
  match cs.dropWhile Text.isDigit with
  | '.' :: rest =>
    (number (String.ofList (whole ++ '.' :: rest.takeWhile Text.isDigit)),
      rest.dropWhile Text.isDigit)
  | rest => (number (String.ofList whole), rest)

/-- Whether a keyword may be read as a function before this text. -/
def admitsFunction : List Char → Bool
  | [] => false
  | c :: _ => Text.isBlank c || c = '('

/-- A word from its first letter on: a keyword or a name, and what follows it. -/
def scanWord (first : Char) (cs : List Char) : Token × List Char :=
  let word := String.ofList (first :: cs.takeWhile isNamePart)
  let rest := cs.dropWhile isNamePart
  match Func.ofKeyword? word with
  | some f => (if admitsFunction rest then function f else name word, rest)
  | none => (name word, rest)

/-- The token at the front of a text, and what follows it. There is none before white space or a
character that starts no token. -/
def scanNext? : List Char → Option (Token × List Char)
  | [] => none
  | c :: cs =>
    if Text.isDigit c then some (scanNumber c cs)
    else if isNameStart c then some (scanWord c cs)
    else (sign? c).map (·, cs)

theorem scanNumber_append (c : Char) (cs : List Char) :
    (scanNumber c cs).1.spelling.toList ++ (scanNumber c cs).2 = c :: cs := by
  rw [scanNumber]
  split
  · next rest hrest =>
    simp only [spelling, String.toList_ofList, List.cons_append, List.append_assoc,
      List.takeWhile_append_dropWhile]
    rw [← hrest, List.takeWhile_append_dropWhile]
  · simp only [spelling, String.toList_ofList, List.cons_append,
      List.takeWhile_append_dropWhile]

theorem scanWord_append (c : Char) (cs : List Char) :
    (scanWord c cs).1.spelling.toList ++ (scanWord c cs).2 = c :: cs := by
  have h : (String.ofList (c :: cs.takeWhile isNamePart)).toList ++ cs.dropWhile isNamePart =
      c :: cs := by
    rw [String.toList_ofList, List.cons_append, List.takeWhile_append_dropWhile]
  rw [scanWord]
  split
  · next f hf =>
    split
    · rw [spelling, ← Func.ofKeyword?_eq_some_iff.1 hf]
      exact h
    · exact h
  · exact h

theorem spelling_of_sign? {c : Char} {t : Token} (h : sign? c = some t) :
    t.spelling.toList = [c] := by
  unfold sign? at h
  split at h <;> cases h <;> rfl

theorem scanNext?_append {cs rest : List Char} {t : Token} (h : scanNext? cs = some (t, rest)) :
    t.spelling.toList ++ rest = cs := by
  cases cs with
  | nil => cases h
  | cons c cs =>
    rw [scanNext?] at h
    split at h
    · have := scanNumber_append c cs
      rwa [Option.some.inj h] at this
    split at h
    · have := scanWord_append c cs
      rwa [Option.some.inj h] at this
    · obtain ⟨s, hs, heq⟩ := Option.map_eq_some_iff.1 h
      cases heq
      rw [spelling_of_sign? hs, List.singleton_append]

theorem length_dropWhile_le {α : Type} (p : α → Bool) (xs : List α) :
    (xs.dropWhile p).length ≤ xs.length :=
  (List.dropWhile_sublist p).length_le

theorem scanNumber_length_le (c : Char) (cs : List Char) :
    (scanNumber c cs).2.length ≤ cs.length := by
  have h := length_dropWhile_le Text.isDigit cs
  rw [scanNumber]
  split
  · next rest hrest =>
    have h' := length_dropWhile_le Text.isDigit rest
    rw [hrest, List.length_cons] at h
    show (rest.dropWhile Text.isDigit).length ≤ cs.length
    omega
  · exact h

theorem scanWord_length_le (c : Char) (cs : List Char) :
    (scanWord c cs).2.length ≤ cs.length := by
  rw [scanWord]
  split <;> exact length_dropWhile_le isNamePart cs

theorem scanNext?_length_lt {cs rest : List Char} {t : Token} (h : scanNext? cs = some (t, rest)) :
    rest.length < cs.length := by
  cases cs with
  | nil => cases h
  | cons c cs =>
    rw [scanNext?] at h
    split at h
    · have := scanNumber_length_le c cs
      rw [Option.some.inj h] at this
      simpa using Nat.lt_succ_of_le this
    split at h
    · have := scanWord_length_le c cs
      rw [Option.some.inj h] at this
      simpa using Nat.lt_succ_of_le this
    · obtain ⟨_, _, heq⟩ := Option.map_eq_some_iff.1 h
      cases heq
      simp

/-- A character that starts no token, and its position. -/
structure StrayCharacter where
  /-- How many characters stand before it. -/
  position : Nat
  character : Char
  deriving DecidableEq

/-- The tokens of a text that starts at a given position of the formula. -/
def scanFrom (position : Nat) : List Char → Except StrayCharacter (List Token)
  | [] => .ok []
  | c :: cs =>
    if Text.isBlank c then scanFrom (position + 1) cs
    else match h : scanNext? (c :: cs) with
      | none => .error ⟨position, c⟩
      | some (token, rest) =>
        have := scanNext?_length_lt h
        (token :: ·) <$> scanFrom (position + ((c :: cs).length - rest.length)) rest
termination_by cs => cs.length
decreasing_by
  · exact Nat.lt_succ_self _
  · assumption

def scan (formula : String) : Except StrayCharacter (List Token) :=
  scanFrom 0 formula.toList

/-- The tokens of a formula with the mark of its end. -/
def withEnd (tokens : List Token) : List (Option Token) := tokens.map some ++ [none]

end Token

end SymbolicDerivatives
