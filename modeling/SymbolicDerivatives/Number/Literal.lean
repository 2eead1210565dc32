import SymbolicDerivatives.Text.Digit
import SymbolicDerivatives.Number.Shortest

/-!
# Reading numbers

A decimal is read as the double nearest to it. There are two spellings: the literals of a formula,
which are digits with at most one point, and the freer spelling of a bound value, which may have a
sign, an exponent and underscores between digits, and has words for the infinities and for a
not-a-number.
-/

namespace SymbolicDerivatives.Number

/-- The infinity above all doubles. -/
def infinity : Float := Float.ofBits 0x7ff0000000000000

def notANumber : Float := Float.ofBits 0x7ff8000000000000

/-- The double nearest to `digits · 10 ^ exponent`. Beyond the decades that doubles reach, the
answer is known without computing the power. -/
def nearest (digits : Nat) (exponent : Int) : Float :=
  let decade := digitCount digits + exponent
  if digits = 0 || decade < -330 then 0
  else if 310 < decade then infinity
  else Float.ofScientific digits (exponent < 0) exponent.natAbs

/-- The double nearest to the number with these digits before and after the point. -/
def ofDigits (whole fraction : List Char) (exponent : Int) : Float :=
  nearest (Text.natOfDigits (whole ++ fraction)) (exponent - fraction.length)

/-- The value of a literal: digits, and perhaps a point and more digits. -/
def ofLiteral (literal : String) : Float :=
  let cs := literal.toList
  ofDigits (cs.takeWhile (· != '.')) ((cs.dropWhile (· != '.')).drop 1) 0

/-- A sign at the front, as whether it is a minus, and what follows it. -/
def splitSign : List Char → Bool × List Char
  | '-' :: cs => (true, cs)
  | '+' :: cs => (false, cs)
  | cs => (false, cs)

/-- The exponent that ends a number: none, or a letter, perhaps a sign, and digits. -/
def exponent? : List Char → Option Int
  | [] => some 0
  | c :: cs =>
    let (negative, digits) := splitSign cs
    if (c == 'e' || c == 'E') && !digits.isEmpty && digits.all Text.isDigit then
      let magnitude := Text.natOfDigits digits
      some (if negative then -magnitude else magnitude)
    else none

/-- An unsigned number without underscores: digits, of which some may follow a point, and perhaps an
exponent. -/
def ofUnsigned? (cs : List Char) : Option Float :=
  let whole := cs.takeWhile Text.isDigit
  let rest := cs.dropWhile Text.isDigit
  let (fraction, rest) := match rest with
    | '.' :: rest => (rest.takeWhile Text.isDigit, rest.dropWhile Text.isDigit)
    | rest => ([], rest)
  if whole.isEmpty && fraction.isEmpty then none
  else (exponent? rest).map (ofDigits whole fraction)

/-- Whether every underscore stands between two digits, where `previous` is the character before. -/
def underscoresSeparate (previous : Option Char) : List Char → Bool
  | [] => true
  | c :: cs =>
    (c != '_' || previous.any Text.isDigit && cs.head?.any Text.isDigit) &&
      underscoresSeparate (some c) cs

/-- The value that a word writes, if it writes one. -/
def ofWord? (word : String) : Option Float :=
  let (negative, cs) := splitSign word.toList
  let magnitude? :=
    match String.ofList (cs.map Char.toLower) with
    | "inf" | "infinity" => some infinity
    | "nan" => some notANumber
    | _ =>
      if underscoresSeparate none cs then ofUnsigned? (cs.filter (· != '_')) else none
  magnitude?.map fun x ↦ if negative then -x else x

end SymbolicDerivatives.Number
