import SymbolicDerivatives.Number.Shortest

/-!
# Texts of doubles

A double is written with its shortest decimal: in positional notation, always with a point, where
its leading digit stands between the fourth place after the point and the sixteenth before it, and
otherwise with an exponent of at least two digits. In formulas a whole number is written with all
its digits and without a point.
-/

namespace SymbolicDerivatives.Number

/-- Digits with a point after the first `places`. -/
def pointed (digits : List Char) (places : Nat) : List Char :=
  digits.take places ++ '.' :: digits.drop places

/-- A decimal in positional notation, always with a point. -/
def positional (digits : List Char) (exponent : Int) : List Char :=
  if 0 ≤ exponent then digits ++ List.replicate exponent.toNat '0' ++ ['.', '0']
  else
    let places := (-exponent).toNat
    let padded := List.replicate (places + 1 - digits.length) '0' ++ digits
    pointed padded (padded.length - places)

/-- A decimal with its point after the first digit, and the exponent `e` that this needs. -/
def scientific (digits : List Char) (e : Int) : List Char :=
  let mantissa := if digits.length = 1 then digits else pointed digits 1
  let magnitude := Nat.toDigits 10 e.natAbs
  mantissa ++ 'e' :: (if e < 0 then '-' else '+') ::
    List.replicate (2 - magnitude.length) '0' ++ magnitude

def decimalText (d : Decimal) : List Char :=
  let digits := Nat.toDigits 10 d.digits
  let e := d.exponent + digits.length - 1
  if -4 ≤ e && e < 16 then positional digits d.exponent else scientific digits e

/-- A minus sign in front of a negative number. -/
def signed (negative : Bool) (cs : List Char) : List Char :=
  if negative then '-' :: cs else cs

def text (x : Float) : String :=
  match Double.ofFloat x with
  | .nan => "nan"
  | .infinite negative => String.ofList (signed negative ['i', 'n', 'f'])
  | .finite b =>
    String.ofList <| signed b.negative <|
      if b.mantissa = 0 then ['0', '.', '0'] else decimalText b.shortest

/-- The text of a constant in a formula: whole numbers without a point, and zero without a sign. -/
def plainText (x : Float) : String :=
  match Double.ofFloat x with
  | .finite b =>
    match b.whole? with
    | some n => String.ofList (signed (b.negative && n != 0) (Nat.toDigits 10 n))
    | none => text x
  | _ => text x

end SymbolicDerivatives.Number
