/-!
# The number behind a double

A double that is neither infinite nor a not-a-number is `± m · 2 ^ e` for natural `m` and integer
`e`. All texts of numbers are computed from this form in natural numbers, so that nothing is rounded
on the way. `Exact` is the same view with the scale multiplied out; it does not mention doubles, and
other types of numbers have it too.
-/

namespace SymbolicDerivatives

/-- The real number that a machine number stands for. -/
inductive Exact where
  /-- No number at all. -/
  | nan
  /-- An infinity. -/
  | infinite (negative : Bool)
  /-- The quotient of two natural numbers, with a sign that zero has too. -/
  | finite (negative : Bool) (numerator denominator : Nat)
  deriving DecidableEq

/-- A finite double `± mantissa · 2 ^ exponent`. -/
structure Binary where
  /-- The sign. -/
  negative : Bool
  /-- The digits, below `2 ^ 53`. -/
  mantissa : Nat
  /-- The scale, at least `-1074`. -/
  exponent : Int
  /-- Whether the next double towards zero is half as far away as the next one away from it. -/
  narrow : Bool

namespace Binary

/-- The scale as a factor. -/
def factor (b : Binary) : Nat := Nat.pow 2 b.exponent.toNat

/-- The scale as a divisor. -/
def divisor (b : Binary) : Nat := Nat.pow 2 (-b.exponent).toNat

/-- The natural number that the magnitude is, if it is one. -/
def whole? (b : Binary) : Option Nat :=
  if b.mantissa * b.factor % b.divisor = 0 then some (b.mantissa * b.factor / b.divisor) else none

end Binary

/-- What the bits of a double say. -/
inductive Double where
  | nan
  | infinite (negative : Bool)
  | finite (b : Binary)

/-- A double read from its bits: a sign, eleven bits of exponent and 52 bits of mantissa, whose
leading one is left out unless the exponent is the least. -/
def Double.ofFloat (x : Float) : Double :=
  let bits : Nat := x.toBits.toNat
  let negative := bits / Nat.pow 2 63 == 1
  let field : Nat := bits / Nat.pow 2 52 % Nat.pow 2 11
  let fraction : Nat := bits % Nat.pow 2 52
  if field = 2047 then
    if fraction = 0 then .infinite negative else .nan
  else if field = 0 then .finite ⟨negative, fraction, -1074, false⟩
  else
    .finite ⟨negative, fraction + Nat.pow 2 52, (field : Int) - 1075, fraction == 0 && field != 1⟩

/-- The number that a double stands for. -/
def Double.exact : Double → Exact
  | nan => .nan
  | infinite negative => .infinite negative
  | finite b => .finite b.negative (b.mantissa * b.factor) b.divisor

end SymbolicDerivatives
