import SymbolicDerivatives.Number.Exact

/-!
# Results with two places

A result is rounded to hundredths, halves away from zero, and written with two places. It stays as
it is from `10 ^ 15` on; a double may still have places there, eighths of one for instance, and they
are rounded only when it is written. The rounding is written for any type of numbers whose members
stand for exact quotients; it runs on doubles, where the product with a hundred and the added half
are themselves rounded.

The text is made from the exact value: `Exact.fixed` rounds to the nearest hundredth, to the even
one of two, and never writes a sign before `0.00`.
-/

namespace SymbolicDerivatives

/-- Numbers that can be rounded to a grid and written down. -/
class Roundable (K : Type) where
  /-- The real number behind a number. -/
  exact : K → Exact
  /-- The magnitude. -/
  abs : K → K
  /-- The greatest whole number that is not above a number. -/
  floor : K → K

section Rounding

variable {K : Type} [Neg K] [Add K] [Mul K] [Div K] [LE K] [DecidableLE K] [OfScientific K]
  [Roundable K]

/-- The nearest whole number to a magnitude, the upper one of two. -/
def roundHalfUp (magnitude : K) : K := Roundable.floor (magnitude + 0.5)

/-- The nearest multiple of a hundredth, the one further from zero of two. -/
def roundHundredths (value : K) : K :=
  match Roundable.exact value with
  | .finite negative _ _ =>
    if 1e15 ≤ Roundable.abs value then value
    else
      let hundredths := roundHalfUp (Roundable.abs value * 100.0)
      (if negative then -hundredths else hundredths) / 100.0
  | _ => value

end Rounding

/-- The nearest natural number to a quotient, the even one of two. -/
def roundHalfEven (numerator denominator : Nat) : Nat :=
  let quotient := numerator / denominator
  let rest := 2 * (numerator % denominator)
  if denominator < rest || (rest = denominator && quotient % 2 = 1) then quotient + 1 else quotient

namespace Exact

/-- A number of hundredths with two places. -/
def hundredthsText (negative : Bool) (hundredths : Nat) : String :=
  let sign := if negative && hundredths != 0 then ['-'] else []
  String.ofList (sign ++ Nat.toDigits 10 (hundredths / 100) ++
    ['.', Nat.digitChar (hundredths / 10 % 10), Nat.digitChar (hundredths % 10)])

/-- A number with two places. -/
def fixed : Exact → String
  | nan => "NaN"
  | infinite negative => if negative then "-Infinity" else "Infinity"
  | finite negative numerator denominator =>
    hundredthsText negative (roundHalfEven (100 * numerator) denominator)

end Exact

/-- The text of a result: rounded to hundredths, with two places. -/
def resultText {K : Type} [Neg K] [Add K] [Mul K] [Div K] [LE K] [DecidableLE K] [OfScientific K]
    [Roundable K] (value : K) : String :=
  (Roundable.exact (roundHundredths value)).fixed

/-- The greatest whole double that is not above a double. -/
def Double.floor (x : Float) : Float :=
  match (Double.ofFloat x).exact with
  | .finite false numerator denominator => Float.ofNat (numerator / denominator)
  | .finite true numerator denominator =>
    -Float.ofNat ((numerator + (denominator - 1)) / denominator)
  | _ => x

instance : Roundable Float where
  exact x := (Double.ofFloat x).exact
  abs := Float.abs
  floor := Double.floor

end SymbolicDerivatives
