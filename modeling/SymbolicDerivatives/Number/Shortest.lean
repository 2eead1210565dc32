import SymbolicDerivatives.Number.Exact

/-!
# Shortest decimals

The decimal with the fewest digits that reads back as a given double, and of those with equally many
digits the one nearest to it; of two equally near ones the one whose last digit is even.

A decimal reads back as the double if it lies in the interval of reals that round to it. The
interval ends halfway to the neighbouring doubles, and its ends belong to it if the mantissa is
even. On the grid of decimals with a given number of digits only the two neighbours of the double
can be nearest, so these two are tried for one digit, two digits, and so on. Seventeen digits always
suffice.
-/

namespace SymbolicDerivatives

/-- The decimal `digits · 10 ^ exponent`. -/
structure Decimal where
  digits : Nat
  exponent : Int
  deriving DecidableEq

/-- How many decimal digits a natural number has; zero has one. -/
def digitCount (n : Nat) : Nat := (Nat.toDigits 10 n).length

namespace Binary

/-- Four times the mantissa and the interval around it, over a common divisor with the powers of ten
`10 ^ k` for a grid of scale `k`. -/
structure Grid where
  /-- Multiplies four times the mantissa. -/
  up : Nat
  /-- Multiplies a point of the grid. -/
  down : Nat

/-- The grid of the multiples of `10 ^ k`. -/
def grid (b : Binary) (k : Int) : Grid where
  up := b.factor * Nat.pow 10 (-k).toNat
  down := 4 * b.divisor * Nat.pow 10 k.toNat

/-- Whether the point `c` of a grid rounds to `b`. -/
def roundsFrom (b : Binary) (g : Grid) (c : Nat) : Bool :=
  let low := (4 * b.mantissa - if b.narrow then 1 else 2) * g.up
  let high := (4 * b.mantissa + 2) * g.up
  let point := c * g.down
  if b.mantissa % 2 = 0 then low ≤ point && point ≤ high else low < point && point < high

/-- The last point of a grid that is not above `b`. -/
def pointBelow (b : Binary) (g : Grid) : Nat := 4 * b.mantissa * g.up / g.down

/-- The point of a grid that is nearest to `b` among those that round to `b`. -/
def nearest? (b : Binary) (g : Grid) : Option Nat :=
  let value := 4 * b.mantissa * g.up
  let below := b.pointBelow g
  let above := below + 1
  match b.roundsFrom g below, b.roundsFrom g above with
  | false, false => none
  | true, false => some below
  | false, true => some above
  | true, true =>
    let left := value - below * g.down
    let right := above * g.down - value
    if left < right || (left = right && below % 2 = 0) then some below else some above

/-- The exponent of the power of ten that is not above the magnitude of `b` while the next one is.
-/
def magnitude (b : Binary) : Int :=
  let numerator := b.mantissa * b.factor
  let quotient := numerator / b.divisor
  if quotient = 0 then
    -((List.range 330).find? fun i ↦ b.divisor ≤ numerator * Nat.pow 10 i).getD 330
  else digitCount quotient - 1

/-- The scale of the decimals with `count` digits around `b`. -/
def scale (b : Binary) (count : Nat) : Int := b.magnitude - (count - 1 : Nat)

/-- The decimal of `count` digits nearest to `b`, if it rounds to `b`. A point that fills its grid
to the next power of ten is written with the digit one. -/
def decimal? (b : Binary) (count : Nat) : Option Decimal :=
  (b.nearest? (b.grid (b.scale count))).map fun c ↦
    if c = Nat.pow 10 count then ⟨1, b.scale count + count⟩ else ⟨c, b.scale count⟩

/-- The shortest decimal of a magnitude other than zero. -/
def shortest (b : Binary) : Decimal :=
  ((List.range 17).findSome? fun i ↦ b.decimal? (i + 1)).getD
    ⟨b.pointBelow (b.grid (b.scale 17)), b.scale 17⟩

end Binary

end SymbolicDerivatives
