import SymbolicDerivatives.Algebra.Term

/-!
# Terms in order

Sums, products and powers of terms in order are again put in order. Integers are computed. Equal
terms of a sum merge into a multiple and equal factors of a product into a power, a sum in a sum and
a product in a product dissolve, and an integer is multiplied into a sum. A sum or product keeps its
integer in front and the rest sorted: numbers, symbols, powers, products, sums, and then functions
by name, where operands decide between terms of one kind, the number of them first. Functions that
are known by name only come last. Among the integers, `0`, `1` and `-1` come before all others.
-/

namespace SymbolicDerivatives.Term

/-! ## The order of terms -/

/-- The place of the kind of a term among the kinds. -/
def rank : Term → Nat
  | integer _ => 0
  | quotient .. => 1
  | decimal _ => 2
  | e => 3
  | pi => 4
  | symbol _ => 5
  | pow .. => 6
  | mul _ => 7
  | add _ => 8
  | apply .. => 9
  | other .. => 10

/-- The place of an integer among the integers; those with one place are ordered by size. -/
def integerRank (n : Int) : Nat :=
  if n = 0 then 0 else if n = 1 then 1 else if n = -1 then 2 else 3

mutual

def compare : Term → Term → Ordering
  | integer m, integer n => (Ord.compare (integerRank m) (integerRank n)).then (Ord.compare m n)
  | quotient p q, quotient r s => Ord.compare (p * s) (r * q)
  | decimal x, decimal y => if x < y then .lt else if y < x then .gt else .eq
  | symbol x, symbol y => Ord.compare x y
  | pow a b, pow c d => (compare a c).then (compare b d)
  | mul ss, mul ts => (Ord.compare ss.length ts.length).then (compareLists ss ts)
  | add ss, add ts => (Ord.compare ss.length ts.length).then (compareLists ss ts)
  | apply f a, apply g b => (Ord.compare f.name g.name).then (compare a b)
  | other f ss, other g ts =>
    ((Ord.compare f g).then (Ord.compare ss.length ts.length)).then (compareLists ss ts)
  | s, t => Ord.compare s.rank t.rank

def compareLists : List Term → List Term → Ordering
  | s :: ss, t :: ts => (compare s t).then (compareLists ss ts)
  | [], [] => .eq
  | [], _ :: _ => .lt
  | _ :: _, [] => .gt

end

def sort (ts : List Term) : List Term := ts.mergeSort fun s t ↦ (compare s t).isLE

/-! ## Sums and products -/

/-- Adds `n` to the number that counts `t`. -/
def count (t : Term) (n : Int) : List (Term × Int) → List (Term × Int)
  | [] => [(t, n)]
  | (s, m) :: rest => if compare s t = .eq then (s, m + n) :: rest else (s, m) :: count t n rest

/-- Each term once, with the sum of its numbers; terms with the sum zero are left out. -/
def tally (ts : List (Term × Int)) : List (Term × Int) :=
  (ts.foldl (fun counts (t, n) ↦ count t n counts) []).filter fun (_, n) ↦ n != 0

/-- A product as it is, where one factor stands for itself. -/
def bareProduct : List Term → Term
  | [] => integer 1
  | [t] => t
  | ts => mul ts

/-- A sum as it is, where one term stands for itself. -/
def bareSum : List Term → Term
  | [] => integer 0
  | [t] => t
  | ts => add ts

/-- A term without its integer factor, and that factor. -/
def splitFactor : Term → Term × Int
  | mul (integer n :: rest) => (bareProduct rest, n)
  | t => (t, 1)

def scale (n : Int) : Term → Term
  | integer m => integer (n * m)
  | mul (integer m :: rest) => if n * m = 1 then bareProduct rest else mul (integer (n * m) :: rest)
  | mul ts => if n = 1 then mul ts else mul (integer n :: ts)
  | t => if n = 1 then t else mul [integer n, t]

def sum (ts : List Term) : Term :=
  let flat := ts.flatMap fun
    | add inner => inner
    | t => [t]
  let constant := (flat.filterMap integer?).foldl (· + ·) 0
  let counted := tally ((flat.filter fun t ↦ t.integer?.isNone).map splitFactor)
  let terms := sort (counted.map fun (t, n) ↦ scale n t)
  bareSum (if constant = 0 then terms else integer constant :: terms)

/-- A term without its integer exponent, and that exponent. -/
def splitExponent : Term → Term × Int
  | pow base (integer n) => (base, n)
  | t => (t, 1)

/-- A base with an exponent. -/
def raise (base : Term) (n : Int) : Term := if n = 1 then base else pow base (integer n)

def product (ts : List Term) : Term :=
  let flat := ts.flatMap fun
    | mul inner => inner
    | t => [t]
  let constant := (flat.filterMap integer?).foldl (· * ·) 1
  let counted := tally ((flat.filter fun t ↦ t.integer?.isNone).map splitExponent)
  let factors := sort (counted.map fun (t, n) ↦ raise t n)
  if constant = 0 then integer 0
  else if constant = 1 then bareProduct factors
  else match factors with
    | [add inner] => sum (inner.map (scale constant))
    | _ => bareProduct (integer constant :: factors)

/-- The power of a term that is no product. -/
def powerOfFactor (n : Int) : Term → Term
  | integer m => if 0 ≤ n then integer (Int.pow m n.toNat) else pow (integer m) (integer n)
  | pow base (integer m) => raise base (m * n)
  | t => raise t n

def power (t : Term) (n : Int) : Term :=
  if n = 0 then integer 1
  else match t with
    | mul factors => product (factors.map (powerOfFactor n))
    | t => powerOfFactor n t

/-- A function of a term. The functions are known at the zeros of the sine and of the logarithm. -/
def function (f : TermFunc) (argument : Term) : Term :=
  match f, argument with
  | .sin, integer 0 | .tan, integer 0 | .log, integer 1 => integer 0
  | .cos, integer 0 | .exp, integer 0 => integer 1
  | f, t => apply f t

/-! ## Derivatives -/

/-- The derivative of a function at a term. -/
def slope (f : TermFunc) (t : Term) : Term :=
  match f with
  | .sin => function .cos t
  | .cos => product [integer (-1), function .sin t]
  | .log => power t (-1)
  | .exp => function .exp t
  | .tan => sum [integer 1, power (function .tan t) 2]
  | .abs => product [t, power (function .abs t) (-1)]

mutual

def mentions (x : String) : Term → Bool
  | symbol y => y == x
  | integer _ | quotient .. | decimal _ | e | pi => false
  | add ts | mul ts | other _ ts => anyMentions x ts
  | pow base exponent => mentions x base || mentions x exponent
  | apply _ t => mentions x t

def anyMentions (x : String) : List Term → Bool
  | [] => false
  | t :: ts => mentions x t || anyMentions x ts

end

/-- The terms of the product rule. The factors before the list come in `before`. -/
def productRule (before : List Term) : List Term → List Term → List Term
  | t :: ts, d :: ds => product (before ++ d :: ts) :: productRule (before ++ [t]) ts ds
  | _, _ => []

mutual

/-- The derivative of a term by a symbol. That of a function known by its name only is left to be
carried out. -/
def derivative (x : String) : Term → Term
  | symbol y => integer (if y = x then 1 else 0)
  | integer _ | quotient .. | decimal _ | e | pi => integer 0
  | add ts => sum (derivatives x ts)
  | mul ts => sum (productRule [] ts (derivatives x ts))
  | pow base (integer n) => product [integer n, power base (n - 1), derivative x base]
  | pow base exponent =>
    product [pow base exponent, sum [product [derivative x exponent, function .log base],
      product [exponent, power base (-1), derivative x base]]]
  | apply f t => product [slope f t, derivative x t]
  | other name ts =>
    if anyMentions x ts then other "Derivative" [other name ts, symbol x] else integer 0

def derivatives (x : String) : List Term → List Term
  | [] => []
  | t :: ts => derivative x t :: derivatives x ts

end

end SymbolicDerivatives.Term
