import SymbolicDerivatives.Number.Text

/-!
# Algebraic terms

Terms with exact numbers, as a computer algebra system writes them: integers, quotients, decimals,
the constants `e` and `π`, symbols, sums, products, powers and functions. A term is taken as it is
written; `Algebra.Canonical` builds terms that are also in order.

`Term.formula` writes a term as a formula, with every sum, product and power in parentheses. A
quotient is a product with the power `-1` of its denominator. Formulas know only some of the
functions, and a term with any other has no formula. Those of `TermFunc` have derivatives among the
terms; all others are known by their names only.
-/

namespace SymbolicDerivatives

/-- The functions of a term whose derivatives are known. -/
inductive TermFunc where
  | sin
  | cos
  | log
  | exp
  | tan
  | abs
  deriving DecidableEq

namespace TermFunc

def name : TermFunc → String
  | sin => "sin"
  | cos => "cos"
  | log => "log"
  | exp => "exp"
  | tan => "tan"
  | abs => "Abs"

/-- The name of a function in formulas, if it has one. -/
def keyword? : TermFunc → Option String
  | sin => some "sin"
  | cos => some "cos"
  | log => some "ln"
  | _ => none

end TermFunc

inductive Term where
  | symbol (name : String)
  | integer (value : Int)
  /-- A quotient in lowest terms, with a denominator above one. -/
  | quotient (numerator : Int) (denominator : Nat)
  | decimal (value : Float)
  /-- The base of the natural logarithm. -/
  | e
  | pi
  | add (terms : List Term)
  | mul (factors : List Term)
  | pow (base exponent : Term)
  | apply (f : TermFunc) (argument : Term)
  /-- A function of any number of arguments that is known by its name only. -/
  | other (name : String) (arguments : List Term)

namespace Term

/-- To prove a property of all terms, prove it of the leaves, and of a node from its operands. -/
@[elab_as_elim]
theorem induction {motive : Term → Prop} (symbol : ∀ name, motive (symbol name))
    (integer : ∀ n, motive (integer n)) (quotient : ∀ p q, motive (quotient p q))
    (decimal : ∀ x, motive (decimal x)) (e : motive e) (pi : motive pi)
    (add : ∀ terms, (∀ t ∈ terms, motive t) → motive (add terms))
    (mul : ∀ factors, (∀ t ∈ factors, motive t) → motive (mul factors))
    (pow : ∀ base exponent, motive base → motive exponent → motive (pow base exponent))
    (apply : ∀ f argument, motive argument → motive (apply f argument))
    (other : ∀ name arguments, (∀ t ∈ arguments, motive t) → motive (other name arguments))
    (t : Term) : motive t := by
  refine Term.rec (motive_1 := motive) (motive_2 := fun ts ↦ ∀ t ∈ ts, motive t)
    symbol integer quotient decimal e pi add mul pow apply other ?_ ?_ t
  · intro t ht
    cases ht
  · intro head tail hhead htail t ht
    cases ht with
    | head => exact hhead
    | tail _ ht => exact htail t ht

/-- The quotient of two integers, of which the second is not zero. -/
def ofQuotient (p q : Int) : Term :=
  let p := if q < 0 then -p else p
  let d := Nat.gcd p.natAbs q.natAbs
  if q.natAbs = d then integer (p / d) else quotient (p / d) (q.natAbs / d)

def integer? : Term → Option Int
  | integer n => some n
  | _ => none

def integerText (n : Int) : String :=
  String.ofList (Number.signed (n < 0) (Nat.toDigits 10 n.natAbs))

/-- The text of a decimal; zero has no sign. -/
def decimalText (x : Float) : String := if x == 0 then "0.0" else Number.text x

/-- A function that formulas do not have. -/
structure Unwritable where
  /-- The name of the function. -/
  function : String
  deriving DecidableEq

def Unwritable.message (u : Unwritable) : String :=
  "Cannot write " ++ u.function ++ " in formula syntax"

mutual

/-- A term as a formula. The function it names if there is none is the first one on the way from
left to right, and from the outside in. -/
def formula : Term → Except Unwritable String
  | symbol name => .ok name
  | integer n => .ok (integerText n)
  | quotient p q => .ok ("(" ++ integerText p ++ "*(" ++ integerText q ++ "^-1))")
  | decimal x => .ok (decimalText x)
  | e => .ok "e"
  | pi => .ok "pi"
  | add terms => do return "(" ++ "+".intercalate (← formulas terms) ++ ")"
  | mul factors => do return "(" ++ "*".intercalate (← formulas factors) ++ ")"
  | pow base exponent => do return "(" ++ (← formula base) ++ "^" ++ (← formula exponent) ++ ")"
  | apply f argument =>
    match f.keyword? with
    | some word => do return word ++ "(" ++ (← formula argument) ++ ")"
    | none => .error ⟨f.name⟩
  | other name _ => .error ⟨name⟩

def formulas : List Term → Except Unwritable (List String)
  | [] => .ok []
  | t :: ts => do
    let head ← formula t
    let tail ← formulas ts
    return head :: tail

end

theorem formulas_eq_mapM (ts : List Term) : formulas ts = ts.mapM formula := by
  induction ts with
  | nil => rw [formulas, List.mapM_nil]; rfl
  | cons t ts ih => rw [formulas, ih, List.mapM_cons]

end Term

end SymbolicDerivatives
