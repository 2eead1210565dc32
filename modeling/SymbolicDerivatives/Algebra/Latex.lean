import SymbolicDerivatives.Algebra.Term

/-!
# LaTeX of terms

Factors stand side by side with a space between them, a sum puts its integer last, and sums get
parentheses in products and as bases. The exponent of a function is written on its name; that of a
logarithm stands at the end.
-/

namespace SymbolicDerivatives.Term

def braced (s : String) : String := "\x7b" ++ s ++ "\x7d"

/-- Text in parentheses of fitting size. -/
def bracketed (s : String) : String := "\\left(" ++ s ++ "\\right)"

def TermFunc.command : TermFunc → String
  | .abs => "\\operatorname" ++ braced "Abs"
  | f => "\\" ++ f.name

/-- A function of an argument, with an exponent if there is one. -/
def latexFunction (f : TermFunc) (exponent : Option String) (argument : String) : String :=
  let power := (exponent.map fun n ↦ "^" ++ braced n).getD ""
  let applied := braced ("\\left(" ++ argument ++ " \\right)")
  match f with
  | .log => TermFunc.command f ++ applied ++ power
  | f => TermFunc.command f ++ power ++ applied

/-- A function known by its name only, of its arguments, with an exponent if there is one. -/
def latexOther (name : String) (exponent : Option String) (arguments : List String) : String :=
  (if name.length = 1 then name else "\\operatorname" ++ braced name) ++
    (exponent.map fun n ↦ "^" ++ braced n).getD "" ++
    braced ("\\left(" ++ ",".intercalate arguments ++ " \\right)")

/-- A sum in brackets, and anything else as it is. -/
def bracketSum (t : Term) (latex : String) : String :=
  match t with
  | add _ => bracketed latex
  | _ => latex

/-- Moves a leading integer to the end. -/
def integerLast : List (Term × String) → List String
  | (integer _, s) :: rest => rest.map Prod.snd ++ [s]
  | terms => terms.map Prod.snd

/-- The factors of a product, where a leading `-1` is a sign. -/
def latexProduct : List (Term × String) → String
  | (integer (-1), _) :: rest => "- " ++ latexFactors rest
  | factors => latexFactors factors
where
  /-- Factors side by side. -/
  latexFactors (factors : List (Term × String)) : String :=
    " ".intercalate (factors.map fun (t, s) ↦ bracketSum t s)

mutual

def latex : Term → String
  | symbol name => name
  | integer n => integerText n
  | quotient p q =>
    (if p < 0 then "- " else "") ++ "\\frac" ++ braced (integerText p.natAbs) ++
      braced (integerText q)
  | decimal x => decimalText x
  | e => "e"
  | pi => "\\pi"
  | add terms => " + ".intercalate (integerLast (terms.zip (latexList terms)))
  | mul factors => latexProduct (factors.zip (latexList factors))
  | pow (apply f argument) exponent => latexFunction f (some (latex exponent)) (latex argument)
  | pow (other name ts) exponent => latexOther name (some (latex exponent)) (latexList ts)
  | pow base exponent => bracketSum base (latex base) ++ "^" ++ braced (latex exponent)
  | apply f argument => latexFunction f none (latex argument)
  | other name ts => latexOther name none (latexList ts)

def latexList : List Term → List String
  | [] => []
  | t :: ts => latex t :: latexList ts

end

end SymbolicDerivatives.Term
