import SymbolicDerivatives.Derivation
import SymbolicDerivatives.Expr.Evaluate
import SymbolicDerivatives.Expr.Latex
import SymbolicDerivatives.Formula.Tree
import SymbolicDerivatives.Number.Hundredths
import SymbolicDerivatives.Point

/-!
# Calculations

A calculation takes three texts: a formula, the variables to differentiate by in order, and the
values of variables. `Calculation.ofTexts` keeps every step on the way to the value of the
derivative, and `Calculation.resultOf` reads the three texts from the lines of one and gives the
rounded value only. A formula that cannot be read counts as `0`, a name without a value as zero, and
a value that is no number as a not-a-number, so there is always a result.
-/

namespace SymbolicDerivatives

/-- The formula, the plan and the values in the lines of a text. Lines after the third are left out,
and lines that are not there are empty, as all are without a text. -/
def splitInput (input : Option String) : String × String × String :=
  match Text.lines (input.getD "") with
  | [] => ("", "", "")
  | [formula] => (formula, "", "")
  | [formula, plan] => (formula, plan, "")
  | formula :: plan :: values :: _ => (formula, plan, values)

/-- A tree on the way to the result. -/
structure Stage where
  /-- The name of the stage. -/
  label : String
  /-- The variable of the derivative; the formula itself has none. -/
  name? : Option String
  /-- The tree as a formula. -/
  text : String
  /-- The tree in LaTeX. -/
  latex : String

namespace Stage

def initial (e : Expr Float) : Except Failure Stage := do
  return ⟨"step_0_initial_expression", none, ← e.text, ← e.latex⟩

/-- The stage of a derivative, by its number. -/
def ofStep (index : Nat) (step : Step) : Except Failure Stage := do
  return ⟨"step_" ++ index.repr ++ "_d" ++ step.name, some step.name, step.text,
    ← step.tree.latex⟩

/-- The stages of derivatives, where the first has a given number. -/
def ofSteps (index : Nat) : List Step → Except Failure (List Stage)
  | [] => .ok []
  | step :: steps => do
    let head ← ofStep index step
    let tail ← ofSteps (index + 1) steps
    return head :: tail

end Stage

/-- A derivative with all its stages and its value. -/
structure Calculation where
  /-- The derivative as a formula. -/
  derivative : String
  /-- The derivative in LaTeX. -/
  latex : String
  /-- The formula and the derivatives on the way, the last one included. -/
  stages : List Stage
  /-- The value of the derivative. -/
  value : Float

namespace Calculation

def finiteValue? (c : Calculation) : Option Float :=
  if c.value.isFinite then some c.value else none

/-- The value as a text with two places. -/
def result (c : Calculation) : String := resultText c.value

/-- The calculation of three texts. Without a formula, it is that of `0`. -/
def ofTexts (formula : Option String) (plan values : String) : Logging Calculation := do
  let point ← ExceptT.lift (Point.ofLine (some values))
  let e ← Formula.read point.names formula
  let first ← Logging.ofExcept (Stage.initial e)
  let steps ← derive (planOfLine plan) e
  let later ← Logging.ofExcept (Stage.ofSteps 1 steps)
  let last := Derivation.lastTree e steps
  let value ← Logging.ofExcept (last.evaluate point.get)
  return ⟨← Logging.ofExcept last.text, ← Logging.ofExcept last.latex, first :: later, value⟩

/-- The value of the derivative that a text asks for, with two places. -/
def resultOf (input : Option String) : Logging String := do
  let (formula, plan, values) := splitInput input
  let point ← ExceptT.lift (Point.ofLine (some values))
  let e ← Formula.read point.names (some formula)
  let steps ← derive (planOfLine plan) e
  let value ← Logging.ofExcept ((Derivation.lastTree e steps).evaluate point.get)
  return resultText value

end Calculation

end SymbolicDerivatives
