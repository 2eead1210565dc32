import SymbolicDerivatives.Expr.Simplify
import SymbolicDerivatives.Expr.Text
import SymbolicDerivatives.Formula.Reading
import SymbolicDerivatives.Log
import SymbolicDerivatives.Number.Arithmetic

/-!
# Reading a formula

`Formula.parse` gives the tree of a formula as it is written, or says why there is none: a character
that starts no token, wherever it stands, or else the first token that cannot go on what is before
it. `Formula.read` is what the calculator does: it simplifies the tree, and a formula without one
counts as `0`.
-/

namespace SymbolicDerivatives

/-- Why a text is no formula. -/
inductive SyntaxError where
  /-- A character starts no token. -/
  | stray (found : Token.StrayCharacter)
  /-- A token, or the end of the text, is refused. -/
  | refused (refusal : Refusal) (found : Option Token)
  deriving DecidableEq

namespace SyntaxError

def kindOf (found : Option Token) : String := (found.map Token.kind).getD "EOF"

def spellingOf (found : Option Token) : String := (found.map Token.spelling).getD ""

/-- A token or the end with its kind. -/
def describe (found : Option Token) : String :=
  "Token(" ++ kindOf found ++ ", '" ++ spellingOf found ++ "')"

def message : SyntaxError → String
  | stray ⟨position, character⟩ =>
    "Unexpected character at position " ++ position.repr ++ ": '" ++ character.toString ++ "'"
  | refused .unclosed found =>
    "Expected RPAREN, but got " ++ kindOf found ++ " ('" ++ spellingOf found ++ "')"
  | refused .noOperand found => "Unexpected token " ++ describe found
  | refused .trailing found => "Unexpected token '" ++ spellingOf found ++ "' at end of expression"

end SyntaxError

namespace Formula

def unknownRecord (name : String) : Record :=
  ⟨.debug, .formula, "'" ++ name ++ "' is not a bound variable"⟩

/-- The tree of a formula as written. -/
def parse (known : List String) (formula : String) : Logged (Except SyntaxError (Expr Float)) :=
  match Token.scan formula with
  | .error stray => ⟨.error (.stray stray), []⟩
  | .ok tokens =>
    match readAll known tokens with
    | .done unknown tree _ _ => ⟨.ok tree, unknown.map unknownRecord⟩
    | .refused unknown refusal rest =>
      ⟨.error (.refused refusal rest.head?), unknown.map unknownRecord⟩

def malformedRecord (shown : String) (e : SyntaxError) : Record :=
  ⟨.warning, .formula, "Could not parse '" ++ shown ++ "', using 0: " ++ e.message⟩

def parsedRecord (shown : String) (tree : Expr Float) : Record :=
  ⟨.debug, .formula, "Parsed '" ++ shown ++ "' as " ++ tree.prefixForm⟩

/-- How a text is shown in records; a text that is not there has a word for it. -/
def shown (formula : Option String) : String := formula.getD "None"

/-- The simplified tree of a formula, and `0` for a text that is none. -/
def read (known : List String) (formula : Option String) : Logging (Expr Float) := do
  match ← ExceptT.lift (parse known (formula.getD "")) with
  | .error e =>
    Logging.record (malformedRecord (shown formula) e)
    return .const 0
  | .ok tree =>
    let simplified ← Logging.ofExcept tree.simplify
    Logging.record (parsedRecord (shown formula) simplified)
    return simplified

end Formula

end SymbolicDerivatives
