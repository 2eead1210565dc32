import SymbolicDerivatives.Operator

/-!
# Why a tree cannot be worked on

Every pass over a tree succeeds on the trees that a formula can denote. On other trees it fails for
one of three causes: an operator that the rules at hand do not know, an operand that is not there,
or a number of operands that a rule cannot take apart. `Failure.message` is the only place where a
cause is put into words.
-/

namespace SymbolicDerivatives

/-- The sets of rules that look an operator up. -/
inductive Rules where
  /-- Computing the value of an operation. -/
  | evaluation
  /-- Differentiating an operation. -/
  | differentiation
  /-- Typesetting an operation. -/
  | typesetting
  deriving DecidableEq

/-- The causes for which a pass over a tree fails. -/
inductive Failure where
  /-- The operator has no entry among these rules. -/
  | unsupported (rules : Rules) (operator : Operator)
  /-- The rule reads an operand that is not there. -/
  | missingOperand (operator : Operator)
  /-- The rule takes a fixed number of operands, and the node has another number. -/
  | operandCount (operator : Operator)
  deriving DecidableEq

namespace Failure

def message : Failure → String
  | unsupported .evaluation o => "Evaluation rule for '" ++ o.symbol ++ "' not implemented"
  | unsupported .differentiation o =>
    "Differentiation rule for '" ++ o.symbol ++ "' not implemented"
  | unsupported .typesetting o => "No LaTeX rule for operator '" ++ o.symbol ++ "'"
  | missingOperand o => "Operator '" ++ o.symbol ++ "' lacks an operand"
  | operandCount o => "Operator '" ++ o.symbol ++ "' has a wrong number of operands"

end Failure

end SymbolicDerivatives
