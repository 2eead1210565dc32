import SymbolicDerivatives.Service
import SymbolicDerivatives.Proofs.Nodes
import SymbolicDerivatives.Proofs.Traversal
import SymbolicDerivatives.Proofs.Value
import SymbolicDerivatives.Proofs.Alike
import SymbolicDerivatives.Proofs.Simplify.Steps
import SymbolicDerivatives.Proofs.Simplify.Value
import SymbolicDerivatives.Proofs.Number.Double
import SymbolicDerivatives.Proofs.Simplify.NormalForm
import SymbolicDerivatives.Proofs.Derivative.Rules
import SymbolicDerivatives.Proofs.Derivative.Plan
import SymbolicDerivatives.Proofs.Real.Regular
import SymbolicDerivatives.Proofs.Real.Derivative
import SymbolicDerivatives.Proofs.Real.Plan
import SymbolicDerivatives.Proofs.Formula.Grammar
import SymbolicDerivatives.Proofs.Derivation
import SymbolicDerivatives.Proofs.Calculation
import SymbolicDerivatives.Proofs.Number.Nearest
import SymbolicDerivatives.Proofs.Service
import SymbolicDerivatives.Proofs.Number.Scientific
import SymbolicDerivatives.Proofs.Number.Bounded
import SymbolicDerivatives.Proofs.Number.Result
import SymbolicDerivatives.Proofs.Endpoints
import SymbolicDerivatives.Proofs.Number.Digits
import SymbolicDerivatives.Proofs.Number.Shortest
import SymbolicDerivatives.Proofs.Number.Reading
import SymbolicDerivatives.Proofs.Formula.Scanning
import SymbolicDerivatives.Proofs.Names
import SymbolicDerivatives.Proofs.Formula.Written
import SymbolicDerivatives.Proofs.ReadingBack
import SymbolicDerivatives.Proofs.Folding
import SymbolicDerivatives.Proofs.Bindings
import SymbolicDerivatives.Proofs.Renaming
import SymbolicDerivatives.Proofs.Number.Exponent
import SymbolicDerivatives.Proofs.Formula.RoundTrip
import SymbolicDerivatives.Proofs.Number.Zero
import SymbolicDerivatives.Proofs.Derivative.Absent
import SymbolicDerivatives.Proofs.Derivative.Degree
import SymbolicDerivatives.Proofs.Algebra.Formula
import SymbolicDerivatives.Proofs.Number.Numeral
import SymbolicDerivatives.Proofs.Formula.Value
import SymbolicDerivatives.Proofs.Latex.Seen
import SymbolicDerivatives.Proofs.Latex.Shows
import SymbolicDerivatives.Proofs.Latex.Value
import SymbolicDerivatives.Proofs.Formula.Refusal
import SymbolicDerivatives.Proofs.Formula.Precedence
import SymbolicDerivatives.Proofs.Formula.Segmentation
import SymbolicDerivatives.Proofs.Words
import SymbolicDerivatives.Proofs.Number.Word
import SymbolicDerivatives.Proofs.Point
import SymbolicDerivatives.Proofs.Number.Hundredths
import SymbolicDerivatives.Proofs.Formula.Termination
import SymbolicDerivatives.Proofs.Formula.Records
import SymbolicDerivatives.Proofs.Algebra.Random
import SymbolicDerivatives.Proofs.Algebra.Latex
import SymbolicDerivatives.Proofs.Algebra.Derivative
import SymbolicDerivatives.Proofs.Exercises
