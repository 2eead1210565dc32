import SymbolicDerivatives.Failure

/-!
# What the operators compute

The passes over trees are written for constants of any type `K` with the ring operations, a test for
equality, and the four operations of `Elementary`. The calculator runs them over doubles; the same
definitions can be read over the reals or over any ring with such functions.

Sums and products fold from the left, starting at `0` and at `1`. On doubles that order is part of
the answer.
-/

namespace SymbolicDerivatives

/-- The operations of a formula beyond those of a ring. -/
class Elementary (K : Type) where
  /-- The first number to the power of the second. -/
  pow : K → K → K
  /-- The natural logarithm. -/
  ln : K → K
  /-- The sine. -/
  sin : K → K
  /-- The cosine. -/
  cos : K → K

def Func.eval {K : Type} [Elementary K] : Func → K → K
  | ln => Elementary.ln
  | sin => Elementary.sin
  | cos => Elementary.cos

variable {K : Type} [Zero K] [One K] [Add K] [Sub K] [Mul K] [Elementary K]

/-- The sum of a list, from the left. -/
def sum (values : List K) : K := values.foldl (· + ·) 0

/-- The product of a list, from the left. -/
def product (values : List K) : K := values.foldl (· * ·) 1

/-- The value of an operation on the values of its operands. Operands beyond those that the
operator reads are ignored. -/
def Operator.apply : Operator → List K → Except Failure K
  | add, values => .ok (sum values)
  | mul, values => .ok (product values)
  | sub, a :: b :: _ => .ok (a - b)
  | pow, a :: b :: _ => .ok (Elementary.pow a b)
  | fn f, a :: _ => .ok (f.eval a)
  | other s, _ => .error (.unsupported .evaluation (other s))
  | o, _ => .error (.missingOperand o)

end SymbolicDerivatives
