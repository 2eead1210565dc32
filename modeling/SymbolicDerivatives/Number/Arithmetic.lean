import SymbolicDerivatives.Elementary

/-!
# Arithmetic of doubles

The calculator's constants are doubles. Powers, logarithms, sines and cosines outside their domain
are infinities or not-a-numbers, never failures: `ln 0` is minus infinity, and a negative number to
the power of a fraction is not a number.
-/

namespace SymbolicDerivatives

instance : Elementary Float where
  pow := Float.pow
  ln := Float.log
  sin := Float.sin
  cos := Float.cos

end SymbolicDerivatives
