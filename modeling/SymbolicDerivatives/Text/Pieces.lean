import SymbolicDerivatives.Text.Blank

/-!
# Words and lines

A text is cut at separators into pieces, one more than there are separators. Its lines are the
pieces between line feeds, and its words the non-empty pieces between white space.
-/

namespace SymbolicDerivatives.Text

def lines (s : String) : List String :=
  (s.toList.splitOn '\n').map String.ofList

def words (s : String) : List String :=
  ((s.toList.splitOnP isBlank).filter fun piece ↦ !piece.isEmpty).map String.ofList

end SymbolicDerivatives.Text
