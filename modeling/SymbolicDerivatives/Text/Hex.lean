/-!
# Hexadecimal numerals

Numerals of a fixed number of lower-case hexadecimal digits, as escapes use them.
-/

namespace SymbolicDerivatives.Text

/-- The numeral of `n` with `width` hexadecimal digits; higher digits are cut off. -/
def hex : (width : Nat) → (n : Nat) → List Char
  | 0, _ => []
  | width + 1, n => hex width (n / 16) ++ [Nat.digitChar (n % 16)]

@[simp] theorem length_hex (width n : Nat) : (hex width n).length = width := by
  induction width generalizing n with
  | zero => rfl
  | succ width ih => rw [hex, List.length_append, ih, List.length_singleton]

end SymbolicDerivatives.Text
