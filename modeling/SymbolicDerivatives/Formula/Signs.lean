/-!
# Typographic signs

Formulas from a page or a keyboard of symbols may use `π` for `pi`, `×` and `·` for `*` and `−` for
`-`. They are spelled out before a formula is read. No sign stands for a line feed or for white
space, so lines and words stay where they are.
-/

namespace SymbolicDerivatives.Formula

/-- The spelling of a character in a formula. -/
def spellOut : Char → List Char
  | 'π' => ['p', 'i']
  | '×' => ['*']
  | '·' => ['*']
  | '−' => ['-']
  | c => [c]

/-- A text with its typographic signs spelled out. -/
def normalize (text : String) : String := String.ofList (text.toList.flatMap spellOut)

end SymbolicDerivatives.Formula
