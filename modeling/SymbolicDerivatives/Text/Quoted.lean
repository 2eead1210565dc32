import SymbolicDerivatives.Text.Hex
import SymbolicDerivatives.Text.Printable

/-!
# Quoted text

A text between quotes, on one line and with nothing invisible in it. The quotes are single, unless
the text holds a single quote and no double one. The quote and the backslash are written behind a
backslash, tab and line ends by their letters, and every other character that is not printable by
its code point in hexadecimal.
-/

namespace SymbolicDerivatives.Text

/-- The quote around a text. -/
def quoteMark (cs : List Char) : Char :=
  if cs.contains '\'' && !cs.contains '"' then '"' else '\''

/-- A character that is not printable, by its code point. -/
def escapeCode (c : Char) : List Char :=
  if c.toNat < 0x100 then '\\' :: 'x' :: hex 2 c.toNat
  else if c.toNat < 0x10000 then '\\' :: 'u' :: hex 4 c.toNat
  else '\\' :: 'U' :: hex 8 c.toNat

def quoteChar (mark c : Char) : List Char :=
  if c = mark || c = '\\' then ['\\', c]
  else if c = '\t' then ['\\', 't']
  else if c = '\n' then ['\\', 'n']
  else if c = '\r' then ['\\', 'r']
  else if isPrintable c then [c]
  else escapeCode c

def quoted (s : String) : String :=
  let mark := quoteMark s.toList
  String.ofList (mark :: s.toList.flatMap (quoteChar mark) ++ [mark])

/-- A list of texts in quotes, between brackets. -/
def quotedList (texts : List String) : String :=
  "[" ++ ", ".intercalate (texts.map quoted) ++ "]"

end SymbolicDerivatives.Text
