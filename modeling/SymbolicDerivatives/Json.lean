import SymbolicDerivatives.Text.Hex

/-!
# JSON in ASCII

The values that a message carries, and their text on one line: members and items are separated by a
comma and a space, a name from its value by a colon and a space, and every character outside the
printable ASCII range is written as one or two UTF-16 units in hexadecimal.
-/

namespace SymbolicDerivatives

/-- The values of a message. -/
inductive Json where
  | null
  | string (text : String)
  | object (members : List (String × Json))

namespace Json

/-- One UTF-16 unit. -/
def escapeUnit (n : Nat) : List Char := '\\' :: 'u' :: Text.hex 4 n

def escapeChar (c : Char) : List Char :=
  if c = '"' || c = '\\' then ['\\', c]
  else if c = '\n' then ['\\', 'n']
  else if c = '\r' then ['\\', 'r']
  else if c = '\t' then ['\\', 't']
  else if c = '\x08' then ['\\', 'b']
  else if c = '\x0c' then ['\\', 'f']
  else if 0x20 ≤ c.toNat && c.toNat < 0x7f then [c]
  else if c.toNat < 0x10000 then escapeUnit c.toNat
  else
    escapeUnit (0xd800 + (c.toNat - 0x10000) / 0x400) ++
      escapeUnit (0xdc00 + (c.toNat - 0x10000) % 0x400)

def renderString (s : String) : String :=
  String.ofList ('"' :: s.toList.flatMap escapeChar ++ ['"'])

mutual

def render : Json → String
  | null => "null"
  | string text => renderString text
  | object members => "\x7b" ++ renderMembers members ++ "\x7d"

def renderMembers : List (String × Json) → String
  | [] => ""
  | [(name, value)] => renderString name ++ ": " ++ render value
  | (name, value) :: rest => renderString name ++ ": " ++ render value ++ ", " ++ renderMembers rest

end

end Json

end SymbolicDerivatives
