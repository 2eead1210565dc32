/-!
# White space

The characters that separate the words of a line and the tokens of a formula. They are the space,
the control characters from tab to carriage return, the four information separators, the next-line
control, and the Unicode separators of the categories `Zs`, `Zl` and `Zp`. A zero-width space and a
byte order mark are none of them.
-/

namespace SymbolicDerivatives.Text

/-- The runs of white space characters, by first and last code point. -/
def blanks : List (Nat × Nat) :=
  [(0x09, 0x0d), (0x1c, 0x20), (0x85, 0x85), (0xa0, 0xa0), (0x1680, 0x1680), (0x2000, 0x200a),
    (0x2028, 0x2029), (0x202f, 0x202f), (0x205f, 0x205f), (0x3000, 0x3000)]

def isBlank (c : Char) : Bool :=
  blanks.any fun (first, last) ↦ first ≤ c.toNat && c.toNat ≤ last

end SymbolicDerivatives.Text
