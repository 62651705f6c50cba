/-!
# Blank characters

Two notions of white space occur. Between the tokens of a schema only five ASCII characters are
skipped. A discriminant, on the other hand, ends at any character that Unicode or ASCII counts as
space, among them the four separators from U+001C on.
-/

namespace WireSchema.Text

/-- Skipped between tokens. -/
def isLayout (c : Char) : Bool :=
  c = ' ' || c = '\t' || c = '\x0c' || c = '\r' || c = '\n'

/-- White space in the widest sense. -/
def isBlank (c : Char) : Bool :=
  let n := c.toNat
  (9 ≤ n && n ≤ 13) || (28 ≤ n && n ≤ 32) || n = 0x85 || n = 0xa0 || n = 0x1680 ||
    (0x2000 ≤ n && n ≤ 0x200a) || n = 0x2028 || n = 0x2029 || n = 0x202f || n = 0x205f ||
    n = 0x3000

end WireSchema.Text
