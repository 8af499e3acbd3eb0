/-
White space in the sense of Unicode.

These are the characters with the property White_Space. Only grammar literals
use this class; the line-oriented grammar format separates its tokens by space,
tab, carriage return and line feed alone.
-/

set_option autoImplicit false

namespace ChomskyForm.Unicode

/-- Whether a character has the property White_Space. -/
def isWhiteSpace (c : Char) : Bool :=
  let code := c.toNat
  (0x9 ≤ code && code ≤ 0xD) || code == 0x20 || code == 0x85 || code == 0xA0 || code == 0x1680
    || (0x2000 ≤ code && code ≤ 0x200A) || code == 0x2028 || code == 0x2029 || code == 0x202F
    || code == 0x205F || code == 0x3000

end ChomskyForm.Unicode
