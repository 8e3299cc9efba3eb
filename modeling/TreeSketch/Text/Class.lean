/-!
# Character classes

The two classes of characters that every reader of tree text tells apart. `isBlank` is the Unicode
property `White_Space`, and `isControl` is the general category `Cc`. Both are written out as ranges
of code points, because the classes of core know ASCII only. Decimal digits, the third class that a
reader asks for, have a table of their own in `TreeSketch.Text.Digit`.
-/

namespace TreeSketch.Text

/-- The characters with the Unicode property `White_Space`. -/
def isBlank (c : Char) : Bool :=
  let n := c.toNat
  (0x9 ≤ n && n ≤ 0xD) || n == 0x20 || n == 0x85 || n == 0xA0 || n == 0x1680 ||
    (0x2000 ≤ n && n ≤ 0x200A) || n == 0x2028 || n == 0x2029 || n == 0x202F || n == 0x205F ||
    n == 0x3000

/-- The control characters: the general category `Cc`. -/
def isControl (c : Char) : Bool :=
  let n := c.toNat
  n ≤ 0x1F || (0x7F ≤ n && n ≤ 0x9F)

end TreeSketch.Text
