/-!
# Blank characters

White space in the sense of the Unicode property: what may stand between tokens as far as the
character check is concerned, and what trimming removes.
-/

namespace DerivedStats.Text

/-- The characters with the Unicode property `White_Space`. -/
def isBlank (c : Char) : Bool :=
  let n := c.toNat
  (9 ≤ n && n ≤ 13) || n = 0x20 || n = 0x85 || n = 0xA0 || n = 0x1680 ||
    (0x2000 ≤ n && n ≤ 0x200A) || n = 0x2028 || n = 0x2029 || n = 0x202F || n = 0x205F || n = 0x3000

/-- A text without the blanks at its two ends. -/
def trim (cs : List Char) : List Char :=
  ((cs.dropWhile isBlank).reverse.dropWhile isBlank).reverse

/-- The text holds nothing but blanks. -/
def isBlankText (s : String) : Bool := s.toList.all isBlank

end DerivedStats.Text
