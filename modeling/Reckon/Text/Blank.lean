/-!
# Blank characters

A character is blank when it has the Unicode property `White_Space`.  The property holds
of twenty-five characters, listed here as ten ranges of code points.

## Main definitions

* `Text.blankRanges` — the ranges of the property.
* `Text.isBlank` — membership in one of them.
* `Text.trimEnd` — a text without its trailing blanks.
-/

namespace Reckon.Text

/-- The first and last code point of each range of blank characters. -/
def blankRanges : List (Nat × Nat) :=
  [(0x09, 0x0D), (0x20, 0x20), (0x85, 0x85), (0xA0, 0xA0), (0x1680, 0x1680),
   (0x2000, 0x200A), (0x2028, 0x2029), (0x202F, 0x202F), (0x205F, 0x205F),
   (0x3000, 0x3000)]

/-- Whether a character has the Unicode property `White_Space`. -/
def isBlank (c : Char) : Bool :=
  blankRanges.any fun range => range.1 ≤ c.toNat && c.toNat ≤ range.2

/-- A text without the blanks at its end. -/
def trimEnd (cs : List Char) : List Char :=
  (cs.reverse.dropWhile isBlank).reverse

end Reckon.Text
