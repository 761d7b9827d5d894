/-!
# Blank characters

The characters of the Unicode property White_Space, as closed ranges of code
points, and the text that is left when they are cut off at both ends.
-/

namespace NestedRecord

namespace Text

/-- The code points with the property White_Space, ascending and apart. -/
def blankRanges : List (Nat × Nat) :=
  [(0x09, 0x0D), (0x20, 0x20), (0x85, 0x85), (0xA0, 0xA0), (0x1680, 0x1680),
   (0x2000, 0x200A), (0x2028, 0x2029), (0x202F, 0x202F), (0x205F, 0x205F),
   (0x3000, 0x3000)]

def isBlank (c : Char) : Bool :=
  blankRanges.any fun range => decide (range.1 ≤ c.toNat) && decide (c.toNat ≤ range.2)

/-- The text without the blanks at its ends. -/
def trim (text : String) : String :=
  String.ofList ((text.toList.dropWhile isBlank).reverse.dropWhile isBlank).reverse

end Text

end NestedRecord
