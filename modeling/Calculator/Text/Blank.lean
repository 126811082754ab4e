/-!
# Blank characters

Blanks separate the parts of a formula and carry no meaning. `isSpace` is the
Unicode property `White_Space`; `isBlank` adds the four information separators
`U+001C` to `U+001F`. `trim` drops spaces at both ends of a text.
-/

namespace Calculator.Text

/-- The ranges, ends included, of the property `White_Space`. -/
def spaceRanges : List (Nat × Nat) :=
  [(0x09, 0x0D), (0x20, 0x20), (0x85, 0x85), (0xA0, 0xA0), (0x1680, 0x1680), (0x2000, 0x200A),
    (0x2028, 0x2029), (0x202F, 0x202F), (0x205F, 0x205F), (0x3000, 0x3000)]

/-- Whether the code point lies in one of the ranges. -/
def inRanges (ranges : List (Nat × Nat)) (c : Char) : Bool :=
  ranges.any fun r => r.1 ≤ c.toNat && c.toNat ≤ r.2

def isSpace (c : Char) : Bool := inRanges spaceRanges c

def isBlank (c : Char) : Bool := inRanges ((0x1C, 0x1F) :: spaceRanges) c

def trim (cs : List Char) : List Char :=
  ((cs.dropWhile isSpace).reverse.dropWhile isSpace).reverse

end Calculator.Text
