/-
# Sets of characters given by ranges

A property of characters is a list of closed ranges of code points.
-/

namespace Lineage
namespace Text

/-- A character of the 7-bit range. -/
def isAscii (c : Char) : Bool := c.val < 0x80

/-- The code point of `c` lies in one of the closed ranges. -/
def inRanges (ranges : List (Nat × Nat)) (c : Char) : Bool :=
  ranges.any fun r => r.1 ≤ c.toNat && c.toNat ≤ r.2

end Text
end Lineage
