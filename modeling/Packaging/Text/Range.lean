/-!
# Ranges of characters

A property of characters is a list of closed ranges of code points, ascending and apart.
Properties grow with every version of the character database, so each table says which version it
is of.
-/

namespace Packaging.Text

/-- A closed range of code points: its first and its last. -/
abbrev Range := Nat × Nat

/-- `c` lies in one of the ranges. -/
def inRanges (ranges : List Range) (c : Char) : Bool :=
  ranges.any fun r => r.1 ≤ c.toNat && c.toNat ≤ r.2

end Packaging.Text
