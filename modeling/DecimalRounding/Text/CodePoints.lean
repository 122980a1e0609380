/-!
# Sets of code points

A property of characters is given as a list of closed ranges of code points, ascending and
apart, so that each set has one list.
-/

namespace DecimalRounding.Text

/-- A set of code points, as closed ranges. -/
abbrev CodePoints := List (Nat × Nat)

namespace CodePoints

/-- Is the character in the set? -/
def contains (points : CodePoints) (c : Char) : Bool :=
  points.any fun range => range.1 ≤ c.toNat && c.toNat ≤ range.2

end CodePoints

end DecimalRounding.Text
