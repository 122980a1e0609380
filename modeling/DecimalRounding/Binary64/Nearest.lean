import DecimalRounding.HalfRounding
import DecimalRounding.Binary64.Basic

/-!
# The nearest binary64 number

`nearestRank` is the one rounding rule behind every operation on binary64 numbers: an exact
magnitude goes to the nearest representable one, and half-way between two to the one of even
rank.

In the group of ranks where neighbours are `2ᵉ` units apart, the ranks are
`e · 2⁵² + m` for the multiples `m · 2ᵉ` of the spacing, with `2⁵² ≤ m < 2⁵³` (and from `0` up
for `e = 0`). So rounding to the nearest multiple of the spacing and adding `e · 2⁵²` gives the
rank. A magnitude that rounds up to `2⁵³ · 2ᵉ` needs no case of its own: it gets the first rank
of the next group. Past the last finite magnitude the ranks go on, and `ofRank` reads them as
infinity.
-/

namespace DecimalRounding.Binary64

-- powers of numbers are those of the core library, also where algebra is in scope
attribute [local instance (high)] instPowNat

/-- The exponent `e` of the spacing `2ᵉ`, in units, that representable magnitudes have around
a magnitude whose whole part is `whole` units. -/
def spacingExponent (whole : Nat) : Nat := whole.log2 - 52

/-- The rank nearest to the magnitude `num / den`, which is in units; ties go to the even
rank. -/
def nearestRank (num den : Nat) : Nat :=
  let e := spacingExponent (num / den)
  e * 2 ^ (52 : Nat) + roundHalfEven num (den * 2 ^ e)

/-- The binary64 number nearest to `num / den`, ties to even, with the given sign. -/
def ofRatio (negative : Bool) (num den : Nat) : Binary64 :=
  ofRank negative (nearestRank (num * unitsPerOne) den)

/-- The binary64 number nearest to an integer, ties to even. -/
def ofInt (n : Int) : Binary64 := ofRatio (n < 0) n.natAbs 1

end DecimalRounding.Binary64
