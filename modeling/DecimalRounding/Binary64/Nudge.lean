import DecimalRounding.Binary64.Arith

/-!
# Significand and exponent, and the outward nudge

`split` writes a number as a significand in `[1/2, 1)` times a power of two, and `scaleTwo`
multiplies by a power of two. Between the two, `nudge` adds one `epsilon` to the significand,
away from zero.

The nudge repairs decimal ties. A decimal such as `1.005` has no binary64 number of its own and
is kept as one slightly smaller; read literally it would round down at the second digit. Two
steps outward bring such a number to the far side of the tie, and are too few to carry any
other short decimal across one.
-/

namespace DecimalRounding.Binary64

-- powers of numbers are those of the core library, also where algebra is in scope
attribute [local instance (high)] instPowNat

/-- A number as `significand · 2^exponent`. -/
structure Split where
  /-- The significand, in `[1/2, 1)` by magnitude when the number is finite and not zero. -/
  significand : Binary64
  /-- The exponent of two. -/
  exponent : Int
deriving DecidableEq

/-- The rank of `1/2`: the ranks from here to the one before `one` are the significands. -/
def halfRank : Nat := 1022 * 2 ^ (52 : Nat)

/-- The distance that brings the leading one of a rank below `2⁵²` to bit 52; zero for larger
ranks. -/
def leadingShift (rank : Nat) : Nat := 52 - rank.log2

/-- Significand and exponent of a number. Zeros, infinities and `nan` are their own
significand, with exponent `0`.

A magnitude is `m · 2ᵉ` units with `2⁵² ≤ m < 2⁵³`, after a shift if it is subnormal, and the
significand `m · 2⁻⁵³` has rank `m - 2⁵²` beyond `halfRank`. -/
def split (x : Binary64) : Split :=
  match x with
  | .finite negative rank _ =>
    if rank = 0 then ⟨x, 0⟩
    else if rank < 2 ^ (52 : Nat) then
      let shift := leadingShift rank
      ⟨ofRank negative (halfRank + (rank * 2 ^ shift - 2 ^ (52 : Nat))), -1021 - shift⟩
    else
      ⟨ofRank negative (halfRank + rank % 2 ^ (52 : Nat)), (rank / 2 ^ (52 : Nat) : Nat) - 1022⟩
  | _ => ⟨x, 0⟩

/-- The product with `2^exponent`, in two steps, so that neither power of two has to leave the
range of binary64 when the product does not. -/
def scaleTwo (x : Binary64) (exponent : Int) : Binary64 :=
  let half := exponent.tdiv 2
  x * twoPow half * twoPow (exponent - half)

/-- One `epsilon` added to the significand, away from zero. Zeros, infinities and `nan` stay. -/
def nudge (x : Binary64) : Binary64 :=
  let parts := x.split
  if parts.significand.isZero || !parts.significand.isFinite then x
  else (parts.significand + epsilon.copySign parts.significand).scaleTwo parts.exponent

end DecimalRounding.Binary64
