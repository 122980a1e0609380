import DecimalRounding.Binary64.Nearest

/-!
# Decimal fractions

A decimal fraction is a numerator over a power of ten, `numerator / 10 ^ places`. It is written
with exactly `places` digits after the point (`Decimal.text`), read as the nearest binary64
number (`Decimal.rank`), and obtained from a binary64 magnitude by rounding to a fixed number
of places (`Decimal.ofRank`).
-/

namespace DecimalRounding

-- powers of numbers are those of the core library, also where algebra is in scope
attribute [local instance (high)] instPowNat

/-- The non-negative decimal fraction `numerator / 10 ^ places`. -/
structure Decimal where
  /-- The digits, read as one natural number. -/
  numerator : Nat
  /-- How many of the digits stand after the point. -/
  places : Nat
deriving DecidableEq

namespace Decimal

/-- The last `places` decimal digits of a number, leading zeros included. -/
def lastDigits : Nat → Nat → List Char
  | 0, _ => []
  | places + 1, n => Nat.digitChar (n / 10 ^ places % 10) :: lastDigits places n

/-- Positional text: the whole part, and after a point the fractional digits, if there are
any. Never an exponent. -/
def text (d : Decimal) : String :=
  let whole := toString (d.numerator / 10 ^ d.places)
  if d.places = 0 then whole
  else whole ++ "." ++ String.ofList (lastDigits d.places d.numerator)

/-- The rank of the binary64 magnitude nearest to the fraction, ties to even. -/
def rank (d : Decimal) : Nat :=
  Binary64.nearestRank (d.numerator * Binary64.unitsPerOne) (10 ^ d.places)

/-- The fraction of `places` places nearest to the magnitude of a rank, ties to even. -/
def ofRank (places rank : Nat) : Decimal :=
  ⟨roundHalfEven (Binary64.units rank * 10 ^ places) Binary64.unitsPerOne, places⟩

end Decimal

/-- The number rounded to `places` places after the point, ties to even, and read back.
Infinities and `nan` stay. -/
def Binary64.roundPlaces (places : Nat) : Binary64 → Binary64
  | .finite negative rank _ => .ofRank negative (Decimal.ofRank places rank).rank
  | x => x

end DecimalRounding
