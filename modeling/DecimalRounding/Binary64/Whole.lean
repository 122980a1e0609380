import DecimalRounding.Binary64.Nearest
import DecimalRounding.Int64Range

/-!
# Whole numbers among the binary64 numbers

Rounding to a whole number with ties away from zero, the test for being one, and the passage
to 64-bit integers. Rounding keeps the sign, so a small negative number becomes negative zero.
-/

namespace DecimalRounding.Binary64

/-- The nearest whole number, ties away from zero; infinities and `nan` stay. -/
def roundWhole : Binary64 → Binary64
  | .finite negative rank _ => ofRatio negative (roundHalfAway (units rank) unitsPerOne) 1
  | x => x

/-- A finite number without a fractional part. -/
def isWhole : Binary64 → Bool
  | .finite _ rank _ => units rank % unitsPerOne == 0
  | _ => false

/-- The integer part, towards zero; infinities and `nan` have none. -/
def truncate? : Binary64 → Option Int
  | .finite negative rank _ => some (signed negative (units rank / unitsPerOne))
  | _ => none

/-- The integer part if it fits in 64 bits. -/
def toInt64? (x : Binary64) : Option Int := x.truncate?.bind int64?

/-- The magnitude is finite and below the natural number `bound`. -/
def magnitudeLt (x : Binary64) (bound : Nat) : Bool :=
  match x with
  | .finite _ rank _ => units rank < bound * unitsPerOne
  | _ => false

end DecimalRounding.Binary64
