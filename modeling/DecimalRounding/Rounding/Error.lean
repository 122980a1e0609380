import DecimalRounding.Decimal.Shortest

/-!
# Why a number cannot be rounded

Rounding fails only where an integer is due and there is none, or none of 64 bits.
-/

namespace DecimalRounding

/-- A reason why rounding has no result. -/
inductive RoundingError where
  /-- The number is infinite or `nan`, and an integer was asked for. -/
  | notFinite (value : Binary64)
  /-- The rounded binary64 number has no 64-bit integer. -/
  | outOfRange (rounded : Binary64)
  /-- The rounded integer has more than 64 bits. -/
  | overflow (value digits : Int)
deriving DecidableEq

/-- The reason in words. -/
def RoundingError.message : RoundingError → String
  | .notFinite value => "cannot round " ++ value.text ++ " to an integer"
  | .outOfRange rounded =>
    "rounded value " ++ rounded.text ++ " does not fit in a 64-bit integer"
  | .overflow value digits =>
    "rounding " ++ toString value ++ " to " ++ toString digits ++
      " digits overflows a 64-bit integer"

end DecimalRounding
