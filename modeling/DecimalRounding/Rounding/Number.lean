import DecimalRounding.Rounding.Integer
import DecimalRounding.Rounding.Float

/-!
# Rounding a number to a digit count

Integers and binary64 numbers are rounded each by its own rule: the first exactly, the second
after the outward nudge.
-/

namespace DecimalRounding

/-- Rounds a number to `digits` digits after the point, ties away from zero. -/
def Number.round (number : Number) (digits : Int) : Except RoundingError Number :=
  match number with
  | .int n => roundInt n digits
  | .float x => roundFloat x digits

end DecimalRounding
