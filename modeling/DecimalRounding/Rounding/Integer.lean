import DecimalRounding.Int64Range
import DecimalRounding.Number
import DecimalRounding.Rounding.Error

/-!
# Rounding an integer to a digit count

A negative digit count `-k` asks for the nearest multiple of `10 ^ k`, ties away from zero,
computed on integers throughout. A positive one asks for a binary64 number and moves no digit.
-/

namespace DecimalRounding

-- powers of numbers are those of the core library, also where algebra is in scope
attribute [local instance (high)] instPowNat

/-- The most places that are worked out: half of `10 ^ 39` is beyond every 64-bit integer, so
more places give zero. -/
def maxIntegerPlaces : Nat := 38

/-- The multiple of `10 ^ places` nearest to `n`, ties away from zero: the quotient towards
zero, moved one away from zero when the remainder is at least half a step. -/
def nearestMultiple (n : Int) (places : Nat) : Int :=
  let step : Int := 10 ^ places
  let quotient := n.tdiv step
  let remainder := n.tmod step
  (if step ≤ 2 * remainder.natAbs then quotient + n.sign else quotient) * step

/-- Rounds an integer to `digits` digits after the point. -/
def roundInt (n digits : Int) : Except RoundingError Number :=
  if digits = 0 then .ok (.int n)
  else if 0 < digits then .ok (.float (.ofInt n))
  else if maxIntegerPlaces < digits.natAbs then .ok (.int 0)
  else match int64? (nearestMultiple n digits.natAbs) with
    | some rounded => .ok (.int rounded)
    | none => .error (.overflow n digits)

end DecimalRounding
