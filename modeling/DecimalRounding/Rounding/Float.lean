import DecimalRounding.Binary64.Nudge
import DecimalRounding.Binary64.Whole
import DecimalRounding.Number
import DecimalRounding.Rounding.Error

/-!
# Rounding a binary64 number to a digit count

Binary64 numbers are nudged outward by one relative `epsilon` (`Binary64.nudge`) and then
rounded half away from zero at the digit asked for.

* To `digits > 0` places the result is a binary64 number (`roundFraction`), found in one of three
  ways (`fractionPath`). A number whose text has no more places than that is already rounded and
  stays. Otherwise the nudged number is scaled, rounded and scaled back where that is exact enough:
  a quotient `k / 10 ^ digits` is the number nearest to that decimal while both `k` and
  `10 ^ digits` are binary64 numbers. Elsewhere the decimal is worked out and read.
* To `digits ≤ 0` places the result is an integer (`roundFloat`).
-/

namespace DecimalRounding

-- powers of numbers are those of the core library, also where algebra is in scope
attribute [local instance (high)] instPowNat

/-- The powers of ten up to this one are binary64 numbers. -/
def maxExactTenPower : Nat := 22

/-- The powers of ten up to this one are less than the largest binary64 number. -/
def maxTenPower : Nat := 308

/-- A way in which rounding to places finds its result. -/
inductive FractionPath where
  /-- The number has no more places and stays. -/
  | unchanged
  /-- The nudged number is scaled, rounded and scaled back. -/
  | scaled
  /-- The decimal is worked out and read. -/
  | formatted
deriving DecidableEq

/-- The way that rounding a number to `digits` places takes. -/
def fractionPath (x : Binary64) (digits : Nat) : FractionPath :=
  if !x.isFinite || x.decimalPlaces ≤ digits then .unchanged
  else if digits ≤ maxExactTenPower ∧
      (x.nudge * Binary64.ofInt (10 ^ digits)).magnitudeLt (2 ^ (53 : Nat)) then .scaled
  else .formatted

/-- Rounds a number to `digits` places after the point. -/
def roundFraction (x : Binary64) (digits : Nat) : Binary64 :=
  match fractionPath x digits with
  | .unchanged => x
  | .scaled =>
    let step := Binary64.ofInt (10 ^ digits)
    (x.nudge * step).roundWhole / step
  | .formatted => x.nudge.roundPlaces digits

/-- A binary64 number as an integer of 64 bits. -/
def intOfRounded (rounded : Binary64) : Except RoundingError Number :=
  match rounded.toInt64? with
  | some n => .ok (.int n)
  | none => .error (.outOfRange rounded)

/-- Rounds a number to `digits` digits after the point; with `digits ≤ 0` to an integer. Half of
`10 ^ 309` is beyond every finite number, so more places before the point give zero. -/
def roundFloat (x : Binary64) (digits : Int) : Except RoundingError Number :=
  if 0 < digits then .ok (.float (roundFraction x digits.toNat))
  else if !x.isFinite then .error (.notFinite x)
  else if digits = 0 then intOfRounded x.nudge.roundWhole
  else if maxTenPower < digits.natAbs then .ok (.int 0)
  else
    let step := Binary64.tenPow digits.natAbs
    intOfRounded ((x.nudge / step).roundWhole * step)

end DecimalRounding
