import DecimalRounding.Argument
import DecimalRounding.Emit.RuntimeNames

/-!
# Rounding calls in JavaScript

JavaScript rounds to whole numbers only, so a digit count is a scaling by a power of ten before
and after. A known count becomes a power of ten written out, and a negative one turns
multiplication and division round so that the power stays whole. A count found at run time, or
too large to be written as a finite number, leaves the power to a call.
-/

namespace DecimalRounding.JavaScript

-- powers of numbers are those of the core library, also where algebra is in scope
attribute [local instance (high)] instPowNat

/-- The largest digit count that is written out as a power of ten. -/
def maxFoldedDigits : Nat := 308

/-- The literal `10 ^ places`. -/
def tenPowerLiteral (places : Nat) : Fragment := .atom (toString (10 ^ places))

/-- `round(number scale factor) unscale factor`. -/
def scaledRound (names : JavaScriptNames) (scale unscale : Operator)
    (number factor : Fragment) : Fragment :=
  let scaled := Fragment.binary scale number factor
  Fragment.binary unscale (.call names.roundFunction [scaled.text]) factor

/-- `round(number)`. -/
def plainRound (names : JavaScriptNames) (number : Fragment) : Fragment :=
  .call names.roundFunction [number.text]

/-- Scaling by a power of ten that is computed at run time. -/
def powerRound (names : JavaScriptNames) (number digits : Fragment) : Fragment :=
  scaledRound names .times .divideBy number (.call names.powerFunction ["10", digits.text])

/-- The text of a rounding call. The fragment of the digit count is used only where the count
is not written out; a count that is known needs none. -/
def round (names : JavaScriptNames) (number : Fragment) (digits : Option Fragment)
    (count : DigitCount) : Fragment :=
  match count with
  | .literal d =>
    if d = 0 then plainRound names number
    else if d.natAbs ≤ maxFoldedDigits then
      let factor := tenPowerLiteral d.natAbs
      if 0 < d then scaledRound names .times .divideBy number factor
      else scaledRound names .divideBy .times number factor
    else powerRound names number (digits.getD (.intLiteral d))
  | .dynamic => match digits with
    | some fragment => powerRound names number fragment
    | none => plainRound names number

end DecimalRounding.JavaScript
