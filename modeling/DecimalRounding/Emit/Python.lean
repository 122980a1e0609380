import DecimalRounding.Emit.RuntimeNames
import DecimalRounding.Fragment

/-!
# Rounding calls in Python

Python rounds to a digit count itself, but takes the binary64 value literally, so the outward
nudge is emitted before the call. The run-time library then turns the result into an integer
when the digit count, given to it a second time, is not positive.
-/

namespace DecimalRounding.Python

/-- The nudged number: significand plus epsilon, times two to the exponent. -/
def nudgedText (names : PythonNames) (number : Fragment) : String :=
  let parts := names.splitFunction ++ "(" ++ number.text ++ ")"
  "(" ++ parts ++ "[0] + " ++ names.epsilon ++ ")*2**" ++ parts ++ "[1]"

/-- The text of a rounding call; without a digit count it is `0`. -/
def round (names : PythonNames) (number : Fragment) (digits : Option Fragment) : Fragment :=
  let count := digits.elim "0" Fragment.text
  let rounded := Fragment.call names.roundFunction [nudgedText names number, count]
  .call names.simplifyFunction [rounded.text, count]

end DecimalRounding.Python
