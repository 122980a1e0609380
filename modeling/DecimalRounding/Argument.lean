import DecimalRounding.Fragment
import DecimalRounding.Text.Quoted
import DecimalRounding.TemplateExpr

/-!
# Arguments of emitted calls

A built-in that emits source text sees each argument twice: as the fragment already generated
for the target language, and as the static facts about the expression it came from.
-/

namespace DecimalRounding

/-- An argument of an emitted call. -/
structure Argument where
  /-- The text generated for the argument. -/
  fragment : Fragment
  /-- What is known of the expression it came from. -/
  facts : StaticFacts
deriving DecidableEq

/-- The argument in words, for debugging. -/
def Argument.describe (argument : Argument) : String :=
  let constant := match argument.facts.constant with
    | some n => "Some(" ++ toString n ++ ")"
    | none => "None"
  "TargetArg \x7b expr: SrcExpr \x7b text: " ++ Text.quote argument.fragment.text ++
    ", precedence: " ++ toString argument.fragment.precedence ++ " \x7d, static_type: " ++
    argument.facts.type.label ++ ", constant: " ++ constant ++ " \x7d"

/-! ### Digit counts -/

/-- What is known of the digit count of a rounding call. -/
inductive DigitCount where
  /-- The digit count is this integer. -/
  | literal (digits : Int)
  /-- The digit count is found at run time. -/
  | dynamic
deriving DecidableEq

namespace DigitCount

/-- Reads the digit count off the facts about the argument; without an argument it is zero. -/
def ofFacts : Option StaticFacts → DigitCount
  | none => .literal 0
  | some facts => match facts.constant with
    | some digits => .literal digits
    | none => .dynamic

/-- The digit count if it is known. -/
def value? : DigitCount → Option Int
  | .literal digits => some digits
  | .dynamic => none

/-- Is the digit count known? -/
def isLiteral : DigitCount → Bool
  | .literal _ => true
  | .dynamic => false

end DigitCount

end DecimalRounding
