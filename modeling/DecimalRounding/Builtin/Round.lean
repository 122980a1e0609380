import DecimalRounding.Builtin.Basic
import DecimalRounding.Emit.JavaScript
import DecimalRounding.Emit.Python
import DecimalRounding.Rounding.Number

/-!
# The built-in function `round`

`round(number)` and `round(number, digits)` round half away from zero to `digits` digits after
the point, `0` when it is left out. The call is evaluated on known numbers (`Round.evaluate`)
and emitted for each target language (`Round.emit`). An emitted call is checked by the static
types of its arguments before any text is made, so whether it fails depends on them alone.
-/

namespace DecimalRounding.Round

/-- The name of the function. -/
def name : String := "round"

/-- One or two arguments. -/
def counts : ArgumentCounts := ⟨1, 2⟩

/-- The documentation text. -/
def doc : String :=
  "Round a number to a given number of decimal digits (half away from zero).\n" ++
  "Usage: round(number) or round(number, digits)\n" ++
  "Examples: round(9753.14159) => 9753, round(9753.14159, 2) => 9753.14, " ++
  "round(9753.14159, -2) => 9800"

/-- The number and the digit count among the arguments. -/
def arguments {α : Type} : List α → Except CallError (α × Option α)
  | [number] => .ok (number, none)
  | [number, digits] => .ok (number, some digits)
  | args => .error (counts.error name args.length)

/-- The digit count of a call on known numbers. -/
def digitsValue : Option Number → Except CallError Int
  | none => .ok 0
  | some digits => digits.integerValue name 1

/-- The value of a call. The digit count is looked at first, so a digit count that is none is
reported even where the number could not be rounded. -/
def evaluate (args : List Number) : Except CallError Number := do
  let (number, digits) ← arguments args
  let count ← digitsValue digits
  (number.round count).mapError fun reason => .ofCause (.domain name reason.message)

/-- What a value becomes when a call on it ends: the result, or the value itself if the call
fails. -/
def next (value : Number) (result : Except CallError Number) : Number :=
  result.toOption.getD value

/-- Rounds a number to each of several digit counts in turn, each time what the step before left.
A step that fails changes nothing. -/
def run (start : Number) : List Number → List (Except CallError Number)
  | [] => []
  | digits :: rest =>
    let result := evaluate [start, digits]
    result :: run (next start result) rest

/-- The arguments of an emitted call, after their static types are checked. -/
def typedArguments (args : List Argument) :
    Except CallError (Argument × Option Argument) := do
  let (number, digits) ← arguments args
  number.facts.type.requireNumeric name 0
  match digits with
  | none => pure ()
  | some argument => argument.facts.type.requireInteger name 1
  return (number, digits)

/-- The text of a call whose arguments are checked. -/
def fragment (names : RuntimeNames) (target : Target) (number : Argument)
    (digits : Option Argument) : Fragment :=
  match target with
  | .javaScript =>
    JavaScript.round names.javaScript number.fragment (digits.map (·.fragment))
      (.ofFacts (digits.map (·.facts)))
  | .python => Python.round names.python number.fragment (digits.map (·.fragment))

/-- The text of a call. -/
def emit (names : RuntimeNames) (target : Target) (args : List Argument) :
    Except CallError Fragment := do
  let (number, digits) ← typedArguments args
  return fragment names target number digits

/-- The built-in function, with the names that its generated code calls. -/
def builtin (names : RuntimeNames) : Builtin where
  name := name
  counts := counts
  doc := doc
  evaluate := evaluate
  emit := emit names

end DecimalRounding.Round
