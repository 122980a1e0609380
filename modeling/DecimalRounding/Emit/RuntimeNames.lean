/-!
# Names that generated code calls

Generated code leans on a few functions of its run-time library. Their names can be replaced
by a host with a library of its own; without a replacement they are those of the stock
libraries.
-/

namespace DecimalRounding

/-- Names called by generated JavaScript. -/
structure JavaScriptNames where
  /-- Rounds to a whole number. -/
  roundFunction : String := "Math.round"
  /-- Raises to a power. -/
  powerFunction : String := "Math.pow"
deriving DecidableEq

/-- Names called by generated Python. -/
structure PythonNames where
  /-- Takes a value and a digit count, and turns the value into an integer if the count is not
  positive. -/
  simplifyFunction : String := "runtime.simplify_num"
  /-- Rounds to a number of digits. -/
  roundFunction : String := "round"
  /-- Splits a number into significand and exponent. -/
  splitFunction : String := "math.frexp"
  /-- The distance from one to the next larger number. -/
  epsilon : String := "sys.float_info.epsilon"
deriving DecidableEq

/-- The names for all target languages. -/
structure RuntimeNames where
  javaScript : JavaScriptNames := {}
  python : PythonNames := {}
deriving DecidableEq

/-- A language that source text is emitted for. -/
inductive Target where
  | javaScript
  | python
deriving DecidableEq

end DecimalRounding
