/-!
# Static types of arguments

What the type checker of the template knows about an argument. `unknown` stands for an
expression whose type is only found at run time, and passes every check.
-/

namespace DecimalRounding

/-- The static type of an argument. -/
inductive StaticType where
  | int
  | float
  /-- An integer or a binary64 number, not known which. -/
  | number
  /-- Found at run time only. -/
  | unknown
  | bool
  | string
  | null
deriving DecidableEq

namespace StaticType

/-- May it be a number? -/
def isNumeric : StaticType → Bool
  | .int | .float | .number | .unknown => true
  | .bool | .string | .null => false

/-- May it be an integer? A `number` is refused, since it may as well be none. -/
def isInteger : StaticType → Bool
  | .int | .unknown => true
  | .float | .number | .bool | .string | .null => false

/-- The name in messages. -/
def name : StaticType → String
  | .int => "int"
  | .float => "float"
  | .number => "number"
  | .unknown => "?"
  | .bool => "bool"
  | .string => "string"
  | .null => "null"

/-- The name in debugging text. -/
def label : StaticType → String
  | .int => "Int"
  | .float => "Float"
  | .number => "Number"
  | .unknown => "Unknown"
  | .bool => "Bool"
  | .string => "String"
  | .null => "Null"

end StaticType

end DecimalRounding
