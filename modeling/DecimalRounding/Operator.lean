/-!
# Operators and their precedence

The operators of template expressions and of generated text. A higher precedence binds tighter,
and operators of one precedence group from the left. The levels are those that JavaScript and
Python share for the operators that built-in functions emit.
-/

namespace DecimalRounding

/-- An operator of an expression. -/
inductive Operator where
  | negative
  | not
  | times
  | divideBy
  | mod
  | plus
  | minus
  | lessThan
  | greaterThan
  | lessThanOrEqual
  | greaterThanOrEqual
  | equal
  | notEqual
  | and
  | or
  | conditional
deriving DecidableEq

namespace Operator

/-- How tightly the operator binds. -/
def precedence : Operator → Int
  | .negative | .not => 8
  | .times | .divideBy | .mod => 7
  | .plus | .minus => 6
  | .lessThan | .greaterThan | .lessThanOrEqual | .greaterThanOrEqual => 5
  | .equal | .notEqual => 4
  | .and => 3
  | .or => 2
  | .conditional => 1

/-- The spelling in generated text. -/
def token : Operator → String
  | .negative => "-"
  | .not => "!"
  | .times => "*"
  | .divideBy => "/"
  | .mod => "%"
  | .plus => "+"
  | .minus => "-"
  | .lessThan => "<"
  | .greaterThan => ">"
  | .lessThanOrEqual => "<="
  | .greaterThanOrEqual => ">="
  | .equal => "=="
  | .notEqual => "!="
  | .and => "&&"
  | .or => "||"
  | .conditional => "?:"

/-- Does it stand between two operands? -/
def isBinary : Operator → Bool
  | .negative | .not | .conditional => false
  | _ => true

/-- Does it compute a number from two numbers? -/
def isArithmetic : Operator → Bool
  | .times | .divideBy | .mod | .plus | .minus => true
  | _ => false

end Operator

end DecimalRounding
