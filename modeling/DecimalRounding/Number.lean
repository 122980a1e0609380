import DecimalRounding.Decimal.Shortest

/-!
# Numbers known at compile time

A number in a template is an integer or a binary64 number, and stays what it is: `1` and `1.0`
are different numbers. Rounding to zero or fewer digits gives integers, rounding to more gives
binary64 numbers.
-/

namespace DecimalRounding

/-- A number known at compile time. Integers are those of 64 bits. -/
inductive Number where
  /-- An integer. -/
  | int (value : Int)
  /-- A binary64 number. -/
  | float (value : Binary64)
deriving DecidableEq

namespace Number

/-- The name of the kind of number. -/
def typeName : Number → String
  | .int _ => "int"
  | .float _ => "float"

/-- Is it an integer, by kind and not by value? -/
def isInt : Number → Bool
  | .int _ => true
  | .float _ => false

/-- The binary64 number nearest to the value, ties to even. -/
def toBinary64 : Number → Binary64
  | .int n => .ofInt n
  | .float x => x

/-- Decimal text: all digits of an integer, the shortest digits of a binary64 number. -/
def text : Number → String
  | .int n => toString n
  | .float x => x.text

/-- Equality of numbers of one kind; binary64 numbers are compared numerically, so `nan` is not
equal to itself. Numbers of different kinds are different. -/
def same : Number → Number → Bool
  | .int m, .int n => m == n
  | .float x, .float y => x.numEq y
  | _, _ => false

end Number

end DecimalRounding
