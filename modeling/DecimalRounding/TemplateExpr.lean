import DecimalRounding.Binary64.Basic
import DecimalRounding.Int64Range
import DecimalRounding.Operator
import DecimalRounding.StaticType

/-!
# Template expressions as arguments

The shapes of expression that the arguments of a built-in call have, and the two things a
built-in may ask of one (`StaticFacts`): its static type, and its value when that is an integer
known at compile time.
-/

namespace DecimalRounding

/-- What is known of an argument before the template runs. -/
structure StaticFacts where
  /-- The static type. -/
  type : StaticType
  /-- The value, if the argument folds to a 64-bit integer. -/
  constant : Option Int
deriving DecidableEq

/-- An expression in a template. -/
inductive TemplateExpr where
  | int (value : Int)
  | float (value : Binary64)
  | bool (value : Bool)
  | string (value : String)
  | null
  /-- A variable with its declared type. -/
  | var (name : String) (type : StaticType)
  | negate (operand : TemplateExpr)
  | binary (operator : Operator) (left right : TemplateExpr)

namespace TemplateExpr

/-- The type of an arithmetic result. An operand of unknown type, or one that is no number,
makes it unknown; a quotient is a `float`, and so is anything with a `float` operand; integers
give an integer; what is left may be either. -/
def arithmeticType (operator : Operator) (left right : StaticType) : StaticType :=
  if left = .unknown ∨ right = .unknown then .unknown
  else if !left.isNumeric || !right.isNumeric then .unknown
  else if operator = .divideBy then .float
  else if left = .int ∧ right = .int then .int
  else if left = .float ∨ right = .float then .float
  else .number

/-- The static type of an expression. Comparisons give a `bool`; the logical operators and the
conditional give one of their operands, so their type is unknown. -/
def staticType : TemplateExpr → StaticType
  | .int _ => .int
  | .float _ => .float
  | .bool _ => .bool
  | .string _ => .string
  | .null => .null
  | .var _ type => type
  | .negate operand => operand.staticType
  | .binary operator left right =>
    if operator.isArithmetic then arithmeticType operator left.staticType right.staticType
    else match operator with
      | .and | .or | .conditional => .unknown
      | _ => .bool

theorem staticType_binary {operator : Operator} (h : operator.isArithmetic)
    (left right : TemplateExpr) : (binary operator left right).staticType =
      arithmeticType operator left.staticType right.staticType :=
  if_pos h

/-- Apart from arithmetic the type depends on the operator only. -/
theorem staticType_binary_congr {operator : Operator} (h : ¬ operator.isArithmetic)
    (left right left' right' : TemplateExpr) :
    (binary operator left right).staticType = (binary operator left' right').staticType :=
  (if_neg h).trans (if_neg h).symm

/-- The integer an expression folds to: literals under negation, sum, difference and product,
as long as every value on the way has 64 bits. -/
def constant? : TemplateExpr → Option Int
  | .int value => some value
  | .negate operand => operand.constant?.bind fun n => int64? (-n)
  | .binary operator left right =>
    left.constant?.bind fun m => right.constant?.bind fun n =>
      match operator with
      | .plus => int64? (m + n)
      | .minus => int64? (m - n)
      | .times => int64? (m * n)
      | _ => none
  | _ => none

/-- What is known of an expression before the template runs. -/
def facts (expr : TemplateExpr) : StaticFacts := ⟨expr.staticType, expr.constant?⟩

/-- Equality of expressions, node by node; binary64 literals are compared numerically. -/
def same : TemplateExpr → TemplateExpr → Bool
  | .int m, .int n => m == n
  | .float x, .float y => x.numEq y
  | .bool a, .bool b => a == b
  | .string s, .string t => s == t
  | .null, .null => true
  | .var a s, .var b t => a == b && s == t
  | .negate a, .negate b => a.same b
  | .binary o a b, .binary p c d => o == p && a.same c && b.same d
  | _, _ => false

end TemplateExpr

end DecimalRounding
