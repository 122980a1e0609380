import DecimalRounding.Binary64.Arith
import DecimalRounding.Proofs.PythonSource
import Mathlib.Algebra.Ring.Int.Defs

/-!
# Values of Python expressions

Numbers are integers of any size or binary64 numbers, and a function may give a pair. Sums,
differences and products of integers are exact; if one of two numbers is not an integer, the other
is converted to binary64 and the result is rounded once. What names and functions stand for is
given from outside (`Environment`), and so are the remainder and the powers that are not powers of
integers. An expression has no value where its evaluation ends in an error.
-/

namespace DecimalRounding.Python

/-- The value of an expression. -/
inductive Value where
  | int (n : ℤ)
  | float (x : Binary64)
  | pair (first second : Value)
deriving DecidableEq

/-- The number as a binary64 number. An integer past the last finite number has none. -/
def Value.toFloat? : Value → Option Binary64
  | .int n => if (Binary64.ofInt n).isFinite then some (.ofInt n) else none
  | .float x => some x
  | .pair .. => none

/-- What names, functions and the operators stand for that are not fixed here. -/
structure Environment where
  value : String → Option Value
  function : String → List Value → Option Value
  remainder : Value → Value → Option Value
  power : Binary64 → Binary64 → Option Binary64

/-- The value behind a minus sign. -/
def Value.neg : Value → Option Value
  | .int n => some (.int (-n))
  | .float x => some (.float (-x))
  | .pair .. => none

/-- An item of a pair; indices below zero count from the end. -/
def Value.item : Value → Value → Option Value
  | .pair first second, .int n =>
    if n = 0 ∨ n = -2 then some first else if n = 1 ∨ n = -1 then some second else none
  | _, _ => none

/-- An operation on two numbers, one of which is a binary64 number. -/
def floatValue (operation : Binary64 → Binary64 → Option Binary64) (x y : Value) :
    Option Value := do
  return .float (← operation (← x.toFloat?) (← y.toFloat?))

/-- The quotient. Division by zero is an error, also in binary64. -/
def quotient : Value → Value → Option Value
  | .int a, .int b =>
    let q := Binary64.ofRatio (decide (a < 0) ^^ decide (b < 0)) a.natAbs b.natAbs
    if b ≠ 0 ∧ q.isFinite then some (.float q) else none
  | x, y => floatValue (fun x y => if y.isZero then none else some (x / y)) x y

/-- The value between two operands. -/
def binaryValue (env : Environment) : Operator → Value → Value → Option Value
  | .plus, .int a, .int b => some (.int (a + b))
  | .minus, .int a, .int b => some (.int (a - b))
  | .times, .int a, .int b => some (.int (a * b))
  | .plus, x, y => floatValue (fun x y => some (x + y)) x y
  | .minus, x, y => floatValue (fun x y => some (x + -y)) x y
  | .times, x, y => floatValue (fun x y => some (x * y)) x y
  | .divideBy, x, y => quotient x y
  | .mod, x, y => env.remainder x y
  | _, _, _ => none

/-- The power. An integer has exact powers, except where the exponent is negative. -/
def powerValue (env : Environment) : Value → Value → Option Value
  | .int a, .int b =>
    if 0 ≤ b then some (.int (a ^ b.toNat)) else floatValue env.power (.int a) (.int b)
  | x, y => floatValue env.power x y

namespace Tree

mutual

/-- The value of a tree. -/
def eval (env : Environment) : Tree → Option Value
  | .name text => env.value text
  | .integer n => some (.int n)
  | .decimal value => some (.float (.ofRank false value.rank))
  | .negative operand => (operand.eval env).bind Value.neg
  | .power base exponent => do powerValue env (← base.eval env) (← exponent.eval env)
  | .binary operator left right => do binaryValue env operator (← left.eval env) (← right.eval env)
  | .call callee arguments => do env.function callee (← evalAll env arguments)
  | .item tuple index => do (← tuple.eval env).item (← index.eval env)

/-- The values of all trees. -/
def evalAll (env : Environment) : List Tree → Option (List Value)
  | [] => some []
  | first :: others => do return (← first.eval env) :: (← evalAll env others)

end

variable {env : Environment} {a b : Tree} {x y : Value}

/-- A call on one argument hands its value to the function. -/
theorem eval_call_singleton (callee : String) (ha : a.eval env = some x) :
    (call callee [a]).eval env = env.function callee [x] := by
  simp [eval, evalAll, ha]

theorem eval_item (ha : a.eval env = some x) (hb : b.eval env = some y) :
    (item a b).eval env = x.item y := by
  simp [eval, ha, hb]

/-- An exponent may be any expression, such as an item of a pair. -/
theorem eval_power (ha : a.eval env = some x) (hb : b.eval env = some y) :
    (power a b).eval env = powerValue env x y := by
  simp [eval, ha, hb]

/-- Both operands are needed, whatever the operator. -/
theorem eval_binary (operator : Operator) (ha : a.eval env = some x) (hb : b.eval env = some y) :
    (binary operator a b).eval env = binaryValue env operator x y := by
  simp [eval, ha, hb]

end Tree

/-- A binary64 number times any number. -/
theorem binaryValue_times_float {env : Environment} {a b : Binary64} {y : Value}
    (hy : y.toFloat? = some b) :
    binaryValue env .times (.float a) y = some (.float (a * b)) := by
  have hproduct : floatValue (fun x y => some (x * y)) (.float a) y = some (.float (a * b)) := by
    rw [floatValue, hy]
    rfl
  cases y <;> exact hproduct

/-- The value of a text, if it is an expression. -/
def evalText (env : Environment) (text : String) : Option Value :=
  (read text).bind (·.eval env)

end DecimalRounding.Python
