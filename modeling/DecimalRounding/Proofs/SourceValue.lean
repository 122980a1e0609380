import DecimalRounding.Proofs.ComposedText
import Mathlib.Data.Rat.Floor

/-!
# Values of generated text

Trees that are read from text have values in exact rational arithmetic (`SourceTree.eval`). What
names stand for is given from outside (`Environment`), and may be anything. A tree has no value if
a name in it has none or if it divides by zero; as in the target languages, `&&`, `||` and the
conditional only need those of their operands that they go on with.
-/

namespace DecimalRounding

/-- What names stand for: variables for numbers, functions for functions of numbers. -/
structure Environment where
  value : String → Option ℚ
  function : String → List ℚ → Option ℚ

/-- Truth values are the numbers one and zero. -/
def truth (p : Prop) [Decidable p] : ℚ := if p then 1 else 0

/-- The value behind an operator in front. -/
def Operator.unaryValue : Operator → ℚ → Option ℚ
  | .negative, x => some (-x)
  | .not, x => some (truth (x = 0))
  | _, _ => none

/-- The value between two operands, the second of which may have none. -/
def Operator.binaryValue : Operator → ℚ → Option ℚ → Option ℚ
  | .and, x, y => if x = 0 then some x else y
  | .or, x, y => if x = 0 then y else some x
  | .times, x, some y => some (x * y)
  | .divideBy, x, some y => if y = 0 then none else some (x / y)
  | .mod, x, some y => if y = 0 then none else some (x - y * (x / y).num.tdiv (x / y).den)
  | .plus, x, some y => some (x + y)
  | .minus, x, some y => some (x - y)
  | .lessThan, x, some y => some (truth (x < y))
  | .greaterThan, x, some y => some (truth (y < x))
  | .lessThanOrEqual, x, some y => some (truth (x ≤ y))
  | .greaterThanOrEqual, x, some y => some (truth (y ≤ x))
  | .equal, x, some y => some (truth (x = y))
  | .notEqual, x, some y => some (truth (x ≠ y))
  | _, _, _ => none

namespace SourceTree

mutual

/-- The value of a tree. -/
def eval (env : Environment) : SourceTree → Option ℚ
  | .name text => env.value text
  | .numeral value => some (value.numerator / 10 ^ value.places)
  | .unary operator operand => (operand.eval env).bind operator.unaryValue
  | .binary operator left right =>
    (left.eval env).bind fun x => operator.binaryValue x (right.eval env)
  | .conditional condition first second =>
    (condition.eval env).bind fun x => if x = 0 then second.eval env else first.eval env
  | .call callee arguments => (evalAll env arguments).bind (env.function callee)

/-- The values of all trees. -/
def evalAll (env : Environment) : List SourceTree → Option (List ℚ)
  | [] => some []
  | first :: others => do return (← first.eval env) :: (← evalAll env others)

end

variable {env : Environment} {a b : SourceTree} {x y : ℚ} {operator : Operator}

/-- The first operand is needed in every case; whether the second is, the operator decides. -/
theorem eval_binary (ha : a.eval env = some x) :
    (binary operator a b).eval env = operator.binaryValue x (b.eval env) := by
  rw [eval, ha]
  rfl

/-- A call on one argument hands its value to the function. -/
theorem eval_call_singleton (callee : String) (ha : a.eval env = some x) :
    (call callee [a]).eval env = env.function callee [x] := by
  simp [eval, evalAll, ha]

theorem eval_call_pair (callee : String) (ha : a.eval env = some x) (hb : b.eval env = some y) :
    (call callee [a, b]).eval env = env.function callee [x, y] := by
  simp [eval, evalAll, ha, hb]

theorem eval_numeral (n : ℕ) : (numeral ⟨n, 0⟩).eval env = some (n : ℚ) := by
  simp [eval]

/-- An integer is read as a sign and a numeral, and has its value either way. -/
theorem eval_ofInt (n : ℤ) : (ofInt n).eval env = some (n : ℚ) := by
  rw [ofInt]
  split_ifs with hn
  · have hneg : -((n.natAbs : ℕ) : ℚ) = n := by
      rw [Nat.cast_natAbs, abs_of_neg hn]
      push_cast
      ring
    rw [eval, eval_numeral]
    exact congrArg some hneg
  · have hpos : ((n.natAbs : ℕ) : ℚ) = n := by
      rw [Nat.cast_natAbs, abs_of_nonneg (not_lt.mp hn)]
    rw [eval_numeral, hpos]

end SourceTree

end DecimalRounding
