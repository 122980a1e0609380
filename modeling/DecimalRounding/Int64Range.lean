/-!
# The range of 64-bit signed integers

Integers are unbounded here; where a result has to fit in 64 bits, `int64?` keeps it or
reports that it does not.
-/

namespace DecimalRounding

-- powers of numbers are those of the core library, also where algebra is in scope
attribute [local instance (high)] instPowNat

/-- The integer itself if it lies in `-2⁶³ … 2⁶³ - 1`. -/
def int64? (n : Int) : Option Int :=
  if -2 ^ (63 : Nat) ≤ n ∧ n < 2 ^ (63 : Nat) then some n else none

end DecimalRounding
