/-!
# Rounding a quotient of naturals to a whole number

Everything in this library that rounds does so by one of two rules, and both are stated here
on an exact quotient `num / den`: `roundHalfEven` sends a quotient half-way between two whole
numbers to the even one, `roundHalfAway` sends it away from zero. They differ at ties only.
-/

namespace DecimalRounding

/-- The whole number nearest to `num / den`; half-way between two of them, the even one. -/
def roundHalfEven (num den : Nat) : Nat :=
  let quotient := num / den
  let remainder := num % den
  if 2 * remainder < den ∨ (2 * remainder = den ∧ quotient % 2 = 0) then quotient
  else quotient + 1

/-- The whole number nearest to `num / den`; half-way between two of them, the larger one.
Applied to a magnitude this rounds ties away from zero. -/
def roundHalfAway (num den : Nat) : Nat :=
  (2 * num + den) / (2 * den)

end DecimalRounding
