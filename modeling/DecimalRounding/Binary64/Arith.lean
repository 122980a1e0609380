import DecimalRounding.Binary64.Nearest

/-!
# Arithmetic on binary64 numbers

Each operation is the exact result on magnitudes, rounded once by `nearestRank`. Signs
multiply; the sign of an exact zero sum is positive unless both terms are negative. Operations
on infinities give an infinity where the limit is one, and `nan` where there is no limit.

Powers are products: `pow` squares and multiplies, so it rounds after every product and need
not be the number nearest to the exact power.
-/

namespace DecimalRounding.Binary64

/-! ### Sum, product, quotient -/

/-- The sum, rounded once. -/
def add : Binary64 → Binary64 → Binary64
  | .nan, _ | _, .nan => .nan
  | .infinity s, .infinity t => if s = t then .infinity s else .nan
  | .infinity s, .finite .. | .finite .., .infinity s => .infinity s
  | .finite s a _, .finite t b _ =>
    let total := signed s (units a) + signed t (units b)
    if total = 0 then zero (s && t)
    else ofRank (total < 0) (nearestRank total.natAbs 1)

/-- The product, rounded once. -/
def mul : Binary64 → Binary64 → Binary64
  | .nan, _ | _, .nan => .nan
  | .infinity s, .infinity t => .infinity (s ^^ t)
  | .infinity s, .finite t a _ | .finite t a _, .infinity s =>
    if a = 0 then .nan else .infinity (s ^^ t)
  | .finite s a _, .finite t b _ =>
    ofRank (s ^^ t) (nearestRank (units a * units b) unitsPerOne)

/-- The quotient, rounded once. -/
def div : Binary64 → Binary64 → Binary64
  | .nan, _ | _, .nan => .nan
  | .infinity _, .infinity _ => .nan
  | .infinity s, .finite t _ _ => .infinity (s ^^ t)
  | .finite s _ _, .infinity t => zero (s ^^ t)
  | .finite s a _, .finite t b _ =>
    if b = 0 then if a = 0 then .nan else .infinity (s ^^ t)
    else ofRank (s ^^ t) (nearestRank (units a * unitsPerOne) (units b))

instance : Add Binary64 := ⟨add⟩
instance : Mul Binary64 := ⟨mul⟩
instance : Div Binary64 := ⟨div⟩

/-! ### Powers -/

/-- `result · baseⁿ` by squaring, from the lowest bit of the exponent up. The base is squared
only while higher bits remain. -/
def powAux (result base : Binary64) (n : Nat) : Binary64 :=
  let result := if n % 2 = 1 then result * base else result
  if n < 2 then result else powAux result (base * base) (n / 2)
termination_by n

/-- An integer power by squaring; a negative exponent takes the reciprocal at the end. -/
def pow (base : Binary64) (exponent : Int) : Binary64 :=
  let power := powAux one base exponent.natAbs
  if exponent < 0 then one / power else power

/-- An integer power of two. -/
def twoPow (exponent : Int) : Binary64 := pow (ofInt 2) exponent

/-- An integer power of ten. -/
def tenPow (exponent : Int) : Binary64 := pow (ofInt 10) exponent

end DecimalRounding.Binary64
