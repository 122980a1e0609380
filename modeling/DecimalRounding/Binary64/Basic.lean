/-!
# Binary64 numbers

A finite binary64 number is a sign and a **rank**: the place of its magnitude in the list of
all binary64 magnitudes, counted from zero. Ranks are what the format stores below the sign
bit, so neighbouring magnitudes have neighbouring ranks and the order of magnitudes is the
order of ranks.

The value of a rank is counted in **units** of `2⁻¹⁰⁷⁴`, the least positive magnitude: every
finite magnitude is a whole number of units (`units`). All arithmetic of the library is exact
arithmetic on those naturals, followed by one rounding (`Binary64/Nearest.lean`).

There is one `nan`; the infinities carry a sign and stand where the rank after the last
finite one would stand.
-/

namespace DecimalRounding

-- powers of numbers are those of the core library, also where algebra is in scope
attribute [local instance (high)] instPowNat

/-- The number of finite magnitudes. Ranks are smaller; the infinities take this place. -/
def Binary64.overflowRank : Nat := 2047 * 2 ^ (52 : Nat)

/-- A binary64 number: a sign and the rank of a magnitude, an infinity, or not a number. -/
inductive Binary64 where
  /-- Not a number. The payload of the format's many encodings is not kept. -/
  | nan
  /-- Infinity, with the sign that `negative` says. -/
  | infinity (negative : Bool)
  /-- The magnitude of rank `rank`, with the sign that `negative` says. Rank `0` is zero. -/
  | finite (negative : Bool) (rank : Nat) (rank_lt : rank < Binary64.overflowRank)
deriving DecidableEq

namespace Binary64

/-! ### Magnitudes -/

/-- The unit is two to the minus this. Irreducible, so that no proof works with the digits of
`2¹⁰⁷⁴` by accident. -/
@[irreducible]
def unitExponent : Nat := 1074

/-- How many units make one: `1 = 2¹⁰⁷⁴ · 2⁻¹⁰⁷⁴`. -/
def unitsPerOne : Nat := 2 ^ unitExponent

/-- The magnitude of a rank, in units of `2⁻¹⁰⁷⁴`. The first `2⁵²` ranks are one unit apart;
after that the distance doubles with every `2⁵²` ranks, beginning with the second group. -/
def units (rank : Nat) : Nat :=
  if rank < 2 ^ (52 : Nat) then rank
  else (2 ^ (52 : Nat) + rank % 2 ^ (52 : Nat)) * 2 ^ (rank / 2 ^ (52 : Nat) - 1)

/-- The number with a given sign and rank; ranks past the last finite one mean infinity. -/
def ofRank (negative : Bool) (rank : Nat) : Binary64 :=
  if h : rank < overflowRank then .finite negative rank h else .infinity negative

/-- Zero with the given sign. -/
def zero (negative : Bool) : Binary64 := ofRank negative 0

/-- The number one: rank `1023 · 2⁵²`. -/
def one : Binary64 := ofRank false (1023 * 2 ^ (52 : Nat))

/-- The distance from one to the next larger number, `2⁻⁵²`. -/
def epsilon : Binary64 := ofRank false (971 * 2 ^ (52 : Nat))

/-! ### Sign and class -/

/-- Neither an infinity nor `nan`. -/
def isFinite : Binary64 → Bool
  | .finite .. => true
  | _ => false

/-- Zero of either sign. -/
def isZero : Binary64 → Bool
  | .finite _ rank _ => rank == 0
  | _ => false

/-- The sign bit; `nan` counts as positive. -/
def isNegative : Binary64 → Bool
  | .nan => false
  | .infinity negative => negative
  | .finite negative _ _ => negative

/-- The number with its sign turned round. -/
def neg : Binary64 → Binary64
  | .nan => .nan
  | .infinity negative => .infinity (!negative)
  | .finite negative rank h => .finite (!negative) rank h

instance : Neg Binary64 := ⟨neg⟩

/-- The magnitude of `x` with the sign of `y`. -/
def copySign (x y : Binary64) : Binary64 :=
  if x.isNegative = y.isNegative then x else -x

/-- Attaches a sign to a natural number. -/
def signed (negative : Bool) (magnitude : Nat) : Int :=
  if negative then -(magnitude : Int) else magnitude

/-! ### Order -/

/-- The place of a number on the line of all numbers, zero in the middle: the rank with the
sign of the number. The two zeros share a place, and `nan` has none. -/
def ordinal? : Binary64 → Option Int
  | .nan => none
  | .infinity negative => some (signed negative overflowRank)
  | .finite negative rank _ => some (signed negative rank)

/-- Numerical equality: the zeros are equal, and `nan` equals nothing. -/
def numEq (x y : Binary64) : Bool :=
  match x.ordinal?, y.ordinal? with
  | some i, some j => i == j
  | _, _ => false

/-! ### Interchange format -/

/-- Reads the 64 bits of the interchange format: sign bit, then the rank. -/
def ofBits (bits : UInt64) : Binary64 :=
  let rank := bits.toNat % 2 ^ (63 : Nat)
  if rank ≤ overflowRank then ofRank (2 ^ (63 : Nat) ≤ bits.toNat) rank else .nan

/-- Writes the 64 bits of the interchange format. For `nan` this is the quiet one with no
payload and no sign. -/
def toBits : Binary64 → UInt64
  | .nan => UInt64.ofNat (overflowRank + 2 ^ (51 : Nat))
  | .infinity negative => UInt64.ofNat (negative.toNat * 2 ^ (63 : Nat) + overflowRank)
  | .finite negative rank _ => UInt64.ofNat (negative.toNat * 2 ^ (63 : Nat) + rank)

end Binary64

end DecimalRounding
