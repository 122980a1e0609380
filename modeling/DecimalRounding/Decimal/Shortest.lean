import DecimalRounding.Decimal.Basic

/-!
# The shortest decimal of a binary64 number

Among the decimals that read back as a given number, the shortest is the one with the fewest
digits, and of several the nearest to the number; an exact tie goes to the larger.

The search runs over grids of decimals, the multiples of a power of ten, from coarse to fine.
If any point of a grid reads back, one of the two grid points around the number does, since
reading is monotone: so each grid costs two readings (`Decimal.onGrid?`). The coarsest grid with
a hit gives the fewest digits. Whole multiples of powers of ten come first
(`Decimal.wholeGrid?`), then one place after the point, two places, and so on.

The places of a number are read off its text (`Binary64.decimalPlaces`): since text is
positional, they are the places of the shortest decimal.
-/

namespace DecimalRounding

-- powers of numbers are those of the core library, also where algebra is in scope
attribute [local instance (high)] instPowNat

namespace Decimal

/-- Of the two grid points around a magnitude, the one that reads back; of two such points the
lower if it is the nearer one, else the upper. -/
def pick? (lower upper : Decimal) (lowerIsNearer : Bool) : Bool → Bool → Option Decimal
  | true, true => if lowerIsNearer then some lower else some upper
  | true, false => some lower
  | false, true => some upper
  | false, false => none

/-- On the grid of multiples of `step / 10 ^ places`, the point next to the magnitude of `rank`
that reads back as it: of two such points the nearer, and half-way between them the larger. -/
def onGrid? (rank step places : Nat) : Option Decimal :=
  let scaled := Binary64.units rank * 10 ^ places
  let cell := step * Binary64.unitsPerOne
  let index := scaled / cell
  let lower : Decimal := ⟨index * step, places⟩
  let upper : Decimal := ⟨(index + 1) * step, places⟩
  pick? lower upper (2 * (scaled % cell) < cell) (lower.rank == rank) (upper.rank == rank)

/-- The hit on the coarsest grid among the multiples of `10 ^ exponent`, … , `10`, `1`. -/
def wholeGrid? (rank : Nat) : Nat → Option Decimal
  | 0 => onGrid? rank 1 0
  | exponent + 1 => onGrid? rank (10 ^ (exponent + 1)) 0 <|> wholeGrid? rank exponent

/-- An exponent of ten that no magnitude in question exceeds: ten has more than three binary
digits. -/
def exponentBound (rank : Nat) : Nat := (Binary64.units rank / Binary64.unitsPerOne).log2 / 3 + 1

/-- No binary64 number needs more places than this to be read back. -/
def maxPlaces : Nat := 324

/-- The exact value of a rank, `units · 5 ^ 1074 / 10 ^ 1074`. -/
def exact (rank : Nat) : Decimal :=
  ⟨Binary64.units rank * 5 ^ Binary64.unitExponent, Binary64.unitExponent⟩

/-- The shortest decimal that reads back as the magnitude of `rank`. The exact value stands
behind the search, which always succeeds before. -/
def shortest (rank : Nat) : Decimal :=
  let hit := wholeGrid? rank (exponentBound rank) <|>
    (List.range maxPlaces).findSome? fun k => onGrid? rank 1 (k + 1)
  hit.getD (exact rank)

end Decimal

namespace Binary64

/-- The text of a number: the shortest decimal that reads back, with the sign in front, zero's
sign included. -/
def text : Binary64 → String
  | .nan => "NaN"
  | .infinity negative => if negative then "-inf" else "inf"
  | .finite negative rank _ =>
    let digits := (Decimal.shortest rank).text
    if negative then "-" ++ digits else digits

/-- How many characters stand after the first point of a text; none if it has no point. -/
def fractionDigits (text : String) : Nat := (text.toList.dropWhile (· ≠ '.')).tail.length

/-- How many digits the text of a number has after the point. -/
def decimalPlaces (x : Binary64) : Nat := fractionDigits x.text

end Binary64

end DecimalRounding
