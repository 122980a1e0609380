import DecimalRounding.Proofs.HalfAway

/-!
# Rounding integers within 128 bits

Integers are unbounded in this library, and the nearest multiple of a power of ten is worked out on
them with no thought of width (`nearestMultiple`). Here the same steps are taken once more with
every intermediate result held to 128 bits (`nearestMultiple128?`). For a 64-bit integer and all
places that are worked out none of the steps leaves that range (`nearestMultiple128?_eq`): the power
of ten is the largest of them but for the result, and the result is at most twice the integer, zero
being a multiple, too.

So rounding a 64-bit integer to a negative digit count finds *the* nearest multiple, and fails
exactly where that has more than 64 bits (`roundInt_neg_exact`).
-/

namespace DecimalRounding

/-! ### Arithmetic of 128 bits -/

/-- The integer itself if it lies in `-2¹²⁷ … 2¹²⁷ - 1`. -/
def int128? (n : ℤ) : Option ℤ :=
  if -2 ^ 127 ≤ n ∧ n < 2 ^ 127 then some n else none

/-- `result · baseⁿ` by squaring, from the lowest bit of the exponent up, if no product on the way
leaves 128 bits. The base is squared only while higher bits remain. -/
def power128? (result base : ℤ) (n : ℕ) : Option ℤ := do
  let result ← int128? (if n % 2 = 1 then result * base else result)
  if n < 2 then some result
  else
    let square ← int128? (base * base)
    power128? result square (n / 2)
termination_by n

/-- The multiple of `10 ^ places` nearest to `n`, ties away from zero, if no intermediate result
leaves 128 bits. -/
def nearestMultiple128? (n : ℤ) (places : ℕ) : Option ℤ := do
  let step ← power128? 1 10 places
  let quotient ← int128? (n.tdiv step)
  let remainder ← int128? (n.tmod step)
  let distance ← int128? remainder.natAbs
  let twice ← int128? (2 * distance)
  let steps ← int128? (if step ≤ twice then quotient + n.sign else quotient)
  int128? (steps * step)

variable {n result base : ℤ} {p k : ℕ}

theorem int128?_of_natAbs_lt (h : n.natAbs < 2 ^ 127) : int128? n = some n :=
  if_pos (by omega)

/-- A power by squaring has no product on the way that is larger than the power itself. -/
theorem power128?_eq (hr : 1 ≤ result) (hb : 1 ≤ base) (h : result * base ^ k < 2 ^ 127) :
    power128? result base k = some (result * base ^ k) := by
  induction k using Nat.strong_induction_on generalizing result base with
  | _ k ih =>
    have hfits : ∀ {m : ℤ}, 1 ≤ m → m ≤ result * base ^ k → int128? m = some m := fun h₁ h₂ =>
      int128?_of_natAbs_lt (by omega)
    have hone : ∀ i, 1 ≤ base ^ i := fun i => one_le_pow₀ hb
    have hle : ∀ i, i ≤ k → result * base ^ i ≤ result * base ^ k := fun i hi =>
      mul_le_mul_of_nonneg_left (pow_le_pow_right₀ hb hi) (by omega)
    -- the result so far, multiplied by the base where the lowest bit is set
    have hnext : (if k % 2 = 1 then result * base else result) = result * base ^ (k % 2) := by
      rcases Nat.mod_two_eq_zero_or_one k with hmod | hmod
      · rw [hmod, if_neg (by omega), pow_zero, mul_one]
      · rw [hmod, if_pos rfl, pow_one]
    have hresult : 1 ≤ result * base ^ (k % 2) := one_le_mul_of_one_le_of_one_le hr (hone _)
    rw [power128?, hnext, hfits hresult (hle _ (Nat.mod_le k 2)), Option.bind_eq_bind,
      Option.bind_some]
    rcases Nat.lt_or_ge k 2 with hk | hk
    · rw [if_pos hk, Nat.mod_eq_of_lt hk]
    · have hsquare : int128? (base * base) = some (base * base) := by
        refine hfits (one_le_mul_of_one_le_of_one_le hb hb) ?_
        rw [← pow_two]
        exact (pow_le_pow_right₀ hb hk).trans (le_mul_of_one_le_left (by positivity) hr)
      have hval : result * base ^ (k % 2) * (base * base) ^ (k / 2) = result * base ^ k := by
        rw [← pow_two, ← pow_mul, mul_assoc, ← pow_add, Nat.mod_add_div]
      rw [if_neg (by omega), hsquare, Option.bind_some, ← hval]
      exact ih (k / 2) (by omega) hresult (one_le_mul_of_one_le_of_one_le hb hb) (by rwa [hval])

/-! ### The nearest multiple -/

/-- Rounding at most doubles, since zero is a multiple of every step. -/
theorem natAbs_nearestMultiple_le (n : ℤ) (p : ℕ) :
    (nearestMultiple n p).natAbs ≤ 2 * n.natAbs := by
  have hzero := (isNearestMultiple_nearestMultiple n p).closest 0
  rw [Int.cast_zero, zero_mul, zero_sub, abs_neg] at hzero
  have hle : |nearestMultiple n p - n| ≤ |n| := by exact_mod_cast hzero
  rw [Int.abs_eq_natAbs, Int.abs_eq_natAbs] at hle
  omega

/-- No step on the way to the nearest multiple of a 64-bit integer leaves 128 bits. -/
theorem nearestMultiple128?_eq (hn : int64? n = some n) (hp : p ≤ maxIntegerPlaces) :
    nearestMultiple128? n p = some (nearestMultiple n p) := by
  obtain ⟨-, hlo, hhi⟩ := int64?_eq_some_iff.mp hn
  rw [maxIntegerPlaces] at hp
  have hstep : (10 : ℤ) ^ p < 2 ^ 127 :=
    (pow_le_pow_right₀ (by norm_num) hp).trans_lt (by norm_num)
  have hpower : power128? 1 10 p = some (10 ^ p) := by
    have h := power128?_eq (k := p) le_rfl (by norm_num : (1 : ℤ) ≤ 10) (by rwa [one_mul])
    rwa [one_mul] at h
  have hquotient : (n.tdiv (10 ^ p)).natAbs ≤ n.natAbs := Int.natAbs_tdiv_le_natAbs _ _
  have hremainder : (n.tmod (10 ^ p)).natAbs ≤ n.natAbs := by
    rw [Int.natAbs_tmod]
    exact Nat.mod_le _ _
  have hsign : n.sign.natAbs ≤ 1 := by
    rw [Int.natAbs_sign]
    split_ifs <;> omega
  have hmultiple : int128? (nearestMultiple n p) = some (nearestMultiple n p) :=
    int128?_of_natAbs_lt (by have := natAbs_nearestMultiple_le n p; omega)
  simp only [nearestMultiple] at hmultiple ⊢
  rw [nearestMultiple128?, hpower, Option.bind_eq_bind, Option.bind_some]
  generalize (10 : ℤ) ^ p = step at *
  generalize n.tdiv step = quotient at *
  generalize n.tmod step = remainder at *
  have hsteps : (if step ≤ 2 * remainder.natAbs then quotient + n.sign
      else quotient).natAbs < 2 ^ 127 := by
    split_ifs <;> omega
  rw [int128?_of_natAbs_lt (n := quotient) (by omega), Option.bind_some,
    int128?_of_natAbs_lt (n := remainder) (by omega), Option.bind_some,
    int128?_of_natAbs_lt (n := remainder.natAbs) (by omega), Option.bind_some,
    int128?_of_natAbs_lt (n := 2 * remainder.natAbs) (by omega), Option.bind_some,
    int128?_of_natAbs_lt hsteps, Option.bind_some, hmultiple]

/-! ### Negative digit counts -/

/-- **Exact rounding of integers.** Rounding a 64-bit integer `n` to `d < 0` digits finds the one
multiple `h` of `10 ^ |d|` that is nearest to `n`, ties going away from zero. The result is `h` if
that has 64 bits, and otherwise an overflow that names `n` and `d`. Past the places that are worked
out `h` is zero, and up to there no intermediate result leaves 128 bits. -/
theorem roundInt_neg_exact {n d : ℤ} (hn : int64? n = some n) (hd : d < 0) :
    ∃ h : ℤ, IsNearestMultiple h n (10 ^ d.natAbs) ∧
      (∀ x : ℚ, IsNearestMultiple x n (10 ^ d.natAbs) → x = h) ∧
      roundInt n d =
        (if -2 ^ 63 ≤ h ∧ h < 2 ^ 63 then .ok (.int h) else .error (.overflow n d)) ∧
      (maxIntegerPlaces < d.natAbs → h = 0) ∧
      (d.natAbs ≤ maxIntegerPlaces → nearestMultiple128? n d.natAbs = some h) := by
  have hnearest := isNearestMultiple_nearestMultiple n d.natAbs
  refine ⟨_, hnearest, fun x hx => hx.unique hnearest, ?_, nearestMultiple_of_large hn,
    nearestMultiple128?_eq hn⟩
  rw [roundInt, if_neg hd.ne, if_neg hd.not_gt]
  split_ifs with hlarge hfits hfits
  · rw [nearestMultiple_of_large hn hlarge]
  · rw [nearestMultiple_of_large hn hlarge] at hfits
    exact absurd hfits (by norm_num)
  · rw [int64?, if_pos hfits]
  · rw [int64?, if_neg hfits]

/-- The multiple of ten nearest to the largest 64-bit integer is out of range. -/
theorem roundInt_neg_exact_overflow :
    int64? (2 ^ 63 - 1) = some (2 ^ 63 - 1) ∧ (-1 : ℤ) < 0 ∧
      ∃ h : ℤ, h = 9223372036854775810 ∧
        IsNearestMultiple h (2 ^ 63 - 1 : ℤ) (10 ^ (-1 : ℤ).natAbs) ∧
        roundInt (2 ^ 63 - 1) (-1) = .error (.overflow (2 ^ 63 - 1) (-1)) := by
  have hn : int64? (2 ^ 63 - 1) = some (2 ^ 63 - 1) := by decide
  obtain ⟨h, hnearest, -, hround, -, hwidth⟩ := roundInt_neg_exact hn (d := -1) (by decide)
  have hvalue : nearestMultiple128? (2 ^ 63 - 1) (-1 : ℤ).natAbs = some 9223372036854775810 := by
    decide +kernel
  obtain rfl := Option.some.inj ((hwidth (by decide)).symm.trans hvalue)
  exact ⟨hn, by decide, _, rfl, hnearest, hround.trans (if_neg (by norm_num))⟩

end DecimalRounding
