import DecimalRounding.Rounding.Float
import DecimalRounding.Proofs.Nudge
import DecimalRounding.Proofs.TenPowers
import DecimalRounding.Proofs.HalfAway

/-!
# Rounding to zero or fewer digits, in rationals

What `roundFloat` computes for a digit count `-p ≤ 0`, once the nudge is done: the quotient by the
power of ten, rounded to a magnitude and then to a whole number, times the power of ten, rounded
again (`roundFloat_neg_eq`). The only failures left are those of the passage to 64 bits
(`intOfRounded_eq_ok_iff`, `intOfRounded_ofRank_of_lt`).
-/

namespace DecimalRounding

open Binary64

variable {s : Bool} {r q n p : ℕ} {h : r < overflowRank} {hq : q < overflowRank}

/-! ### The passage to 64 bits -/

theorem int64?_of_natAbs_lt {k : ℤ} (hk : k.natAbs < 2 ^ 63) : int64? k = some k :=
  int64?_eq_some_iff.mpr ⟨rfl, by omega, by omega⟩

@[simp]
theorem signed_zero (s : Bool) : signed s 0 = 0 := by cases s <;> rfl

theorem natAbs_signed (s : Bool) (n : ℕ) : (signed s n).natAbs = n := by
  cases s <;> simp [signed]

/-- What passes is the integer part, if it has 64 bits. -/
theorem intOfRounded_eq_ok_int_iff {x : Binary64} {k : ℤ} :
    intOfRounded x = .ok (.int k) ↔ x.truncate? = some k ∧ -2 ^ 63 ≤ k ∧ k < 2 ^ 63 := by
  rw [intOfRounded, toInt64?]
  cases x.truncate? with
  | none => simp
  | some n =>
    rw [Option.bind_some, Option.some.injEq]
    cases h : int64? n with
    | none =>
      refine iff_of_false (by simp) ?_
      rintro ⟨rfl, hrange⟩
      rw [int64?, if_pos hrange] at h
      cases h
    | some m =>
      obtain ⟨rfl, hlo, hhi⟩ := int64?_eq_some_iff.mp h
      simp only [Except.ok.injEq, Number.int.injEq]
      exact ⟨fun hk => ⟨hk, hk ▸ hlo, hk ▸ hhi⟩, And.left⟩

/-- What passes is the whole number itself, with the sign. -/
theorem intOfRounded_eq_ok_iff (hn : magnitude r = n) {k : ℤ} :
    intOfRounded (finite s r h) = .ok (.int k) ↔ int64? (signed s n) = some k := by
  rw [intOfRounded, toInt64?_finite hn]
  cases int64? (signed s n) <;> simp

/-- A whole number of less than 63 bits passes. -/
theorem intOfRounded_of_lt (hn : magnitude r = n) (hlt : n < 2 ^ 63) :
    intOfRounded (finite s r h) = .ok (.int (signed s n)) :=
  (intOfRounded_eq_ok_iff hn).mpr (int64?_of_natAbs_lt (by rwa [natAbs_signed]))

/-- A natural number is a magnitude of its own as far as `2⁵³`, and passes. -/
theorem intOfRounded_nearest_natCast (hn : n ≤ 2 ^ 53) :
    intOfRounded (ofRank s (nearest n)) = .ok (.int (signed s n)) := by
  have hmag := magnitude_nearest_eq (exists_magnitude_natCast hn)
  have hlt : nearest n < overflowRank := lt_overflowRank_of_magnitude_le (by
    rw [hmag]
    exact_mod_cast hn)
  rw [ofRank_of_lt hlt, intOfRounded_of_lt hmag (by omega)]

/-- No steps make zero, whatever a step is worth. -/
theorem intOfRounded_zero_mul (s : Bool) (y : ℚ) :
    intOfRounded (ofRank s (nearest ((0 : ℕ) * y))) = .ok (.int 0) := by
  rw [Nat.cast_zero, zero_mul, ← Nat.cast_zero, intOfRounded_nearest_natCast (by omega),
    signed_zero]

/-- Beyond 64 bits nothing passes, be it finite or not. -/
theorem intOfRounded_ofRank_of_lt (hr : 2 ^ 63 < magnitude r) :
    intOfRounded (ofRank s r) = .error (.outOfRange (ofRank s r)) := by
  rcases Nat.lt_or_ge r overflowRank with hlt | hge
  · obtain ⟨n, hn⟩ := exists_natCast_eq_magnitude (r := r) (by linarith)
    have hlarge : 2 ^ 63 < n := by
      rw [hn] at hr
      exact_mod_cast hr
    have hnone : int64? (signed s n) = none := by
      refine if_neg fun hrange => ?_
      cases s <;> simp only [signed, if_true, Bool.false_eq_true, if_false] at hrange <;> omega
    rw [ofRank_of_lt hlt, intOfRounded, toInt64?_finite hn, hnone]
  · rw [ofRank_of_le hge]
    rfl

/-! ### The quotient, and the product -/

/-- Rounding to no digits, after the nudge. -/
theorem roundFloat_zero_eq (hnudge : (finite s r h).nudge = finite s q hq) :
    ∃ w, ∃ hw : w < overflowRank, magnitude w = ⌊magnitude q + 1 / 2⌋₊ ∧
      roundFloat (finite s r h) 0 = intOfRounded (finite s w hw) := by
  obtain ⟨w, hw, hmag, hround⟩ := roundWhole_finite (s := s) (h := hq)
  refine ⟨w, hw, hmag, ?_⟩
  rw [← hround, ← hnudge]
  rfl

/-- A finite number divided by a power of ten stays finite. -/
private theorem quotient_lt_overflowRank {t : ℕ} (hq : q < overflowRank) (ht : 1 ≤ magnitude t) :
    nearest (magnitude q / magnitude t) < overflowRank :=
  (nearest_le (div_nonneg (magnitude_nonneg q) (magnitude_nonneg t))
    (div_le_self (magnitude_nonneg q) ht)).trans_lt hq

/-- Every power of ten in use is at least one. -/
theorem one_le_magnitude_tenPow {t : ℕ} (hexact : p ≤ 22 → magnitude t = 10 ^ p)
    (hlarge : 22 < p → 10 ^ 22 ≤ magnitude t) : 1 ≤ magnitude t := by
  rcases Nat.lt_or_ge 22 p with hlt | hge
  · exact le_trans (by norm_num) (hlarge hlt)
  · rw [hexact hge]
    exact one_le_pow₀ (by norm_num)

theorem ne_zero_of_one_le_magnitude {t : ℕ} (ht : 1 ≤ magnitude t) : t ≠ 0 := by
  rintro rfl
  rw [magnitude_zero] at ht
  linarith

/-- Rounding to a negative digit count, step by step. -/
theorem roundFloat_neg_unfold (hp : 1 ≤ p) (hp' : p ≤ 308) :
    roundFloat (finite s r h) (-p) =
      intOfRounded (((finite s r h).nudge / tenPow p).roundWhole * tenPow p) := by
  have hfinite : (finite s r h).isFinite = true := rfl
  have habs : (-(p : ℤ)).natAbs = p := by omega
  rw [roundFloat, if_neg (by omega), hfinite, if_neg (by simp), if_neg (by omega), habs,
    if_neg (by rw [maxTenPower]; omega)]

/-- How many steps of `10 ^ places` rounding takes a number for: the rounded quotient of the nudged
number, and zero past the largest power of ten. -/
def stepCount (x : Binary64) (places : ℕ) : ℚ :=
  if maxTenPower < places then 0 else (x.nudge / tenPow places).roundWhole.value

/-- Rounding to a negative digit count, after the nudge, by the power of ten at hand. -/
theorem roundFloat_neg_eq_of_tenPow {t : ℕ} {ht : t < overflowRank} (hp : 1 ≤ p) (hp' : p ≤ 308)
    (hpow : tenPow p = finite false t ht) (hone : 1 ≤ magnitude t)
    (hnudge : (finite s r h).nudge = finite s q hq) :
    ∃ n : ℕ, n = ⌊magnitude (nearest (magnitude q / magnitude t)) + 1 / 2⌋₊ ∧
      (∃ w, magnitude w = n) ∧ stepCount (finite s r h) p = signFactor s * n ∧
      roundFloat (finite s r h) (-p) =
        intOfRounded (ofRank s (nearest (n * magnitude t))) := by
  obtain ⟨w, hw, hmag, hround⟩ := roundWhole_finite (s := s) (h := quotient_lt_overflowRank hq hone)
  have hquot : ((finite s r h).nudge / tenPow p).roundWhole = finite s w hw := by
    rw [hnudge, hpow, finite_div_finite (ne_zero_of_one_le_magnitude hone), Bool.xor_false,
      ofRank_of_lt (quotient_lt_overflowRank hq hone), hround]
  refine ⟨_, rfl, ⟨w, hmag⟩, ?_, ?_⟩
  · rw [stepCount, if_neg (by rw [maxTenPower]; omega), hquot, value, hmag]
  · rw [roundFloat_neg_unfold hp hp', hquot, hpow, finite_mul_finite, Bool.xor_false, hmag]

/-- Rounding to a negative digit count, after the nudge, by whatever power of ten is used. -/
theorem roundFloat_neg_eq (hp : 1 ≤ p) (hp' : p ≤ 308)
    (hnudge : (finite s r h).nudge = finite s q hq) :
    ∃ t n, (p ≤ 22 → magnitude t = 10 ^ p) ∧ (22 < p → 10 ^ 22 ≤ magnitude t) ∧
      n = ⌊magnitude (nearest (magnitude q / magnitude t)) + 1 / 2⌋₊ ∧
      (∃ w, magnitude w = n) ∧ stepCount (finite s r h) p = signFactor s * n ∧
      roundFloat (finite s r h) (-p) =
        intOfRounded (ofRank s (nearest (n * magnitude t))) := by
  obtain ⟨t, ht, hpow, hexact, hlarge⟩ := exists_tenPow hp'
  obtain ⟨n, hn⟩ := roundFloat_neg_eq_of_tenPow hp hp' hpow
    (one_le_magnitude_tenPow hexact hlarge) hnudge
  exact ⟨t, n, hexact, hlarge, hn⟩

/-- Beyond the largest power of ten all numbers are rounded to zero. -/
theorem roundFloat_of_large (hp : 308 < p) : roundFloat (finite s r h) (-p) = .ok (.int 0) := by
  have hfinite : (finite s r h).isFinite = true := rfl
  have habs : (-(p : ℤ)).natAbs = p := by omega
  rw [roundFloat, if_neg (by omega), hfinite, if_neg (by simp), if_neg (by omega), habs,
    if_pos (by rw [maxTenPower]; omega)]

theorem eq_zero_of_roundFloat_of_large {k : ℤ} (hp : 308 < p)
    (hk : roundFloat (finite s r h) (-p) = .ok (.int k)) : k = 0 := by
  rw [roundFloat_of_large hp] at hk
  cases hk
  rfl

/-- An infinite nudged number has no integer to round to. -/
theorem roundFloat_neg_of_infinity (hp : 1 ≤ p) (hp' : p ≤ 308)
    (hnudge : (finite s r h).nudge = .infinity s) :
    roundFloat (finite s r h) (-p) = .error (.outOfRange (.infinity s)) := by
  obtain ⟨t, ht, hpow, hexact, hlarge⟩ := exists_tenPow hp'
  have ht0 : t ≠ 0 := ne_zero_of_one_le_magnitude (one_le_magnitude_tenPow hexact hlarge)
  rw [roundFloat_neg_unfold hp hp', hnudge, hpow]
  have hdiv : Binary64.infinity s / finite false t ht = .infinity s := by
    cases s <;> rfl
  have hmul : Binary64.infinity s * finite false t ht = .infinity s := by
    change mul _ _ = _
    rw [mul, if_neg ht0, Bool.xor_false]
  have hround : (Binary64.infinity s).roundWhole = .infinity s := rfl
  rw [hdiv, hround, hmul]
  rfl

end DecimalRounding
