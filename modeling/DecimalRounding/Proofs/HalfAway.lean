import DecimalRounding.Rounding.Integer
import DecimalRounding.Proofs.Value

/-!
# The nearest multiple of a step, ties away from zero

What it means to be the multiple of a step nearest to a rational, with ties going away from zero
(`IsNearestMultiple`), with no word on how it is found. There is exactly one
(`IsNearestMultiple.unique`, `isNearestMultiple_floor`), and rounding of integers finds it
(`isNearestMultiple_nearestMultiple`).
-/

namespace DecimalRounding

open Binary64

/-- `h` is the multiple of `step` nearest to `x`: none is closer, and none that is as close lies
farther from zero. -/
structure IsNearestMultiple (h x step : ℚ) : Prop where
  multiple : ∃ k : ℤ, h = k * step
  closest : ∀ k : ℤ, |h - x| ≤ |k * step - x|
  away : ∀ k : ℤ, |h - x| = |k * step - x| → |k * step| ≤ |h|

/-- There is only one nearest multiple: two of them would lie on both sides of zero, at equal
distances from it and from `x`. -/
theorem IsNearestMultiple.unique {h h' x step : ℚ} (hh : IsNearestMultiple h x step)
    (hh' : IsNearestMultiple h' x step) : h = h' := by
  obtain ⟨k, hk⟩ := hh.multiple
  obtain ⟨k', hk'⟩ := hh'.multiple
  have hdist : |h - x| = |h' - x| :=
    le_antisymm (by simpa [hk'] using hh.closest k') (by simpa [hk] using hh'.closest k)
  have habs : |h| = |h'| :=
    le_antisymm (by simpa [hk] using hh'.away k (by rw [← hk]; exact hdist.symm))
      (by simpa [hk'] using hh.away k' (by rw [← hk']; exact hdist))
  rcases abs_eq_abs.mp habs with heq | heq
  · exact heq
  · have hzero := hh.closest 0
    rcases abs_eq_abs.mp hdist with hd | hd
    · linarith
    -- `x` is zero, and so is the multiple nearest to it
    · obtain rfl : x = 0 := by linarith
      rw [sub_zero, Int.cast_zero, zero_mul, sub_zero, abs_zero] at hzero
      have h0 := abs_eq_zero.mp (le_antisymm hzero (abs_nonneg h))
      linarith

/-! ### The nearest multiple as a floor -/

/-- Rounding at most doubles. -/
theorem floor_add_half_le {x : ℚ} (hx : 0 ≤ x) : (⌊x + 1 / 2⌋₊ : ℚ) ≤ 2 * x := by
  have hlo := Nat.floor_le (show 0 ≤ x + 1 / 2 by linarith)
  rcases Nat.eq_zero_or_pos ⌊x + 1 / 2⌋₊ with hzero | hpos
  · rw [hzero, Nat.cast_zero]
    linarith
  · have hone : (1 : ℚ) ≤ ⌊x + 1 / 2⌋₊ := by exact_mod_cast hpos
    linarith

/-- Rounding moves by one half at most. -/
theorem abs_floor_add_half_sub_le {x : ℚ} (hx : 0 ≤ x) : |(⌊x + 1 / 2⌋₊ : ℚ) - x| ≤ 1 / 2 := by
  have hlo := Nat.floor_le (show 0 ≤ x + 1 / 2 by linarith)
  have hhi := Nat.lt_floor_add_one (x + 1 / 2)
  exact abs_le.mpr ⟨by linarith, by linarith⟩

/-- A quarter and less rounds to zero. -/
theorem floor_add_half_eq_zero {x : ℚ} (hx : x ≤ 1 / 4) : ⌊x + 1 / 2⌋₊ = 0 :=
  Nat.floor_eq_zero.mpr (by linarith)

/-- Past twenty places all that has 64 bits rounds to zero. -/
theorem floor_div_tenPow_eq_zero {x : ℚ} {p : ℕ} (hx : x ≤ 2 ^ 63) (hp : 20 ≤ p) :
    ⌊x / 10 ^ p + 1 / 2⌋₊ = 0 := by
  refine floor_add_half_eq_zero ((div_le_iff₀ (by positivity)).mpr ?_)
  have hpow : (10 : ℚ) ^ 20 ≤ 10 ^ p := pow_le_pow_right₀ (by norm_num) hp
  linarith

/-- A quarter and less rounds to zero by way of a magnitude, too: a quarter is one. -/
theorem floor_nearest_eq_zero {x : ℚ} (hx : 0 ≤ x) (hle : x ≤ 1 / 4) :
    ⌊magnitude (nearest x) + 1 / 2⌋₊ = 0 := by
  obtain ⟨r, hr⟩ := exists_magnitude_eq (m := 1) (by omega) (k := -2) (by omega)
  exact floor_add_half_eq_zero (magnitude_nearest_le ⟨r, by rw [hr]; norm_num⟩ hx hle)

/-- Subnormal magnitudes are less than that. -/
theorem two_zpow_le_quarter : (2 : ℚ) ^ (-1022 : ℤ) ≤ 1 / 4 := by
  have hquarter : (1 / 4 : ℚ) = 2 ^ (-2 : ℤ) := by norm_num
  rw [hquarter]
  exact zpow_le_zpow_right₀ one_le_two (by omega)

/-- The whole number nearest to `u ≥ 0`, ties upward, is closer than all others, but for one that
is smaller and as close. -/
private theorem abs_floor_sub_le {u : ℚ} (hu : 0 ≤ u) (k : ℤ) :
    |(⌊u + 1 / 2⌋₊ : ℚ) - u| ≤ |k - u| ∧
      (|(⌊u + 1 / 2⌋₊ : ℚ) - u| = |k - u| → |(k : ℚ)| ≤ ⌊u + 1 / 2⌋₊) := by
  have hn := abs_floor_add_half_sub_le hu
  have hlo := Nat.floor_le (show 0 ≤ u + 1 / 2 by linarith)
  have hhi := Nat.lt_floor_add_one (u + 1 / 2)
  generalize ⌊u + 1 / 2⌋₊ = n at *
  rcases lt_trichotomy k n with hlt | rfl | hgt
  · have hk : (k : ℚ) + 1 ≤ n := by exact_mod_cast hlt
    have hfar : u - k ≤ |k - u| := by
      rw [abs_sub_comm]
      exact le_abs_self _
    refine ⟨by linarith, fun htie => ?_⟩
    rcases le_or_gt 0 k with hpos | hneg
    · have hk0 : (0 : ℚ) ≤ k := by exact_mod_cast hpos
      rw [abs_of_nonneg hk0]
      linarith
    · have hk1 : (k : ℚ) + 1 ≤ 0 := by exact_mod_cast hneg
      linarith
  · exact ⟨le_rfl, fun _ => by simp⟩
  · have hk : (n : ℚ) + 1 ≤ k := by exact_mod_cast hgt
    have hfar : k - u ≤ |k - u| := le_abs_self _
    exact ⟨by linarith, fun htie => by linarith⟩

/-- The nearest multiple is the floor of the quotient plus one half, with the sign of `x`. -/
theorem isNearestMultiple_floor {s : Bool} {y step : ℚ} (hstep : 0 < step) (hy : 0 ≤ y) :
    IsNearestMultiple (signFactor s * (⌊y / step + 1 / 2⌋₊ * step)) (signFactor s * y) step := by
  obtain ⟨u, rfl⟩ : ∃ u, y = u * step := ⟨y / step, (div_mul_cancel₀ y hstep.ne').symm⟩
  have hu : 0 ≤ u := nonneg_of_mul_nonneg_left hy hstep
  rw [mul_div_cancel_right₀ _ hstep.ne']
  have hscale : ∀ a : ℚ, |signFactor s * (a * step) - signFactor s * (u * step)| =
      |a - u| * step := fun a => by
    rw [← mul_sub, abs_mul, abs_signFactor, one_mul, ← sub_mul, abs_mul, abs_of_pos hstep]
  -- a multiple of `step`, with the sign taken out
  have hsigned : ∀ k : ℤ, ∃ m : ℤ, (k : ℚ) * step = signFactor s * (m * step) ∧
      |(k : ℚ) * step| = |(m : ℚ)| * step := by
    intro k
    cases s
    · exact ⟨k, by simp, by rw [abs_mul, abs_of_pos hstep]⟩
    · exact ⟨-k, by simp, by rw [abs_mul, abs_of_pos hstep]; simp⟩
  have hfloor : |signFactor s * (⌊u + 1 / 2⌋₊ * step)| = ⌊u + 1 / 2⌋₊ * step := by
    rw [abs_mul, abs_signFactor, one_mul, abs_of_nonneg (by positivity)]
  constructor
  · cases s
    · exact ⟨⌊u + 1 / 2⌋₊, by simp⟩
    · exact ⟨-⌊u + 1 / 2⌋₊, by simp⟩
  · intro k
    obtain ⟨m, hm, -⟩ := hsigned k
    rw [hm, hscale, hscale]
    exact mul_le_mul_of_nonneg_right (abs_floor_sub_le hu m).1 hstep.le
  · intro k htie
    obtain ⟨m, hm, habs⟩ := hsigned k
    rw [hm, hscale, hscale] at htie
    rw [habs, hfloor]
    exact mul_le_mul_of_nonneg_right ((abs_floor_sub_le hu m).2 (mul_right_cancel₀ hstep.ne' htie))
      hstep.le

/-! ### Rounding integers -/

theorem signed_cast (s : Bool) (n : ℕ) : ((signed s n : ℤ) : ℚ) = signFactor s * n := by
  cases s <;> simp [signed]

/-- Rounding a quotient half away from zero, by its whole part and remainder. -/
theorem roundHalfAway_eq_ite {n step : ℕ} (hstep : 0 < step) :
    roundHalfAway n step = if step ≤ 2 * (n % step) then n / step + 1 else n / step := by
  have hmod : n % step < step := Nat.mod_lt n hstep
  have hn : 2 * n + step = 2 * (n % step) + step + 2 * step * (n / step) := by
    conv_lhs => rw [← Nat.mod_add_div n step]
    ring
  rw [roundHalfAway, hn, Nat.add_mul_div_left _ _ (by omega)]
  split_ifs with h
  · rw [Nat.div_eq_of_lt_le (k := 1) (by omega) (by omega), add_comm]
  · rw [Nat.div_eq_of_lt (by omega), zero_add]

/-- Rounding an integer moves its magnitude to the nearest multiple. -/
theorem nearestMultiple_signed (s : Bool) (n p : ℕ) :
    nearestMultiple (signed s n) p = signed s (⌊(n : ℚ) / 10 ^ p + 1 / 2⌋₊ * 10 ^ p) := by
  have hpos : 0 < 10 ^ p := Nat.pow_pos (by omega)
  have hfloor : ⌊(n : ℚ) / 10 ^ p + 1 / 2⌋₊ = roundHalfAway n (10 ^ p) := by
    rw [roundHalfAway_eq_floor hpos]
    push_cast
    rfl
  have hstep : ((10 : ℤ) ^ p) = ((10 ^ p : ℕ) : ℤ) := by push_cast; rfl
  rw [hfloor, roundHalfAway_eq_ite hpos]
  simp only [nearestMultiple, hstep]
  generalize 10 ^ p = step at *
  -- a zero has no remainder, and anything else has the sign `s`
  have hsign : step ≤ 2 * (n % step) → (signed s n).sign = signed s 1 := by
    intro hle
    have hn : n ≠ 0 := by
      rintro rfl
      rw [Nat.zero_mod] at hle
      omega
    cases s
    · exact Int.sign_eq_one_of_pos (by simpa [signed] using Nat.pos_of_ne_zero hn)
    · exact Int.sign_eq_neg_one_of_neg (by simpa [signed] using Nat.pos_of_ne_zero hn)
  have hdiv : (signed s n).tdiv step = signed s (n / step) := by
    cases s
    · exact (Int.ofNat_tdiv n step).symm
    · exact (Int.neg_tdiv _ _).trans (congrArg _ (Int.ofNat_tdiv n step).symm)
  have hmod : ((signed s n).tmod step).natAbs = n % step := by
    rw [Int.natAbs_tmod]
    cases s <;> simp [signed]
  rw [hmod, hdiv]
  split_ifs with h₁ h₂ h₂
  · rw [hsign h₂]
    cases s
    · simp [signed]
    · simp [signed]
      ring
  · omega
  · omega
  · cases s <;> simp [signed]

theorem exists_eq_signed (n : ℤ) : ∃ s, n = signed s n.natAbs := by
  rcases le_or_gt 0 n with h | h
  · exact ⟨false, (Int.natAbs_of_nonneg h).symm⟩
  · refine ⟨true, ?_⟩
    simp only [signed, if_true]
    omega

/-- Rounding an integer finds the nearest multiple. -/
theorem isNearestMultiple_nearestMultiple (n : ℤ) (p : ℕ) :
    IsNearestMultiple (nearestMultiple n p : ℤ) n (10 ^ p) := by
  obtain ⟨s, hn⟩ := exists_eq_signed n
  have hpos : (0 : ℚ) < 10 ^ p := by positivity
  have h := isNearestMultiple_floor (s := s) (y := n.natAbs) hpos (by positivity)
  rw [hn, nearestMultiple_signed, signed_cast, signed_cast]
  push_cast
  exact h

/-- A multiple of a step is its own nearest multiple. -/
theorem isNearestMultiple_self {x step : ℚ} (hx : ∃ k : ℤ, x = k * step) :
    IsNearestMultiple x x step := by
  refine ⟨hx, fun k => ?_, fun k htie => ?_⟩
  · rw [sub_self, abs_zero]
    exact abs_nonneg _
  · rw [sub_self, abs_zero, eq_comm, abs_eq_zero, sub_eq_zero] at htie
    rw [htie]

/-- Rounding an integer leaves it as it is exactly if it is a multiple already. -/
theorem nearestMultiple_eq_self_iff {n : ℤ} {p : ℕ} :
    nearestMultiple n p = n ↔ (10 : ℤ) ^ p ∣ n := by
  constructor
  · intro heq
    rw [← heq, nearestMultiple]
    exact Dvd.intro_left _ rfl
  · rintro ⟨m, rfl⟩
    have hself : IsNearestMultiple ((10 ^ p * m : ℤ) : ℚ) ((10 ^ p * m : ℤ) : ℚ) (10 ^ p) :=
      isNearestMultiple_self ⟨m, by push_cast; ring⟩
    exact_mod_cast (isNearestMultiple_nearestMultiple (10 ^ p * m) p).unique hself

/-! ### 64 bits -/

theorem int64?_eq_some_iff {a k : ℤ} : int64? a = some k ↔ a = k ∧ -2 ^ 63 ≤ a ∧ a < 2 ^ 63 := by
  rw [int64?]
  split_ifs with hrange
  · exact ⟨fun heq => ⟨Option.some.inj heq, hrange⟩, fun heq => congrArg some heq.1⟩
  · exact iff_of_false (by simp) fun heq => hrange heq.2

/-- Past the most places that are worked out, all 64-bit integers round to zero. -/
theorem nearestMultiple_of_large {n : ℤ} {p : ℕ} (hn : int64? n = some n)
    (hp : maxIntegerPlaces < p) : nearestMultiple n p = 0 := by
  obtain ⟨-, hlo, hhi⟩ := int64?_eq_some_iff.mp hn
  obtain ⟨s, hs⟩ := exists_eq_signed n
  have habs : (n.natAbs : ℚ) ≤ 2 ^ 63 := by exact_mod_cast (show n.natAbs ≤ 2 ^ 63 by omega)
  rw [maxIntegerPlaces] at hp
  rw [hs, nearestMultiple_signed, floor_div_tenPow_eq_zero habs (by omega), Nat.zero_mul]
  cases s <;> rfl

/-- What rounding an integer of 64 bits to a negative digit count gives: the nearest multiple, if it
has 64 bits. -/
theorem roundInt_neg_toOption {n : ℤ} {p : ℕ} (hn : int64? n = some n) (hp : 1 ≤ p) :
    (roundInt n (-p)).toOption = (int64? (nearestMultiple n p)).map .int := by
  have habs : (-(p : ℤ)).natAbs = p := by omega
  rw [roundInt, if_neg (by omega), if_neg (by omega), habs]
  split_ifs with hlarge
  · rw [nearestMultiple_of_large hn hlarge]
    rfl
  · cases int64? (nearestMultiple n p) <;> rfl

/-- Rounding an integer of 64 bits gives the integer itself exactly if it is a multiple. -/
theorem roundInt_neg_eq_self_iff {n : ℤ} {p : ℕ} (hn : int64? n = some n) (hp : 1 ≤ p) :
    roundInt n (-p) = .ok (.int n) ↔ (10 : ℤ) ^ p ∣ n := by
  have hoption : roundInt n (-p) = .ok (.int n) ↔
      (roundInt n (-p)).toOption = some (.int n) := by
    cases roundInt n (-p) <;> simp [Except.toOption]
  rw [hoption, roundInt_neg_toOption hn hp, ← nearestMultiple_eq_self_iff]
  constructor
  · intro heq
    obtain ⟨a, ha, hint⟩ := Option.map_eq_some_iff.mp heq
    injection hint with hint
    rw [(int64?_eq_some_iff.mp ha).1, hint]
  · intro heq
    rw [heq, hn]
    rfl

/-- Rounding an integer of 64 bits to zero or fewer digits succeeds exactly if the nearest multiple
has 64 bits, and then gives that. -/
theorem roundInt_eq_ok_iff {n : ℤ} {p : ℕ} {x : Number} (hn : int64? n = some n) :
    roundInt n (-p) = .ok x ↔
      int64? (nearestMultiple n p) = some (nearestMultiple n p) ∧
        x = .int (nearestMultiple n p) := by
  rcases p.eq_zero_or_pos with rfl | hp
  · have hself : nearestMultiple n 0 = n := nearestMultiple_eq_self_iff.mpr (one_dvd n)
    have hzero : roundInt n (-(0 : ℕ)) = .ok (.int n) := rfl
    rw [hself, hzero, Except.ok.injEq, eq_comm]
    exact (and_iff_right hn).symm
  · have hoption : roundInt n (-p) = .ok x ↔ (roundInt n (-p)).toOption = some x := by
      cases roundInt n (-p) <;> simp [Except.toOption]
    rw [hoption, roundInt_neg_toOption hn hp, Option.map_eq_some_iff]
    constructor
    · rintro ⟨a, ha, rfl⟩
      obtain ⟨rfl, -⟩ := int64?_eq_some_iff.mp ha
      exact ⟨ha, rfl⟩
    · rintro ⟨ha, rfl⟩
      exact ⟨_, ha, rfl⟩

/-- A rounded integer of 64 bits is the nearest multiple, for whatever digit count. -/
theorem eq_nearestMultiple_of_roundInt {n k : ℤ} {p : ℕ} (hn : int64? n = some n)
    (hk : roundInt n (-p) = .ok (.int k)) : k = nearestMultiple n p :=
  Number.int.inj ((roundInt_eq_ok_iff hn).mp hk).2

end DecimalRounding
