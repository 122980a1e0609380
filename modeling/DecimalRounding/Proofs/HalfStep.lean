import DecimalRounding.Proofs.Multiples
import DecimalRounding.Proofs.FractionPlaces

/-!
# How far rounding moves a number

All ways of rounding do the same in three moves: the magnitude is nudged outward, taken for a whole
number of steps, and replaced by the product of the two, rounded to a magnitude. The second move is
off by half a step (`TakenFor`), whether the quotient is rounded to a magnitude first or not. The
others come to a few units in the last place and a few of the least magnitudes, and so do all three
together (`TakenFor.error_le`).

Powers of ten beyond the twenty-second are inexact steps. They are too large for any number of
steps but zero, so that they only decide how large a number can be that becomes zero
(`le_of_takenFor_zero`).
-/

namespace DecimalRounding

open Binary64

variable {s : Bool} {r q n p d : ℕ} {h : r < overflowRank} {hq : q < overflowRank} {k : ℤ}
  {w y m step : ℚ}

/-! ### A whole number of steps -/

/-- The magnitude `w` is taken for `n` steps: the product is off by half a step, and by what one
rounding of the quotient adds. -/
structure TakenFor (w step : ℚ) (n : ℕ) : Prop where
  near : |n * step - w| ≤ step / 2 + w / 2 ^ 53
  le : n * step ≤ 3 * w

/-- A quotient that is rounded to a whole number at once. -/
theorem TakenFor.of_abs_le (hw : 0 ≤ w) (hstep : 0 < step) (hnear : |(n : ℚ) - w / step| ≤ 1 / 2) :
    TakenFor w step n := by
  have hquot : w / step * step = w := div_mul_cancel₀ w hstep.ne'
  have hscale : |n * step - w| = |(n : ℚ) - w / step| * step := by
    rw [← abs_of_pos hstep, ← abs_mul, abs_of_pos hstep, sub_mul, hquot]
  have hw' : 0 ≤ w / 2 ^ 53 := by positivity
  have hmul := mul_le_mul_of_nonneg_right hnear hstep.le
  refine ⟨by linarith, ?_⟩
  rcases n.eq_zero_or_pos with rfl | hpos
  · rw [Nat.cast_zero, zero_mul]
    linarith
  -- from one step on, half a step is no more than the quotient
  · have hone : (1 : ℚ) * step ≤ n * step :=
      mul_le_mul_of_nonneg_right (by exact_mod_cast hpos) hstep.le
    have hup := (abs_le.mp (hscale.trans_le hmul)).2
    linarith

/-- One half is a magnitude, so that rounding a quotient to a magnitude does not lead across it. -/
private theorem le_half_of_floor_eq_zero {x : ℚ}
    (hzero : ⌊magnitude (nearest x) + 1 / 2⌋₊ = 0) : x ≤ 1 / 2 := by
  by_contra hlt
  have hhalf : ∃ r, magnitude r = 1 / 2 := by
    simpa using exists_magnitude_half (n := 1) (by omega)
  have hle := le_magnitude_nearest hhalf (y := x) (by linarith)
  rw [Nat.floor_eq_zero] at hzero
  linarith

/-- A quotient that is rounded to a magnitude first. -/
theorem TakenFor.of_nearest (hw : 0 ≤ w) (hstep : 0 < step) :
    TakenFor w step ⌊magnitude (nearest (w / step)) + 1 / 2⌋₊ := by
  have hx : 0 ≤ w / step := div_nonneg hw hstep.le
  have hquot : w / step * step = w := div_mul_cancel₀ w hstep.ne'
  have hw' : 0 ≤ w / 2 ^ 53 := by positivity
  rcases Nat.eq_zero_or_pos ⌊magnitude (nearest (w / step)) + 1 / 2⌋₊ with hzero | hpos
  · have hle := mul_le_mul_of_nonneg_right (le_half_of_floor_eq_zero hzero) hstep.le
    rw [hzero]
    refine ⟨?_, ?_⟩
    · rw [Nat.cast_zero, zero_mul, zero_sub, abs_neg, abs_of_nonneg hw]
      linarith
    · rw [Nat.cast_zero, zero_mul]
      linarith
  · have hhalf := abs_floor_add_half_sub_le (magnitude_nonneg (nearest (w / step)))
    have htwice := floor_add_half_le (magnitude_nonneg (nearest (w / step)))
    -- what is rounded to a step or more is far from the subnormal magnitudes
    have hnormal : 2 ^ (-1022 : ℤ) ≤ w / step := by
      by_contra hlt
      exact hpos.ne' (floor_nearest_eq_zero hx ((not_le.mp hlt).le.trans two_zpow_le_quarter))
    have herr := (lt_div_iff₀' (by norm_num)).mpr (abs_magnitude_nearest_sub_lt hnormal)
    generalize magnitude (nearest (w / step)) = z at *
    generalize ⌊z + 1 / 2⌋₊ = n at *
    have hscale : ∀ a : ℚ, |a - w / step| * step = |a * step - w| := fun a => by
      rw [← abs_of_pos hstep, ← abs_mul, abs_of_pos hstep, sub_mul, hquot]
    have hdist : |(n : ℚ) - w / step| ≤ 1 / 2 + w / step / 2 ^ 53 :=
      (abs_sub_le _ z _).trans (add_le_add hhalf herr.le)
    have hmul := mul_le_mul_of_nonneg_right hdist hstep.le
    rw [hscale] at hmul
    have hz := mul_le_mul_of_nonneg_right (htwice.trans
      (mul_le_mul_of_nonneg_left (show z ≤ w / step + w / step / 2 ^ 53 by
        linarith [(abs_lt.mp herr).2]) two_pos.le)) hstep.le
    refine ⟨?_, ?_⟩
    · linarith
    · linarith

/-- **Error of the three moves.** A magnitude `y`, nudged to `w`, taken for `n` steps, and replaced
by the rounded product `m`. -/
theorem TakenFor.error_le (hn : TakenFor w step n) (hy : 0 ≤ y) (hyw : y ≤ w)
    (hw : w ≤ y + y / 2 ^ 51 + 2 ^ (-1074 : ℤ))
    (hm : |m - n * step| ≤ n * step / 2 ^ 53 + 2 ^ (-1075 : ℤ)) :
    |m - y| ≤ step / 2 + 2 ^ (-47 : ℤ) * y + 2 ^ (-1073 : ℤ) := by
  have hunit : (2 : ℚ) ^ (-1074 : ℤ) = 2 * 2 ^ (-1075 : ℤ) := by
    rw [← zpow_one_add₀ two_ne_zero]
    rfl
  have hunits : (2 : ℚ) ^ (-1073 : ℤ) = 4 * 2 ^ (-1075 : ℤ) := by
    have hfour : (4 : ℚ) = 2 ^ (2 : ℤ) := by norm_num
    rw [hfour, ← zpow_add₀ two_ne_zero]
    rfl
  have hpow : (2 : ℚ) ^ (-47 : ℤ) = 1 / 2 ^ 47 := by norm_num
  have hpos : (0 : ℚ) < 2 ^ (-1075 : ℤ) := zpow_pos two_pos _
  have hle := hn.le
  have hnear := hn.near
  rw [hunit] at hw
  rw [hunits, hpow]
  generalize (2 : ℚ) ^ (-1075 : ℤ) = ε at *
  have hnudge : |w - y| ≤ y / 2 ^ 51 + 2 * ε := by
    rw [abs_of_nonneg (sub_nonneg.mpr hyw)]
    linarith
  have htriangle := (abs_sub_le m (n * step) y).trans
    (add_le_add hm ((abs_sub_le (n * step) w y).trans (add_le_add hnear hnudge)))
  linarith

/-- What is taken for no steps is not much more than half a step. -/
theorem le_of_takenFor_zero (hn : TakenFor w step 0) (hy : 0 ≤ y) (hyw : y ≤ w)
    {exact : ℚ} (hstep : step ≤ exact * (1 + 1 / 2 ^ 48)) :
    y ≤ exact / 2 + 2 ^ (-47 : ℤ) * y := by
  have hpow : (2 : ℚ) ^ (-47 : ℤ) = 1 / 2 ^ 47 := by norm_num
  have hnear := hn.near
  rw [Nat.cast_zero, zero_mul, zero_sub, abs_neg, abs_of_nonneg (hy.trans hyw)] at hnear
  rw [hpow]
  linarith

/-! ### Zero or fewer digits -/

theorem exists_int_of_roundFloat_eq_ok {v : Binary64} {x : Number} {d : ℤ} (hd : d ≤ 0)
    (hx : roundFloat v d = .ok x) : ∃ k, x = .int k := by
  have hint : ∀ z : Binary64, intOfRounded z = .ok x → ∃ k, x = .int k := by
    intro z hz
    rw [intOfRounded] at hz
    split at hz
    · exact ⟨_, (Except.ok.inj hz).symm⟩
    · cases hz
  rw [roundFloat, if_neg (not_lt.mpr hd)] at hx
  split_ifs at hx
  · exact hint _ hx
  · exact ⟨0, (Except.ok.inj hx).symm⟩
  · exact hint _ hx

/-- Signs do not matter for the distance of an integer. -/
private theorem abs_signed_sub_value (m : ℕ) :
    |((signed s m : ℤ) : ℚ) - (finite s r h).value| = |(m : ℚ) - magnitude r| := by
  rw [signed_cast, value, ← mul_sub, abs_mul, abs_signFactor, one_mul]

private theorem abs_sub_le_zero_digits (hk : roundFloat (finite s r h) 0 = .ok (.int k)) :
    |k - (finite s r h).value| ≤ 1 / 2 + 2 ^ (-47 : ℤ) * magnitude r + 2 ^ (-1073 : ℤ) := by
  rcases nudge_cases s r h with hnudge | ⟨q, hq, hnudge⟩
  · have hround : roundFloat (finite s r h) 0 = intOfRounded (finite s r h).nudge.roundWhole := rfl
    rw [hround, hnudge] at hk
    cases hk
  obtain ⟨hle, hgrow⟩ := magnitude_nudge_le hnudge
  obtain ⟨w, hw, hwhole, hround⟩ := roundFloat_zero_eq hnudge
  rw [hround, intOfRounded_eq_ok_iff hwhole, int64?_eq_some_iff] at hk
  have hwq := magnitude_nonneg q
  have hsteps : TakenFor (magnitude q) 1 ⌊magnitude q + 1 / 2⌋₊ :=
    .of_abs_le hwq one_pos (by rw [div_one]; exact abs_floor_add_half_sub_le hwq)
  rw [← hk.1, abs_signed_sub_value]
  refine hsteps.error_le (magnitude_nonneg r) hle hgrow ?_
  rw [mul_one, sub_self, abs_zero]
  positivity

/-- The exact powers of ten. -/
private theorem abs_sub_le_exact_places (hp : 1 ≤ p) (hp' : p ≤ 22)
    (hnudge : (finite s r h).nudge = finite s q hq)
    (hk : roundFloat (finite s r h) (-p) = .ok (.int k)) :
    |k - (finite s r h).value| ≤ 10 ^ p / 2 + 2 ^ (-47 : ℤ) * magnitude r + 2 ^ (-1073 : ℤ) := by
  have h10 : (0 : ℚ) < 10 ^ p := by positivity
  obtain ⟨hle, hgrow⟩ := magnitude_nudge_le hnudge
  obtain ⟨t, n, hexact, -, rfl, -, -, hround⟩ := roundFloat_neg_eq hp (by omega) hnudge
  rw [hexact hp'] at hround
  have hsteps := TakenFor.of_nearest (magnitude_nonneg q) h10
  generalize ⌊magnitude (nearest (magnitude q / 10 ^ p)) + 1 / 2⌋₊ = n at *
  have hprod : (n : ℚ) * 10 ^ p = (n * 10 ^ p : ℕ) := by
    push_cast
    rfl
  obtain ⟨m, hm⟩ := exists_natCast_eq_nearest (n * 10 ^ p)
  rw [hround, hprod] at hk
  rcases Nat.lt_or_ge (nearest (n * 10 ^ p : ℕ)) overflowRank with hlt | hge
  · rw [ofRank_of_lt hlt, intOfRounded_eq_ok_iff hm, int64?_eq_some_iff] at hk
    rw [← hk.1, abs_signed_sub_value]
    refine hsteps.error_le (magnitude_nonneg r) hle hgrow ?_
    rw [hprod, ← hm]
    exact abs_magnitude_nearest_sub_le_add (Nat.cast_nonneg _)
  · rw [ofRank_of_le hge] at hk
    cases hk

/-- The inexact powers of ten: the result is zero. -/
private theorem le_of_inexact_places (hp : 22 < p) (hp' : p ≤ 308)
    (hnudge : (finite s r h).nudge = finite s q hq)
    (hk : roundFloat (finite s r h) (-p) = .ok (.int k)) :
    k = 0 ∧ magnitude r ≤ 10 ^ p / 2 + 2 ^ (-47 : ℤ) * magnitude r := by
  obtain ⟨t, ht, hpow, -, hlarge⟩ := exists_tenPow hp'
  have hstep : (1 : ℚ) ≤ magnitude t := le_trans (by norm_num) (hlarge hp)
  obtain ⟨n, rfl, -, -, hround⟩ := roundFloat_neg_eq_of_tenPow (by omega) hp' hpow hstep hnudge
  have hsteps := TakenFor.of_nearest (magnitude_nonneg q) (zero_lt_one.trans_le hstep)
  rw [hround] at hk
  obtain ⟨hzero, hk⟩ := eq_zero_of_intOfRounded_mul (hlarge hp) hk
  rw [hzero] at hsteps
  exact ⟨hk, le_of_takenFor_zero hsteps (magnitude_nonneg r) (magnitude_nudge_le hnudge).1
    (magnitude_tenPow_le hp' hpow)⟩

/-- All numbers are smaller than half of the first power of ten that is not worked out. -/
private theorem magnitude_le_of_large (h : r < overflowRank) (hp : 308 < p) :
    magnitude r ≤ 10 ^ p / 2 := by
  have hlt := magnitude_lt_of_lt_overflowRank h
  have hnat : (2 : ℚ) ^ 1024 * 2 ≤ 10 ^ 309 := by
    have hdec : 2 ^ 1024 * 2 ≤ 10 ^ 309 := by decide +kernel
    exact_mod_cast hdec
  have hpow : (10 : ℚ) ^ 309 ≤ 10 ^ p := pow_le_pow_right₀ (by norm_num) hp
  exact hlt.le.trans ((le_div_iff₀ two_pos).mpr (hnat.trans hpow))

/-- Zero or fewer digits, all ways together. -/
theorem abs_sub_le_of_roundFloat_nonpos (hk : roundFloat (finite s r h) (-p) = .ok (.int k)) :
    |k - (finite s r h).value| ≤ 10 ^ p / 2 + 2 ^ (-47 : ℤ) * magnitude r + 2 ^ (-1073 : ℤ) := by
  have hunit : (0 : ℚ) < 2 ^ (-1073 : ℤ) := zpow_pos two_pos _
  have hrel : (0 : ℚ) ≤ 2 ^ (-47 : ℤ) * magnitude r :=
    mul_nonneg (by positivity) (magnitude_nonneg r)
  have hzero : |((0 : ℤ) : ℚ) - (finite s r h).value| = magnitude r := by
    rw [Int.cast_zero, zero_sub, abs_neg, abs_value_finite]
  rcases Nat.eq_zero_or_pos p with rfl | hp
  · rw [pow_zero]
    exact abs_sub_le_zero_digits (by simpa using hk)
  rcases Nat.lt_or_ge 308 p with hp' | hp'
  · obtain rfl := eq_zero_of_roundFloat_of_large hp' hk
    rw [hzero, add_assoc]
    exact (magnitude_le_of_large h hp').trans (le_add_of_nonneg_right (add_nonneg hrel hunit.le))
  rcases nudge_cases s r h with hnudge | ⟨q, hq, hnudge⟩
  · rw [roundFloat_neg_of_infinity hp hp' hnudge] at hk
    cases hk
  rcases Nat.lt_or_ge 22 p with hp'' | hp''
  · obtain ⟨rfl, hle⟩ := le_of_inexact_places hp'' hp' hnudge hk
    rw [hzero]
    linarith
  · exact abs_sub_le_exact_places hp hp'' hnudge hk

/-! ### Places after the point -/

/-- Both ways of rounding to places take the nudged magnitude for a number of steps. -/
theorem takenFor_scaledWhole (q d : ℕ) :
    TakenFor (magnitude q) (1 / 10 ^ d) (scaledWhole q d) := by
  have h10 : (0 : ℚ) < 1 / 10 ^ d := by positivity
  have hquot : magnitude q / (1 / 10 ^ d) = magnitude q * 10 ^ d := by
    rw [div_div_eq_mul_div, div_one]
  rw [scaledWhole]
  split_ifs
  · have hsteps := TakenFor.of_nearest (magnitude_nonneg q) h10
    rwa [hquot] at hsteps
  · have hU : 0 < unitsPerOne := by exact_mod_cast unitsPerOne_pos
    refine .of_abs_le (magnitude_nonneg q) h10 ?_
    have hval : magnitude q * 10 ^ d = ((units q * 10 ^ d : ℕ) : ℚ) / unitsPerOne := by
      rw [magnitude]
      push_cast
      ring
    rw [hquot, hval]
    exact abs_roundHalfEven_sub_le hU

/-- Places after the point, all ways together. -/
theorem abs_value_roundFraction_sub_le (s : Bool) (r d : ℕ) (h : r < overflowRank) :
    |(roundFraction (finite s r h) d).value - (finite s r h).value| ≤
      1 / 10 ^ d / 2 + 2 ^ (-47 : ℤ) * magnitude r + 2 ^ (-1073 : ℤ) := by
  by_cases hreads : Decimal.Reads r d
  · have hr := magnitude_nonneg r
    rw [roundFraction_of_reads hreads, sub_self, abs_zero]
    positivity
  obtain ⟨q, hq, -, hmag, hnudge, hround⟩ := roundFraction_of_not_reads (s := s) (h := h) hreads
  obtain ⟨hle, hgrow⟩ := magnitude_nudge_le hnudge
  have hlt := nearest_scaledWhole_div_lt (d := d) hmag
  have hdist : |(finite s _ hlt).value - (finite s r h).value| =
      |magnitude (nearest (scaledWhole q d / 10 ^ d)) - magnitude r| := by
    rw [value, value, ← mul_sub, abs_mul, abs_signFactor, one_mul]
  rw [hround, ofRank_of_lt hlt, hdist]
  refine (takenFor_scaledWhole q d).error_le (magnitude_nonneg r) hle hgrow ?_
  rw [mul_one_div]
  exact abs_magnitude_nearest_sub_le_add (by positivity)

/-! ### All digit counts -/

/-- **Half a step.** Rounding a finite number to `d` digits gives a number that is at most half a
step away from it, but for its `2⁴⁷`-th part and two of the least magnitudes: a finite number if
`d > 0`, without fail, and an integer, if anything, if `d ≤ 0`. -/
theorem abs_roundFloat_sub_le {v : Binary64} (hv : v.isFinite) (d : ℤ) :
    (0 < d → ∃ r : Binary64, roundFloat v d = .ok (.float r) ∧ r.isFinite ∧
      |r.value - v.value| ≤ 10 ^ (-d) / 2 + 2 ^ (-47 : ℤ) * |v.value| + 2 ^ (-1073 : ℤ)) ∧
    (d ≤ 0 → ∀ x : Number, roundFloat v d = .ok x → ∃ k : ℤ, x = .int k ∧
      |k - v.value| ≤ 10 ^ (-d) / 2 + 2 ^ (-47 : ℤ) * |v.value| + 2 ^ (-1073 : ℤ)) := by
  obtain _ | _ | ⟨s, r, h⟩ := v
  · cases hv
  · cases hv
  rw [abs_value_finite]
  constructor
  · intro hd
    obtain ⟨e, rfl⟩ : ∃ e : ℕ, d = e := ⟨d.toNat, by omega⟩
    refine ⟨roundFraction (finite s r h) e, roundFloat_natCast _ (by omega),
      isFinite_roundFraction s r e h, ?_⟩
    rw [zpow_neg, zpow_natCast, inv_eq_one_div]
    exact abs_value_roundFraction_sub_le s r e h
  · intro hd x hx
    obtain ⟨p, rfl⟩ : ∃ p : ℕ, d = -p := ⟨d.natAbs, by omega⟩
    obtain ⟨k, rfl⟩ := exists_int_of_roundFloat_eq_ok hd hx
    refine ⟨k, rfl, ?_⟩
    rw [neg_neg, zpow_natCast]
    exact abs_sub_le_of_roundFloat_nonpos hx

/-- The number `2.675` to two places, and `1250` to hundreds. -/
theorem abs_roundFloat_sub_le_two_places :
    (ofRatio false 2675 1000).isFinite ∧ (ofInt 1250).isFinite ∧
      (∃ r : Binary64, roundFloat (ofRatio false 2675 1000) 2 = .ok (.float r) ∧
        |r.value - (ofRatio false 2675 1000).value| ≤ 10 ^ (-2 : ℤ) / 2 +
          2 ^ (-47 : ℤ) * |(ofRatio false 2675 1000).value| + 2 ^ (-1073 : ℤ)) ∧
      roundFloat (ofInt 1250) (-2) = .ok (.int 1300) ∧
      |((1300 : ℤ) : ℚ) - (ofInt 1250).value| ≤ 10 ^ (-(-2) : ℤ) / 2 +
        2 ^ (-47 : ℤ) * |(ofInt 1250).value| + 2 ^ (-1073 : ℤ) := by
  have hv : (ofRatio false 2675 1000).isFinite := by decide +kernel
  have hw : (ofInt 1250).isFinite := by decide +kernel
  have hk : roundFloat (ofInt 1250) (-2) = .ok (.int 1300) := by decide +kernel
  obtain ⟨r, hr, -, hbound⟩ := (abs_roundFloat_sub_le hv 2).1 (by decide)
  obtain ⟨k, hint, hbound'⟩ := (abs_roundFloat_sub_le hw (-2)).2 (by decide) _ hk
  injection hint with hint
  subst hint
  exact ⟨hv, hw, ⟨r, hr, hbound⟩, hk, hbound'⟩

end DecimalRounding
