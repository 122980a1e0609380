import DecimalRounding.Proofs.FractionPlaces
import DecimalRounding.Proofs.HalfAway

/-!
# Rounding to places has no ties left to break

Rounding to places has three ways to its result (`fractionPath`): a number that has no more places
is left alone, most others are scaled, rounded half away from zero and scaled back, and what is too
large for that is written out with a fixed number of places, half-way cases to the even digit. The
last way is for more than twenty-two places only, and the decimal it writes is the one that ties
away from zero would give, since the nudged number is never half-way between two decimals
(`fractionPath_formatted`).

A number with more than `d` places lies where neighbours are less than `10 ^ -d` apart
(`spacing_mul_le`), so that it is worth at most about `2⁵³` of these distances. A binary64 number
half-way between two decimals of `d` places is an odd multiple of `2 ^ (-d - 1)`. Both together
leave a single nudged number, `2⁻²⁴` for `d = 23`, and the two numbers nudged to it have no more
than twenty-three places (`reads_of_nudged_to_tie`).
-/

namespace DecimalRounding

open Binary64

/-! ### Ties -/

/-- The fraction of `places` places nearest to the magnitude of a rank, ties away from zero. -/
def Decimal.ofRankAway (places rank : ℕ) : Decimal :=
  ⟨roundHalfAway (units rank * 10 ^ places) unitsPerOne, places⟩

/-- Half-way between two whole numbers is the only place where the two rules differ. -/
theorem roundHalfEven_eq_roundHalfAway {num den : ℕ} (hden : 0 < den)
    (h : 2 * (num % den) ≠ den) : roundHalfEven num den = roundHalfAway num den := by
  rw [roundHalfAway_eq_ite hden, roundHalfEven]
  split_ifs <;> omega

/-! ### Distances of neighbours -/

variable {s : Bool} {t q d j k : ℕ} {h : t + 1 < overflowRank}

/-- What has more than `d` places lies where neighbours are at most `10 ^ -d` apart. -/
theorem spacing_mul_le (hreads : ¬ Decimal.Reads (t + 1) d) : spacing t * 10 ^ d ≤ unitsPerOne :=
  Nat.le_of_not_lt fun hlt => hreads (Decimal.reads_of_lt_spacing hlt)

/-- Such a distance is one of the powers of two up to `10 ^ -d`. -/
theorem exists_unitsPerOne_eq (hle : spacing t * 10 ^ d ≤ unitsPerOne) :
    ∃ j, unitsPerOne = spacing t * 2 ^ j ∧ 10 ^ d ≤ 2 ^ j := by
  have hspacing : 2 ^ (t / 2 ^ 52 - 1) ≤ 2 ^ unitExponent :=
    (Nat.le_mul_of_pos_right _ (by positivity)).trans hle
  obtain ⟨j, hj⟩ := Nat.exists_eq_add_of_le ((Nat.pow_le_pow_iff_right one_lt_two).mp hspacing)
  have hU : unitsPerOne = spacing t * 2 ^ j := by rw [unitsPerOne, hj, pow_add, spacing]
  exact ⟨j, hU, Nat.le_of_mul_le_mul_left (hU ▸ hle) (spacing_pos t)⟩

/-- A nudged magnitude is worth at most `2⁵³ + 4` of the distances below the number. -/
theorem units_nudge_le {hq : q < overflowRank}
    (hnudge : (finite s (t + 1) h).nudge = finite s q hq) :
    units q ≤ (2 ^ 53 + 4) * spacing t := by
  have hsize := units_succ_le t
  have hdouble := spacing_succ_le t
  obtain rfl := nudgedRank_eq_of_nudge hnudge
  rcases Nat.lt_or_ge (t + 1) (2 ^ 52) with hsmall | hlarge
  · have hmono := units_strictMono.monotone (nudgedRank_le_of_lt hsmall)
    rw [units_succ] at hmono
    omega
  · rw [nudgedRank_of_le hlarge]
    have hmag := magnitude_nudgeRank_le_add (t + 1)
    rw [magnitude, magnitude, ← mul_div_assoc, ← add_div,
      div_le_div_iff_of_pos_right unitsPerOne_pos] at hmag
    have hunits : units (nudgeRank (t + 1)) ≤ units (t + 1) + 2 * spacing (t + 1) := by
      exact_mod_cast hmag
    omega

/-! ### Up to twenty-two places -/

/-- Up to the twenty-second, a power of ten is no closer to the powers of two above it than `1000`
is to `1024`. -/
theorem tenPow_le_twoPow (hd : 0 < d) (hd' : d ≤ 22) (hle : 10 ^ d ≤ 2 ^ j) :
    128 * 10 ^ d ≤ 125 * 2 ^ j := by
  have htable : ∀ d ≤ 22, 0 < d → 128 * 10 ^ d ≤ 125 * 2 ^ ((10 ^ d).log2 + 1) := by decide
  have hne : 10 ^ d ≠ 2 ^ j := fun heq => by
    have h5 : 5 ∣ 2 ^ j := heq ▸ dvd_pow (by norm_num) hd.ne'
    exact absurd (Nat.Prime.dvd_of_dvd_pow Nat.prime_five h5) (by norm_num)
  have hlog : (10 ^ d).log2 < j := (Nat.log2_lt (by positivity)).mpr (lt_of_le_of_ne hle hne)
  calc 128 * 10 ^ d ≤ 125 * 2 ^ ((10 ^ d).log2 + 1) := htable d hd' hd
    _ ≤ 125 * 2 ^ j := Nat.mul_le_mul_left _ (Nat.pow_le_pow_right (by omega) hlog)

/-- A number with more than `d ≤ 22` places is small enough to be scaled by `10 ^ d`. -/
theorem magnitude_scaled_le {hq : q < overflowRank} (hd : 0 < d) (hd' : d ≤ 22)
    (hreads : ¬ Decimal.Reads (t + 1) d)
    (hnudge : (finite s (t + 1) h).nudge = finite s q hq) :
    magnitude (nearest (magnitude q * 10 ^ d)) ≤ (2 ^ 53 - 1 : ℕ) := by
  obtain ⟨j, hU, hj⟩ := exists_unitsPerOne_eq (spacing_mul_le hreads)
  have hprod : units q * 10 ^ d ≤ (2 ^ 53 - 1) * unitsPerOne := by
    have hten := tenPow_le_twoPow hd hd' hj
    have hscale := Nat.mul_le_mul (units_nudge_le hnudge) hten
    rw [hU]
    calc units q * 10 ^ d
        ≤ (2 ^ 53 + 4) * 125 * (spacing t * 2 ^ j) / 128 := by
          rw [Nat.le_div_iff_mul_le (by omega)]
          linarith
      _ ≤ (2 ^ 53 - 1) * (spacing t * 2 ^ j) := Nat.div_le_of_le_mul (by omega)
  refine magnitude_nearest_le (exists_magnitude_natCast (by omega))
    (mul_nonneg (magnitude_nonneg q) (by positivity)) ?_
  rw [magnitude, div_mul_eq_mul_div, div_le_iff₀ unitsPerOne_pos]
  exact_mod_cast hprod

/-! ### From twenty-three places on -/

/-- Half-way between two decimals of `d` places are only multiples of `2 ^ (-d - 1)`, which is
`2 ^ m` distances where one is `2 ^ (d + m + 1)` of them. -/
theorem exists_units_eq_of_tie {m : ℕ} (hU : unitsPerOne = spacing t * 2 ^ (d + (m + 1)))
    (htie : 2 * (units q * 10 ^ d) = (2 * k + 1) * unitsPerOne) :
    ∃ c, 0 < c ∧ units q = spacing t * 2 ^ m * c := by
  have hodd : units q * 5 ^ d = (2 * k + 1) * (spacing t * 2 ^ m) := by
    refine Nat.eq_of_mul_eq_mul_left (Nat.two_pow_pos (d + 1)) ?_
    calc 2 ^ (d + 1) * (units q * 5 ^ d) = 2 * (units q * 10 ^ d) := by
          rw [Nat.mul_pow 2 5 d]
          ring
      _ = 2 ^ (d + 1) * ((2 * k + 1) * (spacing t * 2 ^ m)) := by rw [htie, hU]; ring
  obtain ⟨c, hc⟩ : spacing t * 2 ^ m ∣ units q := by
    refine Nat.Coprime.dvd_of_dvd_mul_right ?_ (Dvd.intro_left _ hodd.symm)
    rw [spacing, ← pow_add]
    exact Nat.Coprime.pow _ _ (by norm_num)
  refine ⟨c, Nat.pos_of_ne_zero ?_, hc⟩
  rintro rfl
  rw [hc, mul_zero, zero_mul] at hodd
  have hspacing := Nat.mul_pos (spacing_pos t) (Nat.two_pow_pos m)
  exact absurd hodd (Nat.mul_pos (Nat.succ_pos (2 * k)) hspacing).ne

/-- A magnitude of at most `2⁵³ + 4` of the distances that belong to more than twenty-two places is
half-way between two decimals only if it is `2⁻²⁴`, between decimals of twenty-three places. -/
theorem eq_of_tie (hd : 23 ≤ d) (hle : spacing t * 10 ^ d ≤ unitsPerOne)
    (hq : units q ≤ (2 ^ 53 + 4) * spacing t)
    (htie : 2 * (units q * 10 ^ d) = (2 * k + 1) * unitsPerOne) :
    d = 23 ∧ q = twoPowRank (-24) := by
  obtain ⟨j, hU, hj⟩ := exists_unitsPerOne_eq hle
  have hdj : d ≤ j := (Nat.pow_le_pow_iff_right (by omega)).mp
    ((Nat.pow_le_pow_left (show 2 ≤ 10 by omega) d).trans hj)
  obtain ⟨l, rfl⟩ := Nat.exists_eq_add_of_le hdj
  have h5 : 5 ^ d ≤ 2 ^ l := by
    rw [Nat.mul_pow 2 5 d, pow_add] at hj
    exact Nat.le_of_mul_le_mul_left hj (Nat.two_pow_pos d)
  have hl : 53 < l := by
    by_contra hlt
    have hpow : 5 ^ 23 ≤ 2 ^ 53 := (Nat.pow_le_pow_right (by omega) hd).trans
      (h5.trans (Nat.pow_le_pow_right (by omega) (by omega)))
    omega
  obtain ⟨m, rfl⟩ : ∃ m, l = m + 1 := ⟨l - 1, by omega⟩
  obtain ⟨c, hc₀, hc⟩ := exists_units_eq_of_tie hU htie
  have hcm : 2 ^ m * c ≤ 2 ^ 53 + 4 := by
    rw [hc, mul_assoc, mul_comm (2 ^ 53 + 4)] at hq
    exact Nat.le_of_mul_le_mul_left hq (spacing_pos t)
  -- only one such multiple is small enough
  obtain rfl : m = 53 := by
    refine le_antisymm (Nat.le_of_not_lt fun hlt => ?_) (by omega)
    have hpow : 2 ^ 54 ≤ 2 ^ m := Nat.pow_le_pow_right (by omega) hlt
    have := Nat.le_mul_of_pos_right (2 ^ m) hc₀
    omega
  obtain rfl : c = 1 := by omega
  have hd23 : d = 23 := by
    refine le_antisymm (Nat.le_of_not_lt fun hlt => ?_) hd
    have hpow : 5 ^ 24 ≤ 5 ^ d := Nat.pow_le_pow_right (by omega) hlt
    omega
  refine ⟨hd23, magnitude_strictMono.injective ?_⟩
  have hspacing : (spacing t : ℚ) ≠ 0 := by exact_mod_cast (spacing_pos t).ne'
  rw [magnitude_twoPowRank (by omega), magnitude, hc, hU, hd23, mul_one, Nat.cast_mul, Nat.cast_mul,
    mul_div_mul_left _ _ hspacing]
  norm_num

/-- The numbers that are nudged to `2⁻²⁴` have no more than twenty-three places. -/
theorem reads_of_nudged_to_tie {hq : twoPowRank (-24) < overflowRank}
    (hnudge : (finite s (t + 1) h).nudge = finite s (twoPowRank (-24)) hq) :
    Decimal.Reads (t + 1) 23 := by
  have hrank : twoPowRank (-24) = 999 * 2 ^ 52 := rfl
  have heq := nudgedRank_eq_of_nudge hnudge
  rcases Nat.lt_or_ge (t + 1) (2 ^ 52) with hsmall | hlarge
  · have hle := nudgedRank_le_of_lt hsmall
    omega
  · rw [nudgedRank_of_le hlarge] at heq
    have hlast : t + 1 = 999 * 2 ^ 52 - 1 ∨ t + 1 = 999 * 2 ^ 52 - 2 := by
      have hup := lt_nudgeRank (t + 1)
      have hdown := nudgeRank_le (t + 1)
      omega
    rcases hlast with hlast | hlast <;> rw [hlast]
    · exact .of_rank (d := ⟨5960464477539062, 23⟩) (by decide +kernel)
    · exact .of_rank (d := ⟨5960464477539061, 23⟩) (by decide +kernel)

/-- A number that has more places is not nudged to half-way between two decimals. -/
theorem two_mul_units_nudge_ne {hq : q < overflowRank} (hd : 23 ≤ d)
    (hreads : ¬ Decimal.Reads (t + 1) d)
    (hnudge : (finite s (t + 1) h).nudge = finite s q hq) (k : ℕ) :
    2 * (units q * 10 ^ d) ≠ (2 * k + 1) * unitsPerOne := by
  intro htie
  obtain ⟨rfl, rfl⟩ := eq_of_tie hd (spacing_mul_le hreads) (units_nudge_le hnudge) htie
  exact hreads (reads_of_nudged_to_tie hnudge)

/-! ### The way taken -/

/-- Only finite numbers other than zero have any places. -/
theorem exists_eq_finite_of_lt_decimalPlaces {v : Binary64} (hv : d < v.decimalPlaces) :
    ∃ s t, ∃ h : t + 1 < overflowRank, v = finite s (t + 1) h ∧ ¬ Decimal.Reads (t + 1) d := by
  obtain _ | s | ⟨s, r, h⟩ := v
  · have htext : nan.decimalPlaces = 0 := rfl
    omega
  · have htext : (infinity s).decimalPlaces = 0 := by cases s <;> rfl
    omega
  · have hreads : ¬ Decimal.Reads r d := mt decimalPlaces_le_iff.mpr (not_le.mpr hv)
    obtain ⟨t, rfl⟩ := Nat.exists_eq_add_one_of_ne_zero (pos_of_not_reads hreads).ne'
    exact ⟨s, t, h, rfl, hreads⟩

/-- Up to twenty-two places, a number that has more is scaled. -/
theorem fractionPath_eq_scaled (hd : 0 < d) (hd' : d ≤ 22)
    (hreads : ¬ Decimal.Reads (t + 1) d) :
    fractionPath (finite s (t + 1) h) d = .scaled ∧
      ((finite s (t + 1) h).nudge * ofInt (10 ^ d)).isFinite ∧
      |((finite s (t + 1) h).nudge * ofInt (10 ^ d)).value| < 2 ^ 53 := by
  obtain ⟨q, hq, -, -, hnudge⟩ := exists_nudge (s := s) (h := h) (Nat.succ_pos t)
    (magnitude_lt_of_not_reads hreads)
  have hle := magnitude_scaled_le hd hd' hreads hnudge
  have hlt : magnitude (nearest (magnitude q * 10 ^ d)) < 2 ^ 53 := hle.trans_lt (by norm_num)
  have hz := lt_overflowRank_of_magnitude_le hlt.le
  have hscaled : (finite s (t + 1) h).nudge * ofInt (10 ^ d) =
      finite s (nearest (magnitude q * 10 ^ d)) hz := by
    rw [hnudge, finite_mul_ofInt_tenPow hd', ofRank_of_lt hz]
  have htest : (finite s (nearest (magnitude q * 10 ^ d)) hz).magnitudeLt (2 ^ 53) := by
    rw [magnitudeLt_finite]
    exact_mod_cast hlt
  refine ⟨?_, ?_, ?_⟩
  · rw [fractionPath_of_not_reads hreads, hscaled, if_pos ⟨hd', htest⟩]
  · rw [hscaled]
    rfl
  · rwa [hscaled, abs_value_finite]

/-- What is half-way between two integers is so by its absolute value. -/
private theorem exists_abs_add_half (k : ℤ) : ∃ n : ℕ, |(k : ℚ) + 1 / 2| = n + 1 / 2 := by
  obtain n | n := k
  · exact ⟨n, abs_of_nonneg (by simp; positivity)⟩
  · refine ⟨n, ?_⟩
    rw [Int.cast_negSucc, ← abs_neg, abs_of_nonneg (by push_cast; linarith)]
    push_cast
    ring

theorem value_mul_tenPow_ne {hq : q < overflowRank}
    (hne : ∀ k : ℕ, 2 * (units q * 10 ^ d) ≠ (2 * k + 1) * unitsPerOne) (k : ℤ) :
    (finite s q hq).value * 10 ^ d ≠ k + 1 / 2 := by
  intro heq
  obtain ⟨n, hn⟩ := exists_abs_add_half k
  have habs : magnitude q * 10 ^ d = n + 1 / 2 := by
    rw [← hn, ← heq, abs_mul, abs_value_finite, abs_of_pos (by positivity : (0 : ℚ) < 10 ^ d)]
  refine hne n ?_
  rw [magnitude, div_mul_eq_mul_div, div_eq_iff unitsPerOne_pos.ne'] at habs
  have hdouble : 2 * (units q * 10 ^ d : ℚ) = (2 * n + 1) * unitsPerOne := by
    rw [habs]
    ring
  exact_mod_cast hdouble

/-- Without a tie, both rules round to the same decimal. -/
theorem ofRank_eq_ofRankAway
    (hne : ∀ k : ℕ, 2 * (units q * 10 ^ d) ≠ (2 * k + 1) * unitsPerOne) :
    Decimal.ofRank d q = Decimal.ofRankAway d q := by
  have hU : 0 < unitsPerOne := by exact_mod_cast unitsPerOne_pos
  rw [Decimal.ofRank, Decimal.ofRankAway, roundHalfEven_eq_roundHalfAway hU]
  intro hhalf
  refine hne (units q * 10 ^ d / unitsPerOne) ?_
  conv_lhs => rw [← Nat.mod_add_div (units q * 10 ^ d) unitsPerOne]
  linarith

/-- **No ties left.** A number with more than `d` places is scaled if `d ≤ 22`, and the product is
below `2⁵³`, where all whole numbers are exact. Where the decimal is worked out instead, `d` is at
least `23` and the nudged number is not half-way between two decimals of `d` places, so that ties to
even and ties away from zero give the same decimal and the same result. -/
theorem fractionPath_formatted {v : Binary64} {d : ℕ} (hd : 0 < d) :
    (d ≤ 22 → d < v.decimalPlaces → fractionPath v d = .scaled ∧
      (v.nudge * ofInt (10 ^ d)).isFinite ∧ |(v.nudge * ofInt (10 ^ d)).value| < 2 ^ 53) ∧
    (fractionPath v d = .formatted → 23 ≤ d ∧ (∀ k : ℤ, v.nudge.value * 10 ^ d ≠ k + 1 / 2) ∧
      ∃ s q, ∃ hq : q < overflowRank, v.nudge = finite s q hq ∧
        Decimal.ofRank d q = Decimal.ofRankAway d q ∧
        roundFraction v d = ofRank s (Decimal.ofRankAway d q).rank) := by
  have hscaled : d ≤ 22 → d < v.decimalPlaces → fractionPath v d = .scaled ∧
      (v.nudge * ofInt (10 ^ d)).isFinite ∧ |(v.nudge * ofInt (10 ^ d)).value| < 2 ^ 53 := by
    intro hd' hmore
    obtain ⟨s, t, h, rfl, hreads⟩ := exists_eq_finite_of_lt_decimalPlaces hmore
    exact fractionPath_eq_scaled hd hd' hreads
  refine ⟨hscaled, fun hpath => ?_⟩
  have hmore : d < v.decimalPlaces := by
    by_contra hle
    rw [fractionPath_of_le (not_lt.mp hle)] at hpath
    cases hpath
  have hd23 : 23 ≤ d := by
    by_contra hlt
    rw [(hscaled (by omega) hmore).1] at hpath
    cases hpath
  have hround : roundFraction v d = v.nudge.roundPlaces d := by rw [roundFraction, hpath]
  obtain ⟨s, t, h, rfl, hreads⟩ := exists_eq_finite_of_lt_decimalPlaces hmore
  obtain ⟨q, hq, -, -, hnudge⟩ := exists_nudge (s := s) (h := h) (Nat.succ_pos t)
    (magnitude_lt_of_not_reads hreads)
  have hne := two_mul_units_nudge_ne hd23 hreads hnudge
  have heq := ofRank_eq_ofRankAway hne
  refine ⟨hd23, ?_, s, q, hq, hnudge, heq, ?_⟩
  · rw [hnudge]
    exact value_mul_tenPow_ne hne
  · rw [hround, hnudge, roundPlaces, heq]

/-- The number `2⁻⁸⁰` has eighty places. To twenty-three of them it is written out, and to two it is
scaled. -/
theorem fractionPath_formatted_small : 0 < 23 ∧ 0 < 2 ∧
    2 < (ofRatio false 1 (2 ^ 80)).decimalPlaces ∧
    fractionPath (ofRatio false 1 (2 ^ 80)) 2 = .scaled ∧
    fractionPath (ofRatio false 1 (2 ^ 80)) 23 = .formatted ∧
    ∀ k : ℤ, (ofRatio false 1 (2 ^ 80)).nudge.value * 10 ^ 23 ≠ k + 1 / 2 := by
  have hmore : 2 < (ofRatio false 1 (2 ^ 80)).decimalPlaces := by decide +kernel
  have hpath : fractionPath (ofRatio false 1 (2 ^ 80)) 23 = .formatted := by decide +kernel
  refine ⟨by decide, by decide, hmore, ?_, hpath, ?_⟩
  · exact ((fractionPath_formatted (d := 2) (by decide)).1 (by decide) hmore).1
  · exact ((fractionPath_formatted (d := 23) (by decide)).2 hpath).2.1

/-- The two numbers that are nudged to a tie of twenty-three places stay as they are. -/
example : fractionPath (ofRatio false (2 ^ 53 - 1) (2 ^ 77)) 23 = .unchanged ∧
    fractionPath (ofRatio false (2 ^ 53 - 2) (2 ^ 77)) 23 = .unchanged := by
  decide +kernel

end DecimalRounding
