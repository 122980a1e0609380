import DecimalRounding.Binary64.Nearest
import DecimalRounding.Proofs.Units

/-!
# Rounding to the nearest magnitude

Magnitudes as rationals (`magnitude`), and the one rounding rule of the library as a function of
the exact rational (`nearest`). Everything about rounding follows from a single equivalence,
`lt_nearest_iff`: the rank `r` is below the nearest rank exactly when the rational lies past the
midpoint of `r` and `r + 1`, or on it and `r` is odd. Monotonicity, exactness on magnitudes and
the error bounds are read off from it, with no further look at the algorithm.
-/

namespace DecimalRounding

/-! ### Half-way rules as comparisons -/

/-- Rounding ties to even, by its midpoints: `s` is passed when the quotient lies beyond
`s + 1/2`, or on it and `s` is odd. -/
theorem lt_roundHalfEven_iff {num den s : ℕ} (hden : 0 < den) :
    s < roundHalfEven num den ↔
      (2 * s + 1) * den < 2 * num ∨ ((2 * s + 1) * den = 2 * num ∧ s % 2 = 1) := by
  have hnum : num = den * (num / den) + num % den := (Nat.div_add_mod num den).symm
  have hrem : num % den < den := Nat.mod_lt _ hden
  simp only [roundHalfEven]
  generalize num / den = q at *
  generalize num % den = r at *
  subst hnum
  rcases lt_trichotomy s q with hlt | rfl | hgt
  · have hstep : den * (s + 1) ≤ den * q := Nat.mul_le_mul_left _ hlt
    have hpast : (2 * s + 1) * den < 2 * (den * q + r) := by nlinarith
    refine iff_of_true ?_ (.inl hpast)
    split_ifs <;> omega
  · have hexpand : (2 * s + 1) * den = 2 * (den * s) + den := by ring
    rw [hexpand]
    split_ifs with h <;> omega
  · have hstep : den * (q + 1) ≤ den * s := Nat.mul_le_mul_left _ hgt
    have hbefore : 2 * (den * q + r) < (2 * s + 1) * den := by nlinarith
    refine iff_of_false ?_ (by omega)
    split_ifs <;> omega

/-- A quotient of at most `m` does not round beyond `m`. -/
theorem roundHalfEven_le {num den m : ℕ} (hden : 0 < den) (h : num ≤ m * den) :
    roundHalfEven num den ≤ m := by
  refine Nat.le_of_not_lt fun hlt => ?_
  have hexpand : (2 * m + 1) * den = 2 * (m * den) + den := by ring
  rw [lt_roundHalfEven_iff hden, hexpand] at hlt
  omega

/-- A quotient of at least `m` does not round below `m`. -/
theorem le_roundHalfEven {num den m : ℕ} (hden : 0 < den) (h : m * den ≤ num) :
    m ≤ roundHalfEven num den := by
  rcases m.eq_zero_or_pos with rfl | hm
  · exact Nat.zero_le _
  obtain ⟨s, rfl⟩ : ∃ s, m = s + 1 := ⟨m - 1, by omega⟩
  have hexpand : (2 * s + 1) * den + den = 2 * ((s + 1) * den) := by ring
  exact (lt_roundHalfEven_iff hden).mpr (.inl (by omega))

/-- A quotient strictly between `m - 1/2` and `m + 1/2` rounds to `m`. -/
theorem roundHalfEven_eq {num den m : ℕ} (hden : 0 < den) (h₁ : 2 * m * den < 2 * num + den)
    (h₂ : 2 * num < 2 * m * den + den) : roundHalfEven num den = m := by
  refine le_antisymm (Nat.le_of_not_lt fun hlt => ?_) ?_
  · have hexpand : (2 * m + 1) * den = 2 * m * den + den := by ring
    rw [lt_roundHalfEven_iff hden, hexpand] at hlt
    omega
  · rcases m.eq_zero_or_pos with rfl | hm
    · exact Nat.zero_le _
    obtain ⟨s, rfl⟩ : ∃ s, m = s + 1 := ⟨m - 1, by omega⟩
    have hexpand : (2 * s + 1) * den + den = 2 * (s + 1) * den := by ring
    exact (lt_roundHalfEven_iff hden).mpr (.inl (by omega))

/-- Rounding a quotient to a whole number moves it by one half at most. -/
theorem abs_roundHalfEven_sub_le {num den : ℕ} (hden : 0 < den) :
    |(roundHalfEven num den : ℚ) - num / den| ≤ 1 / 2 := by
  have hden' : (0 : ℚ) < den := by exact_mod_cast hden
  have hup : 2 * num ≤ (2 * roundHalfEven num den + 1) * den := by
    have hnot : ¬ roundHalfEven num den < roundHalfEven num den := lt_irrefl _
    rw [lt_roundHalfEven_iff hden] at hnot
    omega
  have hdown : 2 * roundHalfEven num den * den ≤ 2 * num + den := by
    rcases (roundHalfEven num den).eq_zero_or_pos with hzero | hpos
    · rw [hzero]
      omega
    · obtain ⟨m, hm⟩ : ∃ m, roundHalfEven num den = m + 1 := ⟨roundHalfEven num den - 1, by omega⟩
      have hlt : m < roundHalfEven num den := by omega
      have hexpand : 2 * (m + 1) * den = (2 * m + 1) * den + den := by ring
      rw [lt_roundHalfEven_iff hden] at hlt
      rw [hm, hexpand]
      omega
  have hup' : (2 * num : ℚ) ≤ (2 * roundHalfEven num den + 1) * den := by exact_mod_cast hup
  have hdown' : (2 * roundHalfEven num den * den : ℚ) ≤ 2 * num + den := by exact_mod_cast hdown
  have hquot : (num / den : ℚ) * den = num := div_mul_cancel₀ _ hden'.ne'
  rw [abs_le]
  constructor
  · refine le_of_mul_le_mul_right ?_ hden'
    linarith
  · refine le_of_mul_le_mul_right ?_ hden'
    linarith

/-- Rounding ties away from zero is the floor of the quotient plus one half. -/
theorem roundHalfAway_eq_floor {num den : ℕ} (hden : 0 < den) :
    roundHalfAway num den = ⌊(num / den : ℚ) + 1 / 2⌋₊ := by
  have hden' : (den : ℚ) ≠ 0 := by exact_mod_cast hden.ne'
  have hsum : (num / den : ℚ) + 1 / 2 = ((2 * num + den : ℕ) : ℚ) / ((2 * den : ℕ) : ℚ) := by
    push_cast
    field_simp
  rw [hsum, Nat.floor_div_natCast, Nat.floor_natCast, roundHalfAway]

namespace Binary64

/-! ### The nearest rank by midpoints, in units -/

/-- The magnitude with significand `m` in the group of spacing `2ᵉ`, the first group included. -/
private theorem units_group_or_first {e m : ℕ} (h₁ : 2 ^ 52 ≤ m ∨ e = 0) (h₂ : m ≤ 2 ^ 53) :
    units (e * 2 ^ 52 + m) = m * 2 ^ e := by
  rcases h₁ with h | rfl
  · exact units_group e h h₂
  · rw [zero_mul, zero_add, units_of_le h₂, pow_zero, mul_one]

/-- The whole part of a magnitude lies within the group that its spacing exponent picks. -/
private theorem spacingExponent_spec (w : ℕ) :
    w < 2 ^ 53 * 2 ^ spacingExponent w ∧
      (2 ^ 52 * 2 ^ spacingExponent w ≤ w ∨ spacingExponent w = 0) := by
  have hlt : w < 2 ^ (w.log2 + 1) := Nat.lt_log2_self
  simp only [spacingExponent, ← pow_add]
  refine ⟨hlt.trans_le (Nat.pow_le_pow_right (by omega) (by omega)), ?_⟩
  rcases Nat.lt_or_ge 52 w.log2 with h | h
  · left
    rw [show 52 + (w.log2 - 52) = w.log2 by omega]
    exact Nat.log2_self_le (by rintro rfl; simp at h)
  · right; omega

/-- Up to the first magnitude of the group of a quotient, all midpoints are passed. -/
private theorem midpoint_lt_of_le_group {num den e r : ℕ} (hden : 0 < den)
    (hlo : 2 ^ 52 * (den * 2 ^ e) ≤ num) (hr : r < e * 2 ^ 52 + 2 ^ 52) :
    (units r + units (r + 1)) * den < 2 * num := by
  have h₁ : units (r + 1) ≤ 2 ^ 52 * 2 ^ e := by
    rw [← units_group e le_rfl (by omega)]
    exact units_strictMono.monotone hr
  have h₂ : units r < units (r + 1) := units_strictMono (Nat.lt_succ_self r)
  calc (units r + units (r + 1)) * den < 2 * (2 ^ 52 * 2 ^ e) * den :=
        Nat.mul_lt_mul_of_pos_right (by omega) hden
    _ = 2 * (2 ^ 52 * (den * 2 ^ e)) := by ring
    _ ≤ 2 * num := Nat.mul_le_mul_left _ hlo

/-- From the last magnitude of the group of a quotient on, no midpoint is passed. -/
private theorem lt_midpoint_of_group_le {num den e r : ℕ} (hhi : num < 2 ^ 53 * (den * 2 ^ e))
    (hr : e * 2 ^ 52 + 2 ^ 53 ≤ r) :
    2 * num < (units r + units (r + 1)) * den := by
  have h₁ : 2 ^ 53 * 2 ^ e ≤ units r := by
    rw [← units_group e (Nat.pow_le_pow_right two_pos (by omega)) le_rfl]
    exact units_strictMono.monotone hr
  have h₂ : units r < units (r + 1) := units_strictMono (Nat.lt_succ_self r)
  calc 2 * num < 2 * (2 ^ 53 * (den * 2 ^ e)) := Nat.mul_lt_mul_of_pos_left hhi two_pos
    _ = 2 * (2 ^ 53 * 2 ^ e) * den := by ring
    _ ≤ (units r + units (r + 1)) * den := Nat.mul_le_mul_right _ (by omega)

/-- A rank is passed exactly when the quotient lies beyond the midpoint of its magnitude and the
next, or on it and the rank is odd. -/
theorem lt_nearestRank_iff {num den r : ℕ} (hden : 0 < den) :
    r < nearestRank num den ↔
      (units r + units (r + 1)) * den < 2 * num ∨
        ((units r + units (r + 1)) * den = 2 * num ∧ r % 2 = 1) := by
  obtain ⟨hhi, hlo⟩ := spacingExponent_spec (num / den)
  simp only [nearestRank]
  generalize spacingExponent (num / den) = e at *
  have hcell : 0 < den * 2 ^ e := Nat.mul_pos hden (Nat.two_pow_pos e)
  replace hhi : num < 2 ^ 53 * (den * 2 ^ e) := by
    calc num < den * (num / den) + den := Nat.lt_mul_div_succ num hden
      _ = den * (num / den + 1) := by ring
      _ ≤ den * (2 ^ 53 * 2 ^ e) := Nat.mul_le_mul_left _ hhi
      _ = 2 ^ 53 * (den * 2 ^ e) := by ring
  replace hlo : 2 ^ 52 * (den * 2 ^ e) ≤ num ∨ e = 0 := hlo.imp_left fun h => by
    calc 2 ^ 52 * (den * 2 ^ e) = den * (2 ^ 52 * 2 ^ e) := by ring
      _ ≤ den * (num / den) := Nat.mul_le_mul_left _ h
      _ ≤ num := Nat.mul_div_le num den
  have hle : roundHalfEven num (den * 2 ^ e) ≤ 2 ^ 53 := roundHalfEven_le hcell hhi.le
  by_cases hr : r < e * 2 ^ 52 ∨ (r < e * 2 ^ 52 + 2 ^ 52 ∧ e ≠ 0)
  -- before the significands of the group
  · have hlo' := hlo.resolve_right (by omega)
    have hge : 2 ^ 52 ≤ roundHalfEven num (den * 2 ^ e) := le_roundHalfEven hcell hlo'
    exact iff_of_true (by omega) (.inl (midpoint_lt_of_le_group hden hlo' (by omega)))
  obtain ⟨s, rfl⟩ : ∃ s, r = e * 2 ^ 52 + s := ⟨r - e * 2 ^ 52, by omega⟩
  rcases Nat.lt_or_ge s (2 ^ 53) with hs | hs
  -- among them: the rule for whole quotients, scaled by the spacing
  · have hmid : (units (e * 2 ^ 52 + s) + units (e * 2 ^ 52 + s + 1)) * den =
        (2 * s + 1) * (den * 2 ^ e) := by
      rw [add_assoc, units_group_or_first (by omega) hs.le,
        units_group_or_first (by omega) (show s + 1 ≤ 2 ^ 53 from hs)]
      ring
    have hpar : (e * 2 ^ 52 + s) % 2 = s % 2 := by omega
    rw [Nat.add_lt_add_iff_left, lt_roundHalfEven_iff hcell, hmid, hpar]
  -- past them
  · have hpast := lt_midpoint_of_group_le hhi (Nat.add_le_add_left hs _)
    exact iff_of_false (by omega) (by omega)

/-! ### Magnitudes and the nearest rank on rationals -/

/-- The magnitude of a rank. -/
def magnitude (rank : ℕ) : ℚ := units rank / unitsPerOne

/-- The rank of the magnitude nearest to a non-negative rational, ties to even. -/
def nearest (y : ℚ) : ℕ := nearestRank (y.num.natAbs * unitsPerOne) y.den

theorem unitsPerOne_pos : (0 : ℚ) < unitsPerOne :=
  Nat.cast_pos.mpr (Nat.two_pow_pos unitExponent)

theorem magnitude_strictMono : StrictMono magnitude := fun r s h =>
  div_lt_div_of_pos_right (by exact_mod_cast units_strictMono h) unitsPerOne_pos

theorem magnitude_nonneg (r : ℕ) : 0 ≤ magnitude r :=
  div_nonneg (Nat.cast_nonneg _) unitsPerOne_pos.le

@[simp]
theorem magnitude_zero : magnitude 0 = 0 := by
  rw [magnitude, units_zero, Nat.cast_zero, zero_div]

theorem magnitude_pos {r : ℕ} (h : 0 < r) : 0 < magnitude r := by
  simpa using magnitude_strictMono h

/-- The comparison with midpoints does not depend on how the rational is written. -/
private theorem lt_nearestRank_iff_rat {num den r : ℕ} (hden : 0 < den) {y : ℚ}
    (hy : (num : ℚ) = y * den * unitsPerOne) :
    r < nearestRank num den ↔
      magnitude r + magnitude (r + 1) < 2 * y ∨
        (magnitude r + magnitude (r + 1) = 2 * y ∧ r % 2 = 1) := by
  have hden' : (0 : ℚ) < den := by exact_mod_cast hden
  have hU := unitsPerOne_pos
  have hsum : ((units r + units (r + 1) : ℕ) * den : ℚ) =
      (magnitude r + magnitude (r + 1)) * (den * unitsPerOne) := by
    rw [magnitude, magnitude]
    push_cast
    field_simp
  have hnum : (2 * num : ℚ) = 2 * y * (den * unitsPerOne) := by rw [hy]; ring
  rw [lt_nearestRank_iff hden]
  refine or_congr ?_ (and_congr_left' ?_)
  · rw [← Nat.cast_lt (α := ℚ), Nat.cast_mul, Nat.cast_mul, Nat.cast_ofNat, hsum, hnum]
    exact mul_lt_mul_iff_of_pos_right (mul_pos hden' hU)
  · rw [← Nat.cast_inj (R := ℚ), Nat.cast_mul, Nat.cast_mul, Nat.cast_ofNat, hsum, hnum]
    exact mul_left_inj' (mul_pos hden' hU).ne'

/-- **Midpoint rule.** The rank `r` is passed exactly by the rationals beyond the midpoint of its
magnitude and the next one, and by the midpoint itself when `r` is odd. -/
theorem lt_nearest_iff {y : ℚ} (hy : 0 ≤ y) {r : ℕ} :
    r < nearest y ↔
      magnitude r + magnitude (r + 1) < 2 * y ∨
        (magnitude r + magnitude (r + 1) = 2 * y ∧ r % 2 = 1) := by
  refine lt_nearestRank_iff_rat y.den_pos ?_
  have hnum : ((y.num.natAbs : ℤ) : ℚ) = y.num := by
    rw [Int.natAbs_of_nonneg (Rat.num_nonneg.mpr hy)]
  rw [Nat.cast_mul, Rat.mul_den_eq_num, ← hnum, Int.cast_natCast]

/-- The rounding of a quotient is the rounding of its value. -/
theorem nearestRank_eq_nearest {num den : ℕ} (hden : 0 < den) :
    nearestRank num den = nearest (num / (den * unitsPerOne)) := by
  have hden' : (den : ℚ) ≠ 0 := by exact_mod_cast hden.ne'
  have hU := unitsPerOne_pos
  refine eq_of_forall_lt_iff fun r => ?_
  rw [lt_nearest_iff (by positivity)]
  refine lt_nearestRank_iff_rat hden ?_
  rw [mul_assoc, div_mul_cancel₀ _ (mul_ne_zero hden' hU.ne')]

/-! ### Monotone, and exact on magnitudes -/

theorem nearest_mono {x y : ℚ} (hx : 0 ≤ x) (h : x ≤ y) : nearest x ≤ nearest y := by
  refine le_of_forall_lt fun r hr => ?_
  rw [lt_nearest_iff hx] at hr
  rw [lt_nearest_iff (hx.trans h)]
  rcases hr with hr | ⟨hr, hodd⟩
  · left; linarith
  · rcases h.lt_or_eq with hlt | rfl
    · left; linarith
    · exact .inr ⟨hr, hodd⟩

/-- What lies between rationals of one nearest rank has this nearest rank. -/
theorem nearest_eq_of_le_of_le {r : ℕ} {x y z : ℚ} (hx : 0 ≤ x) (hxy : x ≤ y) (hyz : y ≤ z)
    (h : nearest x = r) (h' : nearest z = r) : nearest y = r :=
  le_antisymm ((nearest_mono (hx.trans hxy) hyz).trans_eq h')
    (h.symm.trans_le (nearest_mono hx hxy))

@[simp]
theorem nearest_magnitude (r : ℕ) : nearest (magnitude r) = r := by
  refine eq_of_forall_lt_iff fun s => ?_
  rw [lt_nearest_iff (magnitude_nonneg r)]
  have hstep : magnitude s < magnitude (s + 1) := magnitude_strictMono (Nat.lt_succ_self s)
  rcases Nat.lt_or_ge s r with h | h
  · refine iff_of_true (.inl ?_) h
    have h₁ : magnitude (s + 1) ≤ magnitude r := magnitude_strictMono.monotone h
    linarith
  · refine iff_of_false ?_ (Nat.not_lt.mpr h)
    have h₁ : magnitude r ≤ magnitude s := magnitude_strictMono.monotone h
    rintro (h₂ | ⟨h₂, -⟩) <;> linarith

@[simp]
theorem nearest_zero : nearest 0 = 0 := by simpa using nearest_magnitude 0

theorem le_nearest {r : ℕ} {y : ℚ} (h : magnitude r ≤ y) : r ≤ nearest y := by
  simpa using nearest_mono (magnitude_nonneg r) h

theorem nearest_le {r : ℕ} {y : ℚ} (hy : 0 ≤ y) (h : y ≤ magnitude r) : nearest y ≤ r := by
  simpa using nearest_mono hy h

/-! ### How near -/

/-- A rational is at most half-way to the magnitude above its nearest one. -/
theorem two_mul_le_of_nearest {y : ℚ} (hy : 0 ≤ y) :
    2 * y ≤ magnitude (nearest y) + magnitude (nearest y + 1) := by
  by_contra h
  exact lt_irrefl _ ((lt_nearest_iff hy).mpr (.inl (not_le.mp h)))

/-- A rational is at least half-way from the magnitude below its nearest one. -/
theorem le_two_mul_of_lt_nearest {y : ℚ} (hy : 0 ≤ y) {r : ℕ} (h : r < nearest y) :
    magnitude r + magnitude (r + 1) ≤ 2 * y := by
  rcases (lt_nearest_iff hy).mp h with h | ⟨h, -⟩
  · exact h.le
  · exact h.le

end Binary64

end DecimalRounding
