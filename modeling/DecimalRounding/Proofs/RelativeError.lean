import DecimalRounding.Proofs.Nearest

/-!
# Significands, exponents and relative errors

Magnitudes as a significand times a power of two, in the rationals (`magnitude_eq_zpow`), which
rationals are magnitudes (`exists_magnitude_eq`), and the two bounds behind every estimate of
this library: away from the subnormals rounding moves a rational by less than its `2⁵³`-rd part
(`abs_magnitude_nearest_sub_lt`), and two magnitudes differ by no less than the `2⁵³`-rd part of
the larger (`magnitude_le_mul_sub`).
-/

namespace DecimalRounding.Binary64

/-! ### Significand times power of two -/

theorem unitExponent_eq : unitExponent = 1074 := by rw [unitExponent]

/-- A number of units, as a rational. -/
theorem magnitude_eq_zpow {r m e : ℕ} (h : units r = m * 2 ^ e) :
    magnitude r = m * 2 ^ ((e : ℤ) - 1074) := by
  have hexp : ((unitExponent : ℕ) : ℤ) = 1074 := by rw [unitExponent_eq]; rfl
  rw [magnitude, h, unitsPerOne, Nat.cast_mul, Nat.cast_pow, Nat.cast_pow, Nat.cast_ofNat,
    ← zpow_natCast, ← zpow_natCast, mul_div_assoc, ← zpow_sub₀ two_ne_zero, hexp]

/-- Up to the second group of ranks, a magnitude has as many units as its rank says. -/
theorem magnitude_of_le {r : ℕ} (h : r ≤ 2 ^ 53) : magnitude r = r * 2 ^ (-1074 : ℤ) := by
  have hunits : units r = r * 2 ^ 0 := by rw [units_of_le h, pow_zero, mul_one]
  rw [magnitude_eq_zpow hunits, Nat.cast_zero, zero_sub]

theorem magnitude_group (e : ℕ) {m : ℕ} (h₁ : 2 ^ 52 ≤ m) (h₂ : m ≤ 2 ^ 53) :
    magnitude (e * 2 ^ 52 + m) = m * 2 ^ ((e : ℤ) - 1074) :=
  magnitude_eq_zpow (units_group e h₁ h₂)

/-- The least normal magnitude. -/
theorem magnitude_normal : magnitude (2 ^ 52) = 2 ^ (-1022 : ℤ) := by
  rw [magnitude_of_le (by omega), Nat.cast_pow, Nat.cast_ofNat, ← zpow_natCast,
    ← zpow_add₀ two_ne_zero]
  rfl

/-- Multiplying a normal magnitude by a power of two moves its rank by whole groups. -/
theorem magnitude_add_group {r : ℕ} (h : 2 ^ 52 ≤ r) (k : ℕ) :
    magnitude (r + k * 2 ^ 52) = magnitude r * 2 ^ k := by
  rw [magnitude, magnitude, units_add_group h, Nat.cast_mul, Nat.cast_pow, Nat.cast_ofNat,
    div_mul_eq_mul_div]

/-- The rank of a power of two. -/
def twoPowRank (n : ℤ) : ℕ := ((n + 1023) * 2 ^ 52).toNat

theorem normal_le_twoPowRank {n : ℤ} (h : -1022 ≤ n) : 2 ^ 52 ≤ twoPowRank n := by
  rw [twoPowRank]
  omega

theorem magnitude_twoPowRank {n : ℤ} (h : -1022 ≤ n) : magnitude (twoPowRank n) = 2 ^ n := by
  obtain ⟨k, hk⟩ : ∃ k : ℕ, n = k - 1022 := ⟨(n + 1022).toNat, by omega⟩
  have hrank : twoPowRank n = k * 2 ^ 52 + 2 ^ 52 := by rw [twoPowRank]; omega
  rw [hrank, magnitude_group k le_rfl (by omega), Nat.cast_pow, Nat.cast_ofNat, ← zpow_natCast,
    ← zpow_add₀ two_ne_zero, hk]
  congr 1
  push_cast
  ring

/-! ### Which rationals are magnitudes -/

/-- Whatever needs at most 53 binary digits, none below the last of the least magnitude, is a
magnitude. -/
theorem exists_magnitude_eq {m : ℕ} (hm : m ≤ 2 ^ 53) {k : ℤ} (hk : -1074 ≤ k) :
    ∃ r, magnitude r = m * 2 ^ k := by
  obtain ⟨r, hr⟩ := exists_units_eq (k + 1074).toNat hm
  refine ⟨r, ?_⟩
  rw [magnitude_eq_zpow hr]
  congr 2
  omega

/-- Every natural number up to `2⁵³` is a magnitude. -/
theorem exists_magnitude_natCast {n : ℕ} (h : n ≤ 2 ^ 53) : ∃ r, magnitude r = n := by
  simpa using exists_magnitude_eq h (k := 0) (by omega)

/-- Every half of a natural number up to `2⁵³` is a magnitude. -/
theorem exists_magnitude_half {n : ℕ} (h : n ≤ 2 ^ 53) : ∃ r, magnitude r = (n : ℚ) / 2 := by
  simpa [div_eq_mul_inv] using exists_magnitude_eq h (k := -1) (by omega)

/-- Rounding does not pass a magnitude from below. -/
theorem le_magnitude_nearest {z y : ℚ} (hz : ∃ r, magnitude r = z) (h : z ≤ y) :
    z ≤ magnitude (nearest y) := by
  obtain ⟨r, rfl⟩ := hz
  exact magnitude_strictMono.monotone (le_nearest h)

/-- Rounding does not pass a magnitude from above. -/
theorem magnitude_nearest_le {z y : ℚ} (hz : ∃ r, magnitude r = z) (hy : 0 ≤ y) (h : y ≤ z) :
    magnitude (nearest y) ≤ z := by
  obtain ⟨r, rfl⟩ := hz
  exact magnitude_strictMono.monotone (nearest_le hy h)

/-- A magnitude is its own rounding. -/
theorem magnitude_nearest_eq {z : ℚ} (hz : ∃ r, magnitude r = z) : magnitude (nearest z) = z := by
  obtain ⟨r, rfl⟩ := hz
  rw [nearest_magnitude]

/-! ### Relative errors -/

theorem magnitude_succ (r : ℕ) : magnitude (r + 1) = magnitude r + spacing r / unitsPerOne := by
  rw [magnitude, magnitude, units_succ, Nat.cast_add, add_div]

/-- Up to the least normal magnitudes, neighbours are the least magnitude apart. -/
theorem magnitude_succ_of_lt {r : ℕ} (h : r < 2 ^ 53) :
    magnitude (r + 1) = magnitude r + 2 ^ (-1074 : ℤ) := by
  rw [magnitude_of_le h.le, magnitude_of_le h, Nat.cast_add_one, add_mul, one_mul]

/-- Past the first group the spacing is at most the `2⁵²`-nd part of the magnitude below it. -/
theorem spacing_le_magnitude {r : ℕ} (h : 2 ^ 52 ≤ r) :
    2 ^ 52 * (spacing r / unitsPerOne) ≤ magnitude r := by
  have hunits : (2 ^ 52 * spacing r : ℚ) ≤ units r := by exact_mod_cast le_units h
  rw [magnitude, ← mul_div_assoc]
  exact div_le_div_of_nonneg_right hunits unitsPerOne_pos.le

/-- Different magnitudes differ by at least the `2⁵³`-rd part of the larger. -/
theorem magnitude_le_mul_sub {r s : ℕ} (h : r < s) :
    magnitude s ≤ 2 ^ 53 * (magnitude s - magnitude r) := by
  have hle : units r ≤ units s := (units_strictMono h).le
  have hunits : (units s : ℚ) ≤ 2 ^ 53 * (units s - units r) := by
    exact_mod_cast units_le_mul_sub h
  rw [magnitude, magnitude, ← sub_div, ← mul_div_assoc]
  exact div_le_div_of_nonneg_right hunits unitsPerOne_pos.le

/-- The same bound by the nearest magnitude itself, for rationals that may lie a little below the
least normal magnitude. -/
theorem abs_magnitude_nearest_sub_le_mul {y : ℚ} (hy : 0 ≤ y) (hnormal : 2 ^ 52 ≤ nearest y) :
    2 ^ 53 * |magnitude (nearest y) - y| ≤ magnitude (nearest y) := by
  have hsize := spacing_le_magnitude hnormal
  have hup := two_mul_le_of_nearest hy
  obtain ⟨t, ht⟩ : ∃ t, nearest y = t + 1 := ⟨nearest y - 1, by omega⟩
  have hdown := le_two_mul_of_lt_nearest hy (r := t) (by omega)
  have hmono : (spacing t : ℚ) / unitsPerOne ≤ spacing (t + 1) / unitsPerOne :=
    div_le_div_of_nonneg_right (by exact_mod_cast spacing_mono (Nat.le_succ t)) unitsPerOne_pos.le
  rw [ht] at hsize hup ⊢
  rw [magnitude_succ (t + 1)] at hup
  have hstep := magnitude_succ t
  have hle : |magnitude (t + 1) - y| ≤ spacing (t + 1) / unitsPerOne / 2 :=
    abs_le.mpr ⟨by linarith, by linarith⟩
  linarith

/-- **Relative error.** Above the least normal magnitude, rounding moves a rational by less than
its `2⁵³`-rd part. -/
theorem abs_magnitude_nearest_sub_lt {y : ℚ} (hy : 2 ^ (-1022 : ℤ) ≤ y) :
    2 ^ 53 * |magnitude (nearest y) - y| < y := by
  have hpos : 0 < y := lt_of_lt_of_le (by positivity) hy
  have hnormal : 2 ^ 52 ≤ nearest y := le_nearest (by rwa [magnitude_normal])
  rcases le_or_gt (magnitude (nearest y)) y with hle | hgt
  -- rounded down: half a spacing at most, and the magnitude below `y` has `2⁵²` of them
  · have hmid := two_mul_le_of_nearest hpos.le
    have hsize := spacing_le_magnitude hnormal
    rw [magnitude_succ] at hmid
    rw [abs_of_nonpos (by linarith)]
    rcases hle.lt_or_eq with hlt | heq <;> linarith
  -- rounded up: the same with the magnitude one rank lower
  · obtain ⟨t, ht⟩ : ∃ t, nearest y = t + 1 := ⟨nearest y - 1, by omega⟩
    have hbelow : 2 ^ 52 ≤ t := by
      by_contra hcon
      have heq : nearest y = 2 ^ 52 := by omega
      rw [heq, magnitude_normal] at hgt
      exact absurd hy (not_le.mpr hgt)
    have hmid := le_two_mul_of_lt_nearest hpos.le (r := t) (by omega)
    have hsize := spacing_le_magnitude hbelow
    have hstep : 0 < (spacing t : ℚ) / unitsPerOne :=
      div_pos (by exact_mod_cast spacing_pos t) unitsPerOne_pos
    rw [ht] at hgt ⊢
    rw [magnitude_succ] at hmid hgt ⊢
    rw [abs_of_pos (by linarith)]
    linarith

/-- Everywhere, rounding moves a rational by at most its `2⁵³`-rd part and half of the least
magnitude. -/
theorem abs_magnitude_nearest_sub_le_add {y : ℚ} (hy : 0 ≤ y) :
    |magnitude (nearest y) - y| ≤ y / 2 ^ 53 + 2 ^ (-1075 : ℤ) := by
  have hhalf : (2 : ℚ) ^ (-1074 : ℤ) = 2 * 2 ^ (-1075 : ℤ) := by
    rw [← zpow_one_add₀ two_ne_zero]
    rfl
  have hpos : (0 : ℚ) < 2 ^ (-1075 : ℤ) := zpow_pos two_pos _
  rcases le_or_gt (2 ^ (-1022 : ℤ)) y with hnormal | hsmall
  · have herr := (lt_div_iff₀' (by norm_num)).mpr (abs_magnitude_nearest_sub_lt hnormal)
    exact (herr.trans (lt_add_of_pos_right _ hpos)).le
  -- among the least magnitudes it is half of their distance
  · have hle : nearest y ≤ 2 ^ 52 := nearest_le hy (by rw [magnitude_normal]; exact hsmall.le)
    have hup := two_mul_le_of_nearest hy
    rw [magnitude_succ_of_lt (by omega)] at hup
    have hdown : magnitude (nearest y) - 2 ^ (-1075 : ℤ) ≤ y := by
      rcases (nearest y).eq_zero_or_pos with hzero | hrank
      · rw [hzero, magnitude_zero]
        linarith
      · obtain ⟨t, ht⟩ : ∃ t, nearest y = t + 1 := ⟨nearest y - 1, by omega⟩
        have hmid := le_two_mul_of_lt_nearest hy (r := t) (by omega)
        have hstep := magnitude_succ_of_lt (r := t) (by omega)
        rw [ht]
        linarith
    have hy' : 0 ≤ y / 2 ^ 53 := by positivity
    exact abs_le.mpr ⟨by linarith, by linarith⟩

end DecimalRounding.Binary64
