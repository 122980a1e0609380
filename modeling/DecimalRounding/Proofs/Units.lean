import Mathlib
import DecimalRounding.Binary64.Basic

/-!
# The line of binary64 magnitudes

Magnitudes in units of `2⁻¹⁰⁷⁴`, as a function of the rank. Neighbouring ranks are `spacing`
apart (`units_succ`), so `units` is strictly increasing; above the first group a magnitude holds
between `2⁵²` and `2⁵³` spacings, and this is all that relative errors of binary64 arithmetic
depend on (`le_units`, `units_succ_le`).

Which naturals are magnitudes: the `m * 2 ^ k` with `m ≤ 2⁵³` (`exists_units_eq`), and no others
(`exists_significand`).
-/

namespace DecimalRounding.Binary64

/-- The distance from the magnitude of a rank to the next one, in units. -/
def spacing (rank : ℕ) : ℕ := 2 ^ (rank / 2 ^ 52 - 1)

theorem spacing_pos (r : ℕ) : 0 < spacing r := Nat.two_pow_pos _

/-! ### Groups of equal spacing -/

/-- The first two groups are one unit apart. -/
theorem units_of_le {r : ℕ} (h : r ≤ 2 ^ 53) : units r = r := by
  rw [units]
  split_ifs with hr
  · rfl
  · rcases Nat.lt_or_ge r (2 ^ 53) with hlt | hge
    · have hq : r / 2 ^ 52 = 1 := by omega
      have hm : r % 2 ^ 52 = r - 2 ^ 52 := by omega
      rw [hq, hm]
      omega
    · obtain rfl : r = 2 ^ 53 := by omega
      rfl

/-- The magnitudes of the group with spacing `2ᵉ`, and the first one of the next group. -/
theorem units_group (e : ℕ) {m : ℕ} (h₁ : 2 ^ 52 ≤ m) (h₂ : m ≤ 2 ^ 53) :
    units (e * 2 ^ 52 + m) = m * 2 ^ e := by
  rw [units, if_neg (by omega)]
  rcases Nat.lt_or_ge m (2 ^ 53) with hlt | hge
  · have hq : (e * 2 ^ 52 + m) / 2 ^ 52 = e + 1 := by omega
    have hm : (e * 2 ^ 52 + m) % 2 ^ 52 = m - 2 ^ 52 := by omega
    rw [hq, hm, Nat.add_sub_cancel, Nat.add_sub_cancel' h₁]
  · obtain rfl : m = 2 ^ 53 := by omega
    have hq : (e * 2 ^ 52 + 2 ^ 53) / 2 ^ 52 = e + 2 := by omega
    have hm : (e * 2 ^ 52 + 2 ^ 53) % 2 ^ 52 = 0 := by omega
    rw [hq, hm, show e + 2 - 1 = e + 1 by omega, pow_succ 2 e]
    ring

/-- Past the first group, a rank is a significand of 53 binary digits and a group. -/
theorem exists_group {r : ℕ} (h : 2 ^ 52 ≤ r) :
    ∃ e m, 2 ^ 52 ≤ m ∧ m < 2 ^ 53 ∧ r = e * 2 ^ 52 + m ∧ spacing r = 2 ^ e := by
  refine ⟨r / 2 ^ 52 - 1, 2 ^ 52 + r % 2 ^ 52, by omega, by omega, by omega, rfl⟩

/-- Neighbours are a spacing apart. -/
theorem units_succ (r : ℕ) : units (r + 1) = units r + spacing r := by
  rcases Nat.lt_or_ge r (2 ^ 52) with hr | hr
  · rw [units_of_le (by omega : r ≤ 2 ^ 53), units_of_le (by omega : r + 1 ≤ 2 ^ 53), spacing,
      Nat.div_eq_of_lt hr, Nat.zero_sub, pow_zero]
  · obtain ⟨e, m, h₁, h₂, rfl, hs⟩ := exists_group hr
    rw [hs, add_assoc, units_group e h₁ h₂.le, units_group e (by omega) (by omega), add_mul,
      one_mul]

theorem units_strictMono : StrictMono units :=
  strictMono_nat_of_lt_succ fun r => by
    rw [units_succ]
    exact Nat.lt_add_of_pos_right (spacing_pos r)

@[simp]
theorem units_zero : units 0 = 0 := units_of_le (by omega)

/-- Multiplying by a power of two moves a rank on by whole groups. -/
theorem units_add_group {r : ℕ} (h : 2 ^ 52 ≤ r) (k : ℕ) :
    units (r + k * 2 ^ 52) = units r * 2 ^ k := by
  obtain ⟨e, m, h₁, h₂, rfl, -⟩ := exists_group h
  rw [show e * 2 ^ 52 + m + k * 2 ^ 52 = (e + k) * 2 ^ 52 + m by ring, units_group _ h₁ h₂.le,
    units_group _ h₁ h₂.le, pow_add, mul_assoc]

/-! ### Spacing and size -/

/-- A magnitude is at most `2⁵³` spacings, the spacing below it. -/
theorem units_succ_le (r : ℕ) : units (r + 1) ≤ 2 ^ 53 * spacing r := by
  rcases Nat.lt_or_ge r (2 ^ 52) with hr | hr
  · rw [units_of_le (by omega : r + 1 ≤ 2 ^ 53)]
    have := spacing_pos r
    omega
  · obtain ⟨e, m, h₁, h₂, rfl, hs⟩ := exists_group hr
    rw [hs, add_assoc, units_group e (by omega) (by omega)]
    exact Nat.mul_le_mul_right _ (by omega)

/-- Past the first group a magnitude is at least `2⁵²` spacings, the spacing above it. -/
theorem le_units {r : ℕ} (h : 2 ^ 52 ≤ r) : 2 ^ 52 * spacing r ≤ units r := by
  obtain ⟨e, m, h₁, h₂, rfl, hs⟩ := exists_group h
  rw [hs, units_group e h₁ h₂.le]
  exact Nat.mul_le_mul_right _ h₁

theorem spacing_mono : Monotone spacing := fun _ _ h =>
  Nat.pow_le_pow_right (by omega) (Nat.sub_le_sub_right (Nat.div_le_div_right h) 1)

theorem spacing_succ_le (t : ℕ) : spacing (t + 1) ≤ 2 * spacing t := by
  rw [spacing, spacing, ← pow_succ']
  exact Nat.pow_le_pow_right (by omega) (by omega)

/-- Different magnitudes differ by at least the `2⁵³`-th part of the larger. -/
theorem units_le_mul_sub {r s : ℕ} (h : r < s) : units s ≤ 2 ^ 53 * (units s - units r) := by
  obtain ⟨t, rfl⟩ : ∃ t, s = t + 1 := ⟨s - 1, by omega⟩
  have hgap : spacing t ≤ units (t + 1) - units r := by
    have := units_strictMono.monotone (Nat.lt_succ_iff.mp h)
    rw [units_succ]
    omega
  exact (units_succ_le t).trans (Nat.mul_le_mul_left _ hgap)

/-! ### Which naturals are magnitudes -/

/-- A magnitude is a significand below `2⁵³` times its spacing. -/
theorem exists_significand (r : ℕ) : ∃ m, m < 2 ^ 53 ∧ units r = m * spacing r := by
  rcases Nat.lt_or_ge r (2 ^ 52) with hr | hr
  · exact ⟨r, by omega, by rw [units_of_le (by omega), spacing, Nat.div_eq_of_lt hr]; simp⟩
  · obtain ⟨e, m, h₁, h₂, rfl, hs⟩ := exists_group hr
    exact ⟨m, h₂, by rw [hs, units_group e h₁ h₂.le]⟩

/-- Whatever needs at most 53 binary digits is a magnitude. -/
theorem exists_units_eq (k : ℕ) {m : ℕ} (h : m ≤ 2 ^ 53) : ∃ r, units r = m * 2 ^ k := by
  induction k generalizing m with
  | zero => exact ⟨m, by rw [units_of_le h, pow_zero, mul_one]⟩
  | succ k ih =>
    rcases Nat.lt_or_ge m (2 ^ 52) with hm | hm
    · obtain ⟨r, hr⟩ := ih (m := 2 * m) (by omega)
      exact ⟨r, by rw [hr, pow_succ]; ring⟩
    · exact ⟨(k + 1) * 2 ^ 52 + m, units_group (k + 1) hm h⟩

end DecimalRounding.Binary64
