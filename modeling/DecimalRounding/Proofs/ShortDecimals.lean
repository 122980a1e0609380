import DecimalRounding.Proofs.FractionPlaces
import DecimalRounding.Proofs.WholePlaces

/-!
# Short decimals round as on paper

A decimal `M / 10 ^ i` with `M < 2⁵⁰` that lies below a half-way point lies below it by at least
`10 ^ (-i)`, which is more than its own `2⁵⁰`-th part (`short_mul_lt`). The nudge and the roundings
around it come to less than that (`exists_nudge_of_nearest`, `floor_nearest_eq`), so they lead
across no half-way point; and since they all lead outward from the decimal, a tie stays a tie or
becomes more than one. Hence each way of rounding finds the multiple that is nearest to the decimal
itself, ties away from zero (`roundFloat_neg_short`, `roundFraction_short`).
-/

namespace DecimalRounding

open Binary64

variable {s : Bool} {M i j p d r q : ℕ} {h : r < overflowRank} {x y w : ℚ}

/-! ### The room below a half-way point -/

private theorem short_le (hM : M < 2 ^ 50) : (M / 10 ^ j : ℚ) ≤ 2 ^ 50 := by
  rw [div_le_iff₀ (by positivity)]
  have hone : (1 : ℚ) ≤ 10 ^ j := one_le_pow₀ (by norm_num)
  have hM' : (M : ℚ) ≤ 2 ^ 50 := by exact_mod_cast hM.le
  nlinarith

/-- A short decimal below a half-way point stays below it when it grows by its `2⁵⁰`-th part. -/
theorem short_mul_lt (hM : M < 2 ^ 50) (hi : 1 ≤ i) :
    (M / 10 ^ i : ℚ) * (1 + 1 / 2 ^ 50) < ⌊(M / 10 ^ i : ℚ) + 1 / 2⌋₊ + 1 / 2 := by
  obtain ⟨k, rfl⟩ : ∃ k, i = k + 1 := ⟨i - 1, by omega⟩
  have hhi := Nat.lt_floor_add_one ((M / 10 ^ (k + 1) : ℚ) + 1 / 2)
  generalize ⌊(M / 10 ^ (k + 1) : ℚ) + 1 / 2⌋₊ = H at *
  have h10 : (0 : ℚ) < 10 ^ (k + 1) := by positivity
  -- both numerators are whole, and so is half of the power of ten
  have hhalf : (10 : ℚ) ^ (k + 1) = 2 * (5 * 10 ^ k) := by
    rw [pow_succ]
    ring
  have hnum : M + 1 ≤ (2 * H + 1) * (5 * 10 ^ k) := by
    have hlt : (M : ℚ) < (2 * H + 1) * (5 * 10 ^ k) := by
      have hquot : (M : ℚ) / 10 ^ (k + 1) < H + 1 / 2 := by linarith
      rw [div_lt_iff₀ h10, hhalf] at hquot
      linarith
    exact_mod_cast hlt
  have hM' : (M : ℚ) / 2 ^ 50 < 1 := by
    rw [div_lt_one (by positivity)]
    exact_mod_cast hM
  rw [div_mul_eq_mul_div, div_lt_iff₀ h10, hhalf]
  calc (M : ℚ) * (1 + 1 / 2 ^ 50) = (M : ℚ) + M / 2 ^ 50 := by ring
    _ < (M : ℚ) + 1 := by linarith
    _ ≤ (2 * (H : ℚ) + 1) * (5 * 10 ^ k) := by exact_mod_cast hnum
    _ = ((H : ℚ) + 1 / 2) * (2 * (5 * 10 ^ k)) := by ring

/-- Half-way points are magnitudes, so that rounding to a magnitude leads to none from above. -/
theorem floor_le_floor_nearest (hx : 0 ≤ x) (hle : x ≤ 2 ^ 51) (hxw : x ≤ w) :
    ⌊x + 1 / 2⌋₊ ≤ ⌊magnitude (nearest w) + 1 / 2⌋₊ := by
  have hlo := Nat.floor_le (show 0 ≤ x + 1 / 2 by linarith)
  generalize ⌊x + 1 / 2⌋₊ = H at *
  rcases H.eq_zero_or_pos with rfl | hH
  · exact Nat.zero_le _
  obtain ⟨n, rfl⟩ : ∃ n, H = n + 1 := ⟨H - 1, by omega⟩
  have hn : 2 * n + 1 ≤ 2 ^ 53 := by
    have hcast : (2 : ℚ) * (n + 1 : ℕ) ≤ 2 ^ 52 + 1 := by linarith
    have hnat : 2 * (n + 1) ≤ 2 ^ 52 + 1 := by exact_mod_cast hcast
    omega
  push_cast at hlo
  have hmid := le_magnitude_nearest (exists_magnitude_half hn) (y := w) (by
    push_cast
    linarith)
  refine Nat.le_floor ?_
  push_cast at hmid ⊢
  linarith

/-- What lies a little above a short decimal, rounded to a magnitude, lies on the same side of all
half-way points. -/
theorem floor_nearest_eq (hM : M < 2 ^ 50) (hi : 1 ≤ i) (hx : x = M / 10 ^ i) (hxw : x ≤ w)
    (hw : w ≤ x * ((1 + 1 / 2 ^ 51) * (1 + 1 / 2 ^ 53))) :
    ⌊magnitude (nearest w) + 1 / 2⌋₊ = ⌊x + 1 / 2⌋₊ := by
  have hx0 : 0 ≤ x := by rw [hx]; positivity
  have hroom : x * (1 + 1 / 2 ^ 50) < ⌊x + 1 / 2⌋₊ + 1 / 2 := by
    rw [hx]
    exact short_mul_lt hM hi
  have hxle : x ≤ 2 ^ 50 := hx.trans_le (short_le hM)
  refine le_antisymm ?_ (floor_le_floor_nearest hx0 (by linarith) hxw)
  rcases le_or_gt (2 ^ (-1022 : ℤ)) w with hnormal | hsmall
  · refine Nat.le_of_lt_succ ((Nat.floor_lt' (Nat.succ_ne_zero _)).mpr ?_)
    rw [Nat.succ_eq_add_one, Nat.cast_add_one]
    have herr := (abs_lt.mp ((lt_div_iff₀' (by norm_num)).mpr
      (abs_magnitude_nearest_sub_lt hnormal))).2
    have hfactor : ((1 : ℚ) + 1 / 2 ^ 51) * (1 + 1 / 2 ^ 53) * (1 + 1 / 2 ^ 53) ≤
        1 + 1 / 2 ^ 50 := by norm_num
    have hgrow := mul_le_mul_of_nonneg_left hfactor hx0
    linarith
  -- a subnormal product is next to nothing
  · rw [floor_nearest_eq_zero (hx0.trans hxw) (hsmall.le.trans two_zpow_le_quarter)]
    exact Nat.zero_le _

/-! ### The nudge -/

/-- The number nearest to a rational is nudged to a number beyond that rational, and not far beyond
it. -/
theorem exists_nudge_of_nearest (hy : y = 0 ∨ 2 ^ (-1022 : ℤ) ≤ y) (hlt : y ≤ 2 ^ 50)
    (hr : nearest y = r) :
    ∃ q, ∃ hq : q < overflowRank, (finite s r h).nudge = finite s q hq ∧ y ≤ magnitude q ∧
      (0 < y → y < magnitude q) ∧ magnitude q ≤ magnitude r * (1 + 1 / 2 ^ 51) ∧
      magnitude q ≤ y * ((1 + 1 / 2 ^ 51) * (1 + 1 / 2 ^ 53)) := by
  rcases hy with rfl | hy
  · obtain rfl : r = 0 := by simpa using hr.symm
    exact ⟨0, h, nudge_zero, by simp, by simp, by simp, by simp⟩
  · subst hr
    have hpos : 0 < y := lt_of_lt_of_le (zpow_pos two_pos _) hy
    have hnormal : 2 ^ 52 ≤ nearest y := le_nearest (by rwa [magnitude_normal])
    have hgrow := magnitude_nudgeRank_le hnormal
    have herr := (abs_lt.mp ((lt_div_iff₀' (by norm_num)).mpr (abs_magnitude_nearest_sub_lt hy))).2
    have hfar : magnitude (nudgeRank (nearest y)) ≤
        y * ((1 + 1 / 2 ^ 51) * (1 + 1 / 2 ^ 53)) := by linarith
    have hq : nudgeRank (nearest y) < overflowRank :=
      lt_overflowRank_of_magnitude_le (by linarith)
    have hbeyond := lt_magnitude_nudgeRank hpos.le
    exact ⟨_, hq, by rw [nudge_normal hnormal, ofRank_of_lt hq], hbeyond.le, fun _ => hbeyond,
      hgrow, hfar⟩

/-! ### Zero or fewer digits -/

/-- Rounding a short decimal to no digits. -/
private theorem roundFloat_zero_short (hM : M < 2 ^ 50) (hyM : y = M / 10 ^ j)
    (hy : y = 0 ∨ 2 ^ (-1022 : ℤ) ≤ y) (hr : nearest y = r) :
    roundFloat (finite s r h) 0 = .ok (.int (signed s ⌊y + 1 / 2⌋₊)) := by
  have hy0 : 0 ≤ y := by rw [hyM]; positivity
  have hle : y ≤ 2 ^ 50 := hyM.trans_le (short_le hM)
  obtain ⟨q, hq, hnudge, hbeyond, -, hgrow, hfar⟩ :=
    exists_nudge_of_nearest (s := s) (h := h) hy hle hr
  obtain ⟨w, hw, hwhole, hround⟩ := roundFloat_zero_eq hnudge
  have hfloor : ⌊magnitude q + 1 / 2⌋₊ = ⌊y + 1 / 2⌋₊ := by
    rcases Nat.eq_zero_or_pos j with rfl | hj
    -- a whole number is nudged by less than one half
    · rw [pow_zero, div_one] at hyM
      have hmag : magnitude r = M := by
        rw [← hr, hyM]
        exact magnitude_nearest_eq (exists_magnitude_natCast (by omega))
      have hM' : (M : ℚ) < 2 ^ 50 := by exact_mod_cast hM
      have hwhole : ∀ z : ℚ, (M : ℚ) ≤ z → z < M + 1 / 2 → ⌊z + 1 / 2⌋₊ = M := fun z h₁ h₂ =>
        (Nat.floor_eq_iff (by linarith)).mpr ⟨by linarith, by linarith⟩
      rw [hyM] at hbeyond
      rw [hmag] at hgrow
      rw [hyM, hwhole _ hbeyond (by linarith), hwhole _ le_rfl (by linarith)]
    · rw [← floor_nearest_eq hM hj hyM hbeyond hfar, nearest_magnitude]
  have hbound : ⌊y + 1 / 2⌋₊ ≤ 2 ^ 51 := Nat.floor_le_of_le (by push_cast; linarith)
  rw [hround, intOfRounded_of_lt (hwhole.trans (congrArg _ hfloor)) (by omega)]

/-- Where the power of ten is exact, the quotient is on the same side of all half-way points as the
exact one of the decimal. -/
private theorem floor_nearest_div_eq (hM : M < 2 ^ 50) (hyM : y = M / 10 ^ j) (hp : 1 ≤ p)
    (hbeyond : y ≤ w) (hfar : w ≤ y * ((1 + 1 / 2 ^ 51) * (1 + 1 / 2 ^ 53))) :
    ⌊magnitude (nearest (w / 10 ^ p)) + 1 / 2⌋₊ = ⌊y / 10 ^ p + 1 / 2⌋₊ := by
  have h10 : (0 : ℚ) < 10 ^ p := by positivity
  refine floor_nearest_eq hM (i := j + p) (by omega) ?_ ?_ ?_
  · rw [hyM, pow_add, div_div]
  · exact div_le_div_of_nonneg_right hbeyond h10.le
  · rw [div_mul_eq_mul_div]
    exact div_le_div_of_nonneg_right hfar h10.le

/-- The nearest multiple of a power of ten is at most twice as large. -/
private theorem floor_div_mul_tenPow_le (hy : 0 ≤ y) (hle : y ≤ 2 ^ 50) :
    ⌊y / 10 ^ p + 1 / 2⌋₊ * 10 ^ p ≤ 2 ^ 53 := by
  have h10 : (0 : ℚ) < 10 ^ p := by positivity
  have hdouble := floor_add_half_le (x := y / 10 ^ p) (by positivity)
  have hcast : ((⌊y / 10 ^ p + 1 / 2⌋₊ * 10 ^ p : ℕ) : ℚ) ≤ 2 ^ 53 := by
    rw [Nat.cast_mul, Nat.cast_pow, Nat.cast_ofNat]
    calc (⌊y / 10 ^ p + 1 / 2⌋₊ : ℚ) * 10 ^ p ≤ 2 * (y / 10 ^ p) * 10 ^ p :=
          mul_le_mul_of_nonneg_right hdouble h10.le
      _ = 2 * y := by rw [mul_assoc, div_mul_cancel₀ _ h10.ne']
      _ ≤ 2 ^ 53 := by linarith
  exact_mod_cast hcast

/-- Rounding a short decimal to fewer than no digits. -/
private theorem roundFloat_neg_short (hM : M < 2 ^ 50) (hyM : y = M / 10 ^ j)
    (hy : y = 0 ∨ 2 ^ (-1022 : ℤ) ≤ y) (hr : nearest y = r) (hp : 1 ≤ p) :
    roundFloat (finite s r h) (-p) = .ok (.int (signed s (⌊y / 10 ^ p + 1 / 2⌋₊ * 10 ^ p))) := by
  have hy0 : 0 ≤ y := by rw [hyM]; positivity
  have hle : y ≤ 2 ^ 50 := hyM.trans_le (short_le hM)
  rcases Nat.lt_or_ge 308 p with hlarge | hp'
  · rw [roundFloat_of_large hlarge, floor_div_tenPow_eq_zero (by linarith) (by omega),
      Nat.zero_mul, signed_zero]
  obtain ⟨q, hq, hnudge, hbeyond, -, -, hfar⟩ :=
    exists_nudge_of_nearest (s := s) (h := h) hy hle hr
  obtain ⟨t, n, hexact, hlarge, rfl, -, -, hround⟩ := roundFloat_neg_eq hp hp' hnudge
  rcases Nat.lt_or_ge 22 p with hp'' | hp''
  -- beyond the exact powers of ten the quotient is next to nothing
  · have ht := hlarge hp''
    have hquot : magnitude q / magnitude t ≤ 1 / 4 := by
      rw [div_le_iff₀ (by linarith)]
      linarith
    rw [hround, floor_div_tenPow_eq_zero (by linarith) (by omega),
      floor_nearest_eq_zero (div_nonneg (magnitude_nonneg q) (magnitude_nonneg t)) hquot,
      intOfRounded_zero_mul, Nat.zero_mul, signed_zero]
  · have hcast : (⌊y / 10 ^ p + 1 / 2⌋₊ : ℚ) * 10 ^ p =
        ((⌊y / 10 ^ p + 1 / 2⌋₊ * 10 ^ p : ℕ) : ℚ) := by
      rw [Nat.cast_mul, Nat.cast_pow, Nat.cast_ofNat]
    rw [hround, hexact hp'', floor_nearest_div_eq hM hyM hp hbeyond hfar, hcast,
      intOfRounded_nearest_natCast (floor_div_mul_tenPow_le hy0 hle)]

/-- A short decimal, rounded to zero or fewer digits by way of its number, goes to the nearest
multiple of the power of ten. -/
theorem roundFloat_nonpos_short (hM : M < 2 ^ 50) (hyM : y = M / 10 ^ j)
    (hy : y = 0 ∨ 2 ^ (-1022 : ℤ) ≤ y) (hr : nearest y = r) :
    roundFloat (finite s r h) (-p) = .ok (.int (signed s (⌊y / 10 ^ p + 1 / 2⌋₊ * 10 ^ p))) := by
  rcases Nat.eq_zero_or_pos p with rfl | hp
  · simpa using roundFloat_zero_short hM hyM hy hr
  · exact roundFloat_neg_short hM hyM hy hr hp

/-! ### Places after the point -/

/-- A decimal of fewer places that reads like a short decimal is equal to it: as different decimals
they would be farther apart than both can be from one magnitude. -/
theorem eq_of_nearest_eq {n : ℕ} (hM : M < 2 ^ 50) (hyM : y = M / 10 ^ j)
    (hy : 2 ^ (-1022 : ℤ) ≤ y) (hdj : d ≤ j) (hn : nearest (n / 10 ^ d) = nearest y) :
    (n : ℚ) / 10 ^ d = y := by
  obtain ⟨i, rfl⟩ := Nat.exists_eq_add_of_le hdj
  have hpos : 0 < y := lt_of_lt_of_le (zpow_pos two_pos _) hy
  have h10 : (0 : ℚ) < 10 ^ (d + i) := by positivity
  have hnormal : 2 ^ 52 ≤ nearest y := le_nearest (by rwa [magnitude_normal])
  have hnear := abs_magnitude_nearest_sub_le_mul hpos.le hnormal
  have hnear' := abs_magnitude_nearest_sub_le_mul (y := n / 10 ^ d) (by positivity) (by rwa [hn])
  rw [hn] at hnear'
  have hgrow := (abs_lt.mp ((lt_div_iff₀' (by norm_num)).mpr (abs_magnitude_nearest_sub_lt hy))).2
  have htriangle := abs_sub_le ((n : ℚ) / 10 ^ d) (magnitude (nearest y)) y
  rw [abs_sub_comm ((n : ℚ) / 10 ^ d) (magnitude (nearest y))] at htriangle
  have hclose : |(n : ℚ) / 10 ^ d - y| * 2 ^ 50 < y := by linarith
  -- over the common denominator, the numerators differ by less than one
  have hdiff : (n : ℚ) / 10 ^ d - y = ((n * 10 ^ i - M : ℤ) : ℚ) / 10 ^ (d + i) := by
    rw [hyM, pow_add]
    push_cast
    field_simp
  rw [hdiff, abs_div, abs_of_pos h10, div_mul_eq_mul_div, hyM,
    div_lt_div_iff_of_pos_right h10] at hclose
  have hM' : (M : ℚ) < 2 ^ 50 := by exact_mod_cast hM
  have hone : |((n * 10 ^ i - M : ℤ) : ℚ)| < 1 := by linarith
  have hzero : (n * 10 ^ i - M : ℤ) = 0 := by
    rw [← Int.abs_lt_one_iff]
    exact_mod_cast hone
  rw [← sub_eq_zero, hdiff, hzero, Int.cast_zero, zero_div]

/-- An exact product strictly within one half of a whole number rounds to it. -/
private theorem roundHalfEven_units_eq {m : ℕ} (h₁ : (m : ℚ) - 1 / 2 < magnitude q * 10 ^ d)
    (h₂ : magnitude q * 10 ^ d < m + 1 / 2) :
    roundHalfEven (units q * 10 ^ d) unitsPerOne = m := by
  have hU := unitsPerOne_pos
  have hunits : (units q : ℚ) * 10 ^ d = magnitude q * 10 ^ d * unitsPerOne := by
    rw [magnitude]
    field_simp
  refine roundHalfEven_eq (by exact_mod_cast hU) ?_ ?_
  · have hlt := mul_lt_mul_of_pos_right h₁ hU
    have hcast : (2 : ℚ) * m * unitsPerOne < 2 * (units q * 10 ^ d) + unitsPerOne := by linarith
    exact_mod_cast hcast
  · have hlt := mul_lt_mul_of_pos_right h₂ hU
    have hcast : (2 : ℚ) * (units q * 10 ^ d) < 2 * m * unitsPerOne + unitsPerOne := by linarith
    exact_mod_cast hcast

/-- The whole number that rounding works with is that of the decimal itself. -/
theorem scaledWhole_eq (hM : M < 2 ^ 50) (hyM : y = M / 10 ^ j) (hdj : d < j)
    (hlt : y < magnitude q) (hfar : magnitude q ≤ y * ((1 + 1 / 2 ^ 51) * (1 + 1 / 2 ^ 53))) :
    scaledWhole q d = ⌊y * 10 ^ d + 1 / 2⌋₊ := by
  obtain ⟨i, rfl⟩ := Nat.exists_eq_add_of_lt hdj
  have h10 : (0 : ℚ) < 10 ^ d := by positivity
  have hx : y * 10 ^ d = M / 10 ^ (i + 1) := by
    rw [hyM, show d + i + 1 = d + (i + 1) by ring, pow_add]
    field_simp
  have hxw : y * 10 ^ d < magnitude q * 10 ^ d := mul_lt_mul_of_pos_right hlt h10
  have hw : magnitude q * 10 ^ d ≤ y * 10 ^ d * ((1 + 1 / 2 ^ 51) * (1 + 1 / 2 ^ 53)) := by
    rw [mul_right_comm]
    exact mul_le_mul_of_nonneg_right hfar h10.le
  rw [scaledWhole]
  split_ifs
  · exact floor_nearest_eq hM (by omega) hx hxw.le hw
  · have hx0 : 0 ≤ y * 10 ^ d := by rw [hx]; positivity
    have hroom : y * 10 ^ d * (1 + 1 / 2 ^ 50) < ⌊y * 10 ^ d + 1 / 2⌋₊ + 1 / 2 := by
      rw [hx]
      exact short_mul_lt hM (by omega)
    have hlo := Nat.floor_le (show 0 ≤ y * 10 ^ d + 1 / 2 by linarith)
    have hfactor : ((1 : ℚ) + 1 / 2 ^ 51) * (1 + 1 / 2 ^ 53) ≤ 1 + 1 / 2 ^ 50 := by norm_num
    have hgrow := mul_le_mul_of_nonneg_left hfactor hx0
    exact roundHalfEven_units_eq (by linarith) (by linarith)

/-- A short decimal, rounded to places by way of its number, goes to the number that reads the
nearest multiple. -/
theorem roundFraction_short (hM : M < 2 ^ 50) (hyM : y = M / 10 ^ j)
    (hy : y = 0 ∨ 2 ^ (-1022 : ℤ) ≤ y) (hr : nearest y = r) :
    roundFraction (finite s r h) d = ofRank s (nearest (⌊y * 10 ^ d + 1 / 2⌋₊ / 10 ^ d)) := by
  have h10 : (10 : ℚ) ^ d ≠ 0 := by positivity
  have hwhole : ∀ n : ℕ, (n : ℚ) / 10 ^ d = y →
      ofRank s (nearest (⌊y * 10 ^ d + 1 / 2⌋₊ / 10 ^ d)) = finite s r h := fun n hn => by
    have hfloor : ⌊y * 10 ^ d + 1 / 2⌋₊ = n := by
      rw [← hn, div_mul_cancel₀ _ h10, Nat.floor_eq_iff (by positivity)]
      constructor <;> linarith
    rw [hfloor, hn, hr, ofRank_of_lt h]
  by_cases hreads : Decimal.Reads r d
  · rw [roundFraction_of_reads hreads]
    rcases Nat.lt_or_ge d j with hdj | hjd
    · rcases hy with rfl | hy
      · exact (hwhole 0 (by simp)).symm
      · obtain ⟨n, hn⟩ := hreads
        exact (hwhole n (eq_of_nearest_eq hM hyM hy hdj.le (hn.trans hr.symm))).symm
    · obtain ⟨k, rfl⟩ := Nat.exists_eq_add_of_le hjd
      refine (hwhole (M * 10 ^ k) ?_).symm
      rw [hyM, pow_add]
      push_cast
      field_simp
  · obtain ⟨q, hq, -, -, hnudge, hround⟩ := roundFraction_of_not_reads (s := s) (h := h) hreads
    have hdj : d < j := by
      by_contra hge
      have hself : Decimal.Reads r j := ⟨M, by rw [← hyM, hr]⟩
      exact hreads (hself.mono (not_lt.mp hge))
    have hpos : 0 < y := by
      rcases hy with rfl | hy
      · exact absurd ⟨0, by simpa using hr⟩ hreads
      · exact lt_of_lt_of_le (zpow_pos two_pos _) hy
    obtain ⟨q', hq', hnudge', -, hbeyond, -, hfar⟩ :=
      exists_nudge_of_nearest (s := s) (h := h) hy (hyM.trans_le (short_le hM)) hr
    obtain rfl : q = q' := by
      rw [hnudge] at hnudge'
      injection hnudge'
    rw [hround, scaledWhole_eq hM hyM hdj (hbeyond hpos) hfar]

/-! ### Decimals and their numbers -/

/-- A number nearest to a rational of normal size, or to zero, is finite, and the rational has its
sign. -/
theorem exists_finite_of_isNearest {v : Binary64} (hv : v.IsNearest x)
    (hx : x = 0 ∨ 2 ^ (-1022 : ℤ) ≤ |x|) :
    ∃ s r, ∃ h : r < overflowRank, v = finite s r h ∧ nearest |x| = r ∧ signFactor s * |x| = x := by
  obtain _ | _ | ⟨s, r, h⟩ := v
  · cases hv.isFinite
  · cases hv.isFinite
  refine ⟨s, r, h, rfl, ?_⟩
  have hsigned := signFactor_mul_abs x
  rw [← hsigned] at hv
  obtain ⟨hr, hzero | hsame⟩ := hv.rank_eq (abs_nonneg x)
  · refine ⟨hr, ?_⟩
    rcases hx with rfl | hx
    · simp
    · have hnormal : 2 ^ 52 ≤ nearest |x| := le_nearest (by rwa [magnitude_normal])
      omega
  · exact ⟨hr, by rw [hsame, hsigned]⟩

/-- **Short decimals round as on paper.** Take a decimal `N / 10 ^ j` of at most fifteen digits, its
nearest number `v`, and the multiple `h` of `10 ^ (-d)` nearest to the decimal itself, ties away
from zero. Rounding `v` to `d` digits gives the integer `h` if `d ≤ 0`, and else a number nearest to
`h`. -/
theorem roundFloat_short_decimal {N d : ℤ} {j : ℕ} {v : Binary64} {h : ℚ} (hN : |N| < 10 ^ 15)
    (hx : N = 0 ∨ 2 ^ (-1022 : ℤ) ≤ |(N / 10 ^ j : ℚ)|) (hv : v.IsNearest (N / 10 ^ j))
    (hh : IsNearestMultiple h (N / 10 ^ j) (10 ^ (-d))) :
    (d ≤ 0 → ∃ k : ℤ, (k : ℚ) = h ∧ roundFloat v d = .ok (.int k)) ∧
      (0 < d → ∃ r : Binary64, r.IsNearest h ∧ roundFloat v d = .ok (.float r)) := by
  have hx' : (N / 10 ^ j : ℚ) = 0 ∨ 2 ^ (-1022 : ℤ) ≤ |(N / 10 ^ j : ℚ)| :=
    hx.imp_left fun h0 => by rw [h0, Int.cast_zero, zero_div]
  obtain ⟨s, r, hr, rfl, hrank, hsign⟩ := exists_finite_of_isNearest hv hx'
  have hM : N.natAbs < 2 ^ 50 := by
    rw [Int.abs_eq_natAbs] at hN
    omega
  have hyM : |(N / 10 ^ j : ℚ)| = N.natAbs / 10 ^ j := by
    rw [abs_div, abs_of_pos (by positivity : (0 : ℚ) < 10 ^ j), Nat.cast_natAbs, Int.cast_abs]
  have hy : |(N / 10 ^ j : ℚ)| = 0 ∨ 2 ^ (-1022 : ℤ) ≤ |(N / 10 ^ j : ℚ)| :=
    hx'.imp_left abs_eq_zero.mpr
  rw [← hsign] at hh
  generalize |(N / 10 ^ j : ℚ)| = y at *
  have hy0 : 0 ≤ y := by rw [hyM]; positivity
  have heq := hh.unique (isNearestMultiple_floor (zpow_pos (by norm_num) _) hy0)
  constructor
  · intro hd
    obtain ⟨p, rfl⟩ : ∃ p : ℕ, d = -p := ⟨d.natAbs, by omega⟩
    refine ⟨_, ?_, roundFloat_nonpos_short hM hyM hy hrank⟩
    rw [heq, neg_neg, zpow_natCast, signed_cast, Nat.cast_mul, Nat.cast_pow, Nat.cast_ofNat]
  · intro hd
    obtain ⟨p, rfl⟩ : ∃ p : ℕ, d = p := ⟨d.natAbs, by omega⟩
    have h10 : (0 : ℚ) < 10 ^ p := by positivity
    have hbound : (⌊y * 10 ^ p + 1 / 2⌋₊ : ℚ) / 10 ^ p ≤ 2 ^ 53 := by
      have hdouble := floor_add_half_le (x := y * 10 ^ p) (by positivity)
      have hle := hyM.trans_le (short_le hM)
      rw [div_le_iff₀ h10]
      nlinarith
    refine ⟨ofRank s (nearest (⌊y * 10 ^ p + 1 / 2⌋₊ / 10 ^ p)), ?_, ?_⟩
    · rw [heq, zpow_neg, zpow_natCast, div_inv_eq_mul, ← div_eq_mul_inv]
      exact isNearest_ofRank (by positivity) (lt_overflowBound (by positivity) hbound)
    · rw [roundFloat_natCast _ (by omega), roundFraction_short hM hyM hy hrank]

/-- The decimal `1.005`, whose number lies below it, goes to `1.01`. -/
theorem roundFloat_one_and_five_thousandths :
    |(1005 : ℤ)| < 10 ^ 15 ∧ (2 ^ (-1022 : ℤ) ≤ |((1005 : ℤ) / 10 ^ 3 : ℚ)|) ∧
      (ofRatio false 1005 1000).IsNearest ((1005 : ℤ) / 10 ^ 3) ∧
      IsNearestMultiple (101 / 100) ((1005 : ℤ) / 10 ^ 3) (10 ^ (-2 : ℤ)) ∧
      ∃ r : Binary64, r.IsNearest (101 / 100) ∧
        roundFloat (ofRatio false 1005 1000) 2 = .ok (.float r) := by
  have hN : |(1005 : ℤ)| < 10 ^ 15 := by norm_num
  have hx : 2 ^ (-1022 : ℤ) ≤ |((1005 : ℤ) / 10 ^ 3 : ℚ)| := by
    refine (zpow_le_one_of_nonpos₀ one_le_two (by omega)).trans ?_
    norm_num
  have hval : ((1005 : ℤ) / 10 ^ 3 : ℚ) = signFactor false * (1005 / 1000) := by
    rw [signFactor_false]
    norm_num
  have hv : (ofRatio false 1005 1000).IsNearest ((1005 : ℤ) / 10 ^ 3) := by
    have hnear := isNearest_ofRank (s := false) (y := 1005 / 1000) (by norm_num)
      (lt_overflowBound (by norm_num) (by norm_num))
    rw [hval, ofRatio_eq (by omega), Nat.cast_ofNat, Nat.cast_ofNat]
    exact hnear
  have hh : IsNearestMultiple (101 / 100) ((1005 : ℤ) / 10 ^ 3) (10 ^ (-2 : ℤ)) := by
    have hfloor : ⌊(1005 / 1000 : ℚ) / 10 ^ (-2 : ℤ) + 1 / 2⌋₊ = 101 := by
      rw [Nat.floor_eq_iff (by norm_num)]
      constructor <;> norm_num
    have hstep : (0 : ℚ) < 10 ^ (-2 : ℤ) := by norm_num
    have hmult := isNearestMultiple_floor (s := false) (y := 1005 / 1000) hstep (by norm_num)
    have hmag : signFactor false * ((101 : ℕ) * (10 : ℚ) ^ (-2 : ℤ)) = 101 / 100 := by
      rw [signFactor_false]
      norm_num
    rwa [hfloor, hmag, ← hval] at hmult
  exact ⟨hN, hx, hv, hh, (roundFloat_short_decimal hN (.inr hx) hv hh).2 (by norm_num)⟩

end DecimalRounding
