import DecimalRounding.Proofs.FractionPlaces
import DecimalRounding.Proofs.NumberLine

/-!
# Fewest digits and fewest places

A decimal of a number is shortest if it reads as the number with the fewest significant digits, and
of several such is the closest (`IsShortest`). This says nothing of places, and of grids neither.
The search for the coarsest grid finds such a decimal (`isShortest_shortest`), and any such decimal
has the fewest places, too (`IsShortest.exists_eq_div`).

Both rest on one fact. A decimal on a finer grid can have as few digits as one on a coarser grid
only if a power of ten lies between the two (`nearest_tenPow_of_finer`); then all three read as the
number, and have one digit each. But a power of ten that reads as a number is closer to it than the
decimals of one digit below (`abs_tenPow_sub_lt`): normal numbers are too dense for anything else,
and of the first subnormal ones only the second is next to a power of ten.
-/

namespace DecimalRounding

open Binary64

namespace Decimal

variable {r m i k n : ℕ} {j e : ℤ} {y : ℚ}

/-! ### Powers of ten that read as a number -/

/-- The least magnitude against the power of ten next to its double. -/
private theorem tenPow_bounds : 2 * (2 : ℚ) ^ (-1074 : ℤ) < 10 ^ (-323 : ℤ) ∧
    19 * (10 : ℚ) ^ (-323 : ℤ) < 40 * 2 ^ (-1074 : ℤ) := by
  have hnat : 2 * 10 ^ 323 < 2 ^ 1074 ∧ 19 * 2 ^ 1074 < 40 * 10 ^ 323 := by decide +kernel
  have htwo : (2 : ℚ) ^ (-1074 : ℤ) = 1 / 2 ^ 1074 := by rw [zpow_neg, one_div]; rfl
  have hten : (10 : ℚ) ^ (-323 : ℤ) = 1 / 10 ^ 323 := by rw [zpow_neg, one_div]; rfl
  rw [htwo, hten, mul_one_div, mul_one_div, mul_one_div,
    div_lt_div_iff₀ (by positivity) (by positivity),
    div_lt_div_iff₀ (by positivity) (by positivity), one_mul]
  exact ⟨by exact_mod_cast hnat.1, by exact_mod_cast hnat.2⟩

/-- Of the first nine magnitudes, only the second has a power of ten around it. -/
private theorem tenPow_lt_of_le_nine (hr : 0 < r) (hr' : r ≤ 9) (h : nearest (10 ^ j) = r) :
    19 * (10 : ℚ) ^ j < 20 * magnitude r := by
  obtain ⟨t, rfl⟩ : ∃ t, r = t + 1 := ⟨r - 1, by omega⟩
  obtain ⟨hdouble, hlarge⟩ := tenPow_bounds
  have hpos : (0 : ℚ) < 10 ^ j := zpow_pos (by norm_num) j
  have hup := two_mul_le_of_nearest hpos.le
  have hdown := le_two_mul_of_lt_nearest hpos.le (r := t) (by omega)
  rw [h, magnitude_of_le (by omega), magnitude_of_le (by omega)] at hup
  rw [magnitude_of_le (by omega), magnitude_of_le (by omega)] at hdown
  rw [magnitude_of_le (by omega)]
  have hunit : (0 : ℚ) < 2 ^ (-1074 : ℤ) := zpow_pos two_pos _
  generalize (2 : ℚ) ^ (-1074 : ℤ) = u at *
  push_cast at hup hdown ⊢
  have ht : (t : ℚ) * u ≤ 8 * u :=
    mul_le_mul_of_nonneg_right (by exact_mod_cast (by omega : t ≤ 8)) hunit.le
  have ht₀ : 0 ≤ (t : ℚ) * u := by positivity
  -- the power lies between half of the least magnitude and nine and a half of them
  have hj : j = -323 := by
    have hlo : (10 : ℚ) ^ (-324 : ℤ) < 10 ^ j := by
      have hstep : (10 : ℚ) ^ (-323 : ℤ) = 10 ^ (-324 : ℤ) * 10 := by
        rw [← zpow_add_one₀ (by norm_num)]; rfl
      linarith
    have hhi : (10 : ℚ) ^ j < 10 ^ (-322 : ℤ) := by
      have hstep : (10 : ℚ) ^ (-322 : ℤ) = 10 ^ (-323 : ℤ) * 10 := by
        rw [← zpow_add_one₀ (by norm_num)]; rfl
      linarith
    rw [zpow_lt_zpow_iff_right₀ (by norm_num)] at hlo hhi
    omega
  subst hj
  generalize (10 : ℚ) ^ (-323 : ℤ) = p at hdouble hlarge hup ⊢
  have ht₁ : u ≤ t * u := by
    rcases t.eq_zero_or_pos with rfl | hpos
    · rw [Nat.cast_zero] at hup
      linarith
    · exact le_mul_of_one_le_left hunit.le (by exact_mod_cast hpos)
  linarith

/-- A power of ten is close to the magnitude that it reads as. -/
theorem tenPow_lt_of_nearest (hr : 0 < r) (h : nearest (10 ^ j) = r) :
    19 * (10 : ℚ) ^ j < 20 * magnitude r := by
  have hpos : (0 : ℚ) < 10 ^ j := zpow_pos (by norm_num) j
  have hmag := magnitude_pos hr
  rcases Nat.lt_or_ge r (2 ^ 52) with hsmall | hlarge
  · rcases Nat.lt_or_ge 9 r with hr' | hr'
    -- from the tenth magnitude on, half a step is at most their twentieth part
    · have hup := two_mul_le_of_nearest hpos.le
      have hten : 10 * (2 : ℚ) ^ (-1074 : ℤ) ≤ r * 2 ^ (-1074 : ℤ) :=
        mul_le_mul_of_nonneg_right (by exact_mod_cast hr') (zpow_pos two_pos _).le
      rw [h, magnitude_succ_of_lt (by omega)] at hup
      rw [← magnitude_of_le (by omega)] at hten
      linarith
    · exact tenPow_lt_of_le_nine hr hr' h
  · have herr := abs_magnitude_nearest_sub_le_mul hpos.le (h.symm ▸ hlarge)
    rw [h] at herr
    have hdiff := neg_abs_le (magnitude r - 10 ^ j)
    linarith

/-- A power of ten that reads as a number is closer to it than the decimals of one digit on finer
grids. -/
theorem abs_tenPow_sub_lt (hr : 0 < r) (h : nearest (10 ^ j) = r) (hm : m < 10) (he : e < j) :
    |10 ^ j - magnitude r| < |m * 10 ^ e - magnitude r| := by
  have hclose := tenPow_lt_of_nearest hr h
  have hpos : (0 : ℚ) < 10 ^ j := zpow_pos (by norm_num) j
  have hbelow : 10 * (m * (10 : ℚ) ^ e) ≤ 9 * 10 ^ j := by
    calc 10 * (m * (10 : ℚ) ^ e) = m * 10 ^ (e + 1) := by
          rw [zpow_add_one₀ (by norm_num)]
          ring
      _ ≤ 9 * 10 ^ j := mul_le_mul (by exact_mod_cast Nat.le_of_lt_succ hm)
          (zpow_le_zpow_right₀ (by norm_num) he) (by positivity) (by norm_num)
  rw [abs_of_neg (by linarith : m * (10 : ℚ) ^ e - magnitude r < 0)]
  rcases le_or_gt ((10 : ℚ) ^ j) (magnitude r) with hle | hgt
  · rw [abs_of_nonpos (by linarith)]
    linarith
  · rw [abs_of_pos (by linarith)]
    linarith

/-- If a decimal on a finer grid has no more digits, a power of ten lies between the two. -/
theorem nearest_tenPow_of_finer (hm : m < 10 ^ (k + 1)) (he : e < j)
    (hread : nearest (m * 10 ^ e) = r) (hy : 10 ^ (k + j) ≤ y) (hread' : nearest y = r) :
    nearest (10 ^ (k + j)) = r := by
  refine nearest_eq_of_le_of_le (by positivity) ?_ hy hread hread'
  calc (m : ℚ) * 10 ^ e ≤ 10 ^ ((k + 1 : ℕ) : ℤ) * 10 ^ e := by
        rw [zpow_natCast]
        exact mul_le_mul_of_nonneg_right (by exact_mod_cast hm.le) (by positivity)
    _ = 10 ^ ((k + 1 : ℕ) + e) := (zpow_add₀ (by norm_num) _ _).symm
    _ ≤ 10 ^ (k + j) := zpow_le_zpow_right₀ (by norm_num) (by push_cast; omega)

/-! ### The coarsest grid -/

/-- A decimal that reads as a rank, on the coarsest grid that has one such, and as close as any
other such of this grid. -/
structure IsCoarsest (rank : ℕ) (exponent : ℤ) (y : ℚ) : Prop where
  onGrid : ∃ i : ℕ, y = i * 10 ^ exponent
  reads : nearest y = rank
  coarsest : ∀ (i : ℕ) (e : ℤ), exponent < e → nearest (i * 10 ^ e) ≠ rank
  closest : ∀ i : ℕ, nearest (i * 10 ^ exponent) = rank →
    |y - magnitude rank| ≤ |i * 10 ^ exponent - magnitude rank|

/-- The search begins above every magnitude. -/
theorem magnitude_lt_tenPow_exponentBound (r : ℕ) : magnitude r < 10 ^ exponentBound r := by
  have hU : 0 < unitsPerOne := by exact_mod_cast unitsPerOne_pos
  have hwhole : units r / unitsPerOne < 10 ^ exponentBound r := by
    calc units r / unitsPerOne < 2 ^ ((units r / unitsPerOne).log2 + 1) := Nat.lt_log2_self
      _ ≤ 2 ^ (3 * exponentBound r) :=
          Nat.pow_le_pow_right (by omega) (by rw [exponentBound]; omega)
      _ = 8 ^ exponentBound r := by rw [pow_mul]; norm_num
      _ ≤ 10 ^ exponentBound r := Nat.pow_le_pow_left (by omega) _
  rw [Nat.div_lt_iff_lt_mul hU] at hwhole
  rw [magnitude, div_lt_iff₀ unitsPerOne_pos]
  exact_mod_cast hwhole

/-- Beyond, no grid has a point that reads back. -/
theorem nearest_ne_of_exponentBound_lt (hr : 0 < r) (i : ℕ) (he : exponentBound r < e) :
    nearest (i * 10 ^ e) ≠ r := by
  intro hread
  have hi : (1 : ℚ) ≤ i := by
    rcases i.eq_zero_or_pos with rfl | hi
    · rw [Nat.cast_zero, zero_mul, nearest_zero] at hread
      omega
    · exact_mod_cast hi
  have hpow : (0 : ℚ) < 10 ^ e := zpow_pos (by norm_num) e
  have hmag : 10 * magnitude r < 10 ^ e := by
    calc 10 * magnitude r < 10 * 10 ^ exponentBound r := by
          linarith [magnitude_lt_tenPow_exponentBound r]
      _ = 10 ^ (exponentBound r + 1 : ℤ) := by
          rw [zpow_add_one₀ (by norm_num), zpow_natCast, mul_comm]
      _ ≤ 10 ^ e := zpow_le_zpow_right₀ (by norm_num) he
  -- the power of ten itself would read back, although it is ten times the magnitude
  have hten : nearest (10 ^ e) = r :=
    nearest_eq_of_le_of_le (magnitude_nonneg r) (by linarith [magnitude_nonneg r])
      (le_mul_of_one_le_left hpow.le hi) (nearest_magnitude r) hread
  have hclose := tenPow_lt_of_nearest hr hten
  linarith

/-- The search ends on the coarsest grid of all. -/
theorem exists_isCoarsest (hr : 0 < r) : ∃ j, IsCoarsest r j (shortest r).value := by
  obtain ⟨j, -, hd, hbefore⟩ := exists_exponent r
  obtain ⟨hplaces, hrank, i, hi⟩ := onGrid?_spec hd
  refine ⟨j, ⟨i, ?_⟩, ?_, fun i e he hread => ?_, fun i hread => ?_⟩
  · rw [value, hplaces, hi, gridPoint_eq]
  · rw [value, ← rank_eq_nearest, hrank]
  · rcases le_or_gt e (exponentBound r) with hle | hgt
    · have hsome := atExponent?_isSome hread
      rw [hbefore e he hle] at hsome
      cases hsome
    · exact nearest_ne_of_exponentBound_lt hr i hgt hread
  · rw [← gridPoint_eq] at hread ⊢
    exact onGrid?_closest (Nat.pow_pos (by omega)) hd hread

/-- Every number of digits that is enough for some decimal to read back is enough on the coarsest
grid. -/
theorem IsCoarsest.exists_lt (hy : IsCoarsest r j y) (hr : 0 < r) (hm : m < 10 ^ n)
    (hread : nearest (m * 10 ^ e) = r) : ∃ i : ℕ, i < 10 ^ n ∧ y = i * 10 ^ j := by
  obtain ⟨i, hi⟩ := hy.onGrid
  refine ⟨i, ?_, hi⟩
  by_contra! hmore
  obtain _ | k := n
  · obtain rfl : m = 0 := by omega
    rw [Nat.cast_zero, zero_mul, nearest_zero] at hread
    omega
  have hej : e ≤ j := le_of_not_gt fun hlt => hy.coarsest m e hlt hread
  -- a power of ten on a coarser grid would lie between the two
  have hpow : 10 ^ (k + (j + 1) : ℤ) ≤ y := by
    calc (10 : ℚ) ^ (k + (j + 1) : ℤ) = 10 ^ (k + 1 : ℕ) * 10 ^ j := by
          rw [← zpow_natCast, ← zpow_add₀ (by norm_num)]
          push_cast
          ring_nf
      _ ≤ i * 10 ^ j := mul_le_mul_of_nonneg_right (by exact_mod_cast hmore) (by positivity)
      _ = y := hi.symm
  have hten := nearest_tenPow_of_finer hm (by omega) hread hpow hy.reads
  exact hy.coarsest 1 (k + (j + 1)) (by omega) (by rwa [Nat.cast_one, one_mul])

/-- A decimal with no more digits than the one on the coarsest grid is no closer. -/
theorem IsCoarsest.abs_sub_le (hy : IsCoarsest r j y) (hr : 0 < r) (hi : y = i * 10 ^ j)
    (hik : 10 ^ k ≤ i) (hm : m < 10 ^ (k + 1)) (hread : nearest (m * 10 ^ e) = r) :
    |y - magnitude r| ≤ |m * 10 ^ e - magnitude r| := by
  rcases le_or_gt j e with hje | hej
  -- on the same grid
  · obtain ⟨l, rfl⟩ := Int.le.dest hje
    have hgrid : (m : ℚ) * 10 ^ (j + l) = (m * 10 ^ l : ℕ) * 10 ^ j := by
      rw [zpow_add₀ (by norm_num), zpow_natCast]
      push_cast
      ring
    rw [hgrid] at hread ⊢
    exact hy.closest _ hread
  -- on a finer grid: both have one digit, with a power of ten between them
  · have hpow : 10 ^ (k + j) ≤ y := by
      rw [hi, zpow_add₀ (by norm_num), zpow_natCast]
      exact mul_le_mul_of_nonneg_right (by exact_mod_cast hik) (by positivity)
    have hten := nearest_tenPow_of_finer hm hej hread hpow hy.reads
    obtain rfl : k = 0 := by
      by_contra hk
      exact hy.coarsest 1 (k + j) (by omega) (by rwa [Nat.cast_one, one_mul])
    rw [Nat.cast_zero, zero_add] at hten
    have hclosest := hy.closest 1 (by rwa [Nat.cast_one, one_mul])
    rw [Nat.cast_one, one_mul] at hclosest
    exact hclosest.trans (abs_tenPow_sub_lt hr hten (by omega) hej).le

/-- A decimal of at most `n` significant digits, of either sign: a whole number of at most `n`
digits times a power of ten. -/
def HasDigits (y : ℚ) (n : ℕ) : Prop := ∃ (m : ℕ) (e : ℤ), m < 10 ^ n ∧ |y| = m * 10 ^ e

theorem hasDigits_zero (n : ℕ) : HasDigits 0 n := ⟨0, 0, by positivity, by simp⟩

theorem HasDigits.mono (hy : HasDigits y n) (h : n ≤ k) : HasDigits y k := by
  obtain ⟨m, e, hm, habs⟩ := hy
  exact ⟨m, e, hm.trans_le (Nat.pow_le_pow_right (by omega) h), habs⟩

theorem HasDigits.exists_least (hy : HasDigits y n) :
    ∃ k, HasDigits y k ∧ ∀ l, HasDigits y l → k ≤ l := by
  classical exact ⟨Nat.find ⟨n, hy⟩, Nat.find_spec ⟨n, hy⟩, fun _ hl => Nat.find_min' ⟨n, hy⟩ hl⟩

theorem eq_zero_of_hasDigits_zero (hy : HasDigits y 0) : y = 0 := by
  obtain ⟨m, e, hm, habs⟩ := hy
  obtain rfl : m = 0 := by omega
  rwa [Nat.cast_zero, zero_mul, abs_eq_zero] at habs

end Decimal

namespace Binary64

open Decimal

variable {s : Bool} {r k : ℕ} {h : r < overflowRank} {y z : ℚ}

/-! ### Shortest decimals -/

/-- A shortest decimal of a number: it reads as the number, any number of significant digits that is
enough for this is enough for it, and of the decimals that read as the number and have no more
digits, none is closer. -/
structure IsShortest (v : Binary64) (y : ℚ) : Prop where
  reads : v.IsNearest y
  fewest : ∀ z n, v.IsNearest z → HasDigits z n → HasDigits y n
  closest : ∀ z, v.IsNearest z → (∀ n, HasDigits y n → HasDigits z n) →
    |y - v.value| ≤ |z - v.value|

theorem IsNearest.nearest_abs (hz : (finite s r h).IsNearest z) : nearest |z| = r := by
  rw [← signFactor_mul_abs z] at hz
  exact (hz.rank_eq (abs_nonneg z)).1

theorem IsNearest.abs_sub_value (hz : (finite s r h).IsNearest z) :
    |z - (finite s r h).value| = |(|z|) - magnitude r| := by
  have hsign := hz
  rw [← signFactor_mul_abs z] at hsign
  rw [abs_sub_comm, abs_sub_comm (|z|), ← abs_value_sub_same (hsign.rank_eq (abs_nonneg z)).2,
    signFactor_mul_abs]

theorem isNearest_signFactor_mul (hy : 0 ≤ y) (hread : nearest y = r) :
    (finite s r h).IsNearest (signFactor s * y) := isNearest_finite hy hread (.inr rfl)

theorem abs_signFactor_mul (hy : 0 ≤ y) : |signFactor s * y| = y := by
  rw [abs_mul, abs_signFactor, one_mul, abs_of_nonneg hy]

theorem hasDigits_tenPow (s : Bool) (e : ℤ) : HasDigits (signFactor s * 10 ^ e) 1 :=
  ⟨1, e, by norm_num, by rw [abs_signFactor_mul (by positivity), Nat.cast_one, one_mul]⟩

theorem isShortest_zero {h : 0 < overflowRank} : (finite s 0 h).IsShortest 0 := by
  have hvalue : (finite s 0 h).value = 0 := by rw [value, magnitude_zero, mul_zero]
  have hread := isNearest_signFactor_mul (s := s) (h := h) le_rfl nearest_zero
  rw [mul_zero] at hread
  refine ⟨hread, fun z n _ _ => hasDigits_zero n, fun z _ _ => ?_⟩
  rw [hvalue, sub_zero, abs_zero]
  exact abs_nonneg _

/-- On the coarsest grid, a decimal has the fewest digits. -/
theorem isShortest_of_isCoarsest (hr : 0 < r) {j : ℤ} (hy : IsCoarsest r j y) :
    (finite s r h).IsShortest (signFactor s * y) := by
  obtain ⟨i, hi⟩ := hy.onGrid
  have hy₀ : 0 ≤ y := by
    rw [hi]
    positivity
  have hread := isNearest_signFactor_mul (s := s) (h := h) hy₀ hy.reads
  have habs : |signFactor s * y| = y := abs_signFactor_mul hy₀
  refine ⟨hread, fun z n hz hdigits => ?_, fun z hz hdigits => ?_⟩
  · obtain ⟨m, e, hm, hzabs⟩ := hdigits
    obtain ⟨i, hi, hy'⟩ := hy.exists_lt hr hm (hzabs ▸ hz.nearest_abs)
    exact ⟨i, j, hi, by rw [habs, hy']⟩
  · have hi₀ : i ≠ 0 := by
      rintro rfl
      have hzero := hy.reads
      rw [hi, Nat.cast_zero, zero_mul, nearest_zero] at hzero
      omega
    obtain ⟨m, e, hm, hzabs⟩ := hdigits (Nat.log 10 i + 1)
      ⟨i, j, Nat.lt_pow_succ_log_self (by omega) i, by rw [habs, hi]⟩
    rw [hread.abs_sub_value, hz.abs_sub_value, habs, hzabs]
    exact hy.abs_sub_le hr hi (Nat.pow_log_le_self 10 hi₀) hm (hzabs ▸ hz.nearest_abs)

/-- The search finds a shortest decimal. -/
theorem isShortest_shortest (s : Bool) (r : ℕ) (h : r < overflowRank) :
    (finite s r h).IsShortest (signFactor s * (shortest r).value) := by
  rcases r.eq_zero_or_pos with rfl | hr
  · have hzero : (shortest 0).value = 0 := by
      have hsearch : shortest 0 = ⟨0, 0⟩ := by decide +kernel
      rw [hsearch, Decimal.value, Nat.cast_zero, zero_div]
    rw [hzero, mul_zero]
    exact isShortest_zero
  · obtain ⟨j, hj⟩ := exists_isCoarsest hr
    exact isShortest_of_isCoarsest hr hj

/-! ### Fewest digits are fewest places -/

theorem IsShortest.ne_zero (hy : (finite s r h).IsShortest y) (hr : 0 < r) : y ≠ 0 := by
  rintro rfl
  have hzero := hy.reads.nearest_abs
  rw [abs_zero, nearest_zero] at hzero
  omega

/-- No shortest decimal has one digit below a power of ten that reads back. -/
theorem IsShortest.nearest_tenPow_ne (hy : (finite s r h).IsShortest y) (hr : 0 < r) {m : ℕ}
    {e j : ℤ} (habs : |y| = m * 10 ^ e) (hm : m < 10) (he : e < j) : nearest (10 ^ j) ≠ r := by
  intro hten
  have hread : (finite s r h).IsNearest (signFactor s * 10 ^ j) :=
    isNearest_signFactor_mul (by positivity) hten
  have hdigits : ∀ n, HasDigits y n → HasDigits (signFactor s * 10 ^ j) n := by
    rintro (_ | n) hn
    · exact absurd (eq_zero_of_hasDigits_zero hn) (hy.ne_zero hr)
    · exact (hasDigits_tenPow s j).mono (by omega)
  have hclosest := hy.closest _ hread hdigits
  rw [hy.reads.abs_sub_value, hread.abs_sub_value, habs, abs_signFactor_mul (by positivity)]
    at hclosest
  exact absurd hclosest (not_le.mpr (abs_tenPow_sub_lt hr hten hm he))

/-- Written with the fewest digits, a shortest decimal is on no finer grid than any decimal that
reads back. -/
theorem IsShortest.le_exponent (hy : (finite s r h).IsShortest y) (hr : 0 < r) {m n c : ℕ}
    {e j : ℤ} (hm : m < 10 ^ n) (habs : |y| = m * 10 ^ e) (hleast : ∀ l, HasDigits y l → n ≤ l)
    (hread : nearest (c * 10 ^ j) = r) : j ≤ e := by
  by_contra! he
  obtain _ | i := n
  · exact hy.ne_zero hr (eq_zero_of_hasDigits_zero ⟨m, e, hm, habs⟩)
  have hnear : (finite s r h).IsNearest (signFactor s * (c * 10 ^ j)) :=
    isNearest_signFactor_mul (by positivity) hread
  have hc : 10 ^ i ≤ c := by
    by_contra! hlt
    have := hleast i (hy.fewest _ i hnear ⟨c, j, hlt, abs_signFactor_mul (by positivity)⟩)
    omega
  have hpow : 10 ^ (i + j) ≤ (c : ℚ) * 10 ^ j := by
    rw [zpow_add₀ (by norm_num), zpow_natCast]
    exact mul_le_mul_of_nonneg_right (by exact_mod_cast hc) (by positivity)
  -- a power of ten lies between the two, and so the decimal has one digit
  have hten := nearest_tenPow_of_finer hm he (habs ▸ hy.reads.nearest_abs) hpow hread
  obtain rfl : i = 0 := by
    have := hleast 1 (hy.fewest _ 1 (isNearest_signFactor_mul (by positivity) hten)
      (hasDigits_tenPow s _))
    omega
  rw [Nat.cast_zero, zero_add] at hten
  exact hy.nearest_tenPow_ne hr habs (by omega) he hten

/-- If some decimal of `k` places reads as a number, all its shortest decimals have no more. -/
theorem IsShortest.exists_eq_div (hy : (finite s r h).IsShortest y) (hk : Decimal.Reads r k) :
    ∃ n : ℕ, |y| = n / 10 ^ k := by
  rcases r.eq_zero_or_pos with rfl | hr
  · have hzero := eq_zero_of_hasDigits_zero (hy.fewest 0 0 isShortest_zero.reads (hasDigits_zero 0))
    exact ⟨0, by rw [hzero, abs_zero, Nat.cast_zero, zero_div]⟩
  obtain ⟨c, hc⟩ := hk
  rw [div_eq_mul_inv, ← zpow_natCast, ← zpow_neg] at hc
  have hdigits : HasDigits y c :=
    hy.fewest _ c (isNearest_signFactor_mul (by positivity) hc)
      ⟨c, -k, Nat.lt_pow_self (by omega), abs_signFactor_mul (by positivity)⟩
  obtain ⟨n, ⟨m, e, hm, habs⟩, hleast⟩ := hdigits.exists_least
  obtain ⟨l, rfl⟩ := Int.le.dest (hy.le_exponent hr hm habs hleast hc)
  refine ⟨m * 10 ^ l, ?_⟩
  rw [habs, zpow_add₀ (by norm_num), zpow_neg, zpow_natCast, zpow_natCast]
  push_cast
  ring

/-- The places that a shortest decimal can be written with are those of the number. -/
theorem IsShortest.exists_eq_div_iff (hy : (finite s r h).IsShortest y) :
    (∃ n : ℤ, y = n / 10 ^ k) ↔ (finite s r h).HasPlaces k := by
  constructor
  · rintro ⟨n, rfl⟩
    exact ⟨n, hy.reads⟩
  · intro hk
    obtain ⟨n, hn⟩ := hy.exists_eq_div (hasPlaces_finite_iff.mp hk)
    rcases abs_choice y with hsign | hsign
    · exact ⟨n, by rw [← hsign, hn, Int.cast_natCast]⟩
    · exact ⟨-n, by rw [← neg_neg y, ← hsign, hn, Int.cast_neg, Int.cast_natCast, neg_div]⟩

/-- **Fewest places.** A finite number is written as a shortest decimal, its sign in front. The
digits that its text has after the point are the fewest places of any decimal that the number is the
nearest one to, ties to even, and as many as every shortest decimal of the number needs. They are as
many for the negative, never more than 324, and so rounding to 324 places or more changes
nothing. -/
theorem decimalPlaces_isLeast {v : Binary64} (hv : v.isFinite) :
    IsLeast {k | v.HasPlaces k} v.decimalPlaces ∧
      (∀ y, v.IsShortest y → IsLeast {k : ℕ | ∃ n : ℤ, y = n / 10 ^ k} v.decimalPlaces) ∧
      (∃ d : Decimal, v.IsShortest (signFactor v.isNegative * d.value) ∧
        v.text = (if v.isNegative then "-" else "") ++ d.text) ∧
      (-v).decimalPlaces = v.decimalPlaces ∧ v.decimalPlaces ≤ 324 ∧
      ∀ d : ℤ, 324 ≤ d → roundFloat v d = .ok (.float v) := by
  obtain _ | _ | ⟨s, r, h⟩ := v
  · cases hv
  · cases hv
  have hleast : IsLeast {k | (finite s r h).HasPlaces k} (finite s r h).decimalPlaces :=
    ⟨hasPlaces_finite_iff.mpr (decimalPlaces_le_iff.mp le_rfl), fun k hk =>
      decimalPlaces_le_iff.mpr (hasPlaces_finite_iff.mp hk)⟩
  refine ⟨hleast, fun y hy => ?_, ⟨shortest r, isShortest_shortest s r h, text_finite s r h⟩, ?_,
    decimalPlaces_le_iff.mpr (reads_maxPlaces r), fun d hd => ?_⟩
  · simpa only [hy.exists_eq_div_iff] using hleast
  · rw [neg_finite, decimalPlaces_finite, decimalPlaces_finite]
  · have hreads : Decimal.Reads r d.toNat := (reads_maxPlaces r).mono (by rw [maxPlaces]; omega)
    rw [roundFloat, if_pos (by omega), roundFraction_of_reads hreads]

/-- The number `-2⁻²⁴` has 24 places after the point, but the 23 of its shortest decimal tell it
from its neighbours, and no 22 do. -/
theorem decimalPlaces_isLeast_twoPow : (ofRank true (twoPowRank (-24))).isFinite ∧
    IsLeast {k | (ofRank true (twoPowRank (-24))).HasPlaces k} 23 ∧
    roundFloat (ofRank true (twoPowRank (-24))) 324 =
      .ok (.float (ofRank true (twoPowRank (-24)))) := by
  have hlt : twoPowRank (-24) < overflowRank := twoPowRank_lt (by omega)
  have hfinite : (ofRank true (twoPowRank (-24))).isFinite := isFinite_ofRank_iff.mpr hlt
  have hplaces : (ofRank true (twoPowRank (-24))).decimalPlaces = 23 := by
    rw [ofRank_of_lt hlt, decimalPlaces_finite]
    decide +kernel
  obtain ⟨hleast, -, -, -, -, hround⟩ := decimalPlaces_isLeast hfinite
  exact ⟨hfinite, hplaces ▸ hleast, hround 324 le_rfl⟩

end Binary64

end DecimalRounding
