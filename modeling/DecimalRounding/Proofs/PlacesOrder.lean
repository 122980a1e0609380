import DecimalRounding.Proofs.OrderAndSign

/-!
# The order of numbers rounded to places

Rounding to places after the point leaves some numbers alone, those that have no more places, and
nudges and rounds the others. Two numbers of which both are rounded keep their order
(`placeCount_le_placeCount`), and so do two of which the outer one is rounded
(`le_placeCount_of_reads`). Only a number that is rounded can pass one farther out, and that one
only if it stays: `Overtakes` says when it does.

It never does while the number holds less than `2⁵⁰` steps (`Overtakes.le_mul`). Up to there the
nudge is less than half a step, and the decimals of the numbers farther out are out of reach.
-/

namespace DecimalRounding

open Binary64

variable {s t : Bool} {d i j n q q' : ℕ} {num num' den : ℕ} {hi : i < overflowRank}
  {hj : j < overflowRank}

/-! ### Steps are counted in order -/

theorem roundHalfEven_mono (hden : 0 < den) (h : num ≤ num') :
    roundHalfEven num den ≤ roundHalfEven num' den := by
  refine le_of_forall_lt fun m hm => ?_
  rw [lt_roundHalfEven_iff hden] at hm ⊢
  omega

/-- No whole number of steps up to the nudged magnitude is missed, whether the product is rounded
to a magnitude first or not. -/
theorem le_scaledWhole (h : (n : ℚ) ≤ magnitude q * 10 ^ d) : n ≤ scaledWhole q d := by
  rw [scaledWhole]
  split_ifs with hsmall
  · rcases Nat.lt_or_ge (2 ^ 53) n with hlarge | hle
    · have hpast : (2 : ℚ) ^ 53 ≤ n := by exact_mod_cast hlarge.le
      have hmag := le_magnitude_nearest (z := 2 ^ 53)
        (by exact_mod_cast exists_magnitude_natCast (n := 2 ^ 53) le_rfl) (hpast.trans h)
      exact absurd hsmall.2 (not_lt.mpr hmag)
    · have hmag := le_magnitude_nearest (exists_magnitude_natCast hle) h
      exact Nat.le_floor (by linarith)
  · have hU : 0 < unitsPerOne := by exact_mod_cast unitsPerOne_pos
    refine le_roundHalfEven hU ?_
    rw [magnitude, div_mul_eq_mul_div, le_div_iff₀ unitsPerOne_pos] at h
    exact_mod_cast h

/-- What is small enough to be rounded as a product is less than `2⁵³` steps. -/
private theorem floor_add_half_le_of_lt {z : ℕ} (hz : magnitude z < 2 ^ 53) :
    ⌊magnitude z + 1 / 2⌋₊ ≤ 2 ^ 53 - 1 := by
  refine Nat.le_of_lt_succ ((Nat.floor_lt' (by omega)).mpr ?_)
  have hcast : (((2 ^ 53 - 1).succ : ℕ) : ℚ) = 2 ^ 53 := by norm_num
  rw [hcast]
  rcases lt_or_ge (magnitude z) (2 ^ 52) with hsmall | hlarge
  · linarith
  -- from `2⁵²` on magnitudes are whole numbers
  · obtain ⟨m, hm⟩ := exists_natCast_eq_magnitude hlarge
    rw [hm] at hz ⊢
    have hle : m + 1 ≤ 2 ^ 53 := by exact_mod_cast hz
    have hle' : (m : ℚ) + 1 ≤ 2 ^ 53 := by exact_mod_cast hle
    linarith

/-- Steps are counted in order, also where the way of counting changes. -/
theorem scaledWhole_mono (h : q ≤ q') : scaledWhole q d ≤ scaledWhole q' d := by
  have hmag : magnitude q ≤ magnitude q' := magnitude_strictMono.monotone h
  have hprod : magnitude q * 10 ^ d ≤ magnitude q' * 10 ^ d :=
    mul_le_mul_of_nonneg_right hmag (by positivity)
  have hnonneg : 0 ≤ magnitude q * 10 ^ d := mul_nonneg (magnitude_nonneg q) (by positivity)
  have hnear := magnitude_strictMono.monotone (nearest_mono hnonneg hprod)
  by_cases hsmall' : d ≤ 22 ∧ magnitude (nearest (magnitude q' * 10 ^ d)) < 2 ^ 53
  · rw [scaledWhole, scaledWhole, if_pos hsmall', if_pos ⟨hsmall'.1, hnear.trans_lt hsmall'.2⟩]
    exact Nat.floor_mono (by linarith)
  by_cases hsmall : d ≤ 22 ∧ magnitude (nearest (magnitude q * 10 ^ d)) < 2 ^ 53
  -- the smaller product is below `2⁵³`, and the larger one rounds to `2⁵³` or more
  · rw [scaledWhole, if_pos hsmall]
    refine (floor_add_half_le_of_lt hsmall.2).trans (le_scaledWhole ?_)
    by_contra hlt
    have hle := magnitude_nearest_le (exists_magnitude_natCast (n := 2 ^ 53 - 1) (by omega))
      (hnonneg.trans hprod) (not_le.mp hlt).le
    refine hsmall' ⟨hsmall.1, hle.trans_lt ?_⟩
    norm_num
  · rw [scaledWhole, scaledWhole, if_neg hsmall, if_neg hsmall']
    exact roundHalfEven_mono (by exact_mod_cast unitsPerOne_pos)
      (Nat.mul_le_mul_right _ (units_strictMono.monotone h))

/-! ### Numbers that are rounded -/

/-- How many steps of `10 ^ -places` a number is taken for where it is rounded to places. -/
def placeCount (x : Binary64) (places : ℕ) : ℕ :=
  match x.nudge with
  | .finite _ rank _ => scaledWhole rank places
  | _ => 0

/-- A number that has more places becomes the number that its count of steps reads as. -/
theorem roundFraction_of_not_reads_eq {h : i < overflowRank} (hreads : ¬ Decimal.Reads i d) :
    ∃ q, ∃ hq : q < overflowRank, i ≤ q ∧ (finite s i h).nudge = finite s q hq ∧
      placeCount (finite s i h) d = scaledWhole q d ∧
      roundFraction (finite s i h) d =
        ofRank s (nearest (placeCount (finite s i h) d / 10 ^ d)) := by
  obtain ⟨q, hq, hle, -, hnudge, hround⟩ := roundFraction_of_not_reads (s := s) (h := h) hreads
  have hcount : placeCount (finite s i h) d = scaledWhole q d := by rw [placeCount, hnudge]
  exact ⟨q, hq, hle, hnudge, hcount, by rw [hround, hcount]⟩

/-- If both are rounded, the outer number is taken for no fewer steps. -/
theorem placeCount_le_placeCount (h : i ≤ j) (hreads : ¬ Decimal.Reads i d)
    (hreads' : ¬ Decimal.Reads j d) :
    placeCount (finite s i hi) d ≤ placeCount (finite s j hj) d := by
  obtain ⟨q, hq, -, hnudge, hcount, -⟩ := roundFraction_of_not_reads_eq (s := s) (h := hi) hreads
  obtain ⟨q', hq', -, hnudge', hcount', -⟩ :=
    roundFraction_of_not_reads_eq (s := s) (h := hj) hreads'
  rw [hcount, hcount']
  exact scaledWhole_mono (oddMonotone_nudge.rank_le_rank h hnudge hnudge')

/-- If the outer number is rounded, it is taken for no fewer steps than the inner one has. -/
theorem le_placeCount_of_reads (h : i < j) (hn : nearest (n / 10 ^ d) = i)
    (hreads : ¬ Decimal.Reads j d) : n ≤ placeCount (finite s j hj) d := by
  obtain ⟨q, hq, hle, -, hcount, -⟩ := roundFraction_of_not_reads_eq (s := s) (h := hj) hreads
  rw [hcount]
  refine le_scaledWhole ?_
  have hmid := two_mul_le_of_nearest (y := n / 10 ^ d) (by positivity)
  have hstep : magnitude i ≤ magnitude q := magnitude_strictMono.monotone (h.le.trans hle)
  have hnext : magnitude (i + 1) ≤ magnitude q := magnitude_strictMono.monotone (h.trans_le hle)
  rw [hn] at hmid
  rw [← div_le_iff₀ (by positivity)]
  linarith

/-! ### Numbers that stay -/

/-- `x` is rounded to places past `y`, which lies farther from zero on the same side: `y` has no
more than the places asked for, and `x` is taken for more steps than any decimal that reads as
`y`. -/
structure Overtakes (x y : Binary64) (places : ℕ) : Prop where
  sameSign : x.isNegative = y.isNegative
  inner : |x.value| < |y.value|
  moves : ¬ x.HasPlaces places
  stays : y.HasPlaces places
  beyond : ∀ n : ℤ, y.IsNearest (n / 10 ^ places) → n.natAbs < placeCount x places

theorem overtakes_finite_iff : Overtakes (finite s i hi) (finite t j hj) d ↔
    s = t ∧ i < j ∧ ¬ Decimal.Reads i d ∧ Decimal.Reads j d ∧
      ∀ n : ℕ, nearest (n / 10 ^ d) = j → n < placeCount (finite s i hi) d := by
  have hinner : |(finite s i hi).value| < |(finite t j hj).value| ↔ i < j := by
    rw [abs_value_finite, abs_value_finite, magnitude_strictMono.lt_iff_lt]
  constructor
  · intro h
    refine ⟨h.sameSign, hinner.mp h.inner, mt hasPlaces_finite_iff.mpr h.moves,
      hasPlaces_finite_iff.mp h.stays, fun n hn => ?_⟩
    have hnear := isNearest_finite (s := t) (t := t) (h := hj) (by positivity) hn (.inr rfl)
    rw [← mul_div_assoc, ← signed_cast] at hnear
    simpa [natAbs_signed] using h.beyond _ hnear
  · rintro ⟨rfl, hij, hreads, hreads', hbeyond⟩
    refine ⟨rfl, hinner.mpr hij, mt hasPlaces_finite_iff.mp hreads,
      hasPlaces_finite_iff.mpr hreads', fun n hn => hbeyond _ (nearest_of_isNearest hn)⟩

/-- What still has more than `d` places is worth less than half of `10 ^ -d` if it is the least
magnitude. -/
private theorem least_mul_le (hreads : ¬ Decimal.Reads i d) :
    2 ^ (-1074 : ℤ) * (10 : ℚ) ^ d ≤ 1 / 2 := by
  have hd : d ≤ 323 := by
    by_contra hlt
    exact hreads ((Decimal.reads_maxPlaces i).mono (by rw [Decimal.maxPlaces]; omega))
  have hnat : 10 ^ 323 ≤ 2 ^ 1073 := by decide +kernel
  calc 2 ^ (-1074 : ℤ) * (10 : ℚ) ^ d ≤ 2 ^ (-1074 : ℤ) * 2 ^ (1073 : ℤ) := by
        refine mul_le_mul_of_nonneg_left ?_ (by positivity)
        exact (pow_le_pow_right₀ (by norm_num) hd).trans (by exact_mod_cast hnat)
    _ = 1 / 2 := by
        rw [← zpow_add₀ two_ne_zero]
        norm_num

/-- While a number holds less than `2⁵⁰` steps, its nudge is less than half a step, and exceeds the
decimals of the numbers farther out by less than three eighths. -/
theorem magnitude_nudge_mul_lt {hq : q < overflowRank} (hreads : ¬ Decimal.Reads i d) (hij : i < j)
    (hn : nearest (n / 10 ^ d) = j) (hsmall : magnitude i * 10 ^ d < 2 ^ 50)
    (hnudge : (finite s i hi).nudge = finite s q hq) :
    magnitude q * 10 ^ d < n + 3 / 8 ∧ magnitude q * 10 ^ d < 2 ^ 50 + 1 / 2 := by
  have h10 : (0 : ℚ) < 10 ^ d := by positivity
  -- a decimal that reads as a number farther out lies beyond the midpoint
  have hmid := le_two_mul_of_lt_nearest (y := n / 10 ^ d) (by positivity) (hn ▸ hij)
  have hscale := mul_le_mul_of_nonneg_right hmid h10.le
  rw [mul_assoc, div_mul_cancel₀ _ h10.ne'] at hscale
  obtain rfl := nudgedRank_eq_of_nudge hnudge
  rcases Nat.lt_or_ge i (2 ^ 52) with hsub | hnormal
  · have hleast := least_mul_le hreads
    have hstep := mul_le_mul_of_nonneg_right
      (magnitude_strictMono.monotone (nudgedRank_le_of_lt hsub)) h10.le
    rw [magnitude_succ_of_lt (by omega)] at hscale hstep
    constructor <;> linarith
  · rw [nudgedRank_of_le hnormal]
    have hstep := mul_le_mul_of_nonneg_right (magnitude_nudgeRank_le_add i) h10.le
    have hsize := mul_le_mul_of_nonneg_right (spacing_le_magnitude hnormal) h10.le
    rw [magnitude_succ] at hscale
    constructor <;> linarith

/-- What exceeds a whole number by less than `3/8` rounds to a magnitude that exceeds it by less
than one half: up to `2⁵⁰` magnitudes are a quarter apart at most, and beyond that a bound is
given. -/
private theorem magnitude_nearest_lt_add_half {y : ℚ} (hy : 0 ≤ y) (h : y < n + 3 / 8)
    (hsmall : y < 2 ^ 50 + 1 / 2) : magnitude (nearest y) < n + 1 / 2 := by
  rcases Nat.lt_or_ge (2 ^ 50) n with hlarge | hle
  · have hmag := magnitude_nearest_le (exists_magnitude_half (n := 2 ^ 51 + 1) (by omega)) hy
      (y := y) (by push_cast; linarith)
    have hn : (2 : ℚ) ^ 50 + 1 ≤ n := by exact_mod_cast hlarge
    push_cast at hmag
    linarith
  -- the magnitude before one that is larger would be at least `n + 1/4`
  · by_contra hge
    obtain ⟨z, hz⟩ := exists_magnitude_eq (m := 4 * n + 1) (by omega) (k := -2) (by omega)
    have hquarter : magnitude z = n + 1 / 4 := by
      rw [hz]
      push_cast
      norm_num
      ring
    have hlt : z < nearest y := magnitude_strictMono.lt_iff_lt.mp (by linarith)
    obtain ⟨w, hw⟩ : ∃ w, nearest y = w + 1 := ⟨nearest y - 1, by omega⟩
    have hmid := le_two_mul_of_lt_nearest hy (r := w) (by omega)
    have hle' : magnitude z ≤ magnitude w := magnitude_strictMono.monotone (by omega)
    rw [hw] at hge
    linarith

/-- Such a magnitude is taken for no more steps than the whole number. -/
theorem scaledWhole_le (h : magnitude q * 10 ^ d < n + 3 / 8)
    (hsmall : magnitude q * 10 ^ d < 2 ^ 50 + 1 / 2) : scaledWhole q d ≤ n := by
  rw [scaledWhole]
  split_ifs
  · have hlt := magnitude_nearest_lt_add_half
      (mul_nonneg (magnitude_nonneg q) (by positivity)) h hsmall
    refine Nat.le_of_lt_succ ((Nat.floor_lt' (by omega)).mpr ?_)
    push_cast
    linarith
  · have hU : 0 < unitsPerOne := by exact_mod_cast unitsPerOne_pos
    have hval : magnitude q * 10 ^ d * unitsPerOne = (units q * 10 ^ d : ℕ) := by
      rw [magnitude, mul_right_comm, div_mul_cancel₀ _ unitsPerOne_pos.ne']
      push_cast
      rfl
    have hless : ((2 * (units q * 10 ^ d) : ℕ) : ℚ) < ((2 * n + 1) * unitsPerOne : ℕ) := by
      rw [Nat.cast_mul, ← hval, ← mul_assoc]
      push_cast
      exact mul_lt_mul_of_pos_right (by linarith) unitsPerOne_pos
    have hless' := Nat.cast_lt.mp hless
    refine Nat.le_of_not_lt fun hmore => ?_
    rw [lt_roundHalfEven_iff hU] at hmore
    omega

/-- While a number holds less than `2⁵⁰` steps, it overtakes nothing. -/
theorem Overtakes.le_mul {x y : Binary64} (h : Overtakes x y d) (hx : x.isFinite)
    (hy : y.isFinite) : 2 ^ 50 ≤ |x.value| * 10 ^ d := by
  obtain _ | _ | ⟨s, i, hi⟩ := x
  · cases hx
  · cases hx
  obtain _ | _ | ⟨t, j, hj⟩ := y
  · cases hy
  · cases hy
  obtain ⟨-, hij, hreads, ⟨n, hn⟩, hbeyond⟩ := overtakes_finite_iff.mp h
  obtain ⟨q, hq, -, hnudge, hcount, -⟩ := roundFraction_of_not_reads_eq (s := s) (h := hi) hreads
  rw [abs_value_finite]
  by_contra hlt
  obtain ⟨hnear, hhalf⟩ := magnitude_nudge_mul_lt hreads hij hn (not_le.mp hlt) hnudge
  have hless := hbeyond n hn
  rw [hcount] at hless
  exact absurd (scaledWhole_le hnear hhalf) (not_le.mpr hless)

/-! ### Order -/

/-- Numbers on one side of zero keep their order unless the inner one overtakes the outer one. -/
theorem rank_le_rank_iff {i' j' : ℕ} {hi' : i' < overflowRank} {hj' : j' < overflowRank}
    (hij : i ≤ j) (hx : roundFraction (finite s i hi) d = finite s i' hi')
    (hy : roundFraction (finite s j hj) d = finite s j' hj') :
    i' ≤ j' ↔ ¬ Overtakes (finite s i hi) (finite s j hj) d := by
  have hmono : ∀ {m n : ℕ}, m ≤ n → nearest ((m : ℚ) / 10 ^ d) ≤ nearest (n / 10 ^ d) :=
    fun h => nearest_mono (by positivity)
      (div_le_div_of_nonneg_right (by exact_mod_cast h) (by positivity))
  rw [overtakes_finite_iff]
  by_cases hreads : Decimal.Reads i d <;> by_cases hreads' : Decimal.Reads j d
  -- both stay
  · rw [roundFraction_of_reads hreads] at hx
    rw [roundFraction_of_reads hreads'] at hy
    cases hx
    cases hy
    exact iff_of_true hij fun h => h.2.2.1 hreads
  -- the outer one is rounded
  · obtain ⟨q, hq, -, -, -, hround⟩ := roundFraction_of_not_reads_eq (s := s) (h := hj) hreads'
    rw [roundFraction_of_reads hreads] at hx
    cases hx
    obtain rfl := rank_eq_of_ofRank_eq (hround.symm.trans hy)
    refine iff_of_true ?_ fun h => hreads' h.2.2.2.1
    obtain ⟨n, hn⟩ := hreads
    have hlt : i < j := lt_of_le_of_ne hij fun heq => hreads' (heq ▸ ⟨n, hn⟩)
    exact hn.symm.trans_le (hmono (le_placeCount_of_reads hlt hn hreads'))
  -- the inner one is rounded, and passes the outer one if it has more steps than that reads as
  · obtain ⟨q, hq, -, -, -, hround⟩ := roundFraction_of_not_reads_eq (s := s) (h := hi) hreads
    rw [roundFraction_of_reads hreads'] at hy
    cases hy
    obtain rfl := rank_eq_of_ofRank_eq (hround.symm.trans hx)
    have hlt : i < j := lt_of_le_of_ne hij fun heq => hreads (heq ▸ hreads')
    constructor
    · rintro hle ⟨-, -, -, ⟨n, hn⟩, hbeyond⟩
      have hpast := hmono (hbeyond n hn).le
      rw [hn] at hpast
      exact lt_irrefl _ (hbeyond _ (le_antisymm hle hpast))
    · intro hnot
      by_contra hgt
      refine hnot ⟨rfl, hlt, hreads, hreads', fun n hn => Nat.lt_of_not_le fun hle => hgt ?_⟩
      exact (hmono hle).trans_eq hn
  -- both are rounded
  · obtain ⟨q, hq, -, -, -, hround⟩ := roundFraction_of_not_reads_eq (s := s) (h := hi) hreads
    obtain ⟨q', hq', -, -, -, hround'⟩ := roundFraction_of_not_reads_eq (s := s) (h := hj) hreads'
    obtain rfl := rank_eq_of_ofRank_eq (hround.symm.trans hx)
    obtain rfl := rank_eq_of_ofRank_eq (hround'.symm.trans hy)
    exact iff_of_true (hmono (placeCount_le_placeCount hij hreads hreads'))
      fun h => hreads' h.2.2.2.1

/-- Nothing overtakes a number that is no farther out. -/
theorem not_overtakes_of_le (hle : j ≤ i) :
    ¬ Overtakes (finite s i hi) (finite t j hj) d := fun h =>
  absurd (overtakes_finite_iff.mp h).2.1 (by omega)

/-- What is rounded to places keeps its order unless one number overtakes the other. -/
theorem roundFraction_le_roundFraction_iff (h : finite s i hi ≤ finite t j hj) :
    roundFraction (finite s i hi) d ≤ roundFraction (finite t j hj) d ↔
      ¬ Overtakes (finite s i hi) (finite t j hj) d ∧
        ¬ Overtakes (finite t j hj) (finite s i hi) d := by
  obtain ⟨i', hi', hx, -⟩ := exists_roundFraction s i d hi
  obtain ⟨j', hj', hy, -⟩ := exists_roundFraction t j d hj
  rw [hx, hy, finite_le_finite_iff]
  rw [finite_le_finite_iff, signed_le_signed_iff] at h
  rcases h with ⟨rfl, rfl, hij⟩ | ⟨rfl, rfl, hij⟩ | ⟨rfl, rfl⟩ | ⟨rfl, rfl⟩
  · rw [and_iff_left (not_overtakes_of_le hij), ← rank_le_rank_iff hij hx hy]
    exact Int.ofNat_le
  · rw [and_iff_right (not_overtakes_of_le hij), ← rank_le_rank_iff hij hy hx]
    exact neg_le_neg_iff.trans Int.ofNat_le
  · refine iff_of_true ?_ ⟨fun h => ?_, fun h => ?_⟩
    · simp only [signed, if_true, Bool.false_eq_true, if_false]
      omega
    · cases h.sameSign
    · cases h.sameSign
  -- the zeros stay
  · have hzero : ∀ {s : Bool} {h : 0 < overflowRank},
        roundFraction (finite s 0 h) d = finite s 0 h := roundFraction_of_reads (reads_zero d)
    rw [hzero] at hx hy
    cases hx
    cases hy
    exact iff_of_true (by simp) ⟨not_overtakes_of_le le_rfl, not_overtakes_of_le le_rfl⟩

/-- **Order of numbers rounded to places.** Two finite numbers `v ≤ w` are rounded to `d > 0` places
without fail, and the results are in the same order exactly if neither number overtakes the other.
That is so if one of them holds less than `2⁵⁰` steps of `10 ^ -d`. -/
theorem roundFloat_le_roundFloat_iff {v w : Binary64} (hv : v.isFinite) (hw : w.isFinite)
    (hvw : v ≤ w) {d : ℕ} (hd : 0 < d) :
    ∃ a b : Binary64, roundFloat v d = .ok (.float a) ∧ roundFloat w d = .ok (.float b) ∧
      a.isFinite ∧ b.isFinite ∧ (a ≤ b ↔ ¬ Overtakes v w d ∧ ¬ Overtakes w v d) ∧
      (|v.value| * 10 ^ d < 2 ^ 50 ∨ |w.value| * 10 ^ d < 2 ^ 50 → a ≤ b) := by
  have hsmaller : ∀ {x y : Binary64}, x.isFinite → y.isFinite →
      |x.value| * 10 ^ d < 2 ^ 50 ∨ |y.value| * 10 ^ d < 2 ^ 50 → ¬ Overtakes x y d := by
    intro x y hx hy hsmall h
    -- the one that would overtake is the smaller of the two
    have hle := h.le_mul hx hy
    have hlt := mul_lt_mul_of_pos_right h.inner (by positivity : (0 : ℚ) < 10 ^ d)
    rcases hsmall with hsmall | hsmall <;> linarith
  obtain _ | _ | ⟨s, i, hi⟩ := v
  · cases hv
  · cases hv
  obtain _ | _ | ⟨t, j, hj⟩ := w
  · cases hw
  · cases hw
  have hiff := roundFraction_le_roundFraction_iff (d := d) hvw
  exact ⟨_, _, roundFloat_natCast _ hd, roundFloat_natCast _ hd, isFinite_roundFraction s i d hi,
    isFinite_roundFraction t j d hj, hiff,
    fun hsmall => hiff.mpr ⟨hsmaller hv hw hsmall, hsmaller hw hv hsmall.symm⟩⟩

/-- The number `1.005` is rounded to two places, up to `1.01` and not past it. -/
theorem roundFloat_le_roundFloat_hundredths : (ofRatio false 1005 1000).isFinite ∧
    (ofRatio false 101 100).isFinite ∧ ofRatio false 1005 1000 ≤ ofRatio false 101 100 ∧ 0 < 2 ∧
    |(ofRatio false 1005 1000).value| * 10 ^ 2 < 2 ^ 50 ∧
    ∃ a b : Binary64, roundFloat (ofRatio false 1005 1000) (2 : ℕ) = .ok (.float a) ∧
      roundFloat (ofRatio false 101 100) (2 : ℕ) = .ok (.float b) ∧ a ≤ b := by
  have hv : (ofRatio false 1005 1000).isFinite := by decide +kernel
  have hw : (ofRatio false 101 100).isFinite := by decide +kernel
  have hvw : ofRatio false 1005 1000 ≤ ofRatio false 101 100 := by decide +kernel
  have hsmall : |(ofRatio false 1005 1000).value| * 10 ^ 2 < 2 ^ 50 := by decide +kernel
  obtain ⟨a, b, ha, hb, -, -, -, hle⟩ := roundFloat_le_roundFloat_iff hv hw hvw (d := 2) (by decide)
  exact ⟨hv, hw, hvw, by decide, hsmall, a, b, ha, hb, hle (.inl hsmall)⟩

/-- The number `500000000000000.25` is half-way between two decimals of one place. Its nudge is an
eighth, and leads past the number that reads `500000000000000.3`, which stays. -/
theorem not_roundFloat_le_roundFloat : (ofRatio false 2000000000000001 4).isFinite ∧
    (ofRatio false 5000000000000003 10).isFinite ∧
    ofRatio false 2000000000000001 4 ≤ ofRatio false 5000000000000003 10 ∧
    roundFloat (ofRatio false 2000000000000001 4) 1 =
      .ok (.float (ofRatio false 5000000000000004 10)) ∧
    roundFloat (ofRatio false 5000000000000003 10) 1 =
      .ok (.float (ofRatio false 5000000000000003 10)) ∧
    ¬ ofRatio false 5000000000000004 10 ≤ ofRatio false 5000000000000003 10 := by
  refine ⟨?_, ?_, ?_, ?_, ?_, ?_⟩ <;> decide +kernel

end DecimalRounding
