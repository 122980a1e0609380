import DecimalRounding.Rounding.Float
import DecimalRounding.Proofs.Nudge
import DecimalRounding.Proofs.TenPowers
import DecimalRounding.Proofs.Shortest

/-!
# Rounding to places after the point

The numbers of `d` places are those nearest to some decimal of `d` places (`HasPlaces`), and the
text of a number shows whether it is one (`hasPlaces_finite_iff`, `decimalPlaces_le_iff`). Rounding
to `d > 0` places is a retraction onto them (`roundFloat_retraction`): both ways of rounding end by
reading a decimal of `d` places (`roundFraction_of_not_reads`), and the numbers of `d` places are
left alone by the first test.
-/

namespace DecimalRounding

open Binary64

namespace Binary64

/-- A number nearest to a decimal of `d` places. -/
def HasPlaces (v : Binary64) (d : ℕ) : Prop := ∃ k : ℤ, v.IsNearest (k / 10 ^ d)

variable {s : Bool} {r q d n : ℕ} {h : r < overflowRank}

/-- A number nearest to a decimal has the rank that the digits of the decimal read as. -/
theorem nearest_of_isNearest {k : ℤ} (hk : (finite s r h).IsNearest (k / 10 ^ d)) :
    nearest (k.natAbs / 10 ^ d) = r := by
  rw [← signFactor_mul_abs ((k : ℚ) / 10 ^ d)] at hk
  have habs : |(k : ℚ) / 10 ^ d| = k.natAbs / 10 ^ d := by
    rw [abs_div, abs_of_pos (by positivity : (0 : ℚ) < 10 ^ d), Nat.cast_natAbs, Int.cast_abs]
  rw [habs] at hk
  exact (hk.rank_eq (by positivity)).1

theorem hasPlaces_finite_iff : (finite s r h).HasPlaces d ↔ Decimal.Reads r d := by
  constructor
  · rintro ⟨k, hk⟩
    exact ⟨k.natAbs, nearest_of_isNearest hk⟩
  · rintro ⟨n, hn⟩
    have hnear := isNearest_finite (s := s) (t := s) (h := h) (y := n / 10 ^ d) (by positivity) hn
      (.inr rfl)
    cases s
    · exact ⟨n, by simpa using hnear⟩
    · exact ⟨-n, by simpa [neg_div] using hnear⟩

/-- A whole number has no places. -/
theorem reads_of_magnitude_eq (hn : magnitude r = n) : Decimal.Reads r d := by
  have hzero : Decimal.Reads r 0 := ⟨n, by rw [pow_zero, div_one, ← hn, nearest_magnitude]⟩
  exact hzero.mono (Nat.zero_le d)

theorem reads_zero (d : ℕ) : Decimal.Reads 0 d := reads_of_magnitude_eq (n := 0) (by simp)

theorem pos_of_not_reads (hr : ¬ Decimal.Reads r d) : 0 < r := by
  refine Nat.pos_of_ne_zero ?_
  rintro rfl
  exact hr (reads_zero d)

/-- What has more than `d` places is below `2⁵²`. -/
theorem magnitude_lt_of_not_reads (hr : ¬ Decimal.Reads r d) : magnitude r < 2 ^ 52 := by
  by_contra hge
  obtain ⟨n, hn⟩ := exists_natCast_eq_magnitude (not_lt.mp hge)
  exact hr (reads_of_magnitude_eq hn)

/-- Small numbers are nudged to small numbers. -/
theorem exists_nudge (hr : 0 < r) (hlt : magnitude r < 2 ^ 52) :
    ∃ q, ∃ hq : q < overflowRank, r ≤ q ∧ magnitude q ≤ 2 ^ 53 ∧
      (finite s r h).nudge = finite s q hq := by
  have hrank : r < twoPowRank 52 := by
    rw [← magnitude_strictMono.lt_iff_lt, magnitude_twoPowRank (by omega)]
    exact_mod_cast hlt
  obtain ⟨q, hq₁, hq₂, hnudge⟩ : ∃ q, r ≤ q ∧ q ≤ r + 2 ∧ (finite s r h).nudge = ofRank s q := by
    rcases Nat.lt_or_ge r (2 ^ 52) with hsmall | hlarge
    · obtain ⟨q, hq₁, hq₂, hnudge⟩ := nudge_subnormal (s := s) (h := h) hr hsmall
      exact ⟨q, hq₁, by omega, hnudge⟩
    · exact ⟨nudgeRank r, (lt_nudgeRank r).le, nudgeRank_le r, nudge_normal hlarge⟩
  have hle : q ≤ twoPowRank 53 := by
    rw [twoPowRank] at hrank ⊢
    omega
  have hmag : magnitude q ≤ 2 ^ 53 := by
    have hpow := magnitude_strictMono.monotone hle
    rw [magnitude_twoPowRank (by omega)] at hpow
    exact_mod_cast hpow
  exact ⟨q, lt_overflowRank_of_magnitude_le hmag, hq₁, hmag, by
    rw [hnudge, ofRank_of_lt (lt_overflowRank_of_magnitude_le hmag)]⟩

/-- The test for a small product, finite or not. -/
theorem magnitudeLt_ofRank : (ofRank s r).magnitudeLt (2 ^ 53) = true ↔ magnitude r < 2 ^ 53 := by
  rcases Nat.lt_or_ge r overflowRank with hlt | hge
  · rw [ofRank_of_lt hlt, magnitudeLt_finite]
    norm_num
  · rw [ofRank_of_le hge]
    refine iff_of_false (by simp [magnitudeLt]) fun hcon => ?_
    exact absurd (lt_overflowRank_of_magnitude_le hcon.le) (by omega)

theorem ofInt_tenPow (hd : d ≤ 22) : ofInt (10 ^ d) = ofRank false (nearest (10 ^ d)) := by
  have hmag : magnitude (nearest (10 ^ d)) = (10 ^ d : ℕ) := by
    rw [magnitude_nearest_tenPow hd]
    push_cast
    rfl
  have hint := ofInt_natCast hmag
  push_cast at hint
  exact hint

/-- A product by an exact power of ten is rounded once. -/
theorem finite_mul_ofInt_tenPow (hd : d ≤ 22) :
    finite s r h * ofInt (10 ^ d) = ofRank s (nearest (magnitude r * 10 ^ d)) := by
  rw [ofInt_tenPow hd, ofRank_of_lt (nearest_tenPow_lt hd), finite_mul_finite,
    magnitude_nearest_tenPow hd, Bool.xor_false]

end Binary64

/-! ### What is computed -/

variable {s : Bool} {r d : ℕ} {h : r < overflowRank}

theorem roundFloat_natCast (x : Binary64) (hd : 0 < d) :
    roundFloat x d = .ok (.float (roundFraction x d)) := by
  rw [roundFloat, if_pos (by omega), Int.toNat_natCast]

theorem fractionPath_of_le {v : Binary64} (hle : v.decimalPlaces ≤ d) :
    fractionPath v d = .unchanged := by
  rw [fractionPath, if_pos (by simp [hle])]

/-- Where there are more places, the power of ten and the size of the product decide. -/
theorem fractionPath_of_not_reads (hr : ¬ Decimal.Reads r d) :
    fractionPath (finite s r h) d =
      if d ≤ maxExactTenPower ∧
          ((finite s r h).nudge * ofInt (10 ^ d)).magnitudeLt (2 ^ 53) then .scaled
      else .formatted := by
  have hmore : ¬ (finite s r h).decimalPlaces ≤ d := fun hle => hr (decimalPlaces_le_iff.mp hle)
  rw [fractionPath, if_neg (by simp [isFinite, hmore])]

/-- A number that has no more places stays. -/
theorem roundFraction_of_reads (hr : Decimal.Reads r d) :
    roundFraction (finite s r h) d = finite s r h := by
  rw [roundFraction, fractionPath_of_le (decimalPlaces_le_iff.mpr hr)]

/-- The whole number that rounding to `d` places puts over `10 ^ d`, from the nudged rank: the
product by `10 ^ d` is rounded to a magnitude first, or not at all where `10 ^ d` or the product is
too large. -/
def scaledWhole (rank places : ℕ) : ℕ :=
  if places ≤ 22 ∧ magnitude (nearest (magnitude rank * 10 ^ places)) < 2 ^ 53 then
    ⌊magnitude (nearest (magnitude rank * 10 ^ places)) + 1 / 2⌋₊
  else roundHalfEven (units rank * 10 ^ places) unitsPerOne

/-- A number that has more places is nudged, and replaced by the number that a decimal of `d`
places reads as. -/
theorem roundFraction_of_not_reads (hr : ¬ Decimal.Reads r d) :
    ∃ q, ∃ hq : q < overflowRank, r ≤ q ∧ magnitude q ≤ 2 ^ 53 ∧
      (finite s r h).nudge = finite s q hq ∧
      roundFraction (finite s r h) d = ofRank s (nearest (scaledWhole q d / 10 ^ d)) := by
  obtain ⟨q, hq, hle, hmag, hnudge⟩ := exists_nudge (s := s) (h := h) (pos_of_not_reads hr)
    (magnitude_lt_of_not_reads hr)
  refine ⟨q, hq, hle, hmag, hnudge, ?_⟩
  rw [roundFraction, fractionPath_of_not_reads hr, hnudge, maxExactTenPower, scaledWhole]
  by_cases hd : d ≤ 22
  · have hstep : nearest (10 ^ d) ≠ 0 := fun hzero => by
      have hmag := magnitude_nearest_tenPow hd
      rw [hzero, magnitude_zero] at hmag
      exact absurd hmag (by positivity)
    simp only [finite_mul_ofInt_tenPow hd]
    by_cases hsmall : magnitude (nearest (magnitude q * 10 ^ d)) < 2 ^ 53
    -- the product is small: it is rounded and divided
    · have hz := lt_overflowRank_of_magnitude_le hsmall.le
      obtain ⟨w, hw, hwhole, hround⟩ := roundWhole_finite (s := s) (h := hz)
      rw [if_pos ⟨hd, magnitudeLt_ofRank.mpr hsmall⟩, if_pos ⟨hd, hsmall⟩, ofRank_of_lt hz, hround,
        ofInt_tenPow hd, ofRank_of_lt (nearest_tenPow_lt hd), finite_div_finite hstep, hwhole,
        magnitude_nearest_tenPow hd, Bool.xor_false]
    -- the product is large: the decimal is worked out
    · rw [if_neg fun hcon => hsmall (magnitudeLt_ofRank.mp hcon.2),
        if_neg fun hcon => hsmall hcon.2, roundPlaces, Decimal.rank_eq_nearest, Decimal.ofRank]
  -- the power of ten is large
  · rw [if_neg fun hcon => hd hcon.1, if_neg fun hcon => hd hcon.1, roundPlaces,
      Decimal.rank_eq_nearest, Decimal.ofRank]

/-! ### Rounding to places is a retraction -/

/-- Rounding leaves a decimal below `2⁵³`, the end of the exact integers. -/
theorem scaledWhole_div_le {q : ℕ} (hq : magnitude q ≤ 2 ^ 53) :
    (scaledWhole q d : ℚ) / 10 ^ d ≤ 2 ^ 53 := by
  have h10 : (0 : ℚ) < 10 ^ d := by positivity
  rw [div_le_iff₀ h10, scaledWhole]
  split_ifs with hsmall
  · have hone : (1 : ℚ) ≤ 10 ^ d := one_le_pow₀ (by norm_num)
    have hle : ⌊magnitude (nearest (magnitude q * 10 ^ d)) + 1 / 2⌋₊ ≤ 2 ^ 53 := by
      refine Nat.le_of_lt_succ ((Nat.floor_lt' (by omega)).mpr ?_)
      push_cast
      linarith [hsmall.2]
    calc (⌊magnitude (nearest (magnitude q * 10 ^ d)) + 1 / 2⌋₊ : ℚ) ≤ 2 ^ 53 := by
          exact_mod_cast hle
      _ ≤ 2 ^ 53 * 10 ^ d := le_mul_of_one_le_right (by positivity) hone
  · have hU : 0 < unitsPerOne := by exact_mod_cast unitsPerOne_pos
    have hunits : units q ≤ 2 ^ 53 * unitsPerOne := by
      rw [magnitude, div_le_iff₀ unitsPerOne_pos] at hq
      exact_mod_cast hq
    have hle : roundHalfEven (units q * 10 ^ d) unitsPerOne ≤ 2 ^ 53 * 10 ^ d := by
      refine roundHalfEven_le hU ?_
      calc units q * 10 ^ d ≤ 2 ^ 53 * unitsPerOne * 10 ^ d := Nat.mul_le_mul_right _ hunits
        _ = 2 ^ 53 * 10 ^ d * unitsPerOne := by ring
    exact_mod_cast hle

/-- So the number that the digits are read as is finite. -/
theorem nearest_scaledWhole_div_lt {q : ℕ} (hmag : magnitude q ≤ 2 ^ 53) :
    nearest (scaledWhole q d / 10 ^ d) < overflowRank :=
  (nearest_lt_overflowRank_iff (by positivity)).mpr
    (lt_overflowBound (by positivity) (scaledWhole_div_le hmag))

/-- Rounding a finite number to `d` places gives a finite number of `d` places. -/
theorem exists_roundFraction (s : Bool) (r d : ℕ) (h : r < overflowRank) :
    ∃ r', ∃ h' : r' < overflowRank, roundFraction (finite s r h) d = finite s r' h' ∧
      Decimal.Reads r' d := by
  by_cases hr : Decimal.Reads r d
  · exact ⟨r, h, roundFraction_of_reads hr, hr⟩
  · obtain ⟨q, hq, -, hmag, -, hround⟩ := roundFraction_of_not_reads (s := s) (h := h) hr
    have hlt := nearest_scaledWhole_div_lt (d := d) hmag
    exact ⟨_, hlt, by rw [hround, ofRank_of_lt hlt], _, rfl⟩

theorem isFinite_roundFraction (s : Bool) (r d : ℕ) (h : r < overflowRank) :
    (roundFraction (finite s r h) d).isFinite := by
  obtain ⟨r', h', hround, -⟩ := exists_roundFraction s r d h
  rw [hround]
  rfl

/-- **Retraction.** Rounding a finite number to `d > 0` places gives a number of `d` places, whose
text has no more than that; a number of `d` places stays what it is, bit for bit; and rounding
again, to as many places or more, changes nothing. -/
theorem roundFloat_retraction {v : Binary64} (hv : v.isFinite) {d : ℕ} (hd : 0 < d) :
    ∃ r, roundFloat v d = .ok (.float r) ∧ r.HasPlaces d ∧ r.decimalPlaces ≤ d ∧
      (v.HasPlaces d → r = v) ∧ ∀ e : ℕ, d ≤ e → roundFloat r e = .ok (.float r) := by
  obtain _ | _ | ⟨s, r, h⟩ := v
  · cases hv
  · cases hv
  obtain ⟨r', h', hround, hreads⟩ := exists_roundFraction s r d h
  refine ⟨finite s r' h', ?_, ?_, ?_, ?_, ?_⟩
  · rw [roundFloat_natCast _ hd, hround]
  · exact hasPlaces_finite_iff.mpr hreads
  · exact decimalPlaces_le_iff.mpr hreads
  · intro hplaces
    rw [← hround, roundFraction_of_reads (hasPlaces_finite_iff.mp hplaces)]
  · intro e he
    rw [roundFloat_natCast _ (by omega), roundFraction_of_reads (hreads.mono he)]

/-- The number `2.675`, which lies below that decimal, is rounded to a number of two places, and is
not moved again. -/
theorem roundFloat_two_places : (ofRatio false 2675 1000).isFinite ∧ 0 < 2 ∧
    ∃ r : Binary64, roundFloat (ofRatio false 2675 1000) (2 : ℕ) = .ok (.float r) ∧
      r.HasPlaces 2 ∧ ∀ e : ℕ, 2 ≤ e → roundFloat r e = .ok (.float r) := by
  have hv : (ofRatio false 2675 1000).isFinite := by decide +kernel
  obtain ⟨r, hround, hplaces, -, -, hstable⟩ := roundFloat_retraction hv (d := 2) (by decide)
  exact ⟨hv, by decide, r, hround, hplaces, hstable⟩

end DecimalRounding
