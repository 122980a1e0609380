import DecimalRounding.Binary64.Arith
import DecimalRounding.Binary64.Whole
import DecimalRounding.Proofs.Value

/-!
# Operations on finite numbers

Each operation on finite numbers is the exact operation on magnitudes, rounded once to the nearest
rank (`finite_mul_finite`, `finite_div_finite`, `finite_add_finite`, `ofRatio_eq`). Rounding to a
whole number and the passage to 64-bit integers are exact (`roundWhole_finite`,
`toInt64?_finite`).
-/

namespace DecimalRounding.Binary64

variable {s t : Bool} {a b r : ℕ}

/-! ### Sum, product, quotient -/

/-- A product has the sign that the signs give and is rounded once. -/
theorem finite_mul_finite {ha : a < overflowRank} {hb : b < overflowRank} :
    finite s a ha * finite t b hb = ofRank (s ^^ t) (nearest (magnitude a * magnitude b)) := by
  have hU : 0 < unitsPerOne := by exact_mod_cast unitsPerOne_pos
  change ofRank (s ^^ t) (nearestRank (units a * units b) unitsPerOne) = _
  rw [nearestRank_eq_nearest hU, magnitude, magnitude, Nat.cast_mul, div_mul_div_comm]

/-- The same product, of finite numbers that are given by their ranks. -/
theorem ofRank_mul_ofRank (ha : a < overflowRank) (hb : b < overflowRank) :
    ofRank s a * ofRank t b = ofRank (s ^^ t) (nearest (magnitude a * magnitude b)) := by
  rw [ofRank_of_lt ha, ofRank_of_lt hb, finite_mul_finite]

/-- A quotient by another number than zero is rounded once. -/
theorem finite_div_finite {ha : a < overflowRank} {hb : b < overflowRank} (hb0 : b ≠ 0) :
    finite s a ha / finite t b hb = ofRank (s ^^ t) (nearest (magnitude a / magnitude b)) := by
  have hunits : 0 < units b := by simpa using units_strictMono (Nat.pos_of_ne_zero hb0)
  have hU := unitsPerOne_pos
  have hb' : (units b : ℚ) ≠ 0 := by exact_mod_cast hunits.ne'
  change div _ _ = _
  rw [div, if_neg hb0, nearestRank_eq_nearest hunits, magnitude, magnitude, Nat.cast_mul]
  congr 2
  field_simp

theorem finite_add_finite {ha : a < overflowRank} {hb : b < overflowRank} (hb0 : b ≠ 0) :
    finite s a ha + finite s b hb = ofRank s (nearest (magnitude a + magnitude b)) := by
  have hunits : 0 < units b := by simpa using units_strictMono (Nat.pos_of_ne_zero hb0)
  change add _ _ = _
  have hsum : nearestRank (units a + units b) 1 = nearest (magnitude a + magnitude b) := by
    rw [nearestRank_eq_nearest one_pos, magnitude, magnitude, Nat.cast_add, Nat.cast_one, one_mul,
      add_div]
  cases s
  · have hne : ((units a : ℤ) + units b) ≠ 0 := by omega
    have habs : ((units a : ℤ) + units b).natAbs = units a + units b := by omega
    have hneg : ¬ ((units a : ℤ) + units b < 0) := by omega
    simp [add, signed, hne, habs, hneg, hsum]
  · have hne : (-(units a : ℤ) + -(units b : ℤ)) ≠ 0 := by omega
    have habs : (-(units a : ℤ) + -(units b : ℤ)).natAbs = units a + units b := by omega
    have hneg : -(units a : ℤ) + -(units b : ℤ) < 0 := by omega
    simp [add, signed, hne, habs, hneg, hsum]

/-- A sum with a smaller number of the other sign. -/
theorem finite_add_finite_not {ha : a < overflowRank} {hb : b < overflowRank} (hba : b < a) :
    finite s a ha + finite (!s) b hb = ofRank s (nearest (magnitude a - magnitude b)) := by
  have hunits : units b < units a := units_strictMono hba
  change add _ _ = _
  have hdiff : nearestRank (units a - units b) 1 = nearest (magnitude a - magnitude b) := by
    rw [nearestRank_eq_nearest one_pos, magnitude, magnitude, Nat.cast_sub hunits.le, Nat.cast_one,
      one_mul, sub_div]
  cases s
  · have hne : ((units a : ℤ) + -(units b : ℤ)) ≠ 0 := by omega
    have habs : ((units a : ℤ) + -(units b : ℤ)).natAbs = units a - units b := by omega
    have hneg : ¬ ((units a : ℤ) + -(units b : ℤ) < 0) := by omega
    simp only [add, signed, Bool.not_false, Bool.false_eq_true, if_true, if_false, hne, habs, hneg,
      hdiff, decide_false]
  · have hne : (-(units a : ℤ) + (units b : ℤ)) ≠ 0 := by omega
    have habs : (-(units a : ℤ) + (units b : ℤ)).natAbs = units a - units b := by omega
    have hneg : -(units a : ℤ) + (units b : ℤ) < 0 := by omega
    simp [add, signed, hne, habs, hneg, hdiff]

/-! ### Quotients of naturals, integers -/

/-- A ratio of naturals is rounded once, also where neither of them is a binary64 number. -/
theorem ofRatio_eq {num den : ℕ} (hden : 0 < den) :
    ofRatio s num den = ofRank s (nearest (num / den)) := by
  have hU := unitsPerOne_pos.ne'
  rw [ofRatio, nearestRank_eq_nearest hden, Nat.cast_mul, mul_div_mul_right _ _ hU]

theorem ofInt_eq (n : ℤ) : ofInt n = ofRank (n < 0) (nearest n.natAbs) := by
  rw [ofInt, ofRatio_eq one_pos, Nat.cast_one, div_one]

/-! ### Whole numbers -/

/-- From `2⁵²` on magnitudes are whole numbers of at most 53 binary digits, with zeros behind. -/
theorem exists_significand_eq_magnitude (h : 2 ^ 52 ≤ magnitude r) :
    ∃ m k : ℕ, m < 2 ^ 53 ∧ magnitude r = m * 2 ^ k := by
  have hrank : twoPowRank 52 ≤ r := by
    rw [← magnitude_strictMono.le_iff_le, magnitude_twoPowRank (by omega)]
    exact_mod_cast h
  have hrank' : 1074 * 2 ^ 52 + 2 ^ 52 ≤ r := by
    rw [twoPowRank] at hrank
    omega
  obtain ⟨e, m, h₁, h₂, rfl, -⟩ := exists_group (show 2 ^ 52 ≤ r by omega)
  refine ⟨m, e - 1074, h₂, ?_⟩
  have hexp : (e : ℤ) - 1074 = ((e - 1074 : ℕ) : ℤ) := by omega
  rw [magnitude_group e h₁ h₂.le, hexp, zpow_natCast]

theorem exists_natCast_eq_magnitude (h : 2 ^ 52 ≤ magnitude r) : ∃ n : ℕ, magnitude r = n := by
  obtain ⟨m, k, -, hr⟩ := exists_significand_eq_magnitude h
  exact ⟨m * 2 ^ k, by rw [hr, Nat.cast_mul, Nat.cast_pow, Nat.cast_ofNat]⟩

/-- A magnitude up to `2⁵³` is far from the end of the range. -/
theorem lt_overflowRank_of_magnitude_le (h : magnitude r ≤ 2 ^ 53) : r < overflowRank := by
  have hle : r ≤ twoPowRank 53 := by
    rw [← magnitude_strictMono.le_iff_le, magnitude_twoPowRank (by omega)]
    exact_mod_cast h
  rw [twoPowRank] at hle
  rw [overflowRank]
  omega

/-- Integers of at most 53 binary digits are numbers themselves. -/
theorem exists_ofInt_eq {n : ℤ} (h : n.natAbs ≤ 2 ^ 53) :
    ∃ r, ∃ hr : r < overflowRank, ofInt n = finite (n < 0) r hr ∧ magnitude r = n.natAbs := by
  obtain ⟨r, hr⟩ := exists_magnitude_natCast h
  have hlt : r < overflowRank := lt_overflowRank_of_magnitude_le (by rw [hr]; exact_mod_cast h)
  exact ⟨r, hlt, by rw [ofInt_eq, ← hr, nearest_magnitude, ofRank_of_lt hlt], hr⟩

theorem isFinite_ofInt {n : ℤ} (h : n.natAbs ≤ 2 ^ 53) : (ofInt n).isFinite := by
  obtain ⟨r, hr, hn, -⟩ := exists_ofInt_eq h
  rw [hn]
  rfl

/-- The integers up to `2⁵³` in absolute value are binary64 numbers. -/
theorem value_ofInt {n : ℤ} (h : n.natAbs ≤ 2 ^ 53) : (ofInt n).value = n := by
  obtain ⟨r, hr, hn, hmagnitude⟩ := exists_ofInt_eq h
  have habs : ((n.natAbs : ℕ) : ℚ) = |(n : ℚ)| := by rw [Nat.cast_natAbs, Int.cast_abs]
  have hsign : decide (n < 0) = decide ((n : ℚ) < 0) := by simp
  rw [hn, value, hmagnitude, habs, hsign, signFactor_mul_abs]

/-- Rounding to a whole number is exact: the result is the magnitude plus one half, rounded
down. -/
theorem roundWhole_finite {h : r < overflowRank} :
    ∃ q, ∃ hq : q < overflowRank, magnitude q = ⌊magnitude r + 1 / 2⌋₊ ∧
      roundWhole (finite s r h) = finite s q hq := by
  have hU : 0 < unitsPerOne := by exact_mod_cast unitsPerOne_pos
  have hround : roundWhole (finite s r h) =
      ofRank s (nearest (⌊magnitude r + 1 / 2⌋₊ : ℕ)) := by
    rw [roundWhole, ofRatio_eq one_pos, roundHalfAway_eq_floor hU, Nat.cast_one, div_one,
      ← magnitude]
  suffices hq : ∃ q, q < overflowRank ∧ magnitude q = ⌊magnitude r + 1 / 2⌋₊ by
    obtain ⟨q, hq, hval⟩ := hq
    exact ⟨q, hq, hval, by rw [hround, ← hval, nearest_magnitude, ofRank_of_lt hq]⟩
  rcases lt_or_ge (magnitude r) (2 ^ 52) with hlt | hge
  · have hle : ⌊magnitude r + 1 / 2⌋₊ ≤ 2 ^ 53 := by
      refine Nat.floor_le_of_le ?_
      push_cast
      linarith
    obtain ⟨q, hq⟩ := exists_magnitude_natCast hle
    exact ⟨q, lt_overflowRank_of_magnitude_le (by rw [hq]; exact_mod_cast hle), hq⟩
  · obtain ⟨n, hn⟩ := exists_natCast_eq_magnitude hge
    refine ⟨r, h, ?_⟩
    have hfloor : ⌊(n : ℚ) + 1 / 2⌋₊ = n := by
      rw [Nat.floor_eq_iff (by positivity)]
      constructor <;> linarith
    rw [hn, hfloor]

/-- A whole number is its own integer part. -/
theorem truncate?_finite {h : r < overflowRank} {n : ℕ} (hr : magnitude r = n) :
    truncate? (finite s r h) = some (signed s n) := by
  have hU : 0 < unitsPerOne := by exact_mod_cast unitsPerOne_pos
  have hunits : units r = n * unitsPerOne := by
    rw [magnitude, div_eq_iff unitsPerOne_pos.ne'] at hr
    exact_mod_cast hr
  rw [truncate?, hunits, Nat.mul_div_cancel _ hU]

theorem toInt64?_finite {h : r < overflowRank} {n : ℕ} (hr : magnitude r = n) :
    toInt64? (finite s r h) = int64? (signed s n) := by
  rw [toInt64?, truncate?_finite hr, Option.bind_some]

/-- The test on the magnitude compares with the natural number itself, which need not be a binary64
number. -/
theorem magnitudeLt_finite {h : r < overflowRank} {n : ℕ} :
    magnitudeLt (finite s r h) n = true ↔ magnitude r < n := by
  rw [magnitudeLt, decide_eq_true_eq, magnitude, div_lt_iff₀ unitsPerOne_pos]
  exact_mod_cast Iff.rfl

end DecimalRounding.Binary64
