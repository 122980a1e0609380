import DecimalRounding.Proofs.Decomposition

/-!
# Scaling by powers of two

`scaleTwo` multiplies by one half of the power of two after the other. The halves of an exponent
have one sign (`halves_sign`), and so the product half-way is a magnitude whenever the product is
(`exists_magnitude_halfway`): upward nothing is lost, and downward the product half-way is reached
upward from the last one. So both steps are exact, for normal and subnormal numbers alike, and
scaling is exact wherever the product is a number (`scaleTwo_exact`). Past the end of the range the
ranks go on, and the same argument gives infinity.
-/

namespace DecimalRounding.Binary64

variable {s : Bool} {a b c : ℕ} {m n : ℤ}

/-! ### The product half-way -/

/-- Scaled up, a magnitude is a magnitude, perhaps one past the end of the range. -/
theorem exists_magnitude_mul_zpow (a : ℕ) (hn : 0 ≤ n) :
    ∃ b, magnitude b = magnitude a * 2 ^ n := by
  obtain ⟨k, rfl⟩ := Int.eq_ofNat_of_zero_le hn
  obtain ⟨p, hp, ha⟩ := exists_significand a
  obtain ⟨b, hb⟩ := exists_units_eq (a / 2 ^ 52 - 1 + k) hp.le
  have hunits : units b = units a * 2 ^ k := by rw [hb, ha, spacing, pow_add, mul_assoc]
  refine ⟨b, ?_⟩
  rw [magnitude, magnitude, hunits, Nat.cast_mul, Nat.cast_pow, Nat.cast_ofNat, zpow_natCast,
    div_mul_eq_mul_div]

/-- Half-way from one magnitude to another by a power of two lies a magnitude. -/
theorem exists_magnitude_halfway (hsign : 0 ≤ m ∧ 0 ≤ n ∨ m ≤ 0 ∧ n ≤ 0)
    (hc : magnitude c = magnitude a * 2 ^ (m + n)) : ∃ b, magnitude b = magnitude a * 2 ^ m := by
  rcases hsign with ⟨hm, -⟩ | ⟨-, hn⟩
  · exact exists_magnitude_mul_zpow a hm
  · obtain ⟨b, hb⟩ := exists_magnitude_mul_zpow c (neg_nonneg.mpr hn)
    refine ⟨b, ?_⟩
    rw [hb, hc, mul_assoc, ← zpow_add₀ two_ne_zero, add_neg_cancel_right]

/-- The halves of an exponent have its sign. -/
theorem halves_sign (n : ℤ) :
    0 ≤ n.tdiv 2 ∧ 0 ≤ n - n.tdiv 2 ∨ n.tdiv 2 ≤ 0 ∧ n - n.tdiv 2 ≤ 0 := by
  have hbounds := two_mul_tdiv_bounds n
  omega

/-! ### Both steps -/

/-- A product with a power of two that is a magnitude is exact. Infinities are only scaled up. -/
theorem ofRank_mul_twoPow (h₁ : -1023 ≤ n) (h₂ : n ≤ 1023) (hb : b < overflowRank ∨ 0 ≤ n)
    (hc : magnitude c = magnitude b * 2 ^ n) : ofRank s b * twoPow n = ofRank s c := by
  rcases Nat.lt_or_ge b overflowRank with hlt | hge
  · rw [ofRank_of_lt hlt, finite_mul_twoPow h₁ h₂, ← hc, nearest_magnitude]
  · have hbc : b ≤ c := by
      rw [← magnitude_strictMono.le_iff_le, hc]
      exact le_mul_of_one_le_right (magnitude_nonneg b)
        (one_le_zpow₀ one_le_two (hb.resolve_left hge.not_gt))
    rw [ofRank_of_le hge, ofRank_of_le (hge.trans hbc), infinity_mul_twoPow h₁ h₂]

/-- Scaling to a magnitude is exact. -/
theorem scaleTwo_eq_ofRank {h : a < overflowRank} (h₁ : -2046 ≤ n) (h₂ : n ≤ 2046)
    (hc : magnitude c = magnitude a * 2 ^ n) : (finite s a h).scaleTwo n = ofRank s c := by
  have hbounds := two_mul_tdiv_bounds n
  have hsign := halves_sign n
  simp only [scaleTwo]
  generalize n.tdiv 2 = k at hbounds hsign
  obtain ⟨b, hb⟩ : ∃ b, magnitude b = magnitude a * 2 ^ k :=
    exists_magnitude_halfway hsign (by rwa [add_sub_cancel])
  have hrest : magnitude c = magnitude b * 2 ^ (n - k) := by
    rw [hc, hb, mul_assoc, ← zpow_add₀ two_ne_zero, add_sub_cancel]
  have hfirst : ofRank s a * twoPow k = ofRank s b :=
    ofRank_mul_twoPow (by omega) (by omega) (.inl h) hb
  rw [← ofRank_of_lt h, hfirst]
  refine ofRank_mul_twoPow (by omega) (by omega) ?_ hrest
  refine hsign.symm.imp (fun hneg => lt_of_le_of_lt ?_ h) And.right
  rw [← magnitude_strictMono.le_iff_le, hb]
  exact mul_le_of_le_one_right (magnitude_nonneg a) (zpow_le_one_of_nonpos₀ one_le_two hneg.1)

/-! ### Exact scaling -/

theorem copySign_finite {t : Bool} {ha : a < overflowRank} {hc : c < overflowRank} :
    (finite t c hc).copySign (finite s a ha) = finite s c hc := by
  cases s <;> cases t <;> rfl

/-- The exponents of decompositions. -/
theorem split_exponent_bounds (x : Binary64) :
    -1073 ≤ x.split.exponent ∧ x.split.exponent ≤ 1024 := by
  by_cases hx : x.isZero || !x.isFinite
  · have hexponent : x.split.exponent = 0 := by rw [split_eq_self hx]
    omega
  · obtain ⟨s, r, h, h₀, rfl⟩ := exists_eq_finite hx
    obtain ⟨f, E, -, hE₁, hE₂, hsplit, -⟩ := exists_split (s := s) (h := h) h₀
    rw [hsplit]
    exact ⟨hE₁, hE₂⟩

/-- **Exact scaling.** For every finite number and every exponent from `-2046` to `2046`: if the
product with the power of two is a binary64 number, scaling gives this number, with the sign of the
number scaled, which only a zero does not have by its value; and if the product has the magnitude
`2¹⁰²⁴` or a larger one, scaling gives infinity with this sign. The exponents that numbers are split
with are among these. -/
theorem scaleTwo_exact {v : Binary64} (hv : v.isFinite) :
    (∀ n : ℤ, -2046 ≤ n → n ≤ 2046 →
      (∀ w : Binary64, w.isFinite → w.value = v.value * 2 ^ n → v.scaleTwo n = w.copySign v) ∧
        (2 ^ 1024 ≤ |v.value * 2 ^ n| → v.scaleTwo n = infinity v.isNegative)) ∧
      -2046 ≤ v.split.exponent ∧ v.split.exponent ≤ 2046 := by
  obtain _ | _ | ⟨s, a, h⟩ := v
  · cases hv
  · cases hv
  have habs : ∀ n : ℤ, |(finite s a h).value * 2 ^ n| = magnitude a * 2 ^ n := fun n => by
    rw [abs_mul, abs_value_finite, abs_of_pos (zpow_pos two_pos n)]
  refine ⟨fun n h₁ h₂ => ⟨?_, fun hlarge => ?_⟩, ?_⟩
  · rintro (_ | _ | ⟨t, c, hc⟩) hw hvalue
    · cases hw
    · cases hw
    have hmag : magnitude c = magnitude a * 2 ^ n := by
      rw [← habs, ← hvalue, abs_value_finite]
    rw [scaleTwo_eq_ofRank h₁ h₂ hmag, ofRank_of_lt hc, copySign_finite]
  · rw [habs] at hlarge
    -- only upward does the product leave the range
    have hn : 0 ≤ n := by
      by_contra hneg
      have hle : magnitude a * 2 ^ n ≤ magnitude a :=
        mul_le_of_le_one_right (magnitude_nonneg a) (zpow_le_one_of_nonpos₀ one_le_two (by omega))
      exact absurd (hlarge.trans hle) (not_le.mpr (magnitude_lt_of_lt_overflowRank h))
    obtain ⟨c, hc⟩ := exists_magnitude_mul_zpow a hn
    have hrank : overflowRank ≤ c := by
      rw [← magnitude_strictMono.le_iff_le, magnitude_overflowRank, hc]
      exact hlarge
    rw [scaleTwo_eq_ofRank h₁ h₂ hc, ofRank_of_le hrank]
    rfl
  · obtain ⟨hlo, hhi⟩ := split_exponent_bounds (finite s a h)
    exact ⟨by omega, by omega⟩

/-- From the largest power of two below zero to a subnormal one, by two powers that are subnormal
themselves, and to infinity by the next power of two. -/
theorem scaleTwo_exact_edges : (ofRank true (twoPowRank 1023)).isFinite ∧
    (ofRank true (twoPowRank 1023)).scaleTwo (-2046) = ofRank true (2 ^ 51) ∧
    (ofRank true (twoPowRank 1023)).scaleTwo 1 = infinity true := by
  have hlt : twoPowRank 1023 < overflowRank := twoPowRank_lt (by omega)
  have hlt' : 2 ^ 51 < overflowRank := by rw [overflowRank]; omega
  have hfinite : (ofRank true (twoPowRank 1023)).isFinite := isFinite_ofRank_iff.mpr hlt
  have hvalue : (ofRank true (twoPowRank 1023)).value = -2 ^ (1023 : ℤ) := by
    rw [ofRank_of_lt hlt, value, magnitude_twoPowRank (by omega), signFactor_true, neg_one_mul]
  have hvalue' : (ofRank true (2 ^ 51)).value = -2 ^ (-1023 : ℤ) := by
    rw [ofRank_of_lt hlt', value, magnitude_of_le (by omega), signFactor_true, neg_one_mul,
      Nat.cast_pow, Nat.cast_ofNat, ← zpow_natCast, ← zpow_add₀ two_ne_zero]
    rfl
  obtain ⟨hscaled, -, -⟩ := scaleTwo_exact hfinite
  refine ⟨hfinite, ?_, ?_⟩
  · rw [(hscaled (-2046) (by omega) (by omega)).1 (ofRank true (2 ^ 51))
      (isFinite_ofRank_iff.mpr hlt') ?_, ofRank_of_lt hlt, ofRank_of_lt hlt', copySign_finite]
    rw [hvalue, hvalue', neg_mul, ← zpow_add₀ two_ne_zero]
    rfl
  · have hexponent : (1023 : ℤ) + 1 = (1024 : ℕ) := rfl
    rw [(hscaled 1 (by omega) (by omega)).2 ?_, isNegative_ofRank]
    rw [hvalue, neg_mul, abs_neg, ← zpow_add₀ two_ne_zero, abs_of_pos (zpow_pos two_pos _),
      hexponent, zpow_natCast]

end DecimalRounding.Binary64
