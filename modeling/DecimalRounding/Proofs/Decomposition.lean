import DecimalRounding.Proofs.NumberLine

/-!
# Significand and exponent, apart and together

`split` finds the one decomposition of a number into a significand in `[1/2, 1)` by magnitude and a
power of two, with the sign at the significand, and `scaleTwo` puts the two together again
(`split_decomposes`). Neither the least number nor the numbers from `2¹⁰²³` on are lost in this,
although `2⁻¹⁰⁷³` and `2¹⁰²⁴` are beyond the normal powers of two: `scaleTwo` takes two steps.

The significand is read off the rank. `splitFields` finds it by arithmetic instead, from the fields
of the interchange format: a whole mantissa, its leading one moved to bit 52, scaled by `2⁻⁵³` and
multiplied by the sign. No step of this rounds, and the two agree (`splitFields_eq_split`).
-/

namespace DecimalRounding.Binary64

variable {s : Bool} {r : ℕ} {x : Binary64}

/-! ### The fields of the interchange format -/

/-- A number as a sign, a whole mantissa and an exponent of two. -/
structure Fields where
  negative : Bool
  mantissa : ℕ
  exponent : ℤ
deriving DecidableEq

/-- Reads the fields of the interchange format. The leading one of a normal number is not stored. A
subnormal number has none, and its mantissa is moved up by one bit, so that the exponent is the
exponent field less 1075 for both. -/
def fields (x : Binary64) : Fields :=
  let bits := x.toBits.toNat
  let field : ℕ := bits / 2 ^ 52 % 2 ^ 11
  let fraction : ℕ := bits % 2 ^ 52
  ⟨2 ^ 63 ≤ bits, if field = 0 then 2 * fraction else 2 ^ 52 + fraction, (field : ℤ) - 1075⟩

/-- Significand and exponent, worked out from the fields. -/
def splitFields (x : Binary64) : Split :=
  if x.isZero || !x.isFinite then ⟨x, 0⟩
  else
    let parts := x.fields
    let shift := leadingShift parts.mantissa
    let fraction := (ofInt (parts.mantissa * 2 ^ shift : ℕ)).scaleTwo (-53)
    ⟨ofInt (if parts.negative then -1 else 1) * fraction, parts.exponent - shift + 53⟩

/-- The sign bit and the bits of the rank. -/
theorem toNat_toBits (h : r < overflowRank) :
    (finite s r h).toBits.toNat = s.toNat * 2 ^ 63 + r := by
  have hs := Bool.toNat_le s
  have hbits : s.toNat * 2 ^ 63 + r < 2 ^ 64 := by
    rw [overflowRank] at h
    omega
  change (UInt64.ofNat (s.toNat * 2 ^ 63 + r)).toNat = _
  rw [UInt64.toNat_ofNat', Nat.mod_eq_of_lt hbits]

theorem fields_finite (h : r < overflowRank) :
    (finite s r h).fields =
      ⟨s, if r < 2 ^ 52 then 2 * r else 2 ^ 52 + r % 2 ^ 52, (r / 2 ^ 52 : ℕ) - 1075⟩ := by
  rw [overflowRank] at h
  have hs := Bool.toNat_le s
  have hfield : (s.toNat * 2 ^ 63 + r) / 2 ^ 52 % 2 ^ 11 = r / 2 ^ 52 := by omega
  have hfraction : (s.toNat * 2 ^ 63 + r) % 2 ^ 52 = r % 2 ^ 52 := by omega
  have hsign : decide (2 ^ 63 ≤ s.toNat * 2 ^ 63 + r) = s := by
    cases s
    · simp only [Bool.toNat_false, decide_eq_false_iff_not]
      omega
    · simp
  have hmantissa : (if r / 2 ^ 52 = 0 then 2 * (r % 2 ^ 52) else 2 ^ 52 + r % 2 ^ 52) =
      if r < 2 ^ 52 then 2 * r else 2 ^ 52 + r % 2 ^ 52 := by
    split_ifs <;> omega
  simp only [fields, toNat_toBits, hfield, hfraction, hsign, hmantissa]

-- one, and the least number above zero
example : one.fields = ⟨false, 2 ^ 52, -52⟩ := by decide +kernel

example : (ofRank false 1).fields = ⟨false, 2, -1075⟩ := by decide +kernel

/-! ### The significand by arithmetic -/

/-- A mantissa with its leading one at bit 52, scaled to a significand: no step rounds. -/
theorem scaleTwo_ofInt {m : ℕ} (h₁ : 2 ^ 52 ≤ m) (h₂ : m < 2 ^ 53) :
    (ofInt m).scaleTwo (-53) = ofRank false (halfRank + (m - 2 ^ 52)) := by
  obtain ⟨a, ha⟩ : ∃ a, a = halfRank + (m - 2 ^ 52) + 53 * 2 ^ 52 := ⟨_, rfl⟩
  have hlt : a < overflowRank := by
    rw [ha, overflowRank, halfRank]
    omega
  have hsignificand : magnitude (halfRank + (m - 2 ^ 52)) = m * 2 ^ (-53 : ℤ) := by
    rw [magnitude_significand (by omega), Nat.cast_sub h₁]
    push_cast
    ring
  have hmantissa : magnitude a = m := by
    rw [ha, magnitude_add_group (by rw [halfRank]; omega), hsignificand, mul_assoc]
    norm_num
  have hhalf : (-53 : ℤ).tdiv 2 = -26 := rfl
  rw [halfRank] at ha
  rw [ofInt_natCast hmantissa, ofRank_of_lt hlt, scaleTwo_finite (by omega) (by omega) (by omega)
    (by rw [hhalf]; omega) (by rw [hhalf]; omega), hmantissa, ← hsignificand, nearest_magnitude]

/-- The sign as a factor. -/
theorem ofInt_sign_mul (h : r < overflowRank) :
    ofInt (if s then -1 else 1) * ofRank false r = ofRank s r := by
  have hone : nearest (1 : ℕ) = twoPowRank 0 := by
    rw [Nat.cast_one, ← zpow_zero (2 : ℚ), ← magnitude_twoPowRank (by omega), nearest_magnitude]
  have hsign : ofInt (if s then -1 else 1) = ofRank s (twoPowRank 0) := by
    rw [ofInt_eq, ← hone]
    cases s <;> rfl
  rw [hsign, ofRank_mul_ofRank (twoPowRank_lt (by omega)) h, magnitude_twoPowRank (by omega),
    zpow_zero, one_mul, nearest_magnitude, Bool.xor_false]

/-- The shift brings the leading one of a mantissa to bit 52, and of a mantissa twice a rank by one
bit less than that of the rank. -/
theorem leadingShift_two_mul (h₀ : 0 < r) (hr : r < 2 ^ 52) :
    leadingShift r = leadingShift (2 * r) + 1 := by
  have hlog : r.log2 < 52 := (Nat.log2_lt h₀.ne').mpr hr
  rw [leadingShift, leadingShift, Nat.log2_two_mul h₀.ne']
  omega

/-- All other numbers but zeros, infinities and `nan`: a sign and a rank that is not zero. -/
theorem exists_eq_finite (hx : ¬ (x.isZero || !x.isFinite)) :
    ∃ s r, ∃ h : r < overflowRank, 0 < r ∧ x = finite s r h := by
  obtain _ | _ | ⟨s, r, h⟩ := x
  · exact absurd rfl hx
  · exact absurd rfl hx
  · exact ⟨s, r, h, Nat.pos_of_ne_zero fun hr => hx (by simp [isZero, hr]), rfl⟩

/-- Zeros, infinities and `nan` are their own significands. -/
theorem split_eq_self (hx : x.isZero || !x.isFinite) : x.split = ⟨x, 0⟩ := by
  obtain _ | _ | ⟨s, r, h⟩ := x
  · rfl
  · rfl
  · have hr : r = 0 := by simpa [isZero, isFinite] using hx
    rw [split, if_pos hr]

/-- The decomposition by ranks is the one that is worked out from the fields. -/
theorem splitFields_eq_split (x : Binary64) : x.splitFields = x.split := by
  by_cases hx : x.isZero || !x.isFinite
  · rw [splitFields, if_pos hx, split_eq_self hx]
  obtain ⟨s, r, h, h₀, rfl⟩ := exists_eq_finite hx
  rw [splitFields, if_neg hx, fields_finite]
  rcases Nat.lt_or_ge r (2 ^ 52) with hr | hr
  · obtain ⟨hlo, hhi⟩ := mul_leadingShift_bounds h₀ (by omega : r < 2 ^ 53)
    have hshift := leadingShift_two_mul h₀ hr
    have hmantissa : 2 * r * 2 ^ leadingShift (2 * r) = r * 2 ^ leadingShift r := by
      rw [hshift, pow_succ]
      ring
    simp only [if_pos hr]
    rw [hmantissa, scaleTwo_ofInt hlo hhi, ofInt_sign_mul (significand_lt (by omega)), split,
      if_neg h₀.ne', if_pos hr, Nat.div_eq_of_lt hr, hshift]
    simp only [Split.mk.injEq, true_and]
    push_cast
    ring
  · have hshift : leadingShift (2 ^ 52 + r % 2 ^ 52) = 0 := by
      have hlog : 52 ≤ (2 ^ 52 + r % 2 ^ 52).log2 := (Nat.le_log2 (by omega)).mpr (by omega)
      rw [leadingShift]
      omega
    simp only [if_neg (Nat.not_lt.mpr hr), hshift, pow_zero, mul_one]
    rw [scaleTwo_ofInt (by omega) (by omega), Nat.add_sub_cancel_left,
      ofInt_sign_mul (significand_lt (by omega)), split_normal hr]
    simp only [Split.mk.injEq, true_and]
    push_cast
    ring

/-! ### The parts put together -/

/-- Numbers that are their own significand are scaled by one. -/
theorem scaleTwo_zero (hx : x.isZero || !x.isFinite) : x.scaleTwo 0 = x := by
  change x * twoPow 0 * twoPow 0 = x
  obtain _ | s | ⟨s, r, h⟩ := x
  · rfl
  · rw [infinity_mul_twoPow (by omega) (by omega), infinity_mul_twoPow (by omega) (by omega)]
  · obtain rfl : r = 0 := by simpa [isZero, isFinite] using hx
    have hproduct : finite s 0 h * twoPow 0 = finite s 0 h := by
      rw [finite_mul_twoPow (by omega) (by omega), magnitude_zero, zero_mul, nearest_zero,
        ofRank_of_lt h]
    rw [hproduct, hproduct]

/-- Significand and exponent make up the number. -/
theorem scaleTwo_split (x : Binary64) : x.split.significand.scaleTwo x.split.exponent = x := by
  by_cases hx : x.isZero || !x.isFinite
  · rw [split_eq_self hx]
    exact scaleTwo_zero hx
  · obtain ⟨s, r, h, h₀, rfl⟩ := exists_eq_finite hx
    obtain ⟨f, E, hf, hE₁, hE₂, hsplit, hmag⟩ := exists_split (s := s) (h := h) h₀
    rw [hsplit, scaleTwo_eq (Nat.le_add_right _ _) (by omega) hE₁ hE₂, ← hmag, nearest_magnitude,
      ofRank_of_lt h]

/-- **Decomposition.** Apart from zero, a finite number is a significand in `[1/2, 1)` by magnitude
times a power of two in one way only, and this is what `split` finds: with the sign at the
significand, and an exponent from `-1073` to `1024`. Every number, the zeros and the infinities
included, is made up again of the two parts, bit for bit. The decomposition is the one that is
worked out from the fields of the interchange format. -/
theorem split_decomposes (v : Binary64) :
    (v.isFinite → ¬ v.isZero →
      (∀ parts : Split, v.IsSplit parts ↔ parts = v.split) ∧
        v.split.significand.isNegative = v.isNegative ∧
        -1073 ≤ v.split.exponent ∧ v.split.exponent ≤ 1024) ∧
      v.split.significand.scaleTwo v.split.exponent = v ∧ v.splitFields = v.split := by
  refine ⟨fun hfinite hzero => ?_, scaleTwo_split v, splitFields_eq_split v⟩
  obtain ⟨s, r, h, h₀, rfl⟩ := exists_eq_finite (x := v) (by simp [hfinite, hzero])
  have hvalue : (finite s r h).value ≠ 0 := by
    rw [← abs_pos, abs_value_finite]
    exact magnitude_pos h₀
  have hsplit := isSplit_split hvalue
  obtain ⟨f, E, hf, hE₁, hE₂, heq, -⟩ := exists_split (s := s) (h := h) h₀
  refine ⟨fun parts => ⟨fun hparts => hparts.unique hsplit, ?_⟩, ?_⟩
  · rintro rfl
    exact hsplit
  · rw [heq]
    exact ⟨isNegative_ofRank s _, hE₁, hE₂⟩

/-- The least number below zero is `-1/2` times `2⁻¹⁰⁷³`. -/
theorem split_decomposes_least :
    (∀ parts : Split, (ofRank true 1).IsSplit parts ↔ parts = ⟨ofRank true halfRank, -1073⟩) ∧
      (ofRank true halfRank).scaleTwo (-1073) = ofRank true 1 := by
  have hsplit : (ofRank true 1).split = ⟨ofRank true halfRank, -1073⟩ := by decide +kernel
  obtain ⟨hparts, hscaled, -⟩ := split_decomposes (ofRank true 1)
  rw [hsplit] at hparts hscaled
  exact ⟨(hparts (by decide) (by decide)).1, hscaled⟩

end DecimalRounding.Binary64
