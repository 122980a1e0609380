import DecimalRounding.Proofs.NumberLine
import DecimalRounding.Proofs.Multiples
import DecimalRounding.Proofs.FractionPlaces

/-!
# Rounding respects order and sign

To zero or fewer digits, rounding is a chain of steps that respect order and sign, and one passage
to 64-bit integers at the end (`exists_oddMonotone`). The order is kept by all of it, so the numbers
that are rounded successfully form an unbroken range (`roundFloat_mono`). The sign is kept but for
the one integer that has no counterpart, `-2⁶³` (`roundFloat_neg`). To places after the point
rounding respects the sign bit for bit; the order there is another matter.
-/

namespace DecimalRounding

open Binary64

variable {x y z : Binary64} {a b k : ℤ}

/-! ### Integer parts -/

theorem truncate?_neg : (-x).truncate? = x.truncate?.map (-·) := by
  cases x <;> simp [truncate?, signed_not]

theorem isFinite_of_truncate? (h : x.truncate? = some a) : x.isFinite := by
  cases x with
  | nan | infinity => cases h
  | finite => rfl

theorem exists_truncate? (h : x.isFinite) : ∃ a, x.truncate? = some a := by
  cases x with
  | nan | infinity => cases h
  | finite => exact ⟨_, rfl⟩

/-- Integer parts are in the order of the numbers. -/
theorem truncate?_mono (h : x ≤ y) (hx : x.truncate? = some a) (hy : y.truncate? = some b) :
    a ≤ b := by
  obtain _ | _ | ⟨s, i, hi⟩ := x
  · cases hx
  · cases hx
  obtain _ | _ | ⟨t, j, hj⟩ := y
  · cases hy
  · cases hy
  cases hx
  cases hy
  have hdiv : ∀ {i j : ℕ}, i ≤ j → units i / unitsPerOne ≤ units j / unitsPerOne := fun h =>
    Nat.div_le_div_right (units_strictMono.monotone h)
  rw [finite_le_finite_iff, signed_le_signed_iff] at h
  rw [signed_le_signed_iff]
  rcases h with ⟨hs, ht, hij⟩ | ⟨hs, ht, hij⟩ | hst | ⟨rfl, rfl⟩
  · exact .inl ⟨hs, ht, hdiv hij⟩
  · exact .inr (.inl ⟨hs, ht, hdiv hij⟩)
  · exact .inr (.inr (.inl hst))
  · exact .inr (.inr (.inr (by simp)))

/-! ### The passage to 64 bits -/

/-- The error names the number that does not pass. -/
theorem intOfRounded_eq_error_iff {e : RoundingError} :
    intOfRounded x = .error e ↔ e = .outOfRange x ∧ ∀ k, intOfRounded x ≠ .ok (.int k) := by
  rw [intOfRounded]
  cases x.toInt64? <;> simp [eq_comm]

/-- What lies between two numbers that pass, passes, to an integer between theirs. -/
theorem exists_intOfRounded_between (hx : intOfRounded x = .ok (.int a))
    (hy : intOfRounded y = .ok (.int b)) (hxz : x ≤ z) (hzy : z ≤ y) :
    ∃ c, intOfRounded z = .ok (.int c) ∧ a ≤ c ∧ c ≤ b := by
  obtain ⟨ha, hlo, -⟩ := intOfRounded_eq_ok_int_iff.mp hx
  obtain ⟨hb, -, hhi⟩ := intOfRounded_eq_ok_int_iff.mp hy
  obtain ⟨c, hc⟩ := exists_truncate? <|
    isFinite_of_le_of_le (isFinite_of_truncate? ha) (isFinite_of_truncate? hb) hxz hzy
  have hac := truncate?_mono hxz ha hc
  have hcb := truncate?_mono hzy hc hb
  exact ⟨c, intOfRounded_eq_ok_int_iff.mpr ⟨hc, by omega, by omega⟩, hac, hcb⟩

theorem intOfRounded_neg_eq_ok (h : intOfRounded x = .ok (.int k)) (hk : k ≠ -2 ^ 63) :
    intOfRounded (-x) = .ok (.int (-k)) := by
  obtain ⟨htrunc, hlo, hhi⟩ := intOfRounded_eq_ok_int_iff.mp h
  refine intOfRounded_eq_ok_int_iff.mpr ⟨?_, by omega, by omega⟩
  rw [truncate?_neg, htrunc, Option.map_some]

/-- From `2⁵²` on a number is its own integer part. -/
theorem truncate?_eq_iff_value_eq (hk : 2 ^ 52 ≤ |k|) : x.truncate? = some k ↔ x.value = k := by
  have hk' : (2 : ℚ) ^ 52 ≤ |(k : ℚ)| := by exact_mod_cast hk
  have hpos : (0 : ℚ) < 2 ^ 52 := by positivity
  have hzero : ¬ (0 : ℚ) = k := fun h => by
    rw [← h, abs_zero] at hk'
    linarith
  obtain _ | _ | ⟨s, r, h⟩ := x
  · exact iff_of_false (by simp [truncate?]) hzero
  · exact iff_of_false (by simp [truncate?]) hzero
  rcases lt_or_ge (magnitude r) (2 ^ 52) with hsmall | hlarge
  -- below `2⁵²` the integer part and the value are below it
  · refine iff_of_false (fun htrunc => ?_) fun hvalue => ?_
    · have hint : signed s (units r / unitsPerOne) = k := Option.some.inj htrunc
      have hdiv : ((units r / unitsPerOne : ℕ) : ℚ) ≤ magnitude r := Nat.cast_div_le
      rw [← hint, signed_cast, abs_mul, abs_signFactor, one_mul, Nat.abs_cast] at hk'
      linarith
    · rw [← hvalue, abs_value_finite] at hk'
      linarith
  · obtain ⟨n, hn⟩ := exists_natCast_eq_magnitude hlarge
    rw [truncate?_finite hn, Option.some.injEq, value, hn, ← signed_cast, Int.cast_inj]

/-- The mirror image of a number that does not pass, passes only if it is `-2⁶³`. -/
theorem intOfRounded_neg_of_error (h : intOfRounded x = .error (.outOfRange z)) :
    z = x ∧ intOfRounded (-x) =
      if x.value = 2 ^ 63 then .ok (.int (-2 ^ 63)) else .error (.outOfRange (-x)) := by
  obtain ⟨hz, hnone⟩ := intOfRounded_eq_error_iff.mp h
  have hmax : x.truncate? = some (2 ^ 63) ↔ x.value = 2 ^ 63 := by
    rw [truncate?_eq_iff_value_eq (by norm_num)]
    norm_num
  refine ⟨RoundingError.outOfRange.inj hz, ?_⟩
  split_ifs with hvalue
  · refine intOfRounded_eq_ok_int_iff.mpr ⟨?_, le_rfl, by norm_num⟩
    rw [truncate?_neg, hmax.mpr hvalue, Option.map_some]
  · refine intOfRounded_eq_error_iff.mpr ⟨rfl, fun k hk => ?_⟩
    obtain ⟨htrunc, hlo, hhi⟩ := intOfRounded_eq_ok_int_iff.mp hk
    rw [truncate?_neg, Option.map_eq_some_iff] at htrunc
    obtain ⟨n, hn, rfl⟩ := htrunc
    -- an integer part below `2⁶³` would have passed before
    obtain rfl : n = 2 ^ 63 := by
      by_contra hne
      exact hnone n (intOfRounded_eq_ok_int_iff.mpr ⟨hn, by omega, by omega⟩)
    exact hvalue (hmax.mp hn)

/-! ### Zero or fewer digits -/

/-- Rounding to zero or fewer digits is a chain of steps that respect order and sign, and the
passage to 64 bits. -/
theorem exists_oddMonotone {d : ℤ} (hd : d ≤ 0) :
    ∃ F, OddMonotone F ∧ ∀ v : Binary64, v.isFinite → roundFloat v d = intOfRounded (F v) := by
  obtain ⟨p, rfl⟩ : ∃ p : ℕ, d = -p := ⟨d.natAbs, by omega⟩
  rcases p.eq_zero_or_pos with rfl | hp
  · refine ⟨_, oddMonotone_roundWhole.comp oddMonotone_nudge, fun v hv => ?_⟩
    obtain _ | _ | ⟨s, r, h⟩ := v
    · cases hv
    · cases hv
    rfl
  rcases Nat.lt_or_ge 308 p with hp' | hp'
  · refine ⟨_, oddMonotone_zero, fun v hv => ?_⟩
    obtain _ | _ | ⟨s, r, h⟩ := v
    · cases hv
    · cases hv
    have hzero : intOfRounded (zero s) = .ok (.int (signed s 0)) := by
      rw [zero, ofRank_of_lt (Nat.zero_lt_of_lt h)]
      exact intOfRounded_of_lt (by simp) (by norm_num)
    rw [roundFloat_of_large hp', ← signed_zero s, ← hzero]
    rfl
  · obtain ⟨t, ht, hpow, hexact, hlarge⟩ := exists_tenPow hp'
    have ht₀ := ne_zero_of_one_le_magnitude (one_le_magnitude_tenPow hexact hlarge)
    refine ⟨_, (oddMonotone_mul (h := ht) ht₀).comp <| oddMonotone_roundWhole.comp <|
      (oddMonotone_div (h := ht) ht₀).comp oddMonotone_nudge, fun v hv => ?_⟩
    obtain _ | _ | ⟨s, r, h⟩ := v
    · cases hv
    · cases hv
    rw [roundFloat_neg_unfold hp hp', hpow]

/-- **Order.** If two numbers `v ≤ w` are rounded to zero or fewer digits, the results are in the
same order, and every number between them is rounded, too, to an integer between theirs. -/
theorem roundFloat_mono {v w : Binary64} {d : ℤ} (hd : d ≤ 0) (hvw : v ≤ w)
    (ha : roundFloat v d = .ok (.int a)) (hb : roundFloat w d = .ok (.int b)) :
    a ≤ b ∧ ∀ u : Binary64, v ≤ u → u ≤ w →
      ∃ c, roundFloat u d = .ok (.int c) ∧ a ≤ c ∧ c ≤ b := by
  obtain ⟨F, hF, hround⟩ := exists_oddMonotone hd
  have hv := isFinite_of_roundFloat_eq_ok ha
  have hw := isFinite_of_roundFloat_eq_ok hb
  have hbetween : ∀ u : Binary64, v ≤ u → u ≤ w →
      ∃ c, roundFloat u d = .ok (.int c) ∧ a ≤ c ∧ c ≤ b := fun u hvu huw => by
    rw [hround v hv] at ha
    rw [hround w hw] at hb
    rw [hround u (isFinite_of_le_of_le hv hw hvu huw)]
    exact exists_intOfRounded_between ha hb (hF.map_le hvu) (hF.map_le huw)
  refine ⟨?_, hbetween⟩
  obtain ⟨c, hc, hac, hcb⟩ := hbetween w hvw (le_self (by rintro rfl; cases hw))
  exact hac.trans hcb

/-- The numbers from `-1.5` to `2.5` round to integers from `-2` to `3`. -/
theorem roundFloat_mono_halves : (0 : ℤ) ≤ 0 ∧ ofRatio true 3 2 ≤ ofRatio false 5 2 ∧
    roundFloat (ofRatio true 3 2) 0 = .ok (.int (-2)) ∧
    roundFloat (ofRatio false 5 2) 0 = .ok (.int 3) ∧
    ∀ u : Binary64, ofRatio true 3 2 ≤ u → u ≤ ofRatio false 5 2 →
      ∃ c, roundFloat u 0 = .ok (.int c) ∧ -2 ≤ c ∧ c ≤ 3 := by
  have hle : ofRatio true 3 2 ≤ ofRatio false 5 2 := by decide +kernel
  have hlow : roundFloat (ofRatio true 3 2) 0 = .ok (.int (-2)) := by decide +kernel
  have hhigh : roundFloat (ofRatio false 5 2) 0 = .ok (.int 3) := by decide +kernel
  exact ⟨le_rfl, hle, hlow, hhigh, (roundFloat_mono le_rfl hle hlow hhigh).2⟩

/-! ### Places after the point -/

/-- The nudged number, the decimal and the number that is read have the sign of the number. -/
theorem roundFraction_neg (x : Binary64) (d : ℕ) : roundFraction (-x) d = -roundFraction x d := by
  obtain _ | _ | ⟨s, r, h⟩ := x
  · rfl
  · rfl
  by_cases hreads : Decimal.Reads r d
  · rw [neg_finite, roundFraction_of_reads hreads, roundFraction_of_reads hreads, neg_finite]
  · obtain ⟨q, hq, -, -, hnudge, hround⟩ := roundFraction_of_not_reads (s := s) (h := h) hreads
    obtain ⟨q', hq', -, -, hnudge', hround'⟩ :=
      roundFraction_of_not_reads (s := !s) (h := h) hreads
    obtain rfl : q' = q := by
      rw [← neg_finite, nudge_neg, hnudge, neg_finite] at hnudge'
      cases hnudge'
      rfl
    rw [neg_finite, hround, hround', neg_ofRank]

/-- Infinities stay, and finite numbers become finite ones. -/
theorem roundFraction_ne_nan (hx : x ≠ nan) (d : ℕ) : roundFraction x d ≠ nan := by
  obtain _ | _ | ⟨s, r, h⟩ := x
  · exact absurd rfl hx
  · exact hx
  obtain ⟨r', h', hround, -⟩ := exists_roundFraction s r d h
  rw [hround]
  rintro ⟨⟩

/-! ### All digit counts -/

/-- **Sign.** Let `v` be a number, not `nan`. To `d > 0` places `-v` is rounded to what `v` is
rounded to, with the sign bit turned over and no other. To zero or fewer digits an integer `k`
becomes `-k`, unless it is `-2⁶³`, which has no counterpart of 64 bits; an infinity that cannot be
rounded is mirrored; and so is a rounded number that is out of range, except `2⁶³` itself, since
`-2⁶³` is in range. -/
theorem roundFloat_neg {v : Binary64} (hv : v ≠ nan) (d : ℤ) :
    (0 < d → ∃ r : Binary64, roundFloat v d = .ok (.float r) ∧
      roundFloat (-v) d = .ok (.float (-r)) ∧ (-r).toBits = r.toBits ^^^ signBit) ∧
    (d ≤ 0 →
      (∀ k, roundFloat v d = .ok (.int k) → k ≠ -2 ^ 63 →
        roundFloat (-v) d = .ok (.int (-k))) ∧
      (∀ x, roundFloat v d = .error (.notFinite x) →
        roundFloat (-v) d = .error (.notFinite (-x))) ∧
      ∀ x, roundFloat v d = .error (.outOfRange x) → roundFloat (-v) d =
        if x.value = 2 ^ 63 then .ok (.int (-2 ^ 63)) else .error (.outOfRange (-x))) := by
  constructor
  · intro hd
    refine ⟨roundFraction v d.toNat, by rw [roundFloat, if_pos hd], ?_,
      toBits_neg (roundFraction_ne_nan hv _)⟩
    rw [roundFloat, if_pos hd, roundFraction_neg]
  intro hd
  obtain ⟨F, hF, hround⟩ := exists_oddMonotone hd
  obtain _ | s | ⟨s, r, h⟩ := v
  · exact absurd rfl hv
  · have herror : ∀ s, roundFloat (.infinity s) d = .error (.notFinite (.infinity s)) := fun s => by
      rw [roundFloat, if_neg (not_lt.mpr hd)]
      rfl
    rw [neg_infinity, herror, herror]
    refine ⟨fun k hk => ?_, fun x hx => ?_, fun x hx => ?_⟩
    · cases hk
    · cases hx
      rfl
    · cases hx
  · rw [neg_finite, hround _ rfl, hround _ rfl, ← neg_finite, hF.map_neg]
    refine ⟨fun k hk hmin => intOfRounded_neg_eq_ok hk hmin, fun x hx => ?_, fun x hx => ?_⟩
    · cases (intOfRounded_eq_error_iff.mp hx).1
    · obtain ⟨rfl, hneg⟩ := intOfRounded_neg_of_error hx
      exact hneg

/-- Positive zero, and a number that is nudged to `2⁶³`, just out of range: its mirror image is the
least 64-bit integer. -/
theorem roundFloat_neg_ends : zero false ≠ nan ∧ (0 : ℤ) < 2 ∧ ofInt (2 ^ 63 - 1024) ≠ nan ∧
    (0 : ℤ) ≤ 0 ∧ roundFloat (-zero false) 2 = .ok (.float (zero true)) ∧
    roundFloat (ofInt (2 ^ 63 - 1024)) 0 = .error (.outOfRange (ofInt (2 ^ 63))) ∧
    roundFloat (-ofInt (2 ^ 63 - 1024)) 0 = .ok (.int (-2 ^ 63)) := by
  have hzero : zero false ≠ nan := by decide +kernel
  have hnear : ofInt (2 ^ 63 - 1024) ≠ nan := by decide +kernel
  have hround : roundFloat (zero false) 2 = .ok (.float (zero false)) := by decide +kernel
  have hrange : roundFloat (ofInt (2 ^ 63 - 1024)) 0 = .error (.outOfRange (ofInt (2 ^ 63))) := by
    decide +kernel
  have hvalue : (ofInt (2 ^ 63)).value = 2 ^ 63 := by decide +kernel
  obtain ⟨r, hr, hneg, -⟩ := (roundFloat_neg hzero 2).1 (by decide)
  obtain rfl : zero false = r := Number.float.inj (Except.ok.inj (hround.symm.trans hr))
  refine ⟨hzero, by decide, hnear, le_rfl, hneg.trans (by rw [zero, neg_ofRank]; rfl), hrange, ?_⟩
  rw [((roundFloat_neg hnear 0).2 le_rfl).2.2 _ hrange, if_pos hvalue]

end DecimalRounding
