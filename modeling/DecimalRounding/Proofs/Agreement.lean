import DecimalRounding.Proofs.Multiples
import DecimalRounding.Proofs.ShortDecimals

/-!
# Integers and their binary64 numbers

An integer that is the value of a binary64 number can be rounded in two ways, exactly as an integer
and after the nudge as a number. Below `2⁵⁰` both have the same outcome. From `2⁵⁰` on the nudge
moves the number by one half or more (`add_half_le_magnitude_nudgeRank`), so that rounding it to no
digits gives a different integer; for negative digit counts the outcomes agree as long as the
nudged number stands for the same number of steps and their product needs no rounding
(`sameOutcome_ofInt_neg_iff`).
-/

namespace DecimalRounding

open Binary64

/-- Both succeed with the same number, or both fail. -/
def SameOutcome (x y : Except RoundingError Number) : Prop := x.toOption = y.toOption

variable {s : Bool} {r q n p M : ℕ} {h : r < overflowRank} {k : ℤ}

theorem sameOutcome_ok_iff {x : Except RoundingError Number} {a : Number} :
    SameOutcome x (.ok a) ↔ x = .ok a := by
  cases x <;> simp [SameOutcome, Except.toOption]

/-! ### Integers that are numbers -/

/-- An integer that is the value of its number, in signs and ranks. -/
theorem ofInt_eq_finite (hk : int64? k = some k) (hrep : (ofInt k).value = k) :
    ∃ s r, ∃ h : r < overflowRank, ofInt k = finite s r h ∧ nearest k.natAbs = r ∧
      magnitude r = k.natAbs ∧ k = signed s k.natAbs := by
  obtain ⟨-, hlo, hhi⟩ := int64?_eq_some_iff.mp hk
  have hle : nearest k.natAbs ≤ twoPowRank 63 := by
    refine nearest_le (Nat.cast_nonneg _) ?_
    rw [magnitude_twoPowRank (by omega)]
    exact_mod_cast (show k.natAbs ≤ 2 ^ 63 by omega)
  have hlt := hle.trans_lt (twoPowRank_lt (by omega))
  rw [ofInt_eq, ofRank_of_lt hlt] at hrep ⊢
  refine ⟨_, _, hlt, rfl, rfl, ?_, ?_⟩
  · have habs := congrArg abs hrep
    rw [abs_value_finite] at habs
    rw [habs, Nat.cast_natAbs, Int.cast_abs]
  · rcases lt_or_ge k 0 with hneg | hpos
    · rw [decide_eq_true hneg, signed, if_pos rfl]
      omega
    · rw [decide_eq_false (not_lt.mpr hpos), signed, if_neg (by simp)]
      omega

/-- The nudge of a number that is the value of a 64-bit integer is finite, and leads outward. -/
theorem exists_nudge_of_natCast (hM : magnitude r = M) (hle : M ≤ 2 ^ 63) :
    ∃ q, ∃ hq : q < overflowRank, (finite s r h).nudge = finite s q hq ∧
      magnitude r ≤ magnitude q ∧ (0 < M → q = nudgeRank r) := by
  rcases M.eq_zero_or_pos with rfl | hpos
  · obtain rfl : r = 0 := magnitude_strictMono.injective (by rw [hM, magnitude_zero, Nat.cast_zero])
    exact ⟨0, h, nudge_zero, le_rfl, by omega⟩
  · have hone : (1 : ℚ) ≤ magnitude r := by
      rw [hM]
      exact_mod_cast hpos
    have hnormal : 2 ^ 52 ≤ r := by
      rw [← magnitude_strictMono.le_iff_le, magnitude_normal]
      exact (zpow_le_one_of_nonpos₀ one_le_two (by omega)).trans hone
    have hq : nudgeRank r < overflowRank := by
      have hrank : r ≤ twoPowRank 63 := by
        rw [← magnitude_strictMono.le_iff_le, magnitude_twoPowRank (by omega), hM]
        exact_mod_cast hle
      have hstep := nudgeRank_le r
      rw [twoPowRank] at hrank
      rw [overflowRank]
      omega
    exact ⟨_, hq, by rw [nudge_normal hnormal, ofRank_of_lt hq],
      magnitude_strictMono.monotone (lt_nudgeRank r).le, fun _ => rfl⟩

/-! ### Below `2⁵⁰` -/

/-- A small integer rounds to the same integer either way. -/
theorem sameOutcome_ofInt_of_lt (hk : int64? k = some k) (hrep : (ofInt k).value = k)
    (hlt : |k| < 2 ^ 50) (p : ℕ) :
    SameOutcome (roundFloat (ofInt k) (-p)) (roundInt k (-p)) := by
  obtain ⟨s, r, h, hfinite, hr, -, hs⟩ := ofInt_eq_finite hk hrep
  have hM : k.natAbs < 2 ^ 50 := by
    rw [Int.abs_eq_natAbs] at hlt
    omega
  have hy : (k.natAbs : ℚ) = 0 ∨ 2 ^ (-1022 : ℤ) ≤ (k.natAbs : ℚ) := by
    rcases k.natAbs.eq_zero_or_pos with hzero | hpos
    · exact .inl (by rw [hzero, Nat.cast_zero])
    · have hone : (1 : ℚ) ≤ k.natAbs := by exact_mod_cast hpos
      exact .inr ((zpow_le_one_of_nonpos₀ one_le_two (by omega)).trans hone)
  have hround := roundFloat_nonpos_short (s := s) (h := h) (p := p) (j := 0) hM (by simp) hy hr
  rw [hfinite]
  rcases p.eq_zero_or_pos with rfl | hp
  · have hwhole : ⌊(k.natAbs : ℚ) / 10 ^ 0 + 1 / 2⌋₊ = k.natAbs := by
      rw [pow_zero, div_one, Nat.floor_eq_iff (by positivity)]
      constructor <;> linarith
    rw [hround, hwhole, pow_zero, Nat.mul_one, ← hs, Nat.cast_zero, neg_zero, roundInt, if_pos rfl]
    rfl
  · rw [SameOutcome, hround, roundInt_neg_toOption hk hp]
    have hint := int64?_of_roundFloat_eq_ok hround
    rw [← nearestMultiple_signed, ← hs] at hint ⊢
    rw [hint]
    rfl

/-! ### From `2⁵⁰` on -/

/-- From `2⁵⁰` on the nudge moves a whole number by one half at least. In the group from there to
`2⁵¹` a step is a quarter, and none of its whole numbers is the last one of the group. -/
theorem add_half_le_magnitude_nudgeRank (hM : magnitude r = M) (hlarge : 2 ^ 50 ≤ M) :
    (M : ℚ) + 1 / 2 ≤ magnitude (nudgeRank r) := by
  have hrank : twoPowRank 50 ≤ r := by
    rw [← magnitude_strictMono.le_iff_le, magnitude_twoPowRank (by omega), hM]
    exact_mod_cast hlarge
  rw [twoPowRank] at hrank
  obtain ⟨e, m, h₁, h₂, rfl, -⟩ := exists_group (show 2 ^ 52 ≤ r by omega)
  obtain ⟨f, rfl⟩ : ∃ f, e = 1072 + f := ⟨e - 1072, by omega⟩
  have hmag : ∀ i, 2 ^ 52 ≤ i → i ≤ 2 ^ 53 →
      magnitude ((1072 + f) * 2 ^ 52 + i) = i * 2 ^ f / 4 := fun i hi hi' => by
    have hexp : ((1072 + f : ℕ) : ℤ) - 1074 = f + -2 := by omega
    rw [magnitude_group _ hi hi', hexp, zpow_add₀ two_ne_zero, zpow_natCast, ← mul_assoc,
      div_eq_mul_inv]
    norm_num
  rw [hmag m h₁ h₂.le] at hM
  have hone : (1 : ℚ) ≤ 2 ^ f := one_le_pow₀ one_le_two
  by_cases hlast : ((1072 + f) * 2 ^ 52 + m) % 2 ^ 52 = 2 ^ 52 - 1
  · obtain rfl : m = 2 ^ 53 - 1 := by omega
    rw [nudgeRank, if_pos hlast, add_assoc, hmag _ (by omega) (by omega), ← hM]
    rcases f.eq_zero_or_pos with rfl | hf
    · exfalso
      have hquarter : ((2 ^ 53 - 1 : ℕ) : ℚ) = (M * 4 : ℕ) := by
        rw [pow_zero, mul_one, div_eq_iff (by norm_num)] at hM
        rw [hM]
        push_cast
        rfl
      have hnat : 2 ^ 53 - 1 = M * 4 := Nat.cast_injective hquarter
      omega
    · have htwo : (2 : ℚ) ≤ 2 ^ f := le_self_pow₀ one_le_two hf.ne'
      push_cast
      linarith
  · have hnext : (1072 + f) * 2 ^ 52 + m + 2 = (1072 + f) * 2 ^ 52 + (m + 2) := by ring
    rw [nudgeRank_of_ne hlast, hnext, hmag _ (by omega) (by omega), ← hM]
    push_cast
    linarith

/-- A large integer becomes a different one when its number is rounded to no digits. -/
theorem not_sameOutcome_ofInt_zero (hk : int64? k = some k) (hrep : (ofInt k).value = k)
    (hlarge : 2 ^ 50 ≤ |k|) : ¬ SameOutcome (roundFloat (ofInt k) 0) (roundInt k 0) := by
  obtain ⟨s, r, h, hfinite, -, hM, hs⟩ := ofInt_eq_finite hk hrep
  obtain ⟨-, hlo, hhi⟩ := int64?_eq_some_iff.mp hk
  have hM' : 2 ^ 50 ≤ k.natAbs := by
    rw [Int.abs_eq_natAbs] at hlarge
    omega
  obtain ⟨q, hq, hnudge, -, hrank⟩ := exists_nudge_of_natCast (s := s) (h := h) hM (by omega)
  obtain ⟨w, hw, hwhole, hround⟩ := roundFloat_zero_eq hnudge
  have hmore : k.natAbs + 1 ≤ ⌊magnitude q + 1 / 2⌋₊ := by
    have hhalf := add_half_le_magnitude_nudgeRank hM hM'
    rw [← hrank (by omega)] at hhalf
    refine Nat.le_floor ?_
    push_cast
    linarith
  have hint : roundInt k 0 = .ok (.int k) := by rw [roundInt, if_pos rfl]
  rw [hint, sameOutcome_ok_iff, hfinite, hround, intOfRounded_eq_ok_iff hwhole,
    int64?_eq_some_iff]
  rintro ⟨heq, -⟩
  have habs := natAbs_signed s ⌊magnitude q + 1 / 2⌋₊
  rw [heq] at habs
  omega

/-! ### Negative digit counts -/

/-- Numbers below `2⁶³` are not close to it. -/
private theorem add_le_of_lt (hM : magnitude r = M) (hlt : M < 2 ^ 63) : M + 1024 ≤ 2 ^ 63 := by
  have hpow : magnitude (twoPowRank 63) = 2 ^ 63 := by
    rw [magnitude_twoPowRank (by omega)]
    norm_num
  have hrank : r < twoPowRank 63 := by
    rw [← magnitude_strictMono.lt_iff_lt, hpow, hM]
    exact_mod_cast hlt
  have hgap := magnitude_le_mul_sub hrank
  rw [hpow, hM] at hgap
  have hcast : (M : ℚ) + 1024 ≤ 2 ^ 63 := by linarith
  exact_mod_cast hcast

/-- Where the nearest multiple of ten thousand or a larger step is out of range, the number of steps
is no smaller after the nudge, and the product is far out of range. -/
private theorem roundFloat_neg_of_large_multiple (hM : magnitude r = M) (hle : M ≤ 2 ^ 63)
    (hp : 4 ≤ p) (hlarge : 2 ^ 63 ≤ ⌊(M : ℚ) / 10 ^ p + 1 / 2⌋₊ * 10 ^ p) :
    (roundFloat (finite s r h) (-p)).toOption = none := by
  have h10 : (0 : ℚ) < 10 ^ p := by positivity
  have hM' : (M : ℚ) ≤ 2 ^ 63 := by exact_mod_cast hle
  have hp' : p ≤ 22 := by
    by_contra hmore
    rw [floor_div_tenPow_eq_zero hM' (by omega)] at hlarge
    omega
  obtain ⟨q, hq, hnudge, hmore, -⟩ := exists_nudge_of_natCast (s := s) (h := h) hM hle
  obtain ⟨t, n, hexact, -, hn, -, -, hround⟩ :=
    roundFloat_neg_eq (p := p) (by omega) (by omega) hnudge
  have hsteps : ⌊(M : ℚ) / 10 ^ p + 1 / 2⌋₊ ≤ n := by
    rw [hn, hexact hp']
    refine floor_le_floor_nearest (by positivity) ?_ ?_
    · have hpow : (10 : ℚ) ^ 4 ≤ 10 ^ p := pow_le_pow_right₀ (by norm_num) hp
      rw [div_le_iff₀ h10]
      linarith
    · rw [← hM]
      exact div_le_div_of_nonneg_right hmore h10.le
  -- a multiple of ten thousand past `2⁶³` is past the number after it
  have hpast : 2 ^ 63 + 2 ^ 11 ≤ n * 10 ^ p := by
    have hge : 2 ^ 63 ≤ n * 10 ^ p := hlarge.trans (Nat.mul_le_mul_right _ hsteps)
    obtain ⟨c, hc⟩ := Nat.exists_eq_add_of_le hp
    have hten : n * 10 ^ p = 10000 * (n * 10 ^ c) := by
      rw [hc, pow_add]
      ring
    rw [hten] at hge ⊢
    omega
  have hbig : (2 : ℚ) ^ 63 + 2 ^ 11 ≤ magnitude (nearest (n * magnitude t)) := by
    obtain ⟨z, hz⟩ := exists_magnitude_eq (m := 2 ^ 52 + 1) (by omega) (k := 11) (by omega)
    refine le_magnitude_nearest ⟨z, ?_⟩ ?_
    · rw [hz]
      norm_num
    · rw [hexact hp']
      exact_mod_cast hpast
  rw [hround, intOfRounded_ofRank_of_lt (by linarith)]
  rfl

/-- The least 64-bit integer, nudged, is out of range for steps of a thousand and less. -/
private theorem roundFloat_int64Min (hp : 1 ≤ p) (hp' : p ≤ 3) :
    (roundFloat (ofInt (-2 ^ 63)) (-p)).toOption = none := by
  interval_cases p <;> decide +kernel

/-- Where the nearest multiple has more than 64 bits, rounding the number fails, too. -/
theorem roundFloat_neg_of_overflow (hk : int64? k = some k) (hrep : (ofInt k).value = k)
    (hp : 1 ≤ p) (hout : int64? (nearestMultiple k p) = none) :
    (roundFloat (ofInt k) (-p)).toOption = none := by
  obtain ⟨s, r, h, hfinite, -, hM, hs⟩ := ofInt_eq_finite hk hrep
  obtain ⟨-, hlo, hhi⟩ := int64?_eq_some_iff.mp hk
  have hlarge : 2 ^ 63 ≤ ⌊(k.natAbs : ℚ) / 10 ^ p + 1 / 2⌋₊ * 10 ^ p := by
    by_contra hlt
    rw [hs, nearestMultiple_signed, int64?_of_natAbs_lt (by rw [natAbs_signed]; omega)] at hout
    cases hout
  rcases Nat.lt_or_ge 3 p with hp' | hp'
  · rw [hfinite]
    exact roundFloat_neg_of_large_multiple hM (by omega) hp' hlarge
  -- smaller steps lead out of range from the least integer only
  · suffices hmin : k = -2 ^ 63 by
      rw [hmin]
      exact roundFloat_int64Min hp hp'
    have hfloor := Nat.floor_le (show 0 ≤ (k.natAbs : ℚ) / 10 ^ p + 1 / 2 by positivity)
    generalize ⌊(k.natAbs : ℚ) / 10 ^ p + 1 / 2⌋₊ = H at *
    have h10 : (0 : ℚ) < 10 ^ p := by positivity
    have hclose : 2 * (H * 10 ^ p) ≤ 2 * k.natAbs + 10 ^ p := by
      have hcast : 2 * ((H : ℚ) * 10 ^ p) ≤ 2 * k.natAbs + 10 ^ p := by
        have hmul := mul_le_mul_of_nonneg_right hfloor h10.le
        rw [add_mul, div_mul_cancel₀ _ h10.ne'] at hmul
        linarith
      exact_mod_cast hcast
    have hthousand : 10 ^ p ≤ 10 ^ 3 := Nat.pow_le_pow_right (by omega) hp'
    have habs : k.natAbs = 2 ^ 63 := by
      by_contra hne
      have hgap := add_le_of_lt hM (by omega)
      omega
    omega

/-- Negative digit counts: the outcomes are the same where the exact one is out of range, and where
the rounded quotient is the exact number of steps and the nearest multiple is the value of a
number. -/
theorem sameOutcome_ofInt_neg_iff (hk : int64? k = some k) (hrep : (ofInt k).value = k)
    (hp : 1 ≤ p) :
    SameOutcome (roundFloat (ofInt k) (-p)) (roundInt k (-p)) ↔
      int64? (nearestMultiple k p) = none ∨
        (stepCount (ofInt k) p * 10 ^ p = nearestMultiple k p ∧
          ∃ w : Binary64, w.isFinite ∧ w.value = nearestMultiple k p) := by
  rw [SameOutcome, roundInt_neg_toOption hk hp]
  cases hout : int64? (nearestMultiple k p) with
  | none =>
    rw [roundFloat_neg_of_overflow hk hrep hp hout]
    exact iff_of_true rfl (.inl rfl)
  | some a =>
    obtain ⟨rfl, -⟩ := int64?_eq_some_iff.mp hout
    have hok : (roundFloat (ofInt k) (-p)).toOption = some (.int (nearestMultiple k p)) ↔
        roundFloat (ofInt k) (-p) = .ok (.int (nearestMultiple k p)) := sameOutcome_ok_iff
    rw [Option.map_some, hok, or_iff_right (by simp)]
    obtain ⟨s, r, h, hfinite, -, hM, hs⟩ := ofInt_eq_finite hk hrep
    rw [hfinite]
    constructor
    · intro hround
      obtain ⟨n, m, hcount, hm, hdvd, hvalue⟩ := exists_of_roundFloat_neg_eq_ok hp hround
      have hmul : (10 : ℤ) ^ p ∣ nearestMultiple k p := Dvd.intro_left _ rfl
      rw [hm, tenPow_dvd_signed_iff, hdvd] at hmul
      have hprod : (nearestMultiple k p : ℚ) = signFactor s * (n * 10 ^ p : ℕ) := by
        rw [hm, signed_cast, hmul]
      refine ⟨?_, ?_⟩
      · rw [hcount, hprod]
        push_cast
        ring
      · rw [hprod]
        exact hvalue.mp hmul
    · rintro ⟨hcount, hw⟩
      obtain ⟨-, hlo, hhi⟩ := int64?_eq_some_iff.mp hk
      obtain ⟨q, hq, hnudge, -⟩ := exists_nudge_of_natCast (s := s) (h := h) hM (by omega)
      exact roundFloat_neg_eq_ok_of_value hnudge hp hout hcount hw

/-- **Integers and their numbers.** For a 64-bit integer `k` that is the value of its binary64
number, rounding the number has the same outcome as rounding the integer for all digit counts
`d ≤ 0` exactly if `|k| < 2⁵⁰`, and already for `d = 0` exactly then. For a single digit count
`-p < 0` it has exactly if the exact result has more than 64 bits, or is the product of the rounded
quotient and `10 ^ p` and the value of a binary64 number. -/
theorem sameOutcome_ofInt_iff {k : ℤ} (hk : int64? k = some k) (hrep : (ofInt k).value = k) :
    ((∀ d ≤ 0, SameOutcome (Number.round (.float (ofInt k)) d) (Number.round (.int k) d)) ↔
        |k| < 2 ^ 50) ∧
      (SameOutcome (Number.round (.float (ofInt k)) 0) (Number.round (.int k) 0) ↔ |k| < 2 ^ 50) ∧
      ∀ p : ℕ, 1 ≤ p →
        (SameOutcome (Number.round (.float (ofInt k)) (-p)) (Number.round (.int k) (-p)) ↔
          int64? (nearestMultiple k p) = none ∨
            (stepCount (ofInt k) p * 10 ^ p = nearestMultiple k p ∧
              ∃ w : Binary64, w.isFinite ∧ w.value = nearestMultiple k p)) := by
  have hsmall : |k| < 2 ^ 50 →
      ∀ d ≤ 0, SameOutcome (Number.round (.float (ofInt k)) d) (Number.round (.int k) d) := by
    intro hlt d hd
    obtain ⟨p, rfl⟩ : ∃ p : ℕ, d = -p := ⟨d.natAbs, by omega⟩
    exact sameOutcome_ofInt_of_lt hk hrep hlt p
  have hzero : SameOutcome (Number.round (.float (ofInt k)) 0) (Number.round (.int k) 0) →
      |k| < 2 ^ 50 := by
    intro hsame
    by_contra hlarge
    exact not_sameOutcome_ofInt_zero hk hrep (not_lt.mp hlarge) hsame
  refine ⟨⟨fun hall => hzero (hall 0 le_rfl), hsmall⟩,
    ⟨hzero, fun hlt => hsmall hlt 0 le_rfl⟩, fun p hp => ?_⟩
  exact sameOutcome_ofInt_neg_iff hk hrep hp

/-- The integer `1250` is small enough, and its number rounds to the same hundreds. -/
theorem sameOutcome_ofInt_hundreds : int64? 1250 = some 1250 ∧ (ofInt 1250).value = (1250 : ℤ) ∧
    SameOutcome (Number.round (.float (ofInt 1250)) (-2)) (Number.round (.int 1250) (-2)) := by
  have hk : int64? 1250 = some 1250 := by decide
  have hrep : (ofInt 1250).value = (1250 : ℤ) := by decide +kernel
  exact ⟨hk, hrep, (sameOutcome_ofInt_iff hk hrep).1.mpr (by norm_num) (-2) (by norm_num)⟩

/-- The integer `2⁵⁰` is not: its number is nudged half-way to the next integer, and rounded to
that. -/
theorem not_sameOutcome_ofInt : int64? (2 ^ 50) = some (2 ^ 50) ∧
    (ofInt (2 ^ 50)).value = (2 ^ 50 : ℤ) ∧
      Number.round (.float (ofInt (2 ^ 50))) 0 = .ok (.int 1125899906842625) ∧
      Number.round (.int (2 ^ 50)) 0 = .ok (.int 1125899906842624) := by
  refine ⟨?_, ?_, ?_, ?_⟩ <;> decide +kernel

end DecimalRounding
