import DecimalRounding.Builtin.Round
import DecimalRounding.Proofs.WholePlaces

/-!
# Rounding to tens, hundreds, …

Rounding a number to `-p` digits multiplies a whole number of steps (`stepCount`) by `10 ^ p` and
rounds the product, which is then a multiple of `10 ^ p` only if it needed no rounding
(`tenPow_dvd_nearest_iff`): a magnitude that is a multiple of `10 ^ p` is a magnitude times
`10 ^ p` (`exists_magnitude_of_mul_tenPow`), and two of those are too far apart for one product to
be rounded to the other (`eq_of_nearest_mul_eq`). Rounding integers is exact, so the result stays
what it is in a second rounding exactly if it is a multiple.
-/

namespace DecimalRounding

open Binary64

variable {s : Bool} {r q n m p z : ℕ} {h : r < overflowRank} {hq : q < overflowRank} {k : ℤ}

/-! ### Multiples among the magnitudes -/

/-- A magnitude that is a multiple of a power of ten has few enough digits to be one after the
division, too. -/
theorem exists_magnitude_of_mul_tenPow (hp : p ≤ 22) (hz : magnitude z = (m * 10 ^ p : ℕ)) :
    ∃ r, magnitude r = m := by
  rcases Nat.lt_or_ge (m * 10 ^ p) (2 ^ 52) with hlt | hge
  · have hone : 1 ≤ 10 ^ p := Nat.one_le_pow _ _ (by omega)
    exact exists_magnitude_natCast ((Nat.le_mul_of_pos_right m hone).trans (by omega))
  · obtain ⟨a, b, ha, hab⟩ := exists_significand_eq_magnitude (r := z) (by
      rw [hz]
      exact_mod_cast hge)
    have heq : m * 2 ^ p * 5 ^ p = a * 2 ^ b := by
      have hcast : ((m * 10 ^ p : ℕ) : ℚ) = ((a * 2 ^ b : ℕ) : ℚ) := by
        rw [← hz, hab]
        push_cast
        rfl
      have hnat : m * 10 ^ p = a * 2 ^ b := Nat.cast_injective hcast
      rw [← hnat, mul_assoc, ← mul_pow]
      norm_num
    -- the fives are all in the significand
    have hcoprime : Nat.Coprime (5 ^ p) (2 ^ b) := Nat.Coprime.pow _ _ (by decide)
    obtain ⟨c, rfl⟩ : 5 ^ p ∣ a :=
      hcoprime.dvd_of_dvd_mul_right ⟨m * 2 ^ p, by rw [← heq, mul_comm]⟩
    have hc : c ≤ 2 ^ 53 := (Nat.le_mul_of_pos_left c (Nat.pow_pos (by omega))).trans ha.le
    have hm : m * 2 ^ p = c * 2 ^ b := by
      refine Nat.eq_of_mul_eq_mul_right (Nat.pow_pos (by omega) : 0 < 5 ^ p) ?_
      rw [heq]
      ring
    obtain ⟨r, hr⟩ := exists_magnitude_eq hc (k := (b : ℤ) - p) (by omega)
    refine ⟨r, ?_⟩
    have hm' : (m : ℚ) * 2 ^ p = c * 2 ^ b := by exact_mod_cast hm
    rw [hr, zpow_sub₀ two_ne_zero, zpow_natCast, zpow_natCast, ← mul_div_assoc, ← hm',
      mul_div_cancel_right₀ _ (by positivity)]

/-- Products of different magnitudes with one factor are too far apart to be rounded to each
other. -/
theorem eq_of_nearest_mul_eq {a b : ℕ} {c : ℚ} (hc : 0 < c)
    (hnormal : 2 ^ (-1022 : ℤ) ≤ magnitude a * c)
    (heq : magnitude (nearest (magnitude a * c)) = magnitude b * c) : a = b := by
  have herr := abs_magnitude_nearest_sub_lt hnormal
  rw [heq, ← sub_mul, abs_mul, abs_of_pos hc, ← mul_assoc, mul_lt_mul_iff_of_pos_right hc] at herr
  rcases lt_trichotomy a b with hlt | rfl | hgt
  · have hgap := magnitude_le_mul_sub hlt
    have hmono := magnitude_strictMono hlt
    rw [abs_of_pos (by linarith)] at herr
    linarith
  · rfl
  · have hgap := magnitude_le_mul_sub hgt
    have hmono := magnitude_strictMono hgt
    rw [abs_of_neg (by linarith)] at herr
    linarith

/-! ### Rounded products -/

/-- A natural number rounds to a natural number. -/
theorem exists_natCast_eq_nearest (n : ℕ) : ∃ m : ℕ, magnitude (nearest n) = m := by
  rcases Nat.lt_or_ge (2 ^ 53) n with hlt | hle
  · refine exists_natCast_eq_magnitude (le_magnitude_nearest ⟨twoPowRank 52, ?_⟩ ?_)
    · rw [magnitude_twoPowRank (by omega)]
      norm_num
    · exact_mod_cast (show 2 ^ 52 ≤ n by omega)
  · exact ⟨n, magnitude_nearest_eq (exists_magnitude_natCast hle)⟩

/-- A natural number is left as it is exactly if it is, with any sign, the value of a number. -/
theorem eq_iff_exists_value (hm : magnitude (nearest n) = m) (hlt : nearest n < overflowRank) :
    m = n ↔ ∃ w : Binary64, w.isFinite ∧ w.value = signFactor s * n := by
  constructor
  · rintro rfl
    exact ⟨finite s _ hlt, rfl, by rw [value, hm]⟩
  · rintro ⟨_ | _ | ⟨s', z, hz⟩, hw, hval⟩
    · cases hw
    · cases hw
    · have habs := congrArg abs hval
      rw [abs_value_finite, abs_mul, abs_signFactor, one_mul, Nat.abs_cast] at habs
      rw [← habs, nearest_magnitude, habs] at hm
      exact_mod_cast hm.symm

/-- The rounded product of a magnitude and a power of ten is a multiple of the power only if it is
the product itself. -/
theorem tenPow_dvd_nearest_iff (hp : p ≤ 22) (hn : ∃ w, magnitude w = n)
    (hm : magnitude (nearest (n * 10 ^ p : ℕ)) = m) : 10 ^ p ∣ m ↔ m = n * 10 ^ p := by
  constructor
  · intro hdvd
    obtain ⟨b, rfl⟩ := exists_eq_mul_left_of_dvd hdvd
    rcases n.eq_zero_or_pos with rfl | hpos
    · rw [Nat.zero_mul, Nat.cast_zero, nearest_zero, magnitude_zero] at hm
      have hb : b * 10 ^ p = 0 := by exact_mod_cast hm.symm
      rw [hb, Nat.zero_mul]
    · obtain ⟨w, hw⟩ := hn
      obtain ⟨c, hc⟩ := exists_magnitude_of_mul_tenPow hp hm
      have hone : (1 : ℚ) ≤ (n * 10 ^ p : ℕ) := by
        exact_mod_cast Nat.one_le_iff_ne_zero.mpr (by positivity)
      have hpow : (0 : ℚ) < 10 ^ p := by positivity
      push_cast at hm hone
      rw [← hw] at hm hone
      rw [← hc] at hm
      obtain rfl := eq_of_nearest_mul_eq hpow
        ((zpow_le_one_of_nonpos₀ one_le_two (by omega)).trans hone) hm
      have hnb : n = b := by exact_mod_cast hw.symm.trans hc
      rw [hnb]
  · rintro rfl
    exact Nat.dvd_mul_left _ _

/-- An inexact power of ten is too large for any number of steps but zero. -/
theorem eq_zero_of_intOfRounded_mul {t : ℕ} (ht : 10 ^ 22 ≤ magnitude t)
    (hk : intOfRounded (ofRank s (nearest (n * magnitude t))) = .ok (.int k)) : n = 0 ∧ k = 0 := by
  obtain rfl : n = 0 := by
    by_contra hn
    have hone : (1 : ℚ) ≤ n := by exact_mod_cast Nat.pos_of_ne_zero hn
    have hbig : (2 : ℚ) ^ 64 ≤ magnitude (nearest (n * magnitude t)) := by
      refine le_magnitude_nearest ⟨twoPowRank 64, ?_⟩ (by nlinarith)
      rw [magnitude_twoPowRank (by omega)]
      norm_num
    rw [intOfRounded_ofRank_of_lt (by linarith)] at hk
    cases hk
  rw [intOfRounded_zero_mul] at hk
  injection hk with hk
  injection hk with hk
  exact ⟨rfl, hk.symm⟩

/-! ### Whole steps -/

/-- What rounding to a negative digit count gives, where it gives something: a product of `n` steps,
rounded. It is a multiple of the step exactly if it is the product itself, which is exactly if the
product is the value of a number. -/
theorem exists_of_roundFloat_neg_eq_ok (hp : 1 ≤ p)
    (hk : roundFloat (finite s r h) (-p) = .ok (.int k)) :
    ∃ n m : ℕ, stepCount (finite s r h) p = signFactor s * n ∧ k = signed s m ∧
      (10 ^ p ∣ m ↔ m = n * 10 ^ p) ∧ (m = n * 10 ^ p ↔
        ∃ w : Binary64, w.isFinite ∧ w.value = signFactor s * (n * 10 ^ p : ℕ)) := by
  have hzero : (10 ^ p ∣ 0 ↔ 0 = 0 * 10 ^ p) ∧ (0 = 0 * 10 ^ p ↔
      ∃ w : Binary64, w.isFinite ∧ w.value = signFactor s * (0 * 10 ^ p : ℕ)) := by
    rw [Nat.zero_mul]
    refine ⟨iff_of_true (dvd_zero _) rfl, eq_iff_exists_value (by simp) ?_⟩
    rw [Nat.cast_zero, nearest_zero, overflowRank]
    omega
  rcases Nat.lt_or_ge 308 p with hp' | hp'
  · obtain rfl := eq_zero_of_roundFloat_of_large hp' hk
    exact ⟨0, 0, by simp [stepCount, maxTenPower, hp'], by rw [signed_zero], hzero⟩
  rcases nudge_cases s r h with hnudge | ⟨q, hq, hnudge⟩
  · rw [roundFloat_neg_of_infinity hp hp' hnudge] at hk
    cases hk
  obtain ⟨t, n, hexact, hlarge, -, hn, hcount, hround⟩ := roundFloat_neg_eq hp hp' hnudge
  rw [hround] at hk
  rcases Nat.lt_or_ge 22 p with hp'' | hp''
  · obtain ⟨rfl, rfl⟩ := eq_zero_of_intOfRounded_mul (hlarge hp'') hk
    exact ⟨0, 0, hcount, (signed_zero s).symm, hzero⟩
  · have hprod : (n : ℚ) * magnitude t = (n * 10 ^ p : ℕ) := by
      rw [hexact hp'']
      push_cast
      rfl
    rw [hprod] at hk
    obtain ⟨m, hm⟩ := exists_natCast_eq_nearest (n * 10 ^ p)
    rcases Nat.lt_or_ge (nearest (n * 10 ^ p : ℕ)) overflowRank with hlt | hge
    · rw [ofRank_of_lt hlt, intOfRounded_eq_ok_iff hm, int64?_eq_some_iff] at hk
      exact ⟨n, m, hcount, hk.1.symm, tenPow_dvd_nearest_iff hp'' hn hm,
        eq_iff_exists_value hm hlt⟩
    · rw [ofRank_of_le hge] at hk
      cases hk

/-! ### Rounding twice -/

/-- Integers come from finite numbers. -/
theorem isFinite_of_roundFloat_eq_ok {v : Binary64} {d : ℤ} (hk : roundFloat v d = .ok (.int k)) :
    v.isFinite := by
  rw [roundFloat] at hk
  split_ifs at hk with hpos hinf <;> simp_all

/-- Integers have 64 bits. -/
theorem int64?_of_roundFloat_eq_ok {v : Binary64} {d : ℤ} (hk : roundFloat v d = .ok (.int k)) :
    int64? k = some k := by
  have hpass : ∀ x : Binary64, intOfRounded x = .ok (.int k) → int64? k = some k := fun x hx =>
    int64?_eq_some_iff.mpr ⟨rfl, (intOfRounded_eq_ok_int_iff.mp hx).2⟩
  rw [roundFloat] at hk
  split_ifs at hk
  · cases hk
  · exact hpass _ hk
  · injection hk with hk
    injection hk with hk
    rw [← hk]
    rfl
  · exact hpass _ hk

theorem tenPow_dvd_signed_iff : (10 : ℤ) ^ p ∣ signed s m ↔ 10 ^ p ∣ m := by
  rw [← Int.natAbs_dvd_natAbs, natAbs_signed, Int.natAbs_pow]
  rfl

theorem evaluate_digits (x : Number) (d : ℤ) :
    Round.evaluate [x, .int d] =
      (x.round d).mapError fun reason => .ofCause (.domain Round.name reason.message) := rfl

/-- The other way round: a product of steps that is the value of a number, and has 64 bits, is the
result. -/
theorem roundFloat_neg_eq_ok_of_value (hnudge : (finite s r h).nudge = finite s q hq) (hp : 1 ≤ p)
    (hk : int64? k = some k) (hcount : stepCount (finite s r h) p * 10 ^ p = k)
    (hw : ∃ w : Binary64, w.isFinite ∧ w.value = k) :
    roundFloat (finite s r h) (-p) = .ok (.int k) := by
  have h10 : (0 : ℚ) < 10 ^ p := by positivity
  rcases Nat.lt_or_ge 308 p with hp' | hp'
  · rw [stepCount, if_pos (by rw [maxTenPower]; exact hp'), zero_mul] at hcount
    have hzero : k = 0 := by exact_mod_cast hcount.symm
    rw [roundFloat_of_large hp', hzero]
  obtain ⟨t, n, hexact, -, -, -, hsteps, hround⟩ := roundFloat_neg_eq hp hp' hnudge
  have hkn : k = signed s (n * 10 ^ p) := by
    have hcast : (k : ℚ) = (signed s (n * 10 ^ p) : ℤ) := by
      rw [← hcount, hsteps, signed_cast]
      push_cast
      ring
    exact_mod_cast hcast
  subst hkn
  rw [hround]
  rcases Nat.lt_or_ge 22 p with hp'' | hp''
  · obtain rfl : n = 0 := by
      obtain ⟨-, hlo, hhi⟩ := int64?_eq_some_iff.mp hk
      by_contra hn
      have hle : 1 * 10 ^ 23 ≤ n * 10 ^ p :=
        Nat.mul_le_mul (Nat.pos_of_ne_zero hn) (Nat.pow_le_pow_right (by omega) hp'')
      have habs := natAbs_signed s (n * 10 ^ p)
      omega
    rw [intOfRounded_zero_mul, Nat.zero_mul, signed_zero]
  · have hprod : (n : ℚ) * magnitude t = (n * 10 ^ p : ℕ) := by
      rw [hexact hp'']
      push_cast
      rfl
    obtain ⟨_ | _ | ⟨s', z, hz⟩, hfinite, hval⟩ := hw
    · cases hfinite
    · cases hfinite
    have hmag := congrArg abs hval
    rw [abs_value_finite, signed_cast, abs_mul, abs_signFactor, one_mul, Nat.abs_cast] at hmag
    rw [hprod, ← hmag, nearest_magnitude, ofRank_of_lt hz, intOfRounded_eq_ok_iff hmag, hk]

/-- **Multiples of the step.** Where rounding a number to `-p < 0` digits gives an integer `k`, that
is a multiple of `10 ^ p` exactly if the product of the rounded quotient and `10 ^ p` is the value
of a binary64 number. Exactly then `k` stays as it is in a second rounding, and calling `round`
twice is the same as calling it once. -/
theorem tenPow_dvd_roundFloat_neg_iff {v : Binary64} {p : ℕ} {k : ℤ} (hp : 0 < p)
    (hk : roundFloat v (-p) = .ok (.int k)) :
    ((10 : ℤ) ^ p ∣ k ↔ ∃ w : Binary64, w.isFinite ∧ w.value = stepCount v p * 10 ^ p) ∧
      (Number.round (.int k) (-p) = .ok (.int k) ↔ (10 : ℤ) ^ p ∣ k) ∧
      (Round.evaluate [.int k, .int (-p)] = Round.evaluate [.float v, .int (-p)] ↔
        (10 : ℤ) ^ p ∣ k) := by
  have hself := roundInt_neg_eq_self_iff (int64?_of_roundFloat_eq_ok hk) hp
  refine ⟨?_, hself, ?_⟩
  · obtain _ | _ | ⟨s, r, h⟩ := v
    · cases isFinite_of_roundFloat_eq_ok hk
    · cases isFinite_of_roundFloat_eq_ok hk
    obtain ⟨n, m, hcount, rfl, hdvd, hvalue⟩ := exists_of_roundFloat_neg_eq_ok hp hk
    have hprod : stepCount (finite s r h) p * 10 ^ p = signFactor s * (n * 10 ^ p : ℕ) := by
      rw [hcount]
      push_cast
      ring
    rw [tenPow_dvd_signed_iff, hdvd, hvalue, hprod]
  · have hfirst : Round.evaluate [.float v, .int (-p)] = .ok (.int k) := by
      rw [evaluate_digits, Number.round, hk]
      rfl
    rw [hfirst, evaluate_digits, Number.round, ← hself]
    cases roundInt k (-p) <;> simp [Except.mapError]

/-- For `1250` and hundreds the product is the value of a number. -/
theorem tenPow_dvd_roundFloat_hundreds : 0 < 2 ∧
    roundFloat (ofInt 1250) (-(2 : ℕ)) = .ok (.int 1300) ∧
      ∃ w : Binary64, w.isFinite ∧ w.value = stepCount (ofInt 1250) 2 * 10 ^ 2 := by
  have hk : roundFloat (ofInt 1250) (-(2 : ℕ)) = .ok (.int 1300) := by decide +kernel
  exact ⟨by decide, hk, (tenPow_dvd_roundFloat_neg_iff (by decide) hk).1.mp (by decide)⟩

/-- For `2⁵⁴` and tens it is not: the product `18014398509481990` is rounded to the next multiple of
four, which is no multiple of ten and is rounded once more the second time. -/
theorem not_tenPow_dvd_roundFloat : (ofInt (2 ^ 54)).isFinite ∧
    roundFloat (ofInt (2 ^ 54)) (-(1 : ℕ)) = .ok (.int 18014398509481992) ∧
      ¬ (10 : ℤ) ^ 1 ∣ 18014398509481992 ∧
      Number.round (.int 18014398509481992) (-(1 : ℕ)) = .ok (.int 18014398509481990) := by
  refine ⟨?_, ?_, ?_, ?_⟩ <;> decide +kernel

end DecimalRounding
