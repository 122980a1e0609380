import DecimalRounding.Proofs.TwoPowers

/-!
# Powers of ten

Up to the twenty-second, powers of ten are binary64 numbers and `tenPow` gives them
(`tenPow_exact`). Beyond, every product of the squaring is rounded; `Within k y r` says that `r`
lies within `k` roundings of `y`, such errors add up along the recursion (`powAux_within`), and
since the first four squarings are exact only nineteen of them are left up to the largest power
(`tenPow_within`).
-/

namespace DecimalRounding.Binary64

/-! ### Exact powers -/

/-- A power of ten up to the twenty-second needs no more than 53 binary digits. -/
theorem exists_magnitude_tenPow {p : ℕ} (h : p ≤ 22) : ∃ r, magnitude r = 10 ^ p := by
  have h5 : 5 ^ p ≤ 2 ^ 53 := (Nat.pow_le_pow_right (by omega) h).trans (by omega)
  obtain ⟨r, hr⟩ := exists_magnitude_eq h5 (k := p) (by omega)
  refine ⟨r, ?_⟩
  rw [hr, zpow_natCast, Nat.cast_pow, ← mul_pow]
  norm_num

theorem magnitude_nearest_tenPow {p : ℕ} (h : p ≤ 22) : magnitude (nearest (10 ^ p)) = 10 ^ p :=
  magnitude_nearest_eq (exists_magnitude_tenPow h)

theorem nearest_tenPow_lt {p : ℕ} (h : p ≤ 22) : nearest (10 ^ p) < overflowRank := by
  refine lt_of_le_of_lt (nearest_le (r := twoPowRank 74) (by positivity) ?_)
    (twoPowRank_lt (by omega))
  rw [magnitude_twoPowRank (by omega)]
  calc (10 : ℚ) ^ p ≤ 10 ^ 22 := pow_le_pow_right₀ (by norm_num) h
    _ ≤ 2 ^ (74 : ℤ) := by norm_num

/-- Products of exact powers of ten are exact. -/
private theorem tenPow_mul {i j : ℕ} (h : i + j ≤ 22) :
    ofRank false (nearest (10 ^ i)) * ofRank false (nearest (10 ^ j)) =
      ofRank false (nearest (10 ^ (i + j))) := by
  rw [ofRank_mul_ofRank (nearest_tenPow_lt (by omega)) (nearest_tenPow_lt (by omega)),
    Bool.xor_self, magnitude_nearest_tenPow (by omega), magnitude_nearest_tenPow (by omega),
    ← pow_add]

/-- A power of ten as squaring and multiplying from the exact first power. -/
private theorem tenPow_eq_powAux (p : ℕ) :
    tenPow p = powAux (ofRank false (nearest (10 ^ 0))) (ofRank false (nearest (10 ^ 1))) p := by
  have hone : one = ofRank false (nearest (10 ^ 0)) := by
    rw [one_eq, pow_zero, ← zpow_zero (2 : ℚ), ← magnitude_twoPowRank (by omega),
      nearest_magnitude]
  have hten : ofInt 10 = ofRank false (nearest (10 ^ 1)) :=
    ofInt_natCast (n := 10) (by rw [magnitude_nearest_tenPow (by omega)]; norm_num)
  rw [tenPow, pow, hone, hten, Int.natAbs_natCast]
  exact if_neg (by omega)

/-- Up to the twenty-second, powers of ten are exact. -/
theorem tenPow_exact {p : ℕ} (h : p ≤ 22) : tenPow p = ofRank false (nearest (10 ^ p)) := by
  have hpow := powAux_eq (P := fun k => ofRank false (nearest (10 ^ k))) (N := 22)
    (fun i j hij => tenPow_mul hij) (a := 0) (b := 1) (n := p) (by omega)
  rw [Nat.zero_add, Nat.one_mul] at hpow
  rw [tenPow_eq_powAux, ← hpow]

/-! ### Accumulated roundings -/

/-- A magnitude of at least one within `k` roundings of a rational. -/
structure Within (k : ℕ) (y : ℚ) (r : ℕ) : Prop where
  one_le : 1 ≤ magnitude r
  lower : y * (1 - 1 / 2 ^ 53) ^ k ≤ magnitude r
  upper : magnitude r ≤ y * (1 + 1 / 2 ^ 53) ^ k

variable {k l n : ℕ} {x y : ℚ} {a b r : ℕ}

/-- Roundings of the factors add up, and the product is rounded once more. -/
theorem Within.mul (hx : 0 ≤ x) (hy : 0 ≤ y) (ha : Within k x a) (hb : Within l y b) :
    Within (k + l + 1) (x * y) (nearest (magnitude a * magnitude b)) := by
  have hone : 1 ≤ magnitude a * magnitude b := one_le_mul_of_one_le_of_one_le ha.one_le hb.one_le
  have herr := abs_magnitude_nearest_sub_lt (y := magnitude a * magnitude b)
    (le_trans (zpow_le_one_of_nonpos₀ one_le_two (by omega)) hone)
  obtain ⟨hdown, hup⟩ := abs_lt.mp ((lt_div_iff₀' (by norm_num)).mpr herr)
  have hunit : ∃ r, magnitude r = 1 := by simpa using exists_magnitude_natCast (n := 1) (by omega)
  refine ⟨le_magnitude_nearest hunit hone, ?_, ?_⟩
  · calc x * y * (1 - 1 / 2 ^ 53) ^ (k + l + 1)
        = x * (1 - 1 / 2 ^ 53) ^ k * (y * (1 - 1 / 2 ^ 53) ^ l) * (1 - 1 / 2 ^ 53) := by ring
      _ ≤ magnitude a * magnitude b * (1 - 1 / 2 ^ 53) := by
          have hε : (0 : ℚ) ≤ 1 - 1 / 2 ^ 53 := by norm_num
          exact mul_le_mul_of_nonneg_right (mul_le_mul ha.lower hb.lower (by positivity)
            (magnitude_nonneg a)) hε
      _ ≤ magnitude (nearest (magnitude a * magnitude b)) := by linarith
  · calc magnitude (nearest (magnitude a * magnitude b))
        ≤ magnitude a * magnitude b * (1 + 1 / 2 ^ 53) := by linarith
      _ ≤ x * (1 + 1 / 2 ^ 53) ^ k * (y * (1 + 1 / 2 ^ 53) ^ l) * (1 + 1 / 2 ^ 53) := by
          exact mul_le_mul_of_nonneg_right (mul_le_mul ha.upper hb.upper (magnitude_nonneg b)
            (by positivity)) (by norm_num)
      _ = x * y * (1 + 1 / 2 ^ 53) ^ (k + l + 1) := by ring

/-- What lies within `k` roundings of a rational is finite if all of the error leaves it so. -/
theorem Within.lt_overflowRank (h : Within k y r)
    (hy : y * (1 + 1 / 2 ^ 53) ^ k < overflowBound) : r < overflowRank := by
  have hr := (nearest_lt_overflowRank_iff (magnitude_nonneg r)).mpr (h.upper.trans_lt hy)
  rwa [nearest_magnitude] at hr

/-- **Accumulated error.** A power by squaring carries one rounding for each unit of the exponent,
and those of its base as many times. -/
theorem powAux_within (hx : 1 ≤ x) (hy : 1 ≤ y) (ha : Within k x a) (hb : Within l y b)
    (h : x * y ^ n * (1 + 1 / 2 ^ 53) ^ (k + l * n + n) < overflowBound) :
    ∃ r, r < overflowRank ∧ powAux (ofRank false a) (ofRank false b) n = ofRank false r ∧
      Within (k + l * n + n) (x * y ^ n) r := by
  induction n using Nat.strong_induction_on generalizing k l x y a b with
  | _ n ih =>
    have hpow : 1 ≤ y ^ n := one_le_pow₀ hy
    have hfinite : ∀ {z : ℚ} {j q : ℕ}, Within j z q → z ≤ x * y ^ n → j ≤ k + l * n + n →
        q < overflowRank := fun hq hz hj => hq.lt_overflowRank <| lt_of_le_of_lt
      (mul_le_mul hz (pow_le_pow_right₀ (by norm_num) hj) (by positivity) (by positivity)) h
    have ha' : a < overflowRank :=
      hfinite ha (le_mul_of_one_le_right (by positivity) hpow) (by omega)
    rcases Nat.lt_or_ge n 2 with hn | hn
    · rw [powAux, if_pos hn]
      interval_cases n
      · exact ⟨a, ha', by simp, by simpa using ha⟩
      · have hb' : b < overflowRank :=
          hfinite hb (by rw [pow_one]; exact le_mul_of_one_le_left (by positivity) hx) (by omega)
        have hab := ha.mul (by positivity) (by positivity) hb
        refine ⟨_, hfinite hab (by rw [pow_one]) (by omega), ?_, by simpa using hab⟩
        rw [if_pos (by omega), ofRank_mul_ofRank ha' hb', Bool.xor_self]
    · have hyn : y ≤ y ^ n := le_self_pow₀ hy (by omega)
      have hln : l * 2 ≤ l * n := Nat.mul_le_mul_left _ hn
      have hb' : b < overflowRank :=
        hfinite hb (hyn.trans (le_mul_of_one_le_left (by positivity) hx)) (by omega)
      have hbb := hb.mul (by positivity) (by positivity) hb
      have hyy : 1 ≤ y * y := one_le_mul_of_one_le_of_one_le hy hy
      rw [powAux, if_neg (by omega), ofRank_mul_ofRank hb' hb', Bool.xor_self]
      rcases Nat.mod_two_eq_zero_or_one n with hmod | hmod
      -- an even exponent: the result so far stays
      · obtain ⟨m, rfl⟩ : ∃ m, n = 2 * m := ⟨n / 2, by omega⟩
        have hm : 2 * m / 2 = m := by omega
        have hval : x * (y * y) ^ m = x * y ^ (2 * m) := by rw [← pow_two, ← pow_mul]
        have hcount : k + (l + l + 1) * m + m = k + l * (2 * m) + 2 * m := by ring
        rw [if_neg (by omega), hm, ← hval, ← hcount]
        exact ih m (by omega) hx hyy ha hbb (by rw [hval, hcount]; exact h)
      -- an odd one: it is multiplied by the base
      · obtain ⟨m, rfl⟩ : ∃ m, n = 2 * m + 1 := ⟨n / 2, by omega⟩
        have hm : (2 * m + 1) / 2 = m := by omega
        have hab := ha.mul (by positivity) (by positivity) hb
        have hval : x * y * (y * y) ^ m = x * y ^ (2 * m + 1) := by
          rw [← pow_two, ← pow_mul, pow_succ]
          ring
        have hcount : k + l + 1 + (l + l + 1) * m + m = k + l * (2 * m + 1) + (2 * m + 1) := by
          ring
        rw [if_pos (by omega), hm, ofRank_mul_ofRank ha' hb', Bool.xor_self, ← hval, ← hcount]
        exact ih m (by omega) (one_le_mul_of_one_le_of_one_le hx hy) hyy hab hbb
          (by rw [hval, hcount]; exact h)

/-! ### Inexact powers -/

theorem Within.mono (h : Within k y r) (hy : 0 ≤ y) (hkl : k ≤ l) : Within l y r :=
  ⟨h.one_le,
    (mul_le_mul_of_nonneg_left (pow_le_pow_of_le_one (by norm_num) (by norm_num) hkl) hy).trans
      h.lower,
    h.upper.trans (mul_le_mul_of_nonneg_left (pow_le_pow_right₀ (by norm_num) hkl) hy)⟩

/-- The largest of the powers is well within the range. -/
private theorem tenPow_lt_overflowBound : (10 : ℚ) ^ 308 * (17 / 16) < overflowBound := by
  have hnat : 10 ^ 308 * 17 < 2 ^ 1023 * 24 := by decide +kernel
  have hcast := (Nat.cast_lt (α := ℚ)).mpr hnat
  rw [Nat.cast_mul, Nat.cast_mul, Nat.cast_pow, Nat.cast_pow] at hcast
  have h₁ : (2 : ℚ) ^ (1024 : ℤ) = 2 * 2 ^ 1023 := by
    rw [← zpow_natCast, ← zpow_one_add₀ two_ne_zero]
    rfl
  have h₂ : 2 * (2 : ℚ) ^ (970 : ℤ) ≤ 2 ^ 1023 := by
    rw [← zpow_natCast, ← zpow_one_add₀ two_ne_zero]
    exact zpow_le_zpow_right₀ one_le_two (by omega)
  rw [overflowBound, h₁]
  push_cast at hcast
  -- none of the powers is to be worked out from here on
  generalize (10 : ℚ) ^ 308 = t at *
  generalize (2 : ℚ) ^ 1023 = u at *
  generalize (2 : ℚ) ^ (970 : ℤ) = w at *
  linarith

/-- The first four squarings are exact, and the rest carry one rounding each sixteenth of the
exponent. -/
theorem tenPow_within {p : ℕ} (h₁ : 16 ≤ p) (h₂ : p ≤ 308) :
    ∃ r, r < overflowRank ∧ tenPow p = ofRank false r ∧ Within 19 (10 ^ p) r := by
  obtain ⟨i, hi, hstart⟩ : ∃ i ≤ 15, i + 16 * (p / 16) = p ∧
      tenPow p = powAux (ofRank false (nearest (10 ^ i))) (ofRank false (nearest (10 ^ 16)))
        (p / 16) := by
    have hstep := fun a b n => powAux_step (P := fun k => ofRank false (nearest (10 ^ k)))
      (fun i j hij => tenPow_mul hij) (a := a) (b := b) (n := n)
    have hn : p / 2 / 2 / 2 / 2 = p / 16 := by omega
    refine ⟨0 + 1 * (p % 2) + 2 * (p / 2 % 2) + 4 * (p / 2 / 2 % 2) + 8 * (p / 2 / 2 / 2 % 2),
      by omega, by omega, ?_⟩
    rw [tenPow_eq_powAux, hstep 0 1 p (by omega) (by omega) (by omega),
      hstep _ (1 + 1) (p / 2) (by omega) (by omega) (by omega),
      hstep _ (1 + 1 + (1 + 1)) (p / 2 / 2) (by omega) (by omega) (by omega),
      hstep _ _ (p / 2 / 2 / 2) (by omega) (by omega) (by omega), hn]
  have hexact : ∀ j ≤ 22, Within 0 (10 ^ j) (nearest (10 ^ j)) := fun j hj => by
    have hmag := magnitude_nearest_tenPow hj
    refine ⟨?_, ?_, ?_⟩
    · rw [hmag]
      exact one_le_pow₀ (by norm_num)
    · rw [hmag, pow_zero, mul_one]
    · rw [hmag, pow_zero, mul_one]
  have hval : (10 : ℚ) ^ i * (10 ^ 16) ^ (p / 16) = 10 ^ p := by
    rw [← pow_mul, ← pow_add, hstart.1]
  have hbound : (10 : ℚ) ^ i * (10 ^ 16) ^ (p / 16) *
      (1 + 1 / 2 ^ 53) ^ (0 + 0 * (p / 16) + p / 16) < overflowBound := by
    refine lt_of_le_of_lt ?_ tenPow_lt_overflowBound
    rw [hval]
    refine mul_le_mul (pow_le_pow_right₀ (by norm_num) h₂) ?_ (by positivity) (by positivity)
    exact (pow_le_pow_right₀ (by norm_num) (show _ ≤ 19 by omega)).trans (by norm_num)
  obtain ⟨r, hr, hpow, hwithin⟩ := powAux_within (one_le_pow₀ (by norm_num))
    (one_le_pow₀ (by norm_num)) (hexact i (by omega)) (hexact 16 (by omega)) hbound
  rw [hval] at hwithin
  exact ⟨r, hr, hstart.2.trans hpow, hwithin.mono (by positivity) (by omega)⟩

/-- No power of ten in use exceeds the exact one by more than its `2⁴⁸`-th part. -/
theorem magnitude_tenPow_le {p r : ℕ} {h : r < overflowRank} (hp : p ≤ 308)
    (hpow : tenPow p = finite false r h) : magnitude r ≤ 10 ^ p * (1 + 1 / 2 ^ 48) := by
  rcases Nat.lt_or_ge p 16 with hsmall | hlarge
  · obtain rfl := rank_eq_of_ofRank_eq ((tenPow_exact (by omega)).symm.trans hpow)
    rw [magnitude_nearest_tenPow (by omega)]
    exact le_mul_of_one_le_right (by positivity) (by norm_num)
  · obtain ⟨r', hr', hpow', hwithin⟩ := tenPow_within hlarge hp
    obtain rfl := rank_eq_of_ofRank_eq (hpow'.symm.trans hpow)
    exact hwithin.upper.trans (mul_le_mul_of_nonneg_left (by norm_num) (by positivity))

/-- Every power of ten in use is a finite number, the exact one up to the twenty-second and beyond
all 64-bit integers after that. -/
theorem exists_tenPow {p : ℕ} (h : p ≤ 308) :
    ∃ r, ∃ hr : r < overflowRank, tenPow p = finite false r hr ∧
      (p ≤ 22 → magnitude r = 10 ^ p) ∧ (22 < p → 10 ^ 22 ≤ magnitude r) := by
  rcases Nat.lt_or_ge 22 p with hp | hp
  · obtain ⟨r, hr, hpow, hwithin⟩ := tenPow_within (by omega) h
    refine ⟨r, hr, by rw [hpow, ofRank_of_lt hr], by omega, fun _ => ?_⟩
    have hlarge : (10 : ℚ) ^ 23 ≤ 10 ^ p := pow_le_pow_right₀ (by norm_num) hp
    have hε : (1 / 10 : ℚ) ≤ (1 - 1 / 2 ^ 53) ^ 19 := by norm_num
    calc (10 : ℚ) ^ 22 = 10 ^ 23 * (1 / 10) := by norm_num
      _ ≤ 10 ^ p * (1 - 1 / 2 ^ 53) ^ 19 := mul_le_mul hlarge hε (by norm_num) (by positivity)
      _ ≤ magnitude r := hwithin.lower
  · exact ⟨_, nearest_tenPow_lt hp, by rw [tenPow_exact hp, ofRank_of_lt (nearest_tenPow_lt hp)],
      fun _ => magnitude_nearest_tenPow hp, by omega⟩

end DecimalRounding.Binary64
