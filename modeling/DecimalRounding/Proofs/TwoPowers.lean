import DecimalRounding.Binary64.Nudge
import DecimalRounding.Proofs.Operations

/-!
# Powers of two

Squaring and multiplying powers of two never rounds while the result is in range, so that `twoPow`
is exact (`twoPow_eq`), down to the one subnormal power that is a reciprocal (`exists_twoPow`). A
number times a power of two is rounded once (`finite_mul_twoPow`), and not at all while it stays
normal (`magnitude_mul_zpow`). `scaleTwo` therefore rounds once on the significands of `split`
(`scaleTwo_eq`): its first step stays within the normal range.
-/

namespace DecimalRounding.Binary64

variable {s : Bool} {a : ℕ}

/-! ### Powers by squaring -/

theorem twoPowRank_lt {n : ℤ} (h : n ≤ 1023) : twoPowRank n < overflowRank := by
  rw [twoPowRank, overflowRank]
  omega

/-- Products of powers of two are exact. -/
private theorem twoPow_mul {m n : ℤ} (hm : -1022 ≤ m) (hn : -1022 ≤ n) (hm' : m ≤ 1023)
    (hn' : n ≤ 1023) (hmn : -1022 ≤ m + n) :
    ofRank false (twoPowRank m) * ofRank false (twoPowRank n) =
      ofRank false (twoPowRank (m + n)) := by
  rw [ofRank_mul_ofRank (twoPowRank_lt hm') (twoPowRank_lt hn'), Bool.xor_self,
    magnitude_twoPowRank hm, magnitude_twoPowRank hn, ← zpow_add₀ two_ne_zero,
    ← magnitude_twoPowRank hmn, nearest_magnitude]

/-- One step of squaring and multiplying, where the products are exact: exponents add up. -/
theorem powAux_step {P : ℕ → Binary64} {N : ℕ} (hP : ∀ i j, i + j ≤ N → P i * P j = P (i + j))
    {a b n : ℕ} (hn : 2 ≤ n) (ha : a + b ≤ N) (hb : b + b ≤ N) :
    powAux (P a) (P b) n = powAux (P (a + b * (n % 2))) (P (b + b)) (n / 2) := by
  rw [powAux, if_neg (by omega), hP b b hb]
  rcases Nat.mod_two_eq_zero_or_one n with h | h
  · rw [h, if_neg (by omega), Nat.mul_zero, Nat.add_zero]
  · rw [h, if_pos rfl, Nat.mul_one, hP a b ha]

/-- Powers are exact where all products up to the power are. The base is squared no further than
the power needs, so that nothing leaves the exact range on the way. -/
theorem powAux_eq {P : ℕ → Binary64} {N : ℕ} (hP : ∀ i j, i + j ≤ N → P i * P j = P (i + j))
    {a b n : ℕ} (h : a + b * n ≤ N) : powAux (P a) (P b) n = P (a + b * n) := by
  induction n using Nat.strong_induction_on generalizing a b with
  | _ n ih =>
    rcases Nat.lt_or_ge n 2 with hn | hn
    · rw [powAux, if_pos hn]
      interval_cases n
      · rw [if_neg (by omega), Nat.mul_zero, Nat.add_zero]
      · rw [if_pos (by omega), hP a b (by omega), Nat.mul_one]
    · have hsplit : b * n = b * (n % 2) + (b + b) * (n / 2) := by
        conv_lhs => rw [← Nat.mod_add_div n 2]
        ring
      have hsquare : b * 2 ≤ b * n := Nat.mul_le_mul_left _ hn
      rw [powAux_step hP hn (by omega) (by omega), ih (n / 2) (by omega) (by omega)]
      congr 1
      omega

theorem one_eq : one = ofRank false (twoPowRank 0) := by
  rw [one, twoPowRank]
  rfl

/-- An integer as a number, when it is one. -/
theorem ofInt_natCast {n r : ℕ} (h : magnitude r = n) : ofInt n = ofRank false r := by
  rw [ofInt_eq, Int.natAbs_natCast, ← h, nearest_magnitude, decide_eq_false (by omega)]

/-- The powers of two from one on are exact. -/
theorem powAux_two {n : ℕ} (h : n ≤ 1023) :
    powAux one (ofInt 2) n = ofRank false (twoPowRank n) := by
  have htwo : ofInt 2 = ofRank false (twoPowRank (1 : ℕ)) :=
    ofInt_natCast (by rw [magnitude_twoPowRank (by omega)]; norm_num)
  have hpower := powAux_eq (P := fun k => ofRank false (twoPowRank k)) (N := 1023)
    (fun i j hij => by
      rw [twoPow_mul (by omega) (by omega) (by omega) (by omega) (by omega), Nat.cast_add])
    (a := 0) (b := 1) (n := n) (by omega)
  rw [Nat.zero_add, Nat.one_mul] at hpower
  rw [one_eq, htwo, ← hpower]
  rfl

/-- A power of two is rounded once, as the reciprocal that a negative exponent takes. The last of
the reciprocals is subnormal. -/
theorem twoPow_eq_nearest {n : ℤ} (h₁ : -1023 ≤ n) (h₂ : n ≤ 1023) :
    twoPow n = ofRank false (nearest (2 ^ n)) := by
  rw [twoPow, pow, powAux_two (by omega)]
  split_ifs with hn
  · have hrank : twoPowRank n.natAbs ≠ 0 := by
      have := normal_le_twoPowRank (n := n.natAbs) (by omega)
      omega
    have habs : (0 : ℤ) - n.natAbs = n := by omega
    rw [one_eq, ofRank_of_lt (twoPowRank_lt (by omega)), ofRank_of_lt (twoPowRank_lt (by omega)),
      finite_div_finite hrank, magnitude_twoPowRank (by omega), magnitude_twoPowRank (by omega),
      ← zpow_sub₀ two_ne_zero, habs, Bool.xor_false]
  · rw [show (n.natAbs : ℤ) = n by omega, ← magnitude_twoPowRank (by omega), nearest_magnitude]

/-- Powers of two are exact throughout the range of normal numbers. -/
theorem twoPow_eq {n : ℤ} (h₁ : -1022 ≤ n) (h₂ : n ≤ 1023) :
    twoPow n = ofRank false (twoPowRank n) := by
  rw [twoPow_eq_nearest (by omega) h₂, ← magnitude_twoPowRank h₁, nearest_magnitude]

/-- The subnormal power of two is exact, too. -/
theorem exists_twoPow {n : ℤ} (h₁ : -1023 ≤ n) (h₂ : n ≤ 1023) :
    ∃ p, ∃ hp : p < overflowRank, twoPow n = finite false p hp ∧ magnitude p = 2 ^ n := by
  obtain ⟨p, hp⟩ : ∃ p, magnitude p = 2 ^ n := by
    simpa using exists_magnitude_eq (m := 1) (by omega) (k := n) (by omega)
  have hlt : p < overflowRank := by
    refine lt_of_le_of_lt ?_ (twoPowRank_lt (n := 1023) (by omega))
    rw [← magnitude_strictMono.le_iff_le, hp, magnitude_twoPowRank (by omega)]
    exact zpow_le_zpow_right₀ one_le_two h₂
  exact ⟨p, hlt, by rw [twoPow_eq_nearest h₁ h₂, ← hp, nearest_magnitude, ofRank_of_lt hlt], hp⟩

theorem isFinite_twoPow {n : ℤ} (h₁ : -1022 ≤ n) (h₂ : n ≤ 1023) : (twoPow n).isFinite := by
  rw [twoPow_eq h₁ h₂, ofRank_of_lt (twoPowRank_lt h₂)]
  rfl

theorem value_twoPow {n : ℤ} (h₁ : -1022 ≤ n) (h₂ : n ≤ 1023) : (twoPow n).value = 2 ^ n := by
  rw [twoPow_eq h₁ h₂, ofRank_of_lt (twoPowRank_lt h₂), value, magnitude_twoPowRank h₁,
    signFactor_false, one_mul]

/-- A power of two is known by its value. -/
theorem eq_twoPow {x : Binary64} {n : ℤ} (h₁ : -1022 ≤ n) (h₂ : n ≤ 1023) (hx : x.isFinite)
    (hvalue : x.value = 2 ^ n) : x = twoPow n := by
  have hpower := value_twoPow h₁ h₂
  refine eq_of_value_eq hx (isFinite_twoPow h₁ h₂) (hvalue.trans hpower.symm) ?_
  rw [hpower]
  exact zpow_ne_zero _ two_ne_zero

/-! ### Products with powers of two -/

/-- While it stays normal, a magnitude times a power of two is a magnitude. -/
theorem magnitude_mul_zpow {b : ℕ} {n : ℤ} (ha : 2 ^ 52 ≤ a) (hb : 2 ^ 52 ≤ b)
    (h : (b : ℤ) = a + n * 2 ^ 52) : magnitude a * 2 ^ n = magnitude b := by
  rcases le_or_gt 0 n with hn | hn
  · obtain ⟨k, rfl⟩ := Int.eq_ofNat_of_zero_le hn
    rw [zpow_natCast, ← magnitude_add_group ha]
    congr 1
    omega
  · obtain ⟨k, rfl⟩ : ∃ k : ℕ, n = -k := ⟨(-n).toNat, by omega⟩
    have hab : a = b + k * 2 ^ 52 := by omega
    rw [hab, magnitude_add_group hb, zpow_neg, zpow_natCast, mul_assoc,
      mul_inv_cancel₀ (pow_ne_zero _ two_ne_zero), mul_one]

/-- A product with a power of two is rounded once. -/
theorem finite_mul_twoPow {h : a < overflowRank} {n : ℤ} (h₁ : -1023 ≤ n) (h₂ : n ≤ 1023) :
    finite s a h * twoPow n = ofRank s (nearest (magnitude a * 2 ^ n)) := by
  obtain ⟨p, hp, hpower, hmag⟩ := exists_twoPow h₁ h₂
  rw [hpower, finite_mul_finite, hmag, Bool.xor_false]

/-- Infinities stay. -/
theorem infinity_mul_twoPow {n : ℤ} (h₁ : -1023 ≤ n) (h₂ : n ≤ 1023) :
    infinity s * twoPow n = infinity s := by
  obtain ⟨p, hp, hpower, hmag⟩ := exists_twoPow h₁ h₂
  have hp₀ : p ≠ 0 := by
    rintro rfl
    rw [magnitude_zero] at hmag
    exact zpow_ne_zero n two_ne_zero hmag.symm
  rw [hpower]
  change mul _ _ = _
  rw [mul, if_neg hp₀, Bool.xor_false]

/-- The first of two steps takes half of the exponent, give or take one half. -/
theorem two_mul_tdiv_bounds (n : ℤ) : n - 2 < 2 * n.tdiv 2 ∧ 2 * n.tdiv 2 < n + 2 := by
  have hdiv := Int.mul_tdiv_add_tmod n 2
  have hlt := Int.tmod_lt_of_pos n (b := 2) (by omega)
  have hgt := Int.lt_tmod_of_pos n (b := 2) (by omega)
  omega

/-- Scaling by a power of two rounds once, where the first step stays normal. -/
theorem scaleTwo_finite {h : a < overflowRank} {n : ℤ} (h₁ : -2046 ≤ n) (h₂ : n ≤ 2046)
    (hlo : 2 ^ 52 ≤ a) (hlo' : 2 ^ 52 ≤ a + n.tdiv 2 * 2 ^ 52)
    (hhi' : a + n.tdiv 2 * 2 ^ 52 < overflowRank) :
    (finite s a h).scaleTwo n = ofRank s (nearest (magnitude a * 2 ^ n)) := by
  have hbounds := two_mul_tdiv_bounds n
  simp only [scaleTwo]
  generalize n.tdiv 2 = k at hlo' hhi' hbounds ⊢
  obtain ⟨b, hb⟩ : ∃ b : ℕ, (b : ℤ) = a + k * 2 ^ 52 := ⟨(a + k * 2 ^ 52).toNat, by omega⟩
  have hfirst : magnitude a * 2 ^ k = magnitude b := magnitude_mul_zpow hlo (by omega) hb
  rw [finite_mul_twoPow (by omega) (by omega), hfirst, nearest_magnitude,
    ofRank_of_lt (show b < overflowRank by omega), finite_mul_twoPow (by omega) (by omega),
    ← hfirst, mul_assoc, ← zpow_add₀ two_ne_zero, add_sub_cancel]

/-- Scaling a significand by a power of two rounds once. -/
theorem scaleTwo_eq (ha₁ : halfRank ≤ a) (ha₂ : a ≤ halfRank + 2 ^ 52) {n : ℤ}
    (h₁ : -1073 ≤ n) (h₂ : n ≤ 1024) :
    (ofRank s a).scaleTwo n = ofRank s (nearest (magnitude a * 2 ^ n)) := by
  rw [halfRank] at ha₁ ha₂
  have hbounds := two_mul_tdiv_bounds n
  have ha : a < overflowRank := by rw [overflowRank]; omega
  rw [ofRank_of_lt ha]
  refine scaleTwo_finite (by omega) (by omega) (by omega) (by omega) ?_
  rw [overflowRank]
  push_cast
  omega

end DecimalRounding.Binary64
