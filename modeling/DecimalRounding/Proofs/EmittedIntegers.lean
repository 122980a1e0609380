import DecimalRounding.Proofs.EmittedRounding
import DecimalRounding.Proofs.HalfAway

/-!
# Emitted rounding of integers

Integers are rounded half away from zero, while `Math.round` rounds half up. For zero or fewer
digits the emitted call and the integer itself therefore give the same multiple, except half-way
between two multiples below zero, where the call gives the one nearer to zero
(`JavaScript.eval_round_intLiteral`).
-/

namespace DecimalRounding

variable {n k d : ℤ} {p : ℕ}

/-- The integer is half-way between two multiples of `10 ^ p`. -/
def IsHalfWay (n : ℤ) (p : ℕ) : Prop := 2 * (n % 10 ^ p) = 10 ^ p

instance : Decidable (IsHalfWay n p) := inferInstanceAs (Decidable (_ = _))

/-! ### Half up and half away from zero -/

/-- Rounding a quotient half up, by its whole part and remainder. -/
theorem floor_div_add_half_eq_ite (n : ℤ) (p : ℕ) :
    ⌊(n : ℚ) / 10 ^ p + 1 / 2⌋ =
      if 10 ^ p ≤ 2 * (n % 10 ^ p) then n / 10 ^ p + 1 else n / 10 ^ p := by
  have hstep : (0 : ℤ) < 10 ^ p := by positivity
  have hlo := Int.emod_nonneg n hstep.ne'
  have hhi := Int.emod_lt_of_pos n hstep
  have hn := Int.mul_ediv_add_emod n (10 ^ p)
  have hten : (10 : ℚ) ^ p = ((10 ^ p : ℤ) : ℚ) := by push_cast; rfl
  rw [hten]
  generalize (10 : ℤ) ^ p = step at *
  generalize n % step = r at *
  generalize n / step = q at *
  have hstep' : (0 : ℚ) < step := by exact_mod_cast hstep
  have hquot : (n : ℚ) / step = q + r / step := by
    rw [← hn, Int.cast_add, Int.cast_mul, add_div, mul_div_cancel_left₀ _ hstep'.ne']
  have hr : 0 ≤ (r : ℚ) / step := div_nonneg (by exact_mod_cast hlo) hstep'.le
  have hr' : (r : ℚ) / step < 1 := (div_lt_one hstep').mpr (by exact_mod_cast hhi)
  rw [hquot, Int.floor_eq_iff]
  split_ifs with hhalf
  · have hge : 1 / 2 ≤ (r : ℚ) / step := by
      rw [div_le_div_iff₀ two_pos hstep', one_mul]
      exact_mod_cast (mul_comm 2 r) ▸ hhalf
    push_cast
    constructor <;> linarith
  · have hlt : (r : ℚ) / step < 1 / 2 := by
      rw [div_lt_div_iff₀ hstep' two_pos, one_mul]
      exact_mod_cast (mul_comm 2 r) ▸ (not_le.mp hhalf)
    constructor <;> linarith

/-- Half up and half away from zero are one step apart half-way below zero, and else the same. -/
theorem floor_mul_eq_ite (n : ℤ) (p : ℕ) :
    ⌊(n : ℚ) / 10 ^ p + 1 / 2⌋ * 10 ^ p =
      if n < 0 ∧ IsHalfWay n p then nearestMultiple n p + 10 ^ p else nearestMultiple n p := by
  have hstep : (0 : ℤ) < 10 ^ p := by positivity
  have hlo := Int.emod_nonneg n hstep.ne'
  have hhi := Int.emod_lt_of_pos n hstep
  have hzero : n = 0 → n % 10 ^ p = 0 := by
    rintro rfl
    exact Int.zero_emod _
  rw [floor_div_add_half_eq_ite]
  simp only [IsHalfWay, nearestMultiple, Int.tdiv_eq_ediv, Int.tmod_eq_emod,
    Int.sign_eq_one_of_pos hstep, Int.dvd_iff_emod_eq_zero]
  generalize (10 : ℤ) ^ p = step at *
  generalize n % step = r at *
  generalize n / step = q at *
  rcases lt_trichotomy n 0 with hn | hn | hn
  · rw [Int.sign_eq_neg_one_of_neg hn]
    rcases eq_or_ne r 0 with hr | hr
    · simp [hr, hn, not_le.mpr hstep, hstep.ne]
    · have habs : ((r - (step.natAbs : ℤ)).natAbs : ℤ) = step - r := by omega
      simp only [not_le.mpr hn, hr, or_self, if_false, hn, true_and, habs]
      rcases lt_trichotomy (2 * r) step with hhalf | hhalf | hhalf
      · rw [if_neg (by omega), if_neg (by omega), if_pos (by omega), add_neg_cancel_right]
      · rw [if_pos (by omega), if_pos hhalf, if_pos (by omega), add_neg_cancel_right, add_one_mul]
      · rw [if_pos (by omega), if_neg (by omega), if_neg (by omega)]
  · simp [hn, hzero hn, not_le.mpr hstep]
  · rw [Int.sign_eq_one_of_pos hn]
    have habs : (r.natAbs : ℤ) = r := Int.natAbs_of_nonneg hlo
    simp [hn.le, not_lt.mpr hn.le, habs]

/-! ### The emitted call -/

namespace JavaScript

/-- The emitted call rounds half up. -/
theorem exists_denotes_round_intLiteral {env : Environment}
    (hlib : Library {} env fun y => ⌊y + 1 / 2⌋) {digits : Option Fragment}
    (hcounts : Counts env digits (.literal (-p)) (-p)) (n : ℤ) :
    ∃ t, (round {} (.intLiteral n) digits (.literal (-p))).Denotes t ∧
      t.eval env = some ((⌊(n : ℚ) / 10 ^ p + 1 / 2⌋ * 10 ^ p : ℤ) : ℚ) := by
  obtain ⟨t, ht, hvalue⟩ :=
    exists_denotes_round hlib (reads_intLiteral n) le_rfl (SourceTree.eval_ofInt n) hcounts
  refine ⟨t, ht, hvalue.trans (congrArg some ?_)⟩
  rw [zpow_neg, zpow_natCast, div_inv_eq_mul, ← div_eq_mul_inv]
  push_cast
  rfl

/-- **Integers at compile time and at run time.** Let rounding the 64-bit integer `n` to `d ≤ 0`
digits give the integer `k`. The call that is emitted for `n` and `d` has the value `k` too, unless
`n` is negative and half-way between two multiples of `10 ^ (-d)`; then it has the value
`k + 10 ^ (-d)`. -/
theorem eval_round_intLiteral {env : Environment} (hlib : Library {} env fun y => ⌊y + 1 / 2⌋)
    (hn : int64? n = some n) (hd : d ≤ 0) (hk : roundInt n d = .ok (.int k))
    {digits : Option Fragment} (hcounts : Counts env digits (.literal d) d) :
    ∃ t, (round {} (.intLiteral n) digits (.literal d)).Denotes t ∧
      (t.eval env = some (k : ℚ) ↔ ¬ (n < 0 ∧ IsHalfWay n d.natAbs)) ∧
      (n < 0 ∧ IsHalfWay n d.natAbs → t.eval env = some ((k + 10 ^ d.natAbs : ℤ) : ℚ)) := by
  obtain ⟨p, rfl⟩ : ∃ p : ℕ, d = -p := ⟨d.natAbs, by omega⟩
  obtain ⟨t, ht, hvalue⟩ := exists_denotes_round_intLiteral hlib hcounts n
  rw [floor_mul_eq_ite, ← eq_nearestMultiple_of_roundInt hn hk] at hvalue
  rw [Int.natAbs_neg, Int.natAbs_natCast]
  refine ⟨t, ht, ?_, fun htie => ?_⟩
  · rw [hvalue]
    split_ifs with htie
    · simp [htie]
    · simp [htie]
  · rw [hvalue, if_pos htie]

/-- Not half-way, and half-way above zero. -/
theorem eval_round_intLiteral_tens :
    let env := mathLibrary fun _ => none
    Library {} env (fun y => ⌊y + 1 / 2⌋) ∧ int64? (-14) = some (-14) ∧ int64? 25 = some 25 ∧
      roundInt (-14) (-1) = .ok (.int (-10)) ∧ roundInt 25 (-1) = .ok (.int 30) ∧
      (∃ t, (round {} (.intLiteral (-14)) none (.literal (-1))).Denotes t ∧
        t.eval env = some ((-10 : ℤ) : ℚ)) ∧
      ∃ t, (round {} (.intLiteral 25) none (.literal (-1))).Denotes t ∧
        t.eval env = some ((30 : ℤ) : ℚ) := by
  intro env
  have hlib : Library {} env fun y => ⌊y + 1 / 2⌋ := library_mathLibrary _
  have hcounts : Counts env none (.literal (-1)) (-1) := ⟨by rintro _ ⟨⟩, .inl rfl⟩
  have hn : int64? (-14) = some (-14) := by decide
  have hn' : int64? 25 = some 25 := by decide
  have hk : roundInt (-14) (-1) = .ok (.int (-10)) := by decide
  have hk' : roundInt 25 (-1) = .ok (.int 30) := by decide
  obtain ⟨t, ht, hiff, -⟩ := eval_round_intLiteral hlib hn (by decide) hk hcounts
  obtain ⟨t', ht', hiff', -⟩ := eval_round_intLiteral hlib hn' (by decide) hk' hcounts
  exact ⟨hlib, hn, hn', hk, hk', ⟨t, ht, hiff.mpr (by decide)⟩, ⟨t', ht', hiff'.mpr (by decide)⟩⟩

/-- Half-way below zero: the integer `-5` is rounded to `-10`, and the emitted call to `0`. -/
theorem eval_round_intLiteral_ne :
    let env := mathLibrary fun _ => none
    Library {} env (fun y => ⌊y + 1 / 2⌋) ∧ int64? (-5) = some (-5) ∧
      roundInt (-5) (-1) = .ok (.int (-10)) ∧
      (round {} (.intLiteral (-5)) none (.literal (-1))).text = "Math.round(-5 / 10) * 10" ∧
      ∃ t, (round {} (.intLiteral (-5)) none (.literal (-1))).Denotes t ∧
        t.eval env = some 0 ∧ t.eval env ≠ some ((-10 : ℤ) : ℚ) := by
  intro env
  have hlib : Library {} env fun y => ⌊y + 1 / 2⌋ := library_mathLibrary _
  have hcounts : Counts env none (.literal (-(1 : ℕ))) (-(1 : ℕ)) := ⟨by rintro _ ⟨⟩, .inl rfl⟩
  obtain ⟨t, ht, hvalue⟩ := exists_denotes_round_intLiteral hlib hcounts (-5)
  have hzero : t.eval env = some 0 := by
    rw [hvalue, floor_mul_eq_ite, if_pos (by decide)]
    rfl
  exact ⟨hlib, by decide, by decide, by decide, t, ht, hzero, by rw [hzero]; decide⟩

end JavaScript

end DecimalRounding
