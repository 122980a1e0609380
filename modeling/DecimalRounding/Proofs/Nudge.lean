import DecimalRounding.Proofs.TwoPowers

/-!
# The outward nudge, by ranks

`split` is the one exact decomposition (`isSplit_split`, `IsSplit.unique`), and adding `epsilon` to
a significand moves it two ranks on, or one rank at the end of its group, where the sum is a tie
(`significand_add`). So the nudge moves a normal number two ranks outward, one if all its fraction
digits are ones (`nudge_normal`). A subnormal number has fewer digits than its significand, and what
is added comes to one rank at most (`nudge_subnormal_eq`). Taken together, the nudge keeps the sign
and moves the rank by a monotone function (`nudge_eq_ofRank`, `nudgedRank_mono`).
-/

namespace DecimalRounding.Binary64

variable {s : Bool} {r : ℕ}

/-! ### Significands -/

/-- The magnitude of a significand with fraction digits `f`; `f = 2⁵²` stands for one. -/
theorem magnitude_significand {f : ℕ} (hf : f ≤ 2 ^ 52) :
    magnitude (halfRank + f) = (2 ^ 52 + f) * 2 ^ (-53 : ℤ) := by
  have hhalf : halfRank = 1021 * 2 ^ 52 + 2 ^ 52 := rfl
  have hexp : ((1021 : ℕ) : ℤ) - 1074 = -53 := rfl
  rw [hhalf, add_assoc, magnitude_group 1021 (by omega) (by omega), hexp]
  push_cast
  rfl

theorem significand_lt {f : ℕ} (hf : f ≤ 2 ^ 52) : halfRank + f < overflowRank := by
  rw [overflowRank, halfRank]
  omega

theorem split_normal {h : r < overflowRank} (hr : 2 ^ 52 ≤ r) :
    (finite s r h).split = ⟨ofRank s (halfRank + r % 2 ^ 52), (r / 2 ^ 52 : ℕ) - 1022⟩ := by
  rw [split, if_neg (by omega), if_neg (by omega)]

/-- The leading one of a rank, moved to bit 52. -/
theorem mul_leadingShift_bounds (h₀ : 0 < r) (hr : r < 2 ^ 53) :
    2 ^ 52 ≤ r * 2 ^ leadingShift r ∧ r * 2 ^ leadingShift r < 2 ^ 53 := by
  have hlog : r.log2 + leadingShift r = 52 := by
    have hlt := (Nat.log2_lt h₀.ne').mpr hr
    rw [leadingShift]
    omega
  constructor
  · calc 2 ^ 52 = 2 ^ r.log2 * 2 ^ leadingShift r := by rw [← pow_add, hlog]
      _ ≤ r * 2 ^ leadingShift r := Nat.mul_le_mul_right _ (Nat.log2_self_le h₀.ne')
  · calc r * 2 ^ leadingShift r < 2 ^ (r.log2 + 1) * 2 ^ leadingShift r :=
          Nat.mul_lt_mul_of_pos_right Nat.lt_log2_self (Nat.two_pow_pos _)
      _ = 2 ^ 53 := by rw [← pow_add, add_right_comm, hlog]

/-- The significand of a subnormal number ends in as many zeros as the leading digit moved. -/
theorem split_subnormal {h : r < overflowRank} (h₀ : 0 < r) (hr : r < 2 ^ 52) :
    ∃ f, f < 2 ^ 52 ∧ f % 2 = 0 ∧
      (finite s r h).split = ⟨ofRank s (halfRank + f), r.log2 - 1073⟩ ∧
      magnitude r = magnitude (halfRank + f) * 2 ^ (r.log2 - 1073 : ℤ) := by
  have hlog : r.log2 < 52 := (Nat.log2_lt h₀.ne').mpr hr
  obtain ⟨hm₁, hm₂⟩ := mul_leadingShift_bounds h₀ (by omega)
  obtain ⟨k, hk⟩ : ∃ k, leadingShift r = k + 1 := ⟨51 - r.log2, by rw [leadingShift]; omega⟩
  have hexponent : -1021 - ((k + 1 : ℕ) : ℤ) = r.log2 - 1073 := by
    rw [← hk, leadingShift]
    omega
  rw [hk] at hm₁ hm₂
  have hdouble : r * 2 ^ (k + 1) = 2 * (r * 2 ^ k) := by ring
  refine ⟨r * 2 ^ (k + 1) - 2 ^ 52, by omega, by omega, ?_, ?_⟩
  · rw [split, if_neg h₀.ne', if_pos hr]
    simp only [hk, hexponent]
  · have hsum : (2 ^ 52 : ℚ) + (r * 2 ^ (k + 1) - 2 ^ 52 : ℕ) = r * 2 ^ (k + 1) := by
      rw [Nat.cast_sub hm₁]
      push_cast
      ring
    have hexp : ((k + 1 : ℕ) : ℤ) + (-53 + (r.log2 - 1073)) = -1074 := by
      push_cast
      omega
    rw [magnitude_significand (by omega), hsum, mul_assoc, mul_assoc, ← zpow_natCast,
      ← zpow_add₀ two_ne_zero, ← zpow_add₀ two_ne_zero, hexp, magnitude_of_le (by omega)]

/-- Every number that is not zero is split into a significand and a power of two. -/
theorem exists_split {h : r < overflowRank} (h₀ : 0 < r) :
    ∃ f E, f < 2 ^ 52 ∧ -1073 ≤ E ∧ E ≤ 1024 ∧
      (finite s r h).split = ⟨ofRank s (halfRank + f), E⟩ ∧
      magnitude r = magnitude (halfRank + f) * 2 ^ E := by
  rcases Nat.lt_or_ge r (2 ^ 52) with hr | hr
  · obtain ⟨f, hf, -, hsplit, hmag⟩ := split_subnormal (s := s) (h := h) h₀ hr
    have hlog : r.log2 < 52 := (Nat.log2_lt h₀.ne').mpr hr
    exact ⟨f, _, hf, by omega, by omega, hsplit, hmag⟩
  · have hrank : (r : ℤ) = (halfRank + r % 2 ^ 52 : ℕ) + ((r / 2 ^ 52 : ℕ) - 1022) * 2 ^ 52 := by
      rw [halfRank]
      push_cast
      omega
    have hmag := magnitude_mul_zpow (by rw [halfRank]; omega) hr hrank
    rw [overflowRank] at h
    exact ⟨_, _, by omega, by omega, by omega, split_normal hr, hmag.symm⟩

/-- An exact decomposition into a significand in `[1/2, 1)` by magnitude and a power of two. -/
structure IsSplit (x : Binary64) (parts : Split) : Prop where
  isFinite : parts.significand.isFinite
  half_le : 1 / 2 ≤ |parts.significand.value|
  lt_one : |parts.significand.value| < 1
  value_eq : x.value = parts.significand.value * 2 ^ parts.exponent

/-- Infinities, `nan` and zeros, which are their own significands, have the value zero. -/
theorem isSplit_split {x : Binary64} (hx : x.value ≠ 0) : x.IsSplit x.split := by
  cases x with
  | nan | infinity => exact absurd rfl hx
  | finite s r h =>
    have h₀ : 0 < r := by
      rw [Nat.pos_iff_ne_zero]
      rintro rfl
      exact hx (by rw [value, magnitude_zero, mul_zero])
    obtain ⟨f, E, hf, -, -, hsplit, hmag⟩ := exists_split (s := s) (h := h) h₀
    have hlt := significand_lt hf.le
    have habs : |(finite s (halfRank + f) hlt).value| = (2 ^ 52 + f) * 2 ^ (-53 : ℤ) := by
      rw [abs_value_finite, magnitude_significand hf.le]
    have hf' : (f : ℚ) < 2 ^ 52 := by exact_mod_cast hf
    rw [hsplit, ofRank_of_lt hlt]
    refine ⟨rfl, ?_, ?_, ?_⟩
    · rw [habs]
      norm_num
      linarith
    · rw [habs]
      norm_num
      linarith
    · rw [value, value, hmag, mul_assoc]

/-- A rational has at most one significand and exponent. -/
theorem eq_of_mul_zpow_eq {a b : ℚ} {i j : ℤ} (ha : 1 / 2 ≤ |a|) (ha' : |a| < 1)
    (hb : 1 / 2 ≤ |b|) (hb' : |b| < 1) (h : a * 2 ^ i = b * 2 ^ j) : i = j ∧ a = b := by
  have hle {a b : ℚ} {i j : ℤ} (ha : 1 / 2 ≤ |a|) (hb : |b| < 1) (h : a * 2 ^ i = b * 2 ^ j) :
      i ≤ j := by
    have habs : |a| * 2 ^ i = |b| * 2 ^ j := by
      have hi : |(2 : ℚ) ^ i| = 2 ^ i := abs_of_pos (zpow_pos two_pos i)
      have hj : |(2 : ℚ) ^ j| = 2 ^ j := abs_of_pos (zpow_pos two_pos j)
      rw [← hi, ← abs_mul, h, abs_mul, hj]
    have hlt : (2 : ℚ) ^ (i - 1) < 2 ^ j := by
      calc (2 : ℚ) ^ (i - 1) = 1 / 2 * 2 ^ i := by rw [zpow_sub_one₀ two_ne_zero]; ring
        _ ≤ |a| * 2 ^ i := by gcongr
        _ = |b| * 2 ^ j := habs
        _ < 1 * 2 ^ j := by gcongr
        _ = 2 ^ j := one_mul _
    have hexponent := (zpow_lt_zpow_iff_right₀ one_lt_two).mp hlt
    omega
  obtain rfl : i = j := le_antisymm (hle ha hb' h) (hle hb ha' h.symm)
  exact ⟨rfl, mul_right_cancel₀ (zpow_ne_zero _ two_ne_zero) h⟩

/-- A number is decomposed in one way only. -/
theorem IsSplit.unique {x : Binary64} {p q : Split} (hp : x.IsSplit p) (hq : x.IsSplit q) :
    p = q := by
  obtain ⟨hexponent, hvalue⟩ := eq_of_mul_zpow_eq hp.half_le hp.lt_one hq.half_le hq.lt_one
    (hp.value_eq.symm.trans hq.value_eq)
  have hne : q.significand.value ≠ 0 := by
    intro hzero
    have hhalf := hq.half_le
    rw [hzero, abs_zero] at hhalf
    norm_num at hhalf
  have hsignificand := eq_of_value_eq hp.isFinite hq.isFinite hvalue hne
  cases p
  cases q
  simp_all

/-! ### The sum with epsilon -/

/-- The rank that a nudge moves a normal rank to: two ranks on, from the last of a group one. -/
def nudgeRank (rank : ℕ) : ℕ := rank + if rank % 2 ^ 52 = 2 ^ 52 - 1 then 1 else 2

theorem lt_nudgeRank (r : ℕ) : r < nudgeRank r := by
  rw [nudgeRank]
  split_ifs <;> omega

theorem nudgeRank_le (r : ℕ) : nudgeRank r ≤ r + 2 := by
  rw [nudgeRank]
  split_ifs <;> omega

theorem nudgeRank_of_ne (h : r % 2 ^ 52 ≠ 2 ^ 52 - 1) : nudgeRank r = r + 2 := by
  rw [nudgeRank, if_neg h]

/-- Two steps of the significands' group, rounded. From the last significand the sum is half-way
between one and the number after it, and one has the even rank. -/
private theorem nearest_significand_add {f : ℕ} (hf : f < 2 ^ 52) :
    nearest ((2 ^ 52 + f + 2) * 2 ^ (-53 : ℤ)) = nudgeRank (halfRank + f) := by
  rcases Nat.lt_or_ge f (2 ^ 52 - 1) with hf' | hf'
  · have hexact : magnitude (halfRank + (f + 2)) = (2 ^ 52 + f + 2) * 2 ^ (-53 : ℤ) := by
      rw [magnitude_significand (by omega)]
      push_cast
      ring
    rw [← hexact, nearest_magnitude, nudgeRank_of_ne (by rw [halfRank]; omega), add_assoc]
  · obtain rfl : f = 2 ^ 52 - 1 := by omega
    have hone : magnitude (halfRank + 2 ^ 52) = 1 := by
      rw [magnitude_significand le_rfl]
      norm_num
    have hnext : magnitude (halfRank + 2 ^ 52 + 1) = 1 + 2 ^ (-52 : ℤ) := by
      have hrank : halfRank + 2 ^ 52 + 1 = 1022 * 2 ^ 52 + (2 ^ 52 + 1) := rfl
      rw [hrank, magnitude_group 1022 (by omega) (by omega)]
      norm_num
    have hy : ((2 : ℚ) ^ 52 + (2 ^ 52 - 1 : ℕ) + 2) * 2 ^ (-53 : ℤ) = 1 + 2 ^ (-53 : ℤ) := by
      norm_num
    have hrank : nudgeRank (halfRank + (2 ^ 52 - 1)) = halfRank + 2 ^ 52 := by
      rw [nudgeRank, if_pos (by rw [halfRank]; omega)]
      rfl
    rw [hy, hrank]
    refine le_antisymm (Nat.le_of_not_lt ?_) (le_nearest ?_)
    · have heven : (halfRank + 2 ^ 52) % 2 = 0 := rfl
      rw [lt_nearest_iff (by positivity), hone, hnext, heven]
      norm_num
    · rw [hone]
      norm_num

/-- A significand plus `epsilon`. -/
theorem significand_add {f : ℕ} (hf : f < 2 ^ 52) :
    ofRank s (halfRank + f) + epsilon.copySign (ofRank s (halfRank + f)) =
      ofRank s (nudgeRank (halfRank + f)) := by
  have heps : 971 * 2 ^ 52 < overflowRank := by rw [overflowRank]; omega
  have hlt := significand_lt hf.le
  have hcopy : epsilon.copySign (ofRank s (halfRank + f)) = finite s (971 * 2 ^ 52) heps := by
    rw [epsilon, ofRank_of_lt heps, ofRank_of_lt hlt]
    cases s <;> rfl
  have hsum : magnitude (halfRank + f) + magnitude (971 * 2 ^ 52) =
      (2 ^ 52 + f + 2) * 2 ^ (-53 : ℤ) := by
    have heps' : magnitude (971 * 2 ^ 52) = 2 * 2 ^ (-53 : ℤ) := by
      have hrank : 971 * 2 ^ 52 = twoPowRank (-52) := rfl
      rw [hrank, magnitude_twoPowRank (by omega), ← zpow_one_add₀ two_ne_zero]
      rfl
    rw [magnitude_significand hf.le, heps']
    ring
  rw [hcopy, ofRank_of_lt hlt, finite_add_finite (by omega), hsum, nearest_significand_add hf]

/-! ### The nudge -/

theorem nudge_zero {h : 0 < overflowRank} : (finite s 0 h).nudge = finite s 0 h := rfl

/-- The nudge scales the next significands but one. -/
theorem nudge_finite {h : r < overflowRank} {f : ℕ} {E : ℤ} (hf : f < 2 ^ 52)
    (h₁ : -1073 ≤ E) (h₂ : E ≤ 1024)
    (hsplit : (finite s r h).split = ⟨ofRank s (halfRank + f), E⟩) :
    (finite s r h).nudge =
      ofRank s (nearest (magnitude (nudgeRank (halfRank + f)) * 2 ^ E)) := by
  have hlt := significand_lt hf.le
  have hpos : (halfRank + f == 0) = false := by
    rw [halfRank]
    exact beq_false_of_ne (by omega)
  have htest :
      ((ofRank s (halfRank + f)).isZero || !(ofRank s (halfRank + f)).isFinite) = false := by
    rw [ofRank_of_lt hlt, isZero, isFinite, hpos]
    rfl
  have hle : nudgeRank (halfRank + f) ≤ halfRank + 2 ^ 52 := by
    rw [nudgeRank, halfRank]
    split_ifs <;> omega
  simp only [nudge, hsplit, htest, significand_add hf]
  exact scaleTwo_eq ((Nat.le_add_right _ _).trans (lt_nudgeRank _).le) hle h₁ h₂

/-- A normal number is nudged two ranks outward, or one from the last rank of its group. -/
theorem nudge_normal {h : r < overflowRank} (hr : 2 ^ 52 ≤ r) :
    (finite s r h).nudge = ofRank s (nudgeRank r) := by
  have hgroup : (halfRank + r % 2 ^ 52) % 2 ^ 52 = r % 2 ^ 52 := by rw [halfRank]; omega
  have hrank : (nudgeRank r : ℤ) = nudgeRank (halfRank + r % 2 ^ 52) +
      ((r / 2 ^ 52 : ℕ) - 1022) * 2 ^ 52 := by
    rw [nudgeRank, nudgeRank, hgroup, halfRank]
    push_cast
    omega
  have hlt := lt_nudgeRank r
  have hlt' : 2 ^ 52 ≤ nudgeRank (halfRank + r % 2 ^ 52) :=
    le_trans (by rw [halfRank]; omega) (lt_nudgeRank _).le
  rw [nudge_finite (by omega) (by omega) (by rw [overflowRank] at h; omega) (split_normal hr),
    magnitude_mul_zpow hlt' (by omega) hrank, nearest_magnitude]

/-- Past a subnormal rank, a whole step leads to the next rank, half a step does if the rank is
odd, and less than half a step does not. -/
private theorem nearest_magnitude_add_zpow (hr : r < 2 ^ 52) {e : ℤ} (he : e ≤ -1074) :
    nearest (magnitude r + 2 ^ e) =
      r + if e = -1074 ∨ (e = -1075 ∧ r % 2 = 1) then 1 else 0 := by
  have hpos : (0 : ℚ) < 2 ^ e := zpow_pos two_pos _
  have hsum : 0 ≤ magnitude r + 2 ^ e := add_nonneg (magnitude_nonneg r) hpos.le
  have hnext := magnitude_succ_of_lt (r := r) (by omega)
  have hstep : (2 : ℚ) ^ e ≤ 2 ^ (-1074 : ℤ) := zpow_le_zpow_right₀ one_le_two he
  have hlo : r ≤ nearest (magnitude r + 2 ^ e) := le_nearest (by linarith)
  have hhi : nearest (magnitude r + 2 ^ e) ≤ r + 1 := nearest_le hsum (by linarith)
  -- twice the step, against the distance of the two ranks
  have hdouble : 2 * (magnitude r + 2 ^ e) - (magnitude r + magnitude (r + 1)) =
      2 ^ (e + 1) - 2 ^ (-1074 : ℤ) := by
    rw [hnext, zpow_add_one₀ two_ne_zero]
    ring
  have hlt : magnitude r + magnitude (r + 1) < 2 * (magnitude r + 2 ^ e) ↔ e = -1074 := by
    rw [← sub_pos, hdouble, sub_pos, zpow_lt_zpow_iff_right₀ one_lt_two]
    omega
  have heq : magnitude r + magnitude (r + 1) = 2 * (magnitude r + 2 ^ e) ↔ e = -1075 := by
    rw [eq_comm, ← sub_eq_zero, hdouble, sub_eq_zero, zpow_right_inj₀ two_pos (by norm_num)]
    omega
  have hmid := lt_nearest_iff hsum (r := r)
  rw [hlt, heq] at hmid
  split_ifs with hpast
  · have := hmid.mpr hpast
    omega
  · have := mt hmid.mp hpast
    omega

/-- The nudge of a subnormal number: one rank in the upper half of the subnormals, half a rank in
the quarter below, and too little to count further down. -/
theorem nudge_subnormal_eq {h : r < overflowRank} (h₀ : 0 < r) (hr : r < 2 ^ 52) :
    (finite s r h).nudge =
      ofRank s (r + if 2 ^ 51 ≤ r ∨ (2 ^ 50 ≤ r ∧ r % 2 = 1) then 1 else 0) := by
  obtain ⟨f, hf, heven, hsplit, hmag⟩ := split_subnormal (s := s) (h := h) h₀ hr
  have hlog : r.log2 < 52 := (Nat.log2_lt h₀.ne').mpr hr
  have hupper : 51 ≤ r.log2 ↔ 2 ^ 51 ≤ r := Nat.le_log2 h₀.ne'
  have hlower : 50 ≤ r.log2 ↔ 2 ^ 50 ≤ r := Nat.le_log2 h₀.ne'
  have hnudge : nudgeRank (halfRank + f) = halfRank + (f + 2) :=
    nudgeRank_of_ne (by rw [halfRank]; omega)
  -- two significands on is `2⁻⁵²` more, times the power of two
  have hstep : magnitude (halfRank + (f + 2)) * 2 ^ (r.log2 - 1073 : ℤ) =
      magnitude r + 2 ^ (r.log2 - 1125 : ℤ) := by
    rw [hmag, magnitude_significand (by omega), magnitude_significand hf.le,
      show (r.log2 : ℤ) - 1125 = 1 + (-53 + (r.log2 - 1073)) by ring, zpow_add₀ two_ne_zero,
      zpow_add₀ two_ne_zero]
    push_cast
    ring
  rw [nudge_finite hf (by omega) (by omega) hsplit, hnudge, hstep,
    nearest_magnitude_add_zpow hr (by omega)]
  congr 2
  exact if_congr (by omega) rfl rfl

/-- A subnormal number is nudged one rank outward at most. -/
theorem nudge_subnormal {h : r < overflowRank} (h₀ : 0 < r) (hr : r < 2 ^ 52) :
    ∃ q, r ≤ q ∧ q ≤ r + 1 ∧ (finite s r h).nudge = ofRank s q :=
  ⟨_, Nat.le_add_right _ _, by split_ifs <;> omega, nudge_subnormal_eq h₀ hr⟩

/-- The rank that a nudge moves any rank to. -/
def nudgedRank (rank : ℕ) : ℕ :=
  if 2 ^ 52 ≤ rank then nudgeRank rank
  else rank + if 2 ^ 51 ≤ rank ∨ (2 ^ 50 ≤ rank ∧ rank % 2 = 1) then 1 else 0

/-- **The nudge by ranks.** The sign stays, and the rank is moved outward. -/
theorem nudge_eq_ofRank (s : Bool) (r : ℕ) (h : r < overflowRank) :
    (finite s r h).nudge = ofRank s (nudgedRank r) := by
  rw [nudgedRank]
  split_ifs with hnormal hup
  · exact nudge_normal hnormal
  · rw [nudge_subnormal_eq (by omega) (by omega), if_pos hup]
  · rcases r.eq_zero_or_pos with rfl | h₀
    · rw [nudge_zero, ofRank_of_lt]
    · rw [nudge_subnormal_eq h₀ (by omega), if_neg hup]

theorem nudgedRank_eq_of_nudge {q : ℕ} {h : r < overflowRank} {hq : q < overflowRank}
    (hnudge : (finite s r h).nudge = finite s q hq) : nudgedRank r = q :=
  rank_eq_of_ofRank_eq ((nudge_eq_ofRank s r h).symm.trans hnudge)

theorem nudgedRank_of_le (hr : 2 ^ 52 ≤ r) : nudgedRank r = nudgeRank r := if_pos hr

theorem nudgedRank_le_of_lt (hr : r < 2 ^ 52) : nudgedRank r ≤ r + 1 := by
  rw [nudgedRank]
  split_ifs <;> omega

theorem le_nudgedRank (r : ℕ) : r ≤ nudgedRank r := by
  have hlt := lt_nudgeRank r
  rw [nudgedRank]
  split_ifs <;> omega

theorem nudgedRank_mono : Monotone nudgedRank := fun a b hab => by
  have hb := le_nudgedRank b
  rcases eq_or_ne a b with rfl | hne
  · exact le_rfl
  rcases Nat.lt_or_ge a (2 ^ 52) with ha | ha
  -- a subnormal rank is moved by one at most, and the next one is not moved back
  · have hstep := nudgedRank_le_of_lt ha
    omega
  · rw [nudgedRank_of_le ha, nudgedRank_of_le (by omega), nudgeRank, nudgeRank]
    split_ifs <;> omega

/-! ### How far a nudge leads -/

/-- A nudge leads outward by two steps at most: the last rank of a group, where steps double, is
moved by one rank only. -/
theorem magnitude_nudgeRank_le_add (r : ℕ) :
    magnitude (nudgeRank r) ≤ magnitude r + 2 * (spacing r / unitsPerOne) := by
  have hpos : (0 : ℚ) ≤ spacing r / unitsPerOne :=
    div_nonneg (Nat.cast_nonneg _) unitsPerOne_pos.le
  by_cases hlast : r % 2 ^ 52 = 2 ^ 52 - 1
  · rw [nudgeRank, if_pos hlast, magnitude_succ]
    linarith
  · have hsame : spacing (r + 1) = spacing r := by
      have hgroup : (r + 1) / 2 ^ 52 = r / 2 ^ 52 := by omega
      rw [spacing, spacing, hgroup]
    rw [nudgeRank_of_ne hlast, magnitude_succ (r + 1), hsame, magnitude_succ]
    linarith

/-- A nudge adds at most the `2⁵¹`-st part to a normal magnitude. -/
theorem magnitude_nudgeRank_le (hr : 2 ^ 52 ≤ r) :
    magnitude (nudgeRank r) ≤ magnitude r * (1 + 1 / 2 ^ 51) := by
  have hsize := spacing_le_magnitude hr
  have hstep := magnitude_nudgeRank_le_add r
  linarith

/-- A nudge leads beyond everything that the rank is the nearest one to. -/
theorem lt_magnitude_nudgeRank {y : ℚ} (hy : 0 ≤ y) : y < magnitude (nudgeRank (nearest y)) := by
  have hmid := two_mul_le_of_nearest hy
  have hstep := magnitude_strictMono (Nat.lt_succ_self (nearest y))
  have hnext := magnitude_strictMono.monotone (lt_nudgeRank (nearest y))
  simp only [Nat.succ_eq_add_one] at hstep hnext
  linarith

/-- A nudge leads outward, by no more than the `2⁵¹`-st part and the least magnitude. -/
theorem magnitude_nudge_le {q : ℕ} {h : r < overflowRank} {hq : q < overflowRank}
    (hnudge : (finite s r h).nudge = finite s q hq) :
    magnitude r ≤ magnitude q ∧
      magnitude q ≤ magnitude r + magnitude r / 2 ^ 51 + 2 ^ (-1074 : ℤ) := by
  have hunit : (0 : ℚ) < 2 ^ (-1074 : ℤ) := zpow_pos two_pos _
  have hr := magnitude_nonneg r
  obtain rfl := nudgedRank_eq_of_nudge hnudge
  refine ⟨magnitude_strictMono.monotone (le_nudgedRank r), ?_⟩
  rcases Nat.lt_or_ge r (2 ^ 52) with hsmall | hlarge
  · have hstep := magnitude_strictMono.monotone (nudgedRank_le_of_lt hsmall)
    rw [magnitude_succ_of_lt (by omega)] at hstep
    linarith
  · have hgrow := magnitude_nudgeRank_le hlarge
    rw [nudgedRank_of_le hlarge]
    linarith

/-- A nudged number has the sign that it had; the largest may become infinite. -/
theorem nudge_cases (s : Bool) (r : ℕ) (h : r < overflowRank) :
    (finite s r h).nudge = .infinity s ∨ ∃ q, ∃ hq : q < overflowRank,
      (finite s r h).nudge = finite s q hq := by
  rw [nudge_eq_ofRank]
  rcases Nat.lt_or_ge (nudgedRank r) overflowRank with hlt | hge
  · exact .inr ⟨_, hlt, ofRank_of_lt hlt⟩
  · exact .inl (ofRank_of_le hge)

end DecimalRounding.Binary64
