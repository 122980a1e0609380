import DecimalRounding.Proofs.RelativeError

/-!
# Values of binary64 numbers

The value of a finite number as a rational, and what it means to be *the* number nearest to a
rational (`IsNearest`): no finite number is closer, and of two that are equally close it is the one
of even rank. The relation says nothing of how numbers are computed. It is decided by ranks
(`IsNearest.rank_eq`, `isNearest_finite`): the sign is that of the rational, and the rank the
nearest one.

The two zeros have one value, so that both are nearest to a rational near zero.
-/

namespace DecimalRounding.Binary64

/-! ### Signs and values -/

/-- A sign as a factor. -/
def signFactor (negative : Bool) : ℚ := if negative then -1 else 1

@[simp]
theorem signFactor_false : signFactor false = 1 := rfl

@[simp]
theorem signFactor_true : signFactor true = -1 := rfl

@[simp]
theorem abs_signFactor (s : Bool) : |signFactor s| = 1 := by cases s <;> simp

/-- The value of a finite number. Infinities and `nan` have none; they are given zero. -/
def value : Binary64 → ℚ
  | .finite negative rank _ => signFactor negative * magnitude rank
  | _ => 0

@[simp]
theorem abs_value_finite (s : Bool) (r : ℕ) (h : r < overflowRank) :
    |(finite s r h).value| = magnitude r := by
  rw [value, abs_mul, abs_signFactor, one_mul, abs_of_nonneg (magnitude_nonneg r)]

theorem ofRank_of_lt {s : Bool} {r : ℕ} (h : r < overflowRank) : ofRank s r = .finite s r h := by
  rw [ofRank, dif_pos h]

theorem ofRank_of_le {s : Bool} {r : ℕ} (h : overflowRank ≤ r) : ofRank s r = .infinity s := by
  rw [ofRank, dif_neg (Nat.not_lt.mpr h)]

@[simp]
theorem isNegative_ofRank (s : Bool) (r : ℕ) : (ofRank s r).isNegative = s := by
  rw [ofRank]
  split_ifs <;> rfl

theorem isFinite_ofRank_iff {s : Bool} {r : ℕ} : (ofRank s r).isFinite ↔ r < overflowRank := by
  rw [ofRank]
  split_ifs with h
  · exact iff_of_true rfl h
  · exact iff_of_false Bool.false_ne_true h

theorem rank_eq_of_ofRank_eq {s t : Bool} {r q : ℕ} {h : q < overflowRank}
    (heq : ofRank s r = .finite t q h) : r = q := by
  rw [ofRank] at heq
  split_ifs at heq
  injection heq

/-- A rational is its sign times its absolute value. -/
theorem signFactor_mul_abs (x : ℚ) : signFactor (x < 0) * |x| = x := by
  rcases lt_or_ge x 0 with h | h
  · simp [h, abs_of_neg]
  · simp [not_lt.mpr h, abs_of_nonneg h]

/-- Apart from zero, a number is known by its value. -/
theorem eq_of_value_eq {x y : Binary64} (hx : x.isFinite) (hy : y.isFinite)
    (h : x.value = y.value) (h₀ : y.value ≠ 0) : x = y := by
  cases x with
  | nan | infinity => cases hx
  | finite s a ha =>
    cases y with
    | nan | infinity => cases hy
    | finite t b hb =>
      have hmagnitude : magnitude a = magnitude b := by
        rw [← abs_value_finite s a ha, h, abs_value_finite]
      obtain rfl := magnitude_strictMono.injective hmagnitude
      have hsign : signFactor s = signFactor t := by
        rw [value, value] at h
        refine mul_right_cancel₀ ?_ h
        intro hzero
        rw [value, hzero, mul_zero] at h₀
        exact h₀ rfl
      cases s <;> cases t <;> first | rfl | norm_num at hsign

/-! ### The end of the range -/

/-- The rank after the last finite one stands for `2¹⁰²⁴`. -/
theorem magnitude_overflowRank : magnitude overflowRank = 2 ^ 1024 := by
  have hrank : overflowRank = twoPowRank (1024 : ℕ) := by rw [overflowRank, twoPowRank]; rfl
  rw [hrank, magnitude_twoPowRank (by omega), zpow_natCast]

theorem magnitude_lt_of_lt_overflowRank {r : ℕ} (h : r < overflowRank) :
    magnitude r < 2 ^ 1024 := by
  rw [← magnitude_overflowRank]
  exact magnitude_strictMono h

/-- From here on rationals round to infinity: half-way from the largest finite number to
`2¹⁰²⁴`. -/
def overflowBound : ℚ := 2 ^ (1024 : ℤ) - 2 ^ (970 : ℤ)

private theorem two_mul_overflowBound :
    2 * overflowBound = magnitude (overflowRank - 1) + magnitude (overflowRank - 1 + 1) := by
  have h₁ : overflowRank - 1 = 2045 * 2 ^ 52 + (2 ^ 53 - 1) := by rw [overflowRank]; omega
  have h₂ : overflowRank - 1 + 1 = 2045 * 2 ^ 52 + 2 ^ 53 := by rw [overflowRank]; omega
  have h₃ : (((2045 : ℕ) : ℤ) - 1074) = 1 + 970 := rfl
  have h₄ : (1024 : ℤ) = 54 + 970 := rfl
  rw [h₂, h₁, magnitude_group 2045 (by omega) (by omega), magnitude_group 2045 (by omega) le_rfl,
    overflowBound, h₃, h₄, zpow_add₀ two_ne_zero, zpow_add₀ two_ne_zero]
  generalize (2 : ℚ) ^ (970 : ℤ) = c
  norm_num
  ring

/-- A rational rounds to a finite rank exactly below the bound. -/
theorem nearest_lt_overflowRank_iff {y : ℚ} (hy : 0 ≤ y) :
    nearest y < overflowRank ↔ y < overflowBound := by
  have hodd : (overflowRank - 1) % 2 = 1 := rfl
  have hlast : overflowRank ≤ nearest y ↔ overflowRank - 1 < nearest y := by
    rw [overflowRank]; omega
  rw [← not_iff_not, not_lt, not_lt, hlast, lt_nearest_iff hy, ← two_mul_overflowBound,
    mul_lt_mul_iff_of_pos_left two_pos, mul_right_inj' two_ne_zero]
  simp only [hodd, and_true]
  exact le_iff_lt_or_eq.symm

/-- The integers that are all magnitudes are far from the end of the range. -/
theorem lt_overflowBound {y : ℚ} (hy : 0 ≤ y) (h : y ≤ 2 ^ 53) : y < overflowBound := by
  have hpow : y ≤ magnitude (twoPowRank 53) := by
    rw [magnitude_twoPowRank (by omega)]
    exact_mod_cast h
  rw [← nearest_lt_overflowRank_iff hy]
  refine (nearest_le hy hpow).trans_lt ?_
  rw [twoPowRank, overflowRank]
  omega

/-! ### The number nearest to a rational -/

/-- Does the last stored binary digit of a finite number read zero? -/
def hasEvenRank : Binary64 → Bool
  | .finite _ rank _ => rank % 2 == 0
  | _ => false

/-- `v` is the finite number nearest to `x`: no finite number is closer, and where one of another
value is equally close, `v` is the one of even rank. Rationals beyond the end of the range are
nearest to no finite number. -/
structure IsNearest (v : Binary64) (x : ℚ) : Prop where
  isFinite : v.isFinite
  inRange : |x| < overflowBound
  closest : ∀ w : Binary64, w.isFinite → |v.value - x| ≤ |w.value - x|
  even : ∀ w : Binary64, w.isFinite → |v.value - x| = |w.value - x| → w.value ≠ v.value →
    v.hasEvenRank

/-- The larger of two rationals is the closer one exactly from their midpoint on. -/
private theorem abs_sub_le_abs_sub_iff {a b y : ℚ} (h : a < b) :
    |b - y| ≤ |a - y| ↔ a + b ≤ 2 * y := by
  rw [← sq_le_sq, ← sub_nonneg]
  have hfactor : (a - y) ^ 2 - (b - y) ^ 2 = (b - a) * (2 * y - (a + b)) := by ring
  rw [hfactor, mul_nonneg_iff_of_pos_left (sub_pos.mpr h), sub_nonneg]

/-- The smaller of two rationals is the closer one exactly up to their midpoint. -/
private theorem abs_sub_le_abs_sub_iff' {a b y : ℚ} (h : a < b) :
    |a - y| ≤ |b - y| ↔ 2 * y ≤ a + b := by
  rw [← sq_le_sq, ← sub_nonneg]
  have hfactor : (b - y) ^ 2 - (a - y) ^ 2 = (b - a) * (a + b - 2 * y) := by ring
  rw [hfactor, mul_nonneg_iff_of_pos_left (sub_pos.mpr h), sub_nonneg]

/-- No magnitude is closer to a rational than that of its nearest rank. -/
theorem abs_magnitude_nearest_sub_le {y : ℚ} (hy : 0 ≤ y) (r : ℕ) :
    |magnitude (nearest y) - y| ≤ |magnitude r - y| := by
  rcases lt_trichotomy r (nearest y) with h | rfl | h
  · obtain ⟨t, ht⟩ : ∃ t, nearest y = t + 1 := ⟨nearest y - 1, by omega⟩
    have hmid := le_two_mul_of_lt_nearest hy (r := t) (by omega)
    have hle : magnitude r ≤ magnitude t := magnitude_strictMono.monotone (by omega)
    rw [abs_sub_le_abs_sub_iff (magnitude_strictMono h), ht]
    linarith
  · exact le_rfl
  · have hmid := two_mul_le_of_nearest hy
    have hle : magnitude (nearest y + 1) ≤ magnitude r := magnitude_strictMono.monotone h
    rw [abs_sub_le_abs_sub_iff' (magnitude_strictMono h)]
    linarith

/-- A rank whose magnitude is as close as that of the nearest one leaves the latter even. -/
theorem even_nearest_of_abs_eq {y : ℚ} (hy : 0 ≤ y) {r : ℕ} (hne : r ≠ nearest y)
    (h : |magnitude (nearest y) - y| = |magnitude r - y|) : nearest y % 2 = 0 := by
  rcases hne.lt_or_gt with hlt | hgt
  · obtain ⟨t, ht⟩ : ∃ t, nearest y = t + 1 := ⟨nearest y - 1, by omega⟩
    have hmid := lt_nearest_iff hy (r := t)
    have hle : magnitude r ≤ magnitude t := magnitude_strictMono.monotone (by omega)
    have htie := (abs_sub_le_abs_sub_iff' (magnitude_strictMono hlt)).mp h.ge
    rw [ht] at htie
    rcases hmid.mp (by omega) with hpast | ⟨-, hodd⟩
    · linarith
    · omega
  · have hmid := lt_nearest_iff hy (r := nearest y)
    have hle : magnitude (nearest y + 1) ≤ magnitude r := magnitude_strictMono.monotone hgt
    have htie := (abs_sub_le_abs_sub_iff (magnitude_strictMono hgt)).mp h.ge
    have hup := two_mul_le_of_nearest hy
    by_contra hodd
    exact lt_irrefl _ (hmid.mpr (.inr ⟨by linarith, by omega⟩))

/-- The distance of two numbers of the same sign is that of their absolute values; a zero is as
good as either sign. -/
theorem abs_value_sub_same {s t : Bool} {r : ℕ} {h : r < overflowRank} {y : ℚ}
    (hst : r = 0 ∨ s = t) : |(finite s r h).value - signFactor t * y| = |magnitude r - y| := by
  rcases hst with rfl | rfl
  · rw [value, magnitude_zero, mul_zero, zero_sub, zero_sub, abs_neg, abs_neg, abs_mul,
      abs_signFactor, one_mul]
  · rw [value, ← mul_sub, abs_mul, abs_signFactor, one_mul]

/-- The distance of two numbers of different signs is the sum of their absolute values. -/
private theorem abs_value_sub_of_ne {s t : Bool} {r : ℕ} {h : r < overflowRank} {y : ℚ}
    (hy : 0 ≤ y) (hst : s ≠ t) : |(finite s r h).value - signFactor t * y| = magnitude r + y := by
  have ht : signFactor t = -signFactor s := by
    rw [Bool.eq_not_of_ne hst.symm]
    cases s <;> simp
  rw [value, ht, neg_mul, sub_neg_eq_add, ← mul_add, abs_mul, abs_signFactor, one_mul,
    abs_of_nonneg (add_nonneg (magnitude_nonneg r) hy)]

/-- Whatever the signs, numbers are no closer than their absolute values. -/
private theorem le_abs_value_sub {s t : Bool} {r : ℕ} {h : r < overflowRank} {y : ℚ}
    (hy : 0 ≤ y) : |magnitude r - y| ≤ |(finite s r h).value - signFactor t * y| := by
  rcases eq_or_ne s t with rfl | hst
  · rw [abs_value_sub_same (.inr rfl)]
  · rw [abs_value_sub_of_ne hy hst, abs_le]
    have := magnitude_nonneg r
    constructor <;> linarith

/-- A rank whose magnitude is no farther than any other, and that is even where one is as close, is
the nearest rank: it passes both of the tests with its neighbours that decide which one is. -/
private theorem nearest_eq_of_closest {y : ℚ} (hy : 0 ≤ y) (hrange : nearest y < overflowRank)
    {r : ℕ} (h : r < overflowRank)
    (hclosest : ∀ q < overflowRank, |magnitude r - y| ≤ |magnitude q - y|)
    (heven : ∀ q < overflowRank, q ≠ r → |magnitude r - y| = |magnitude q - y| → r % 2 = 0) :
    nearest y = r := by
  refine le_antisymm (Nat.le_of_not_lt fun hlt => ?_) (Nat.le_of_not_lt fun hlt => ?_)
  -- the next rank up would be closer, or as close with `r` odd
  · have hstep := magnitude_strictMono (Nat.lt_succ_self r)
    have hup := hclosest (r + 1) (by omega)
    have hmid := (abs_sub_le_abs_sub_iff' hstep).mp hup
    rcases (lt_nearest_iff hy).mp hlt with hpast | ⟨htie, hodd⟩
    · linarith
    · have hdown := (abs_sub_le_abs_sub_iff hstep).mpr htie.le
      have := heven (r + 1) (by omega) (by omega) (le_antisymm hup hdown)
      omega
  -- the next rank down would be closer, or as close with `r` odd
  · obtain ⟨q, rfl⟩ : ∃ q, r = q + 1 := ⟨r - 1, by omega⟩
    have hstep := magnitude_strictMono (Nat.lt_succ_self q)
    have hdown := hclosest q (by omega)
    have hmid := (abs_sub_le_abs_sub_iff hstep).mp hdown
    have hnot : ¬ q < nearest y := by omega
    rw [lt_nearest_iff hy] at hnot
    push Not at hnot
    have htie := le_antisymm hmid hnot.1
    have hup := (abs_sub_le_abs_sub_iff' hstep).mpr htie.ge
    have := heven q (by omega) (by omega) (le_antisymm hdown hup)
    have := hnot.2 htie
    omega

/-- A number nearest to a rational has its sign, unless it is a zero: else zero would be closer. -/
private theorem IsNearest.sign_eq {s t : Bool} {r : ℕ} {h : r < overflowRank} {y : ℚ} (hy : 0 ≤ y)
    (hv : (finite s r h).IsNearest (signFactor t * y)) : r = 0 ∨ s = t := by
  by_contra hcon
  push Not at hcon
  have hzero := hv.closest (finite t 0 (Nat.zero_lt_of_lt h)) rfl
  rw [abs_value_sub_of_ne hy hcon.2, abs_value_sub_same (.inl rfl), magnitude_zero, zero_sub,
    abs_neg, abs_of_nonneg hy] at hzero
  have := magnitude_pos (Nat.pos_of_ne_zero hcon.1)
  linarith

/-- A number nearest to a rational has the nearest rank, and its sign unless it is a zero. -/
theorem IsNearest.rank_eq {s t : Bool} {r : ℕ} {h : r < overflowRank} {y : ℚ} (hy : 0 ≤ y)
    (hv : (finite s r h).IsNearest (signFactor t * y)) : nearest y = r ∧ (r = 0 ∨ s = t) := by
  have hrange : nearest y < overflowRank := by
    rw [nearest_lt_overflowRank_iff hy]
    simpa [abs_mul, abs_of_nonneg hy] using hv.inRange
  have hsign := hv.sign_eq hy
  refine ⟨nearest_eq_of_closest hy hrange h (fun q hq => ?_) (fun q hq hqr heq => ?_), hsign⟩
  · have hle := hv.closest (finite t q hq) rfl
    rwa [abs_value_sub_same hsign, abs_value_sub_same (.inr rfl)] at hle
  · have hne : (finite t q hq).value ≠ (finite s r h).value := fun hcon => hqr <| by
      have habs := congrArg abs hcon
      rw [abs_value_finite, abs_value_finite] at habs
      exact magnitude_strictMono.injective habs
    have htie := hv.even (finite t q hq) rfl
      (by rw [abs_value_sub_same hsign, heq, abs_value_sub_same (.inr rfl)]) hne
    simpa [hasEvenRank] using htie

/-- The number with the nearest rank and the sign of a rational is nearest to it. -/
theorem isNearest_finite {s t : Bool} {r : ℕ} {h : r < overflowRank} {y : ℚ} (hy : 0 ≤ y)
    (hr : nearest y = r) (hst : r = 0 ∨ s = t) : (finite s r h).IsNearest (signFactor t * y) := by
  subst hr
  refine ⟨rfl, ?_, ?_, ?_⟩
  · rw [abs_mul, abs_signFactor, one_mul, abs_of_nonneg hy]
    exact (nearest_lt_overflowRank_iff hy).mp h
  · rintro (_ | _ | ⟨s', q, hq⟩) hw
    · cases hw
    · cases hw
    · rw [abs_value_sub_same hst]
      exact (abs_magnitude_nearest_sub_le hy q).trans (le_abs_value_sub hy)
  · rintro (_ | _ | ⟨s', q, hq⟩) hw heq hne
    · cases hw
    · cases hw
    rw [abs_value_sub_same hst] at heq
    rcases eq_or_ne q (nearest y) with rfl | hqr
    -- two numbers of one rank and different values lie on both sides of zero
    · have hs' : s' ≠ s := by rintro rfl; exact hne rfl
      have hpos : nearest y ≠ 0 := by
        intro hzero
        simp [value, hzero] at hne
      have hst' := hst.resolve_left hpos
      rw [abs_value_sub_of_ne hy (hst' ▸ hs')] at heq
      have hmag := magnitude_pos (Nat.pos_of_ne_zero hpos)
      have hy0 : y ≠ 0 := by rintro rfl; simp at hpos
      have hypos := lt_of_le_of_ne hy hy0.symm
      have hlt : |magnitude (nearest y) - y| < magnitude (nearest y) + y :=
        abs_lt.mpr ⟨by linarith, by linarith⟩
      exact absurd heq hlt.ne
    · have htie := le_antisymm (abs_magnitude_nearest_sub_le hy q)
        ((le_abs_value_sub hy).trans_eq heq.symm)
      simpa [hasEvenRank] using even_nearest_of_abs_eq hy hqr htie

/-- The number that rounding gives is the nearest one. -/
theorem isNearest_ofRank {s : Bool} {y : ℚ} (hy : 0 ≤ y) (h : y < overflowBound) :
    (ofRank s (nearest y)).IsNearest (signFactor s * y) := by
  rw [ofRank_of_lt ((nearest_lt_overflowRank_iff hy).mpr h)]
  exact isNearest_finite hy rfl (.inr rfl)

end DecimalRounding.Binary64
