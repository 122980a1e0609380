import DecimalRounding.Proofs.Nudge

/-!
# The line of binary64 numbers

The numerical order of binary64 numbers (`Binary64.le`; for finite numbers it is that of their
values, `le_iff_value_le`), negation as the reflection of that line (`toBits_neg`), and the maps
that respect both (`OddMonotone`). They compose, so a computation respects order and sign as soon
as each of its steps does.

A step that keeps the sign and moves the ranks in order is of that kind (`ActsOnRanks.oddMonotone`),
and so are the nudge, the rounding to a whole number, and products and quotients by a positive
number: each of them is an increasing function of the magnitude, rounded to the nearest rank.
-/

namespace DecimalRounding.Binary64

/-! ### Order -/

/-- Numerical order: the zeros are equal, the infinities lie at the ends, and `nan` is not
comparable to anything. -/
def le (x y : Binary64) : Bool :=
  match x.ordinal?, y.ordinal? with
  | some i, some j => i ≤ j
  | _, _ => false

instance : LE Binary64 := ⟨fun x y => x.le y = true⟩

instance (x y : Binary64) : Decidable (x ≤ y) := inferInstanceAs (Decidable (x.le y = true))

variable {s t : Bool} {a b r : ℕ} {x y z : Binary64}

/-- The order is that of the ordinals, which `nan` has none of. -/
theorem le_iff : x ≤ y ↔ ∃ i j, x.ordinal? = some i ∧ y.ordinal? = some j ∧ i ≤ j := by
  change x.le y = true ↔ _
  rw [le]
  cases x.ordinal? <;> cases y.ordinal? <;> simp

theorem le_self (hx : x ≠ nan) : x ≤ x := by
  cases x with
  | nan => exact absurd rfl hx
  | infinity | finite => exact le_iff.mpr ⟨_, _, rfl, rfl, le_rfl⟩

/-- Signs turn naturals round as they turn integers round. -/
theorem signed_le_signed_iff :
    signed s a ≤ signed t b ↔
      (s = false ∧ t = false ∧ a ≤ b) ∨ (s = true ∧ t = true ∧ b ≤ a) ∨
        (s = true ∧ t = false) ∨ (a = 0 ∧ b = 0) := by
  cases s <;> cases t <;> simp [signed] <;> omega

/-- Among finite numbers the order is that of the signed ranks, in which the zeros are one. -/
theorem finite_le_finite_iff {ha : a < overflowRank} {hb : b < overflowRank} :
    finite s a ha ≤ finite t b hb ↔ signed s a ≤ signed t b := by
  rw [le_iff]
  exact ⟨fun ⟨_, _, hi, hj, hij⟩ => by cases hi; cases hj; exact hij,
    fun hij => ⟨_, _, rfl, rfl, hij⟩⟩

/-- Finite numbers are in the order of their values. -/
theorem le_iff_value_le (hx : x.isFinite) (hy : y.isFinite) : x ≤ y ↔ x.value ≤ y.value := by
  obtain _ | _ | ⟨s, a, ha⟩ := x
  · cases hx
  · cases hx
  obtain _ | _ | ⟨t, b, hb⟩ := y
  · cases hy
  · cases hy
  have ha₀ := magnitude_nonneg a
  have hb₀ := magnitude_nonneg b
  have hmono : ∀ a b, magnitude a ≤ magnitude b ↔ a ≤ b := fun _ _ =>
    magnitude_strictMono.le_iff_le
  rw [finite_le_finite_iff, value, value]
  cases s <;> cases t <;> simp only [signed, signFactor, Bool.false_eq_true, if_true, if_false]
  · rw [one_mul, one_mul, hmono]
    exact Int.ofNat_le
  -- from a positive to a negative number there is no way up but between the zeros
  · rw [one_mul, neg_one_mul]
    constructor
    · intro h
      obtain ⟨rfl, rfl⟩ : a = 0 ∧ b = 0 := by omega
      simp
    · intro h
      have ha' := (hmono a 0).mp (by rw [magnitude_zero]; linarith)
      have hb' := (hmono b 0).mp (by rw [magnitude_zero]; linarith)
      omega
  · exact iff_of_true (by omega) (by linarith)
  · rw [neg_one_mul, neg_one_mul, neg_le_neg_iff, neg_le_neg_iff (α := ℚ), hmono]
    exact Int.ofNat_le

/-- What lies between finite numbers is finite. -/
theorem isFinite_of_le_of_le (hx : x.isFinite) (hy : y.isFinite) (hxz : x ≤ z) (hzy : z ≤ y) :
    z.isFinite := by
  obtain ⟨i, k, hi, hk, hik⟩ := le_iff.mp hxz
  obtain ⟨k', j, hk', hj, hkj⟩ := le_iff.mp hzy
  obtain rfl := Option.some.inj (hk.symm.trans hk')
  obtain _ | _ | ⟨s, a, ha⟩ := x
  · cases hx
  · cases hx
  obtain _ | _ | ⟨t, b, hb⟩ := y
  · cases hy
  · cases hy
  cases hi
  cases hj
  obtain _ | u | _ := z
  · cases hk
  · cases hk
    cases u <;> cases s <;> cases t <;> simp [signed] at hik hkj <;> omega
  · rfl

/-! ### Negation -/

@[simp]
theorem neg_nan : -nan = nan := rfl

@[simp]
theorem neg_infinity : -infinity s = infinity (!s) := rfl

@[simp]
theorem neg_finite {h : r < overflowRank} : -finite s r h = finite (!s) r h := rfl

@[simp]
theorem neg_ofRank : -ofRank s r = ofRank (!s) r := by
  rw [ofRank, ofRank]
  split_ifs <;> rfl

theorem signed_not : signed (!s) r = -signed s r := by cases s <;> simp [signed]

/-- The sign bit on its own. -/
def signBit : UInt64 := 0x8000000000000000

/-- Adding a power of two to what lies below it turns over the bit of that power. -/
private theorem two_pow_add_eq_xor {n m : ℕ} (h : m < 2 ^ n) : 2 ^ n + m = m ^^^ 2 ^ n := by
  have hor : 2 ^ n + m = 2 ^ n ||| m := by simpa using Nat.two_pow_add_eq_or_of_lt h 1
  refine Nat.eq_of_testBit_eq fun i => ?_
  rw [hor, Nat.testBit_or, Nat.testBit_xor, Nat.testBit_two_pow]
  rcases eq_or_ne n i with rfl | hi
  · rw [Nat.testBit_lt_two_pow h]
    simp
  · rw [decide_eq_false hi, Bool.false_or, Bool.xor_false]

/-- The bits of a number but for the sign bit are those of its rank. -/
private theorem ofNat_not_signed (h : r ≤ overflowRank) :
    UInt64.ofNat ((!s).toNat * 2 ^ 63 + r) = UInt64.ofNat (s.toNat * 2 ^ 63 + r) ^^^ signBit := by
  rw [overflowRank] at h
  have hbit : signBit.toNat = 2 ^ 63 := rfl
  have hneg : 2 ^ 63 + r = r ^^^ 2 ^ 63 := two_pow_add_eq_xor (by omega)
  have hsmall : ∀ s : Bool, (s.toNat * 2 ^ 63 + r) % 2 ^ 64 = s.toNat * 2 ^ 63 + r := fun s =>
    Nat.mod_eq_of_lt (by have := Bool.toNat_le s; omega)
  rw [← UInt64.toNat_inj, UInt64.toNat_xor, UInt64.toNat_ofNat', UInt64.toNat_ofNat', hsmall,
    hsmall, hbit]
  cases s
  · rw [Bool.not_false, Bool.toNat_true, Bool.toNat_false, one_mul, zero_mul, zero_add, hneg]
  · rw [Bool.not_true, Bool.toNat_true, Bool.toNat_false, one_mul, zero_mul, zero_add, hneg,
      Nat.xor_assoc, Nat.xor_self, Nat.xor_zero]

/-- Negation turns the sign bit over, and no other. -/
theorem toBits_neg (hx : x ≠ nan) : (-x).toBits = x.toBits ^^^ signBit := by
  obtain _ | s | ⟨s, r, h⟩ := x
  · exact absurd rfl hx
  · exact ofNat_not_signed le_rfl
  · exact ofNat_not_signed h.le

/-! ### Maps that respect order and sign -/

/-- A map of the line that keeps the order and commutes with the reflection. -/
structure OddMonotone (F : Binary64 → Binary64) : Prop where
  map_neg : ∀ x, F (-x) = -F x
  map_le : ∀ {x y}, x ≤ y → F x ≤ F y

variable {F G : Binary64 → Binary64} {f : ℕ → ℕ}

theorem OddMonotone.comp (hG : OddMonotone G) (hF : OddMonotone F) :
    OddMonotone fun x => G (F x) :=
  ⟨fun x => by rw [hF.map_neg, hG.map_neg], fun h => hG.map_le (hF.map_le h)⟩

/-- On each side of zero the ranks keep their order. -/
theorem OddMonotone.rank_le_rank {q q' : ℕ} {ha : a < overflowRank} {hb : b < overflowRank}
    {hq : q < overflowRank} {hq' : q' < overflowRank} (hF : OddMonotone F) (h : a ≤ b)
    (hx : F (finite s a ha) = finite s q hq) (hy : F (finite s b hb) = finite s q' hq') :
    q ≤ q' := by
  -- for negative numbers the order is reversed twice
  cases s
  · have hle := hF.map_le (x := finite false a ha) (y := finite false b hb)
      (finite_le_finite_iff.mpr (by simpa [signed] using h))
    rw [hx, hy, finite_le_finite_iff] at hle
    simpa [signed] using hle
  · have hle := hF.map_le (x := finite true b hb) (y := finite true a ha)
      (finite_le_finite_iff.mpr (by simpa [signed] using h))
    rw [hx, hy, finite_le_finite_iff] at hle
    simpa [signed] using hle

/-- A step that keeps the sign and moves the rank by `f`, in order, past the last finite one if
need be. Infinities and `nan` stay. -/
structure ActsOnRanks (F : Binary64 → Binary64) (f : ℕ → ℕ) : Prop where
  nan : F .nan = .nan
  infinity : ∀ s, F (.infinity s) = .infinity s
  finite : ∀ s r h, F (.finite s r h) = ofRank s (f r)
  zero : f 0 = 0
  mono : ∀ {a b}, a ≤ b → b < overflowRank → f a ≤ f b

/-- Ranks past the last finite number all stand for the infinity. -/
theorem ordinal?_ofRank : (ofRank s r).ordinal? = some (signed s (min r overflowRank)) := by
  rw [ofRank]
  split_ifs with h
  · rw [ordinal?, min_eq_left h.le]
  · rw [ordinal?, min_eq_right (not_lt.mp h)]

/-- The line without `nan`: signed ranks, the infinities behind the last finite ones. -/
theorem exists_eq_ofRank (hx : x ≠ nan) :
    ∃ s r, x = ofRank s r ∧ x.ordinal? = some (signed s r) := by
  obtain _ | s | ⟨s, r, h⟩ := x
  · exact absurd rfl hx
  · exact ⟨s, overflowRank, (ofRank_of_le le_rfl).symm, rfl⟩
  · exact ⟨s, r, (ofRank_of_lt h).symm, rfl⟩

/-- A move of the finite ranks on the whole line: what leads past the last finite rank leads to
infinity, and infinity stays. -/
def onLine (f : ℕ → ℕ) (rank : ℕ) : ℕ :=
  if rank < overflowRank then min (f rank) overflowRank else overflowRank

theorem ActsOnRanks.onLine_zero (hF : ActsOnRanks F f) : onLine f 0 = 0 := by
  rw [onLine, hF.zero, Nat.zero_min, if_pos (by rw [overflowRank]; omega)]

theorem ActsOnRanks.onLine_le_onLine (hF : ActsOnRanks F f) (h : a ≤ b) :
    onLine f a ≤ onLine f b := by
  rw [onLine, onLine]
  split_ifs with ha hb hb
  · exact min_le_min_right _ (hF.mono h hb)
  · exact min_le_right _ _
  · omega
  · exact le_rfl

/-- On ordinals, such a map is its map of ranks, extended to negative ones. -/
theorem ActsOnRanks.ordinal?_map (hF : ActsOnRanks F f) :
    (F (ofRank s r)).ordinal? = some (signed s (onLine f r)) := by
  rw [onLine]
  split_ifs with h
  · rw [ofRank_of_lt h, hF.finite, ordinal?_ofRank]
  · rw [ofRank_of_le (not_lt.mp h), hF.infinity]
    rfl

/-- What moves the ranks in order and keeps the sign, respects order and sign. -/
theorem ActsOnRanks.oddMonotone (hF : ActsOnRanks F f) : OddMonotone F := by
  constructor
  · rintro (_ | s | ⟨s, r, h⟩)
    · rw [neg_nan, hF.nan, neg_nan]
    · rw [neg_infinity, hF.infinity, hF.infinity, neg_infinity]
    · rw [neg_finite, hF.finite, hF.finite, neg_ofRank]
  · intro x y hxy
    obtain ⟨i, j, hi, hj, hij⟩ := le_iff.mp hxy
    obtain ⟨s, a, rfl, hi'⟩ := exists_eq_ofRank (x := x) (by rintro rfl; cases hi)
    obtain ⟨t, b, rfl, hj'⟩ := exists_eq_ofRank (x := y) (by rintro rfl; cases hj)
    obtain rfl := Option.some.inj (hi'.symm.trans hi)
    obtain rfl := Option.some.inj (hj'.symm.trans hj)
    refine le_iff.mpr ⟨_, _, hF.ordinal?_map, hF.ordinal?_map, ?_⟩
    rw [signed_le_signed_iff] at hij ⊢
    rcases hij with ⟨rfl, rfl, hab⟩ | ⟨rfl, rfl, hab⟩ | ⟨rfl, rfl⟩ | ⟨rfl, rfl⟩
    · exact .inl ⟨rfl, rfl, hF.onLine_le_onLine hab⟩
    · exact .inr (.inl ⟨rfl, rfl, hF.onLine_le_onLine hab⟩)
    · exact .inr (.inr (.inl ⟨rfl, rfl⟩))
    · exact .inr (.inr (.inr ⟨hF.onLine_zero, hF.onLine_zero⟩))

/-! ### The steps of rounding -/

/-- The nudge is outward on both sides of zero. -/
theorem nudge_neg : (-x).nudge = -x.nudge := by
  obtain _ | s | ⟨s, r, h⟩ := x
  · rfl
  · rfl
  · rw [neg_finite, nudge_eq_ofRank, nudge_eq_ofRank, neg_ofRank]

theorem oddMonotone_nudge : OddMonotone nudge :=
  ActsOnRanks.oddMonotone (f := nudgedRank)
    ⟨rfl, fun _ => rfl, nudge_eq_ofRank, rfl, fun hab _ => nudgedRank_mono hab⟩

theorem oddMonotone_roundWhole : OddMonotone roundWhole := by
  refine ActsOnRanks.oddMonotone (f := fun r => nearest ⌊magnitude r + 1 / 2⌋₊)
    ⟨rfl, fun _ => rfl, fun s r h => ?_, ?_, fun {a b} hab _ => ?_⟩
  · obtain ⟨q, hq, hmag, hround⟩ := roundWhole_finite (s := s) (h := h)
    simp only [hround, ← hmag, nearest_magnitude, ofRank_of_lt hq]
  · have hhalf : ⌊(0 : ℚ) + 1 / 2⌋₊ = 0 := by norm_num
    simp only [magnitude_zero, hhalf, Nat.cast_zero, nearest_zero]
  · refine nearest_mono (Nat.cast_nonneg _) ?_
    exact_mod_cast Nat.floor_mono (by linarith [magnitude_strictMono.monotone hab])

/-- All finite numbers replaced by the zero of their sign. -/
theorem oddMonotone_zero : OddMonotone fun x => if x.isFinite then zero x.isNegative else x :=
  ActsOnRanks.oddMonotone (f := fun _ => 0)
    ⟨rfl, fun _ => rfl, fun _ _ _ => rfl, rfl, fun _ _ => le_rfl⟩

variable {c : ℕ} {h : c < overflowRank}

/-- Products by a positive number. -/
theorem oddMonotone_mul (hc : c ≠ 0) : OddMonotone fun x => x * finite false c h := by
  refine ActsOnRanks.oddMonotone (f := fun r => nearest (magnitude r * magnitude c))
    ⟨rfl, fun s => ?_, fun s r h => ?_, ?_, fun {a b} hab _ => ?_⟩
  · change mul _ _ = _
    rw [mul, if_neg hc, Bool.xor_false]
  · simp only [finite_mul_finite, Bool.xor_false]
  · simp
  · exact nearest_mono (mul_nonneg (magnitude_nonneg a) (magnitude_nonneg c))
      (mul_le_mul_of_nonneg_right (magnitude_strictMono.monotone hab) (magnitude_nonneg c))

/-- Quotients by a positive number. -/
theorem oddMonotone_div (hc : c ≠ 0) : OddMonotone fun x => x / finite false c h := by
  refine ActsOnRanks.oddMonotone (f := fun r => nearest (magnitude r / magnitude c))
    ⟨rfl, fun s => ?_, fun s r h => ?_, ?_, fun {a b} hab _ => ?_⟩
  · change div _ _ = _
    rw [div, Bool.xor_false]
  · simp only [finite_div_finite hc, Bool.xor_false]
  · simp
  · exact nearest_mono (div_nonneg (magnitude_nonneg a) (magnitude_nonneg c))
      (div_le_div_of_nonneg_right (magnitude_strictMono.monotone hab) (magnitude_nonneg c))

end DecimalRounding.Binary64
