import DecimalRounding.Proofs.NumberLine

/-!
# The reach of the nudge

How far a nudge leads, counted in numbers on the line that has the infinities behind the last finite
ones (`nudge_outward`): two numbers outward, one from the last number before a power of two, and in
the subnormal range one or none, as half a step is rounded to the even rank and less than half of
one is lost. A power of two ends every group of ranks, the last one before infinity too, so a nudge
never leads beyond the place of infinity.
-/

namespace DecimalRounding.Binary64

variable {s : Bool} {a b r : ℕ} {x : Binary64}

/-! ### Magnitudes on the line -/

/-- The sign of one makes a number its magnitude. -/
theorem copySign_one_ofRank : (ofRank s r).copySign one = ofRank false r := by
  have hone : one.isNegative = false := rfl
  rw [copySign, isNegative_ofRank, hone]
  cases s
  · rw [if_pos rfl]
  · rw [if_neg Bool.false_ne_true.symm, neg_ofRank, Bool.not_true]

theorem ofRank_le_ofRank (h : a ≤ b) : ofRank false a ≤ ofRank false b := by
  refine le_iff.mpr ⟨_, _, ordinal?_ofRank, ordinal?_ofRank, ?_⟩
  exact signed_le_signed_iff.mpr (.inl ⟨rfl, rfl, min_le_min_right _ h⟩)

/-! ### The ranks that a nudge passes -/

theorem nudgedRank_le (r : ℕ) : nudgedRank r ≤ r + 2 := by
  rcases Nat.lt_or_ge r (2 ^ 52) with hr | hr
  · exact (nudgedRank_le_of_lt hr).trans (by omega)
  · exact (nudgedRank_of_le hr).trans_le (nudgeRank_le r)

/-- The last two finite ranks lead to the place of infinity, and no rank leads beyond it. -/
theorem nudgedRank_overflow (h : r < overflowRank) :
    nudgedRank r ≤ overflowRank ∧ (nudgedRank r < overflowRank ↔ r + 2 < overflowRank) := by
  have hle := nudgedRank_le r
  rw [overflowRank] at h ⊢
  rcases Nat.lt_or_ge r (2 ^ 53) with hr | hr
  · omega
  · rw [nudgedRank_of_le (by omega), nudgeRank]
    split_ifs <;> omega

theorem ordinal?_nudge (h : r < overflowRank) :
    (finite s r h).nudge.ordinal? = some (signed s (nudgedRank r)) := by
  rw [nudge_eq_ofRank, ordinal?_ofRank, min_eq_left (nudgedRank_overflow h).1]

/-- Zeros, infinities and `nan` are not nudged. -/
theorem nudge_eq_self (hx : ¬ x.isFinite ∨ x.isZero) : x.nudge = x := by
  obtain _ | _ | ⟨s, r, h⟩ := x
  · rfl
  · rfl
  · obtain rfl : r = 0 := by simpa [isZero, isFinite] using hx
    exact nudge_zero

/-- **The reach of the nudge.** A finite number other than zero keeps its sign, does not become
smaller by magnitude, and moves outward by two numbers at most. A normal number moves by two, but by
one if all its fraction digits are ones; a subnormal one moves by one in the upper half of the
subnormals, in the quarter below only if its rank is odd, and else not at all. The numbers of the
two largest magnitudes become infinite, and no others do. Zeros, infinities and `nan` stay. The
nudge commutes with negation and keeps the order. -/
theorem nudge_outward :
    (∀ (s : Bool) (r : ℕ) (h : r < overflowRank), 0 < r →
      (finite s r h).nudge.isNegative = s ∧
      (finite s r h).copySign one ≤ (finite s r h).nudge.copySign one ∧
      (∃ k ≤ 2, (finite s r h).nudge.ordinal? = some (signed s (r + k)) ∧
        (2 ^ 52 ≤ r → k = if r % 2 ^ 52 = 2 ^ 52 - 1 then 1 else 2) ∧
        (r < 2 ^ 52 → k = if 2 ^ 51 ≤ r ∨ (2 ^ 50 ≤ r ∧ r % 2 = 1) then 1 else 0)) ∧
      (¬ (finite s r h).nudge.isFinite ↔ overflowRank ≤ r + 2)) ∧
    (∀ v : Binary64, ¬ v.isFinite ∨ v.isZero → v.nudge = v) ∧
    (∀ v : Binary64, (-v).nudge = -v.nudge) ∧
    ∀ v w : Binary64, v ≤ w → v.nudge ≤ w.nudge := by
  refine ⟨fun s r h _ => ⟨?_, ?_, ?_, ?_⟩, fun v => nudge_eq_self, fun v => nudge_neg,
    fun v w => oddMonotone_nudge.map_le⟩
  · rw [nudge_eq_ofRank, isNegative_ofRank]
  · rw [nudge_eq_ofRank, ← ofRank_of_lt h, copySign_one_ofRank, copySign_one_ofRank]
    exact ofRank_le_ofRank (le_nudgedRank r)
  · obtain ⟨k, hk⟩ := Nat.exists_eq_add_of_le (le_nudgedRank r)
    have hle := nudgedRank_le r
    refine ⟨k, by omega, by rw [ordinal?_nudge, hk], fun hr => ?_, fun hr => ?_⟩
    · rw [nudgedRank_of_le hr, nudgeRank] at hk
      exact (Nat.add_left_cancel hk).symm
    · rw [nudgedRank, if_neg (Nat.not_le.mpr hr)] at hk
      exact (Nat.add_left_cancel hk).symm
  · rw [nudge_eq_ofRank, isFinite_ofRank_iff, (nudgedRank_overflow h).2, not_lt]

/-- The largest number becomes infinite, half a step leads an odd subnormal number to the even rank,
and the zeros keep their place. -/
theorem nudge_outward_edges :
    ¬ (ofRank true (overflowRank - 1)).nudge.isFinite ∧
      (ofRank false (2 ^ 50 + 1)).nudge.ordinal? = some (2 ^ 50 + 2) ∧
      (zero true).nudge = zero true ∧ (zero false).nudge ≤ (zero true).nudge := by
  have hlargest : overflowRank - 1 < overflowRank := by rw [overflowRank]; omega
  have hodd : 2 ^ 50 + 1 < overflowRank := by rw [overflowRank]; omega
  obtain ⟨hfinite, hfixed, -, hmono⟩ := nudge_outward
  refine ⟨?_, ?_, hfixed (zero true) (.inr rfl), hmono (zero false) (zero true) (by decide)⟩
  · rw [ofRank_of_lt hlargest]
    obtain ⟨-, -, -, hinfinite⟩ := hfinite true _ hlargest (by rw [overflowRank]; omega)
    exact hinfinite.mpr (by omega)
  · rw [ofRank_of_lt hodd]
    obtain ⟨-, -, ⟨k, -, hmoved, -, hsubnormal⟩, -⟩ := hfinite false _ hodd (by omega)
    have hk : k = 1 := (hsubnormal (by omega)).trans (if_pos (.inr (by omega)))
    rw [hmoved, hk]
    rfl

end DecimalRounding.Binary64
