import DecimalRounding.Proofs.Multiples

/-!
# Digit counts given as numbers

A call on known numbers takes its digit count from an integer or from a binary64 number that has an
integer value (`Number.integerValue`). The binary64 numbers that pass are those whose value is an
integer below `2⁶³` in absolute value (`integerValue_float_eq_ok_iff`): all that have the value of a
64-bit integer but one, the number `-2⁶³`. Where a binary64 number passes, the call is the one on
the integer; where it does not, the call is refused before the number to be rounded is looked at
(`Round.evaluate_float_digits`).
-/

namespace DecimalRounding

open Binary64

variable {x : Binary64} {k : ℤ} {function : String} {index : ℕ}

/-! ### Integer values -/

/-- A finite number with the value of an integer. -/
structure Binary64.HasIntegerValue (x : Binary64) (k : ℤ) : Prop where
  isFinite : x.isFinite
  value_eq : x.value = k

/-- A number has the value of one integer at most. -/
theorem Binary64.HasIntegerValue.unique {k' : ℤ} (hk : x.HasIntegerValue k)
    (hk' : x.HasIntegerValue k') : k' = k := by
  exact_mod_cast hk'.value_eq.symm.trans hk.value_eq

/-- A number has the value of an integer exactly if it has no fractional part, and then that of its
integer part. -/
theorem Binary64.hasIntegerValue_iff : x.HasIntegerValue k ↔ x.isWhole ∧ x.truncate? = some k := by
  obtain _ | _ | ⟨s, r, h⟩ := x
  · exact iff_of_false (fun hk => by cases hk.isFinite) (by simp [isWhole])
  · exact iff_of_false (fun hk => by cases hk.isFinite) (by simp [isWhole])
  have hU : 0 < unitsPerOne := by exact_mod_cast unitsPerOne_pos
  constructor
  · intro hk
    have hmag : magnitude r = k.natAbs := by
      rw [← abs_value_finite s r h, hk.value_eq, Nat.cast_natAbs, Int.cast_abs]
    have hunits : units r = k.natAbs * unitsPerOne := by
      rw [magnitude, div_eq_iff unitsPerOne_pos.ne'] at hmag
      exact_mod_cast hmag
    refine ⟨by simp [isWhole, hunits], ?_⟩
    have hvalue := hk.value_eq
    rw [value, hmag, ← signed_cast, Int.cast_inj] at hvalue
    rw [truncate?_finite hmag, hvalue]
  · rintro ⟨hwhole, htrunc⟩
    have hmod : units r % unitsPerOne = 0 := by simpa [isWhole] using hwhole
    have hmag : magnitude r = (units r / unitsPerOne : ℕ) := by
      rw [magnitude, Nat.cast_div (Nat.dvd_of_mod_eq_zero hmod) unitsPerOne_pos.ne']
    refine ⟨rfl, ?_⟩
    rw [value, hmag, ← signed_cast, Int.cast_inj]
    exact Option.some.inj htrunc

theorem Binary64.HasIntegerValue.magnitudeLt_iff (hk : x.HasIntegerValue k) :
    x.magnitudeLt (2 ^ 63) ↔ -2 ^ 63 < k ∧ k < 2 ^ 63 := by
  obtain _ | _ | ⟨s, r, h⟩ := x
  · cases hk.isFinite
  · cases hk.isFinite
  rw [magnitudeLt_finite, ← abs_value_finite s r h, hk.value_eq, ← abs_lt, ← Int.cast_abs]
  exact_mod_cast Iff.rfl

/-! ### Which numbers pass -/

/-- A number passes as a digit count exactly if its value is an integer below `2⁶³` in absolute
value, and then as that integer. -/
theorem integerValue_float_eq_ok_iff : (Number.float x).integerValue function index = .ok k ↔
    x.HasIntegerValue k ∧ -2 ^ 63 < k ∧ k < 2 ^ 63 := by
  constructor
  · intro hok
    rw [Number.integerValue] at hok
    cases htrunc : x.truncate? with
    | none =>
      rw [htrunc] at hok
      cases hok
    | some n =>
      simp only [htrunc] at hok
      split_ifs at hok with hpass
      obtain rfl : n = k := Except.ok.inj hok
      have hk : x.HasIntegerValue n := hasIntegerValue_iff.mpr ⟨hpass.1, htrunc⟩
      exact ⟨hk, hk.magnitudeLt_iff.mp hpass.2⟩
  · rintro ⟨hk, hrange⟩
    obtain ⟨hwhole, htrunc⟩ := hasIntegerValue_iff.mp hk
    simp only [Number.integerValue, htrunc]
    exact if_pos ⟨hwhole, hk.magnitudeLt_iff.mpr hrange⟩

/-- Every other number is refused, with an error on argument 2 that shows it. -/
theorem integerValue_float_eq_error
    (h : ∀ k, (Number.float x).integerValue Round.name 1 ≠ .ok k) :
    (Number.float x).integerValue Round.name 1 =
      .error ⟨.type "round" ("argument 2 must be an integer value, found " ++ x.text), none⟩ := by
  rw [Number.integerValue] at h ⊢
  cases htrunc : x.truncate? with
  | none => rfl
  | some n =>
    simp only [htrunc] at h ⊢
    split_ifs at h ⊢ with hpass
    · exact absurd rfl (h n)
    · rfl

namespace Round

/-! ### Calls -/

/-- The digit count comes first, and after that only its value matters. -/
theorem evaluate_pair (number digits : Number) :
    evaluate [number, digits] =
      (digits.integerValue name 1).bind fun count => evaluate [number, .int count] := rfl

/-- A call whose digit count is an integer may fail, but not for the type of an argument. -/
theorem evaluate_int_digits_ne (number : Number) (count : ℤ) (detail : String)
    (site : Option SourcePosition) :
    evaluate [number, .int count] ≠ .error ⟨.type function detail, site⟩ := by
  rw [evaluate_digits]
  cases number.round count <;> simp [Except.mapError, CallError.ofCause]

/-- A binary64 number that does not pass as a digit count ends the call, whatever is to be
rounded. -/
theorem evaluate_float_eq_error (number : Number)
    (h : ∀ k, x.HasIntegerValue k → k ≤ -2 ^ 63 ∨ 2 ^ 63 ≤ k) :
    evaluate [number, .float x] =
      .error ⟨.type "round" ("argument 2 must be an integer value, found " ++ x.text), none⟩ := by
  have hnone : ∀ k, (Number.float x).integerValue name 1 ≠ .ok k := by
    intro k hok
    obtain ⟨hk, hlo, hhi⟩ := integerValue_float_eq_ok_iff.mp hok
    rcases h k hk with hle | hge <;> omega
  rw [evaluate_pair, integerValue_float_eq_error hnone]
  rfl

/-- **Digit counts by value.** Given a binary64 number with the value of a 64-bit integer, a call
has the same outcome as given the integer, unless that is `-2⁶³`: this number is refused, the
integer never. Every binary64 number without the value of a 64-bit integer is refused too, with a
type error on argument 2, also where the number to be rounded has no rounding. -/
theorem evaluate_float_digits (number : Number) (x : Binary64) :
    (∀ k, x.HasIntegerValue k → int64? k = some k →
      (evaluate [number, .float x] = evaluate [number, .int k] ↔ k ≠ -2 ^ 63)) ∧
    ((∀ k, x.HasIntegerValue k → int64? k = some k → k = -2 ^ 63) →
      evaluate [number, .float x] =
        .error
          ⟨.type "round" ("argument 2 must be an integer value, found " ++ x.text), none⟩) := by
  have hrefused : (∀ k, x.HasIntegerValue k → int64? k = some k → k = -2 ^ 63) →
      evaluate [number, .float x] =
        .error ⟨.type "round" ("argument 2 must be an integer value, found " ++ x.text), none⟩ := by
    intro hnone
    refine evaluate_float_eq_error number fun k hk => ?_
    by_contra hin
    push Not at hin
    have hmin := hnone k hk (int64?_eq_some_iff.mpr ⟨rfl, hin.1.le, hin.2⟩)
    omega
  refine ⟨fun k hk hk64 => ⟨?_, fun hne => ?_⟩, hrefused⟩
  · rintro hsame rfl
    have hmin : ∀ k, x.HasIntegerValue k → int64? k = some k → k = -2 ^ 63 := fun k hk' _ =>
      hk.unique hk'
    rw [hrefused hmin] at hsame
    exact evaluate_int_digits_ne number _ _ _ hsame.symm
  · obtain ⟨-, hlo, hhi⟩ := int64?_eq_some_iff.mp hk64
    rw [evaluate_pair, integerValue_float_eq_ok_iff.mpr ⟨hk, lt_of_le_of_ne hlo hne.symm, hhi⟩]
    rfl

/-- The number `-2` stands for the integer, and `1/2` for none, also where `nan` is to be
rounded. -/
theorem evaluate_float_digits_hundreds :
    (ofInt (-2)).HasIntegerValue (-2) ∧ int64? (-2) = some (-2) ∧
      evaluate [.int 1250, .float (ofInt (-2))] = evaluate [.int 1250, .int (-2)] ∧
      (∀ k, (ofRatio false 1 2).HasIntegerValue k → int64? k = some k → k = -2 ^ 63) ∧
      evaluate [.float .nan, .float (ofRatio false 1 2)] =
        .error ⟨.type "round" "argument 2 must be an integer value, found 0.5", none⟩ := by
  have hk : (ofInt (-2)).HasIntegerValue (-2) := hasIntegerValue_iff.mpr (by decide +kernel)
  have hk64 : int64? (-2) = some (-2) := by decide
  have hhalf : ∀ k, (ofRatio false 1 2).HasIntegerValue k → int64? k = some k → k = -2 ^ 63 := by
    intro k hk
    have hfraction : ¬ (ofRatio false 1 2).isWhole := by decide +kernel
    exact absurd (hasIntegerValue_iff.mp hk).1 hfraction
  have htext : (ofRatio false 1 2).text = "0.5" := by decide +kernel
  have hrefused := (evaluate_float_digits (.float .nan) _).2 hhalf
  rw [htext] at hrefused
  exact ⟨hk, hk64, ((evaluate_float_digits (.int 1250) _).1 _ hk hk64).mpr (by decide), hhalf,
    hrefused⟩

/-- The number `-2⁶³` has the value of the least 64-bit integer, and is refused where that gives
zero. -/
theorem not_evaluate_float_digits :
    (ofInt (-2 ^ 63)).HasIntegerValue (-2 ^ 63) ∧ int64? (-2 ^ 63) = some (-2 ^ 63) ∧
      evaluate [.int 5, .float (ofInt (-2 ^ 63))] =
        .error ⟨.type "round" "argument 2 must be an integer value, found -9223372036854776000",
          none⟩ ∧
      evaluate [.int 5, .int (-2 ^ 63)] = .ok (.int 0) := by
  have hk : (ofInt (-2 ^ 63)).HasIntegerValue (-2 ^ 63) :=
    hasIntegerValue_iff.mpr (by decide +kernel)
  have hmin : ∀ k, (ofInt (-2 ^ 63)).HasIntegerValue k → k ≤ -2 ^ 63 ∨ 2 ^ 63 ≤ k := by
    intro k hk'
    exact .inl (hk.unique hk').le
  have htext : (ofInt (-2 ^ 63)).text = "-9223372036854776000" := by decide +kernel
  have hrefused := evaluate_float_eq_error (.int 5) hmin
  rw [htext] at hrefused
  exact ⟨hk, by decide, hrefused, rfl⟩

end Round

end DecimalRounding
