import DecimalRounding.Proofs.CallRefusals
import DecimalRounding.Proofs.HalfAway

/-!
# Constant folding

An expression folds to an integer (`TemplateExpr.constant?`) exactly if it is built from integer
literals by negation, sum, difference and product (`TemplateExpr.IsIntegral`) and the exact value of
each of its subexpressions has 64 bits; the integer is then its exact value
(`TemplateExpr.FoldsTo`). Overflow on the way is never made good by a later step, and nothing that
could be folded is left. The static type of an expression that folds is `int`, found by a recursion
of its own, so that as a digit count it passes the check of its type
(`TemplateExpr.constant?_exact`).
-/

namespace DecimalRounding

/-- The operation of an operator that folds, on unbounded integers. -/
def Operator.onIntegers : Operator → ℤ → ℤ → ℤ
  | .plus, m, n => m + n
  | .minus, m, n => m - n
  | .times, m, n => m * n
  | _, _, _ => 0

namespace TemplateExpr

/-! ### Exact values -/

/-- Built from integer literals by negation, sum, difference and product. -/
inductive IsIntegral : TemplateExpr → Prop
  | int (value : ℤ) : IsIntegral (.int value)
  | negate {e} (operand : IsIntegral e) : IsIntegral (.negate e)
  | binary {operator e e'} (operator_mem : operator ∈ [.plus, .minus, .times])
    (left : IsIntegral e) (right : IsIntegral e') : IsIntegral (.binary operator e e')

/-- The value of an expression in unbounded integers, if it is built from integer literals by
negation, sum, difference and product. -/
def exactValue : TemplateExpr → ℤ
  | .int value => value
  | .negate operand => -operand.exactValue
  | .binary operator left right => operator.onIntegers left.exactValue right.exactValue
  | _ => 0

/-- The expression itself and what it is built from. -/
def subexpressions : TemplateExpr → List TemplateExpr
  | .negate operand => .negate operand :: operand.subexpressions
  | .binary operator left right =>
    .binary operator left right :: (left.subexpressions ++ right.subexpressions)
  | e => [e]

theorem self_mem_subexpressions (e : TemplateExpr) : e ∈ e.subexpressions := by
  cases e <;> simp [subexpressions]

/-- All integer literals have 64 bits. -/
def HasInt64Literals (e : TemplateExpr) : Prop :=
  ∀ n, .int n ∈ e.subexpressions → int64? n = some n

/-- An integer that an expression stands for, computed exactly, with all values on the way of
64 bits. -/
structure FoldsTo (e : TemplateExpr) (k : ℤ) : Prop where
  isIntegral : e.IsIntegral
  inRange : ∀ s ∈ e.subexpressions, int64? s.exactValue = some s.exactValue
  value_eq : e.exactValue = k

variable {e e' : TemplateExpr} {operator : Operator} {k : ℤ}

theorem foldsTo_negate_iff :
    (negate e).FoldsTo k ↔ ∃ n, e.FoldsTo n ∧ int64? (-n) = some k := by
  constructor
  · rintro ⟨_ | ⟨hint⟩, hrange, rfl⟩
    exact ⟨e.exactValue, ⟨hint, fun s hs => hrange s (List.mem_cons_of_mem _ hs), rfl⟩,
      hrange _ (self_mem_subexpressions _)⟩
  · rintro ⟨n, ⟨hint, hrange, rfl⟩, hk⟩
    obtain rfl : -e.exactValue = k := (int64?_eq_some_iff.mp hk).1
    refine ⟨hint.negate, fun s hs => ?_, rfl⟩
    obtain rfl | hs := List.mem_cons.mp hs
    · exact hk
    · exact hrange s hs

theorem foldsTo_binary_iff :
    (binary operator e e').FoldsTo k ↔ operator ∈ [.plus, .minus, .times] ∧
      ∃ m n, e.FoldsTo m ∧ e'.FoldsTo n ∧ int64? (operator.onIntegers m n) = some k := by
  constructor
  · rintro ⟨_ | _ | ⟨hop, hint, hint'⟩, hrange, rfl⟩
    have hleft : ∀ s ∈ e.subexpressions, int64? s.exactValue = some s.exactValue := fun s hs =>
      hrange s (List.mem_cons_of_mem _ (List.mem_append_left _ hs))
    have hright : ∀ s ∈ e'.subexpressions, int64? s.exactValue = some s.exactValue := fun s hs =>
      hrange s (List.mem_cons_of_mem _ (List.mem_append_right _ hs))
    exact ⟨hop, _, _, ⟨hint, hleft, rfl⟩, ⟨hint', hright, rfl⟩,
      hrange _ (self_mem_subexpressions _)⟩
  · rintro ⟨hop, _, _, ⟨hint, hleft, rfl⟩, ⟨hint', hright, rfl⟩, hk⟩
    obtain rfl := (int64?_eq_some_iff.mp hk).1
    refine ⟨hint.binary hop hint', fun s hs => ?_, rfl⟩
    obtain rfl | hs := List.mem_cons.mp hs
    · exact hk
    · exact (List.mem_append.mp hs).elim (hleft s) (hright s)

/-! ### Folding -/

theorem constant?_negate_eq_some_iff :
    (negate e).constant? = some k ↔ ∃ n, e.constant? = some n ∧ int64? (-n) = some k :=
  Option.bind_eq_some_iff

theorem constant?_binary_eq_some_iff :
    (binary operator e e').constant? = some k ↔ operator ∈ [.plus, .minus, .times] ∧
      ∃ m n, e.constant? = some m ∧ e'.constant? = some n ∧
        int64? (operator.onIntegers m n) = some k := by
  cases operator <;> simp [constant?, Option.bind_eq_some_iff, Operator.onIntegers]

/-- The value is folded exactly, and wherever that is possible. -/
theorem constant?_eq_some_iff_foldsTo (h : e.HasInt64Literals) :
    e.constant? = some k ↔ e.FoldsTo k := by
  induction e generalizing k with
  | int value =>
    have hvalue : int64? value = some value := h value (self_mem_subexpressions _)
    constructor
    · rintro ⟨⟩
      refine ⟨.int value, fun s hs => ?_, rfl⟩
      obtain rfl := List.mem_singleton.mp hs
      exact hvalue
    · rintro ⟨-, -, rfl⟩
      rfl
  | negate e ih =>
    have he : e.HasInt64Literals := fun n hn => h n (List.mem_cons_of_mem _ hn)
    simp only [constant?_negate_eq_some_iff, foldsTo_negate_iff, ih he]
  | binary operator e e' ih ih' =>
    have he : e.HasInt64Literals := fun n hn =>
      h n (List.mem_cons_of_mem _ (List.mem_append_left _ hn))
    have he' : e'.HasInt64Literals := fun n hn =>
      h n (List.mem_cons_of_mem _ (List.mem_append_right _ hn))
    simp only [constant?_binary_eq_some_iff, foldsTo_binary_iff, ih he, ih' he']
  | float | bool | string | null | var =>
    exact iff_of_false (by simp [constant?]) fun hfolds => by cases hfolds.isIntegral

/-! ### Types -/

/-- Sums, differences and products of integers are integers. -/
theorem arithmeticType_int (h : operator ∈ [.plus, .minus, .times]) :
    arithmeticType operator .int .int = .int := by
  cases operator <;> simp_all [arithmeticType, StaticType.isNumeric]

/-- What folds is known to be an integer. -/
theorem staticType_of_constant? (h : e.constant? = some k) : e.staticType = .int := by
  induction e generalizing k with
  | int value => rfl
  | negate e ih =>
    obtain ⟨n, hn, -⟩ := constant?_negate_eq_some_iff.mp h
    exact ih hn
  | binary operator e e' ih ih' =>
    obtain ⟨hop, m, n, hm, hn, -⟩ := constant?_binary_eq_some_iff.mp h
    have harith : operator.isArithmetic := by cases operator <;> simp_all [Operator.isArithmetic]
    rw [staticType_binary harith, ih hm, ih' hn, arithmeticType_int hop]
  | float | bool | string | null | var => simp [constant?] at h

/-- **Folding is exact and complete.** An expression folds to an integer exactly if it is built from
integer literals by negation, sum, difference and product, the exact value of every subexpression
has 64 bits, and the integer is its exact value. What folds has the static type `int`; as the digit
count of an emitted call it is never refused: the call fails only where the call without a digit
count does, and with the same error. -/
theorem constant?_exact (h : e.HasInt64Literals) (k : ℤ) :
    (e.constant? = some k ↔
      e.IsIntegral ∧ (∀ s ∈ e.subexpressions, int64? s.exactValue = some s.exactValue) ∧
        e.exactValue = k) ∧
    (e.constant? = some k → e.staticType = .int ∧
      ∀ (names : RuntimeNames) (target : Target) (number : Argument) (fragment : Fragment)
        (error : CallError),
        Round.emit names target [number, ⟨fragment, e.facts⟩] = .error error ↔
          Round.emit names target [number] = .error error) := by
  refine ⟨(constant?_eq_some_iff_foldsTo h).trans ⟨?_, ?_⟩, fun hk => ?_⟩
  · exact fun hfolds => ⟨hfolds.isIntegral, hfolds.inRange, hfolds.value_eq⟩
  · exact fun ⟨hint, hrange, hvalue⟩ => ⟨hint, hrange, hvalue⟩
  · have htype := staticType_of_constant? hk
    exact ⟨htype, fun _ _ _ _ _ => Round.emit_int_digits_eq_error_iff htype⟩

/-- The expression `1 - 2 * 3` folds to `-5`, and rounding a truth value to that many digits is
refused as rounding it to none is. -/
theorem constant?_exact_difference :
    let e : TemplateExpr := .binary .minus (.int 1) (.binary .times (.int 2) (.int 3))
    let flag : Argument := ⟨.atom "flag", ⟨.bool, none⟩⟩
    let error : CallError := ⟨.type "round" "argument 1 must be a number, found bool", none⟩
    e.HasInt64Literals ∧ e.constant? = some (-5) ∧ e.IsIntegral ∧ e.exactValue = -5 ∧
      e.staticType = .int ∧
      Round.emit {} .python [flag] = .error error ∧
      Round.emit {} .python [flag, ⟨⟨"1 - 2 * 3", 6⟩, e.facts⟩] = .error error := by
  intro e flag error
  have hliterals : e.HasInt64Literals := by
    intro n hn
    simp only [e, subexpressions, List.mem_cons, List.mem_append, List.not_mem_nil, reduceCtorEq,
      int.injEq, false_or, or_false] at hn
    obtain rfl | rfl | rfl := hn <;> decide
  have hconstant : e.constant? = some (-5) := by decide
  obtain ⟨hiff, himp⟩ := constant?_exact hliterals (-5)
  obtain ⟨hint, -, hvalue⟩ := hiff.mp hconstant
  obtain ⟨htype, hemit⟩ := himp hconstant
  have hflag : Round.emit {} .python [flag] = .error error := rfl
  exact ⟨hliterals, hconstant, hint, hvalue, htype, hflag, (hemit _ _ _ _ _).mpr hflag⟩

/-- The least integer of 64 bits has no negation of 64 bits, and subtracting one from that does not
bring it back. -/
example : (binary .minus (.negate (.int (-2 ^ 63))) (.int 1)).constant? = none := by decide

end TemplateExpr

end DecimalRounding
