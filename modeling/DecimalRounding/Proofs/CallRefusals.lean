import DecimalRounding.Builtin.Round
import Mathlib.Tactic.Common

/-!
# Refused calls

Whether a call can be emitted is decided by the static types of its arguments alone, and so is the
error if it cannot (`Round.emit_eq_error_iff`). The number of arguments comes first, then the type
of the number, and last the type of the digit count (`Round.Refuses`). Neither the target language,
the names of the run-time library, the text of the arguments nor a known digit count has a part in
it, so that two calls on arguments of the same types fail alike (`Round.emit_same_outcome`).
-/

namespace DecimalRounding.Round

variable {names names' : RuntimeNames} {target target' : Target} {args args' : List Argument}
  {error : CallError}

/-- The static types of arguments. -/
def types (args : List Argument) : List StaticType := args.map (·.facts.type)

/-- Calls on arguments of these types are refused with this error, which does not say where. The
rules exclude each other: each one begins where the ones before it do not apply. -/
inductive Refuses : List StaticType → CallError → Prop
  /-- There are not one or two arguments. -/
  | count {types} (one : types.length ≠ 1) (two : types.length ≠ 2) :
    Refuses types ⟨.arity "round" types.length 1 2, none⟩
  /-- The first argument is a truth value, a string or null. -/
  | number {type types} (length : types.length ≤ 1) (type_mem : type ∈ [.bool, .string, .null]) :
    Refuses (type :: types)
      ⟨.type "round" ("argument 1 must be a number, found " ++ type.name), none⟩
  /-- The second argument is neither an integer nor unknown. -/
  | digits {type type'} (type_notMem : type ∉ [.bool, .string, .null])
    (type_notMem' : type' ∉ [.int, .unknown]) :
    Refuses [type, type']
      ⟨.type "round" ("argument 2 must be an int, found " ++ type'.name), none⟩

/-! ### The checks -/

/-- The check of the number refuses what is no number, with an error on argument 1. -/
theorem requireNumeric_eq_error_iff {type : StaticType} :
    type.requireNumeric name 0 = .error error ↔
      type ∈ [.bool, .string, .null] ∧
        error = ⟨.type "round" ("argument 1 must be a number, found " ++ type.name), none⟩ := by
  have herror : (ArgumentFault.notNumber 0 type).toCallError name =
      ⟨.type "round" ("argument 1 must be a number, found " ++ type.name), none⟩ := rfl
  rw [← herror]
  cases type <;> simp [StaticType.requireNumeric, StaticType.isNumeric, eq_comm]

theorem requireNumeric_eq_ok_iff {type : StaticType} :
    type.requireNumeric name 0 = .ok () ↔ type ∉ [.bool, .string, .null] := by
  cases type <;> simp [StaticType.requireNumeric, StaticType.isNumeric]

/-- The check of the digit count refuses what may be no integer, with an error on argument 2. -/
theorem requireInteger_eq_error_iff {type : StaticType} :
    type.requireInteger name 1 = .error error ↔
      type ∉ [.int, .unknown] ∧
        error = ⟨.type "round" ("argument 2 must be an int, found " ++ type.name), none⟩ := by
  have herror : (ArgumentFault.notInt 1 type).toCallError name =
      ⟨.type "round" ("argument 2 must be an int, found " ++ type.name), none⟩ := rfl
  rw [← herror]
  cases type <;> simp [StaticType.requireInteger, StaticType.isInteger, eq_comm]

/-! ### Who is refused -/

/-- One argument is refused if the check of the number refuses it. -/
theorem refuses_singleton_iff {type : StaticType} :
    Refuses [type] error ↔ type.requireNumeric name 0 = .error error := by
  rw [requireNumeric_eq_error_iff]
  constructor
  · intro h
    cases h with
    | count one two => exact absurd rfl one
    | number length type_mem => exact ⟨type_mem, rfl⟩
  · rintro ⟨type_mem, rfl⟩
    exact .number (Nat.zero_le 1) type_mem

/-- Of two arguments the digit count is looked at if the number has passed. -/
theorem refuses_pair_iff {type type' : StaticType} :
    Refuses [type, type'] error ↔
      type.requireNumeric name 0 = .error error ∨
        (type.requireNumeric name 0 = .ok () ∧ type'.requireInteger name 1 = .error error) := by
  rw [requireNumeric_eq_error_iff, requireNumeric_eq_ok_iff, requireInteger_eq_error_iff]
  constructor
  · intro h
    cases h with
    | count one two => exact absurd rfl two
    | number length type_mem => exact .inl ⟨type_mem, rfl⟩
    | digits type_notMem type_notMem' => exact .inr ⟨type_notMem, type_notMem', rfl⟩
  · rintro (⟨type_mem, rfl⟩ | ⟨type_notMem, type_notMem', rfl⟩)
    · exact .number (Nat.le_refl 1) type_mem
    · exact .digits type_notMem type_notMem'

theorem refuses_iff_of_length {types : List StaticType} (one : types.length ≠ 1)
    (two : types.length ≠ 2) :
    Refuses types error ↔ error = ⟨.arity "round" types.length 1 2, none⟩ := by
  constructor
  · intro h
    cases h with
    | count => rfl
    | @number type types length type_mem =>
      rw [List.length_cons] at one two
      omega
    | digits type_notMem type_notMem' => exact absurd rfl two
  · rintro rfl
    exact .count one two

/-- Other counts than one and two end the checks at once. -/
theorem typedArguments_of_length (one : args.length ≠ 1) (two : args.length ≠ 2) :
    typedArguments args = .error ⟨.arity "round" args.length 1 2, none⟩ := by
  match args with
  | [] => rfl
  | [_] => exact absurd rfl one
  | [_, _] => exact absurd rfl two
  | _ :: _ :: _ :: _ => rfl

/-- The checks refuse a call by the types of its arguments. -/
theorem typedArguments_eq_error_iff :
    typedArguments args = .error error ↔ Refuses (types args) error := by
  have other (one : args.length ≠ 1) (two : args.length ≠ 2) :
      typedArguments args = .error error ↔ Refuses (types args) error := by
    have hlength : (types args).length = args.length := List.length_map _
    rw [typedArguments_of_length one two, refuses_iff_of_length (hlength ▸ one) (hlength ▸ two),
      hlength, Except.error.injEq, eq_comm]
  match args with
  | [number] =>
    rw [types, List.map_singleton, refuses_singleton_iff]
    cases h : number.facts.type.requireNumeric name 0 <;>
      simp [typedArguments, arguments, h, bind, Except.bind, pure, Except.pure]
  | [number, digits] =>
    rw [types, List.map_cons, List.map_singleton, refuses_pair_iff]
    cases h : number.facts.type.requireNumeric name 0 <;>
      cases h' : digits.facts.type.requireInteger name 1 <;>
        simp [typedArguments, arguments, h, h', bind, Except.bind, pure, Except.pure]
  | [] => exact other (by simp) (by simp)
  | _ :: _ :: _ :: _ => exact other (by simp) (by simp)

/-! ### Emitted calls -/

/-- A call is refused by the types of its arguments, whatever else they are, and in every target
language with the same error. -/
theorem emit_eq_error_iff : emit names target args = .error error ↔ Refuses (types args) error := by
  rw [← typedArguments_eq_error_iff, emit]
  cases typedArguments args <;> simp [bind, Except.bind, pure, Except.pure]

/-- A digit count known to be an integer has no part in whether a call is refused. -/
theorem emit_int_digits_eq_error_iff {number digits : Argument} (h : digits.facts.type = .int) :
    emit names target [number, digits] = .error error ↔
      emit names target [number] = .error error := by
  rw [emit_eq_error_iff, emit_eq_error_iff, types, types, List.map_cons, List.map_singleton,
    List.map_singleton, h, refuses_pair_iff, refuses_singleton_iff, or_iff_left]
  rintro ⟨-, hrefused⟩
  cases hrefused

/-- **Failure is a matter of types.** Two calls on arguments of pairwise the same static types are
both emitted or both refused, and then with the same error, whatever their target languages, the
names of their run-time libraries, the texts of their arguments and what is known of the values.
An error is that of the number of arguments exactly if it is neither one nor two, else that of the
first argument exactly if it is a truth value, a string or null, and else that of the second one
exactly if it is there and neither an integer nor unknown; the text of a type error says which
argument it is about (`Refuses`). -/
theorem emit_same_outcome (h : types args = types args') :
    ((∃ fragment, emit names target args = .ok fragment) ∧
        (∃ fragment, emit names' target' args' = .ok fragment) ∨
      ∃ error, emit names target args = .error error ∧ emit names' target' args' = .error error) ∧
      ∀ error, emit names target args = .error error ↔ Refuses (types args) error := by
  refine ⟨?_, fun error => emit_eq_error_iff⟩
  cases hemit : emit names target args with
  | error error =>
    have hrefuses := emit_eq_error_iff.mp hemit
    rw [h] at hrefuses
    exact .inr ⟨error, rfl, emit_eq_error_iff.mpr hrefuses⟩
  | ok fragment =>
    refine .inl ⟨⟨fragment, rfl⟩, ?_⟩
    cases hemit' : emit names' target' args' with
    | error error =>
      have hrefuses := emit_eq_error_iff.mp hemit'
      rw [← h] at hrefuses
      exact absurd (hemit.symm.trans (emit_eq_error_iff.mpr hrefuses)) (by simp)
    | ok fragment' => exact ⟨fragment', rfl⟩

/-- A digit count that may be no integer is refused, also where its value is known to be two. -/
theorem emit_same_outcome_known_count :
    let number : Argument := ⟨.atom "x", ⟨.float, none⟩⟩
    let known : Argument := ⟨.intLiteral 2, ⟨.number, some 2⟩⟩
    let computed : Argument := ⟨⟨"a + b", 6⟩, ⟨.number, none⟩⟩
    let names : RuntimeNames := { python := { roundFunction := "rounded" } }
    let error : CallError := ⟨.type "round" "argument 2 must be an int, found number", none⟩
    types [number, known] = types [number, computed] ∧
      emit {} .javaScript [number, known] = .error error ∧
      emit names .python [number, computed] = .error error := by
  intro number known computed names error
  have htypes : types [number, known] = types [number, computed] := rfl
  obtain ⟨hsame, hiff⟩ := @emit_same_outcome {} names .javaScript .python _ _ htypes
  have hrefused := (hiff error).mpr (.digits (by decide) (by decide))
  refine ⟨htypes, hrefused, ?_⟩
  rcases hsame with ⟨⟨fragment, hok⟩, -⟩ | ⟨error', herror, herror'⟩
  · rw [hrefused] at hok
    cases hok
  · rw [hrefused] at herror
    rw [herror', Except.error.inj herror]

end DecimalRounding.Round
