import DecimalRounding.Proofs.RegistryHistory

/-!
# How a call ends

A call through a registry is looked up, then its arguments are counted, and only then the function
runs. `Registry.Outcome` says so by rules that exclude each other: a name that was never registered
and a number of arguments out of range are reported whatever the function would have answered, and
an answer of the function passes as it is, but for an error without a place, which gets the place
of the call.

The rules and the registry agree (`Registry.Answers.dispatch_eq_iff`), in every operation and after
every run of a host (`Snapshots.run_outcome`).
-/

namespace DecimalRounding

namespace Registry

variable {α : Type} {history : List Builtin} {name : String} {found : ℕ}
  {site : Option SourcePosition} {answer : Builtin → Except CallError α}
  {outcome : Except CallError α}

/-- The function that runs in a call: the latest one of the name, where it takes so many
arguments. -/
structure Reaches (history : List Builtin) (name : String) (found : ℕ) (function : Builtin) :
    Prop where
  latest_eq : latest history name = some function
  least_le : function.counts.least ≤ found
  le_most : found ≤ function.counts.most

/-- The ways in which a call ends, by the functions that were registered, the latest first, and by
what each of them answers. -/
inductive Outcome (history : List Builtin) (name : String) (found : ℕ)
    (site : Option SourcePosition) (answer : Builtin → Except CallError α) :
    Except CallError α → Prop
  /-- No function of the name was registered. -/
  | unknown (unregistered : ∀ function ∈ history, function.name ≠ name) :
    Outcome history name found site answer (.error ⟨.unknownFunction name, site⟩)
  /-- The function does not take so many arguments. -/
  | count {function} (latest_eq : latest history name = some function)
    (outside : found < function.counts.least ∨ function.counts.most < found) :
    Outcome history name found site answer
      (.error ⟨.arity function.name found function.counts.least function.counts.most, site⟩)
  /-- The function has a value. -/
  | value {function result} (reaches : Reaches history name found function)
    (answer_eq : answer function = .ok result) :
    Outcome history name found site answer (.ok result)
  /-- The function fails and does not say where. -/
  | unplaced {function cause} (reaches : Reaches history name found function)
    (answer_eq : answer function = .error ⟨cause, none⟩) :
    Outcome history name found site answer (.error ⟨cause, site⟩)
  /-- The function fails and says where. -/
  | placed {function cause place} (reaches : Reaches history name found function)
    (answer_eq : answer function = .error ⟨cause, some place⟩) :
    Outcome history name found site answer (.error ⟨cause, some place⟩)

/-! ### The registry follows the rules -/

theorem latest_eq_none_iff :
    latest history name = none ↔ ∀ function ∈ history, function.name ≠ name := by
  simp [latest]

section

variable {registry : Registry} {function : Builtin}

theorem Answers.dispatch_of_unregistered (h : registry.Answers history)
    (unregistered : ∀ function ∈ history, function.name ≠ name) :
    registry.dispatch name found site answer = .error ⟨.unknownFunction name, site⟩ := by
  rw [h.dispatch, latest_eq_none_iff.mpr unregistered]
  rfl

/-- The function is not asked where it does not take so many arguments. -/
theorem Answers.dispatch_of_outside (h : registry.Answers history)
    (latest_eq : latest history name = some function)
    (outside : found < function.counts.least ∨ function.counts.most < found) :
    registry.dispatch name found site answer =
      .error ⟨.arity function.name found function.counts.least function.counts.most, site⟩ := by
  have hcheck : function.counts.check name found =
      .error (function.counts.error name found) := if_neg (by omega)
  rw [h.dispatch, latest_eq]
  dsimp only
  rw [hcheck, name_eq_of_latest latest_eq]
  rfl

theorem Answers.dispatch_of_reaches (h : registry.Answers history)
    (reaches : Reaches history name found function) :
    registry.dispatch name found site answer = (answer function).mapError (·.withSite site) := by
  have hcheck : function.counts.check name found = .ok () :=
    if_pos ⟨reaches.least_le, reaches.le_most⟩
  rw [h.dispatch, reaches.latest_eq]
  dsimp only
  rw [hcheck]
  rfl

/-- Each call ends in one of the ways. -/
theorem Answers.outcome_dispatch (h : registry.Answers history) :
    Outcome history name found site answer (registry.dispatch name found site answer) := by
  cases hlatest : latest history name with
  | none =>
    have unregistered := latest_eq_none_iff.mp hlatest
    rw [h.dispatch_of_unregistered unregistered]
    exact .unknown unregistered
  | some function =>
    by_cases hinside : function.counts.least ≤ found ∧ found ≤ function.counts.most
    · have reaches : Reaches history name found function := ⟨hlatest, hinside.1, hinside.2⟩
      rw [h.dispatch_of_reaches reaches]
      rcases hanswer : answer function with ⟨cause, _ | place⟩ | result
      · exact .unplaced reaches hanswer
      · exact .placed reaches hanswer
      · exact .value reaches hanswer
    · have outside : found < function.counts.least ∨ function.counts.most < found := by omega
      rw [h.dispatch_of_outside hlatest outside]
      exact .count hlatest outside

/-- The rules leave no choice: what they say is the outcome. -/
theorem Answers.dispatch_eq_iff (h : registry.Answers history) :
    registry.dispatch name found site answer = outcome ↔
      Outcome history name found site answer outcome := by
  constructor
  · rintro rfl
    exact h.outcome_dispatch
  · intro houtcome
    cases houtcome with
    | unknown unregistered => exact h.dispatch_of_unregistered unregistered
    | count latest_eq outside => exact h.dispatch_of_outside latest_eq outside
    | value reaches answer_eq | unplaced reaches answer_eq | placed reaches answer_eq =>
      rw [h.dispatch_of_reaches reaches, answer_eq]
      rfl

end

end Registry

/-! ### After any history -/

/-- **Order of errors.** Whatever a host registered before, a call ends as the rules say, on known
numbers and in each target language. A name that was never registered is reported with the place of
the call; else a number of arguments outside the range of the function, which may be empty, with the
function's name, the number found, the bounds and the place of the call; else the outcome is the
function's own, where an error without a place gets that of the call, one with a place keeps it, and
the cause is never changed. -/
theorem Snapshots.run_outcome (start : Start) (actions : List Action) (name : String)
    (site : Option SourcePosition) :
    let registry := ((ofRegistry start.registry).run actions).current
    let history := ((Histories.mk start.history []).run actions).current
    (∀ (args : List Number) (outcome : Except CallError Number),
      registry.evaluate name args site = outcome ↔
        Registry.Outcome history name args.length site (·.evaluate args) outcome) ∧
    ∀ (target : Target) (args : List Argument) (outcome : Except CallError Fragment),
      registry.emit target name args site = outcome ↔
        Registry.Outcome history name args.length site (·.emit target args) outcome := by
  intro registry history
  have hstart : (ofRegistry start.registry).Recorded ⟨start.history, []⟩ := ⟨start.answers, .nil⟩
  have hanswers : registry.Answers history := (hstart.run actions).current
  exact ⟨fun _ _ => hanswers.dispatch_eq_iff, fun _ _ _ => hanswers.dispatch_eq_iff⟩

/-- A function that takes no number of arguments at all is never asked, and one that says where it
fails is not contradicted. -/
example :
    let inner : SourcePosition := ⟨2, 5, 17⟩
    let outer : SourcePosition := ⟨1, 1, 0⟩
    let error : CallError := ⟨.type "fails" "bad", inner⟩
    let fails : Builtin :=
      { Round.builtin {} with name := "fails", evaluate := fun _ => .error error }
    let never : Builtin := { fails with name := "never", counts := ⟨2, 1⟩ }
    let registry := (Registry.builtins.register fails).register never
    registry.evaluate "never" [.int 1] outer = .error ⟨.arity "never" 1 2 1, outer⟩ ∧
      registry.evaluate "fails" [.int 1] outer = .error error := by
  decide

end DecimalRounding
