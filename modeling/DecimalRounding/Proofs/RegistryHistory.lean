import DecimalRounding.Proofs.ByteOrder
import DecimalRounding.Registry.Snapshots
import Mathlib.Data.List.Forall2

/-!
# What a registry answers after any history

A host registers functions, keeps copies of the registry, returns to them and works on several
of them in turn. The history of a registry is the list of functions registered in it and in the
registries it was copied from, the latest first. What the registry answers depends on this list
alone (`Registry.Answers`): under a name it holds the latest function of that name, and it lists
the names of the history once each, in the order of their bytes.

One action of the host keeps this for the registry in use and for every copy
(`Snapshots.Recorded.act`), so it holds after every run (`Snapshots.run_answers`).
-/

namespace DecimalRounding

/-- The function of a name that was registered last in a history. -/
def latest (history : List Builtin) (name : String) : Option Builtin :=
  history.find? (·.name == name)

/-- What was registered last under its name hides what was there before. -/
theorem latest_cons (function : Builtin) (history : List Builtin) (name : String) :
    latest (function :: history) name =
      if function.name = name then some function else latest history name := by
  by_cases h : function.name = name <;> simp [latest, h]

theorem name_eq_of_latest {history : List Builtin} {name : String} {function : Builtin}
    (h : latest history name = some function) : function.name = name := by
  rw [latest] at h
  have hname := List.find?_some h
  exact beq_iff_eq.1 hname

/-- Every name in a history has a latest function. -/
theorem isSome_latest_iff {history : List Builtin} {name : String} :
    (latest history name).isSome ↔ ∃ function ∈ history, function.name = name := by
  simp [latest]

namespace Registry

/-! ### Placing a function -/

/-- Placing a function changes what is found under its name, and under no other. -/
theorem find?_place (function : Builtin) (functions : List Builtin) (name : String) :
    (place function functions).find? (·.name == name) =
      if function.name = name then some function else functions.find? (·.name == name) := by
  induction functions with
  | nil => by_cases h : function.name = name <;> simp [place, h]
  | cons head rest ih =>
    rcases lt_trichotomy function.name head.name with before | same | after
    · rw [place, if_pos before]
      by_cases h : function.name = name <;> simp [h]
    · rw [place, if_neg (same ▸ lt_irrefl _), if_neg (same ▸ lt_irrefl _)]
      by_cases h : function.name = name <;> simp [h, ← same]
    · rw [place, if_neg (lt_asymm after), if_pos after]
      -- the head may have the name that is asked for, but then the new function has not
      by_cases h : head.name = name
      · simp [h, (h ▸ after).ne']
      · simp [h, ih]

theorem mem_place {function other : Builtin} {functions : List Builtin}
    (h : other ∈ place function functions) : other = function ∨ other ∈ functions := by
  induction functions with
  | nil => exact .inl (List.mem_singleton.1 h)
  | cons head rest ih =>
    rw [place] at h
    split_ifs at h
    · exact List.mem_cons.1 h
    · rcases List.mem_cons.1 h with rfl | h
      · exact .inr List.mem_cons_self
      · exact (ih h).imp_right (List.mem_cons_of_mem _)
    · exact (List.mem_cons.1 h).imp_right (List.mem_cons_of_mem _)

/-- The functions stand in strictly ascending order of their names. -/
def Ascending (functions : List Builtin) : Prop := functions.Pairwise (·.name < ·.name)

/-- Placing a function keeps the names in order, so that none is there twice. -/
theorem Ascending.place {functions : List Builtin} (h : Ascending functions)
    (function : Builtin) : Ascending (place function functions) := by
  induction functions with
  | nil => exact List.pairwise_singleton _ _
  | cons head rest ih =>
    have hrest : Ascending rest := h.of_cons
    rcases lt_trichotomy function.name head.name with before | same | after
    · rw [Registry.place, if_pos before]
      refine List.pairwise_cons.2 ⟨fun other hother => ?_, h⟩
      rcases List.mem_cons.1 hother with rfl | hother
      · exact before
      · exact before.trans (List.rel_of_pairwise_cons h hother)
    · rw [Registry.place, if_neg (same ▸ lt_irrefl _), if_neg (same ▸ lt_irrefl _)]
      exact List.pairwise_cons.2
        ⟨fun other hother => same ▸ List.rel_of_pairwise_cons h hother, hrest⟩
    · rw [Registry.place, if_neg (lt_asymm after), if_pos after]
      refine List.pairwise_cons.2 ⟨fun other hother => ?_, ih hrest⟩
      rcases mem_place hother with rfl | hother
      · exact after
      · exact List.rel_of_pairwise_cons h hother

/-! ### Registering a function -/

/-- Registering a function changes what its name means, and no other name. -/
theorem lookup_register (registry : Registry) (function : Builtin) (name : String) :
    (registry.register function).lookup name =
      if function.name = name then some function else registry.lookup name :=
  find?_place function registry.functions name

/-- The names that are listed are those that have a function. -/
theorem mem_names_iff {registry : Registry} {name : String} :
    name ∈ registry.names ↔ (registry.lookup name).isSome := by
  simp [names, lookup]

/-- What a registry answers is what its history says. -/
structure Answers (registry : Registry) (history : List Builtin) : Prop where
  /-- A name means the latest function of that name. -/
  lookup : ∀ name, registry.lookup name = latest history name
  /-- The documentation of a name is that of the latest function. -/
  doc : ∀ name, registry.doc name = (latest history name).map (·.doc)
  /-- The names are listed in strictly ascending order of their bytes. -/
  names_ascending : registry.names.Pairwise (Text.utf8 · < Text.utf8 ·)
  /-- The names listed are those of the history. -/
  mem_names : ∀ name, name ∈ registry.names ↔ ∃ function ∈ history, function.name = name
  /-- A function is found under its own name. -/
  name_eq : ∀ name function, registry.lookup name = some function → function.name = name
  /-- A call is checked and run by the latest function of its name, and refused without one. -/
  dispatch : ∀ (α : Type) (name : String) (found : Nat) (site : Option SourcePosition)
    (run : Builtin → Except CallError α),
    registry.dispatch name found site run =
      match latest history name with
      | none => .error ((CallError.ofCause (.unknownFunction name)).withSite site)
      | some function =>
        ((function.counts.check name found).bind fun _ => run function).mapError (·.withSite site)

/-- All answers of a registry follow from the function of each name and from the order in which the
functions are stored. -/
theorem answers_of {registry : Registry} {history : List Builtin}
    (ascending : Ascending registry.functions)
    (lookup : ∀ name, registry.lookup name = latest history name) : registry.Answers history where
  lookup := lookup
  doc name := by rw [doc, lookup]
  names_ascending := List.pairwise_map.2 (ascending.imp Text.utf8_lt_of_lt)
  mem_names name := by rw [mem_names_iff, lookup, isSome_latest_iff]
  name_eq _ _ := name_eq_of_latest
  dispatch α name found site run := by
    rw [dispatch, resolve, lookup]
    cases hlatest : latest history name with
    | none => rfl
    | some function =>
      obtain rfl := name_eq_of_latest hlatest
      dsimp only
      cases function.counts.check function.name found <;> rfl

/-- The order of the listed names is that of the stored functions. -/
theorem Answers.ascending {registry : Registry} {history : List Builtin}
    (h : registry.Answers history) : Ascending registry.functions :=
  (List.pairwise_map.1 h.names_ascending).imp Text.lt_iff_utf8_lt.2

theorem answers_empty : empty.Answers [] := answers_of .nil fun _ => rfl

/-- A registered function goes in front of the history. -/
theorem Answers.register {registry : Registry} {history : List Builtin}
    (h : registry.Answers history) (function : Builtin) :
    (registry.register function).Answers (function :: history) :=
  answers_of (h.ascending.place function) fun name => by
    rw [lookup_register, latest_cons, h.lookup]

end Registry

/-! ### Runs of a host -/

namespace Snapshots

/-- The registries that a host starts from. -/
inductive Start where
  /-- No functions. -/
  | empty
  /-- The built-in functions of the library. -/
  | builtins

/-- What a host does with registries. -/
inductive Action where
  /-- Registers a function in the registry in use. -/
  | register (function : Builtin)
  /-- Registers the built-in functions of the library. -/
  | registerBuiltins (names : RuntimeNames)
  /-- Keeps a copy. -/
  | save
  /-- Returns to the latest copy and gives it up. -/
  | restore
  /-- Returns to a copy and keeps it. -/
  | returnTo (index : Nat)
  /-- Goes on with a copy and keeps the registry in use in its place. -/
  | exchange (index : Nat)

/-- The registry at the start. -/
def Start.registry : Start → Registry
  | .empty => .empty
  | .builtins => .builtins

/-- The history at the start. -/
def Start.history : Start → List Builtin
  | .empty => []
  | .builtins => [Round.builtin {}]

/-- The built-in functions are what a host would have registered first. -/
theorem Start.answers (start : Start) : start.registry.Answers start.history :=
  match start with
  | .empty => Registry.answers_empty
  | .builtins => Registry.answers_empty.register (Round.builtin {})

/-- The registries after one action. -/
def act (snapshots : Snapshots) : Action → Snapshots
  | .register function => snapshots.modify (·.register function)
  | .registerBuiltins names => snapshots.modify (·.registerBuiltins names)
  | .save => snapshots.save
  | .restore => snapshots.restore
  | .returnTo index => snapshots.returnTo index
  | .exchange index => snapshots.exchange index

/-- The registries after several actions. -/
def run (snapshots : Snapshots) (actions : List Action) : Snapshots := actions.foldl act snapshots

end Snapshots

/-- The history of the registry in use and those of the copies, in the order of the copies. -/
structure Histories where
  current : List Builtin
  kept : List (List Builtin)

namespace Histories

/-- Adds a function to the history of the registry in use; those of the copies stay. -/
def register (histories : Histories) (function : Builtin) : Histories :=
  { histories with current := function :: histories.current }

/-- Keeps the history of the registry in use with the copy of the registry. -/
def save (histories : Histories) : Histories :=
  { histories with kept := histories.current :: histories.kept }

/-- Returns to the history of the latest copy. -/
def restore (histories : Histories) : Histories :=
  match histories.kept with
  | [] => histories
  | latest :: earlier => ⟨latest, earlier⟩

/-- Returns to the history of a copy and keeps it. -/
def returnTo (histories : Histories) (index : Nat) : Histories :=
  { histories with current := histories.kept[index]?.getD histories.current }

/-- Goes on with the history of a copy and keeps that of the registry in use in its place. -/
def exchange (histories : Histories) (index : Nat) : Histories :=
  match histories.kept[index]? with
  | none => histories
  | some copy => ⟨copy, histories.kept.set index histories.current⟩

/-- The histories after one action. -/
def act (histories : Histories) : Snapshots.Action → Histories
  | .register function => histories.register function
  | .registerBuiltins names => histories.register (Round.builtin names)
  | .save => histories.save
  | .restore => histories.restore
  | .returnTo index => histories.returnTo index
  | .exchange index => histories.exchange index

/-- The histories after several actions. -/
def run (histories : Histories) (actions : List Snapshots.Action) : Histories :=
  actions.foldl act histories

end Histories

namespace Snapshots

/-- The registry in use and all copies answer what their histories say. -/
structure Recorded (snapshots : Snapshots) (histories : Histories) : Prop where
  current : snapshots.current.Answers histories.current
  kept : List.Forall₂ Registry.Answers snapshots.kept histories.kept

section

variable {α β : Type} {R : α → β → Prop} {as : List α} {bs : List β}

/-- At each index there are related items, or there is none in either list. -/
theorem rel_getElem? (h : List.Forall₂ R as bs) (index : Nat) :
    Option.Rel R as[index]? bs[index]? := by
  induction h generalizing index with
  | nil => exact .none
  | cons hab _ ih =>
    cases index with
    | zero => exact .some hab
    | succ index => exact ih index

theorem forall₂_set (h : List.Forall₂ R as bs) {a : α} {b : β} (hab : R a b) (index : Nat) :
    List.Forall₂ R (as.set index a) (bs.set index b) := by
  induction h generalizing index with
  | nil => exact .nil
  | cons hhead htail ih =>
    cases index with
    | zero => exact .cons hab htail
    | succ index => exact .cons hhead (ih index)

end

section

variable {snapshots : Snapshots} {histories : Histories}

/-- Where nothing was kept, neither the registry in use nor its history changes. -/
theorem Recorded.restore (h : snapshots.Recorded histories) :
    snapshots.restore.Recorded histories.restore := by
  obtain ⟨current, kept⟩ := snapshots
  obtain ⟨history, earlier⟩ := histories
  cases h.kept with
  | nil => exact h
  | cons hlatest hearlier => exact ⟨hlatest, hearlier⟩

/-- An index past the last copy changes nothing, here and in the histories. -/
theorem Recorded.returnTo (h : snapshots.Recorded histories) (index : Nat) :
    (snapshots.returnTo index).Recorded (histories.returnTo index) := by
  refine ⟨?_, h.kept⟩
  have hcopy := rel_getElem? h.kept index
  rw [Snapshots.returnTo, Histories.returnTo]
  generalize snapshots.kept[index]? = copy at hcopy ⊢
  generalize histories.kept[index]? = history at hcopy ⊢
  cases hcopy with
  | none => exact h.current
  | some hcopy => exact hcopy

/-- The registry in use takes its history with it to the place of the copy. -/
theorem Recorded.exchange (h : snapshots.Recorded histories) (index : Nat) :
    (snapshots.exchange index).Recorded (histories.exchange index) := by
  have hcopy := rel_getElem? h.kept index
  rw [Snapshots.exchange, Histories.exchange]
  generalize snapshots.kept[index]? = copy at hcopy ⊢
  generalize histories.kept[index]? = history at hcopy ⊢
  cases hcopy with
  | none => exact h
  | some hcopy => exact ⟨hcopy, forall₂_set h.kept h.current index⟩

/-- One action of the host keeps the registries in step with their histories. -/
theorem Recorded.act (h : snapshots.Recorded histories) (action : Action) :
    (snapshots.act action).Recorded (histories.act action) := by
  cases action with
  | register function => exact ⟨h.current.register function, h.kept⟩
  | registerBuiltins names => exact ⟨h.current.register (Round.builtin names), h.kept⟩
  | save => exact ⟨h.current, .cons h.current h.kept⟩
  | restore => exact h.restore
  | returnTo index => exact h.returnTo index
  | exchange index => exact h.exchange index

/-- By induction, so do any actions, one after the other. -/
theorem Recorded.run (h : snapshots.Recorded histories) (actions : List Action) :
    (snapshots.run actions).Recorded (histories.run actions) := by
  induction actions generalizing snapshots histories with
  | nil => exact h
  | cons action rest ih => exact ih (h.act action)

end

/-! ### Registering in one copy -/

/-- Functions registered one after the other reach no copy. -/
theorem run_register (snapshots : Snapshots) (functions : List Builtin) :
    snapshots.run (functions.map .register) =
      { snapshots with current := functions.foldl .register snapshots.current } := by
  induction functions generalizing snapshots with
  | nil => rfl
  | cons function rest ih => exact ih _

/-- Functions registered in a copy, by going on with it and then back, reach this copy alone. -/
theorem exchange_run_register_exchange (snapshots : Snapshots)
    (index : Fin snapshots.kept.length) (functions : List Builtin) :
    ((snapshots.exchange index).run (functions.map .register)).exchange index =
      ⟨snapshots.current,
        snapshots.kept.set index (functions.foldl .register snapshots.kept[index])⟩ := by
  have hexchange : snapshots.exchange index =
      ⟨snapshots.kept[index], snapshots.kept.set index snapshots.current⟩ := by
    rw [exchange, List.getElem?_eq_getElem index.isLt]
    rfl
  have hback : (snapshots.kept.set index snapshots.current)[(index : Nat)]? =
      some snapshots.current := List.getElem?_set_self index.isLt
  rw [run_register, hexchange, exchange, hback]
  simp only [List.set_set]

/-- **The last registration of a name wins, in every copy on its own.** After any actions of a
host, the registry in use and all copies answer what their histories say. Then registering a
function changes the answer for its name alone and reaches no copy, returning to a copy undoes
what was registered since it was kept, and what is registered in a copy reaches nothing else. -/
theorem run_answers (start : Start) (actions : List Action) :
    let snapshots := (ofRegistry start.registry).run actions
    let histories := (Histories.mk start.history []).run actions
    snapshots.current.Answers histories.current ∧
    List.Forall₂ Registry.Answers snapshots.kept histories.kept ∧
    (∀ (function : Builtin) (name : String),
      (snapshots.current.register function).lookup name =
        if function.name = name then some function else snapshots.current.lookup name) ∧
    ∀ functions : List Builtin,
      (snapshots.run (functions.map .register)).kept = snapshots.kept ∧
      (snapshots.save.run (functions.map .register)).restore = snapshots ∧
      ∀ index : Fin snapshots.kept.length,
        ((snapshots.exchange index).run (functions.map .register)).exchange index =
          ⟨snapshots.current,
            snapshots.kept.set index (functions.foldl .register snapshots.kept[index])⟩ := by
  intro snapshots histories
  have hstart : (ofRegistry start.registry).Recorded ⟨start.history, []⟩ :=
    ⟨start.answers, .nil⟩
  have hrecorded : snapshots.Recorded histories := hstart.run actions
  refine ⟨hrecorded.current, hrecorded.kept, Registry.lookup_register _, fun functions =>
    ⟨?_, ?_, fun index => exchange_run_register_exchange snapshots index functions⟩⟩
  · rw [run_register]
  · rw [run_register]
    rfl

/-- A function registered after a copy was kept is not there once the host goes on with the copy,
and is still there in the registry that was left. -/
example :
    let abs : Builtin := { Round.builtin {} with name := "abs" }
    let snapshots := (ofRegistry .builtins).run [.save, .register abs, .exchange 0]
    snapshots.current.names = ["round"] ∧ snapshots.kept.map (·.names) = [["abs", "round"]] := by
  decide

end Snapshots

end DecimalRounding
