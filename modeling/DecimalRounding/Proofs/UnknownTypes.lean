import DecimalRounding.Proofs.CallRefusals
import Mathlib.Data.List.Forall2

/-!
# Forgotten types

Less knowledge about the variables of a template never breaks a call. Where the declared types of
some variables are replaced by `unknown` (`TemplateExpr.Forgets`), the static type of an expression
stays as it is or becomes `unknown` too (`StaticType.Forgets`), and what it folds to is the same. An
emitted call passes the checks of the types of its arguments as before, and its text, which depends
on the arguments' texts and the folded digit count only, is the same
(`Round.emit_of_forgets`).
-/

namespace DecimalRounding

/-! ### Types -/

/-- The second type is the first one, or has been forgotten. -/
def StaticType.Forgets (type type' : StaticType) : Prop := type' = type ∨ type' = .unknown

namespace StaticType

variable {type type' left left' right right' : StaticType}

theorem Forgets.isNumeric (h : Forgets type type') (hnumeric : type.isNumeric) :
    type'.isNumeric := by
  obtain rfl | rfl := h
  · exact hnumeric
  · rfl

theorem Forgets.isInteger (h : Forgets type type') (hinteger : type.isInteger) :
    type'.isInteger := by
  obtain rfl | rfl := h
  · exact hinteger
  · rfl

/-- A type forgotten on either side is forgotten in the result. -/
theorem Forgets.arithmeticType (operator : Operator) (hl : Forgets left left')
    (hr : Forgets right right') :
    Forgets (TemplateExpr.arithmeticType operator left right)
      (TemplateExpr.arithmeticType operator left' right') := by
  obtain rfl | rfl := hl
  · obtain rfl | rfl := hr
    · exact .inl rfl
    · exact .inr (if_pos (.inr rfl))
  · exact .inr (if_pos (.inl rfl))

end StaticType

/-! ### Expressions -/

/-- The second expression is the first one with the declared types of some of its variables replaced
by `unknown`, each occurrence for itself. -/
inductive TemplateExpr.Forgets : TemplateExpr → TemplateExpr → Prop
  | refl (e) : Forgets e e
  | var (name type) : Forgets (.var name type) (.var name .unknown)
  | negate {e e'} (operand : Forgets e e') : Forgets (.negate e) (.negate e')
  | binary (operator) {l l' r r'} (left : Forgets l l') (right : Forgets r r') :
    Forgets (.binary operator l r) (.binary operator l' r')

namespace TemplateExpr

variable {e e' : TemplateExpr}

theorem Forgets.staticType (h : Forgets e e') : StaticType.Forgets e.staticType e'.staticType := by
  induction h with
  | refl e => exact .inl rfl
  | var name type => exact .inr rfl
  | negate _ ih => exact ih
  | binary operator _ _ ihl ihr =>
    by_cases harith : operator.isArithmetic
    · rw [staticType_binary harith, staticType_binary harith]
      exact ihl.arithmeticType operator ihr
    · exact .inl (staticType_binary_congr harith ..)

/-- No variable folds, so that its type has no part in folding. -/
theorem Forgets.constant?_eq (h : Forgets e e') : e'.constant? = e.constant? := by
  induction h with
  | refl e => rfl
  | var name type => rfl
  | negate _ ih => rw [constant?, constant?, ih]
  | binary operator _ _ ihl ihr => rw [constant?, constant?, ihl, ihr]

end TemplateExpr

/-! ### Arguments -/

/-- The second argument has the text of the first one and folds as it does, and its type is the same
or has been forgotten. -/
structure Argument.Forgets (argument argument' : Argument) : Prop where
  fragment_eq : argument'.fragment = argument.fragment
  constant_eq : argument'.facts.constant = argument.facts.constant
  type : StaticType.Forgets argument.facts.type argument'.facts.type

/-- A text with the expression that it was generated from. -/
structure SourceArgument where
  fragment : Fragment
  expr : TemplateExpr

namespace SourceArgument

/-- The argument that an emitted call sees. -/
def toArgument (source : SourceArgument) : Argument := ⟨source.fragment, source.expr.facts⟩

/-- The second text is the first one, and its expression the first one with types forgotten. -/
structure Forgets (source source' : SourceArgument) : Prop where
  fragment_eq : source'.fragment = source.fragment
  expr : TemplateExpr.Forgets source.expr source'.expr

theorem Forgets.toArgument {source source' : SourceArgument} (h : source.Forgets source') :
    Argument.Forgets source.toArgument source'.toArgument :=
  ⟨h.fragment_eq, h.expr.constant?_eq, h.expr.staticType⟩

end SourceArgument

namespace Round

variable {names : RuntimeNames} {target : Target} {number number' digits digits' : Argument}
  {args args' : List Argument} {text : Fragment}

/-! ### Calls -/

theorem emit_singleton_eq_ok_iff : emit names target [number] = .ok text ↔
    number.facts.type.isNumeric ∧ fragment names target number none = text := by
  cases h : number.facts.type.isNumeric <;>
    simp [emit, typedArguments, arguments, StaticType.requireNumeric, h, bind, Except.bind, pure,
      Except.pure]

theorem emit_pair_eq_ok_iff : emit names target [number, digits] = .ok text ↔
    number.facts.type.isNumeric ∧ digits.facts.type.isInteger ∧
      fragment names target number (some digits) = text := by
  cases h : number.facts.type.isNumeric <;> cases h' : digits.facts.type.isInteger <;>
    simp [emit, typedArguments, arguments, StaticType.requireNumeric, StaticType.requireInteger, h,
      h', bind, Except.bind, pure, Except.pure]

/-- The text of a call does not show the types of its arguments. -/
theorem fragment_of_forgets (hnumber : number.Forgets number') :
    ∀ {digits digits'}, Option.Rel Argument.Forgets digits digits' →
      fragment names target number' digits' = fragment names target number digits
  | _, _, .none => by simp only [fragment, Option.map_none, hnumber.fragment_eq]
  | _, _, .some hdigits => by
    simp only [fragment, Option.map_some, DigitCount.ofFacts, hnumber.fragment_eq,
      hdigits.fragment_eq, hdigits.constant_eq]

/-- A call whose arguments are less known passes the same checks. -/
theorem emit_eq_ok_of_forgets (h : List.Forall₂ Argument.Forgets args args')
    (hok : emit names target args = .ok text) : emit names target args' = .ok text := by
  -- calls without arguments or with more than two are never emitted
  rcases h with _ | ⟨hnumber, _ | ⟨hdigits, _ | ⟨_, _⟩⟩⟩
  · cases hok
  · obtain ⟨hnumeric, htext⟩ := emit_singleton_eq_ok_iff.mp hok
    exact emit_singleton_eq_ok_iff.mpr
      ⟨hnumber.type.isNumeric hnumeric, (fragment_of_forgets hnumber .none).trans htext⟩
  · obtain ⟨hnumeric, hinteger, htext⟩ := emit_pair_eq_ok_iff.mp hok
    exact emit_pair_eq_ok_iff.mpr ⟨hnumber.type.isNumeric hnumeric,
      hdigits.type.isInteger hinteger,
      (fragment_of_forgets hnumber (.some hdigits)).trans htext⟩
  · cases hok

/-- **Forgotten types.** Where declared types of variables are forgotten, in any of the arguments
and however deep, the static type of each argument stays as it is or is forgotten, and a call that
was emitted is emitted still, with the same text in each target language. -/
theorem emit_of_forgets {sources sources' : List SourceArgument}
    (h : List.Forall₂ SourceArgument.Forgets sources sources') :
    List.Forall₂ (fun source source' => source'.expr.staticType = source.expr.staticType ∨
        source'.expr.staticType = .unknown) sources sources' ∧
      ∀ (names : RuntimeNames) (target : Target) (text : Fragment),
        emit names target (sources.map (·.toArgument)) = .ok text →
          emit names target (sources'.map (·.toArgument)) = .ok text := by
  refine ⟨h.imp fun _ _ hsource => hsource.expr.staticType, fun names target text hok => ?_⟩
  have hargs : List.Forall₂ Argument.Forgets (sources.map (·.toArgument))
      (sources'.map (·.toArgument)) := by
    rw [List.forall₂_map_left_iff, List.forall₂_map_right_iff]
    exact h.imp fun _ _ hsource => hsource.toArgument
  exact emit_eq_ok_of_forgets hargs hok

/-- In `round(-(x * y), n + 1)` the types of `y` and of `n` are forgotten. -/
theorem emit_of_forgets_product :
    let number (y : StaticType) : SourceArgument :=
      ⟨⟨"-(x * y)", 8⟩, .negate (.binary .times (.var "x" .int) (.var "y" y))⟩
    let digits (n : StaticType) : SourceArgument :=
      ⟨⟨"n + 1", 6⟩, .binary .plus (.var "n" n) (.int 1)⟩
    let text := Round.fragment {} .python (number .float).toArgument (digits .int).toArgument
    List.Forall₂ SourceArgument.Forgets [number .float, digits .int]
        [number .unknown, digits .unknown] ∧
      (number .unknown).expr.staticType ≠ (number .float).expr.staticType ∧
      emit {} .python [(number .float).toArgument, (digits .int).toArgument] = .ok text ∧
      emit {} .python [(number .unknown).toArgument, (digits .unknown).toArgument] = .ok text := by
  intro number digits text
  have hforgets : List.Forall₂ SourceArgument.Forgets [number .float, digits .int]
      [number .unknown, digits .unknown] :=
    .cons ⟨rfl, .negate (.binary .times (.refl _) (.var ..))⟩
      (.cons ⟨rfl, .binary .plus (.var ..) (.refl _)⟩ .nil)
  have hok : emit {} .python [(number .float).toArgument, (digits .int).toArgument] = .ok text :=
    rfl
  exact ⟨hforgets, by decide, hok, (emit_of_forgets hforgets).2 _ _ _ hok⟩

end Round

end DecimalRounding
