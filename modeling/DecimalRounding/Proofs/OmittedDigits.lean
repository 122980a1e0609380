import DecimalRounding.Proofs.ConstantFolding
import DecimalRounding.Proofs.DigitCounts
import DecimalRounding.Proofs.UnknownTypes

/-!
# Digit counts left out, and known digit counts

A call without a digit count is a call to zero digits. On known numbers zero may be the integer or a
binary64 zero of either sign, in Python any text `0` that passes for an integer, and in JavaScript
any expression that folds to zero.

In JavaScript a digit count that is written out as a power of ten leaves no other trace: two
expressions that fold to the same count give the same text, however they are written. Past the
largest count that is written out it is the other way round: the call shows the text of the digit
count, and not what it folds to (`Round.round_omitted_digits`).
-/

namespace DecimalRounding

open Binary64

/-- What folds may be an integer, by its static type. -/
theorem SourceArgument.isInteger_of_constant {source : SourceArgument} {d : ℤ}
    (h : source.expr.constant? = some d) : source.toArgument.facts.type.isInteger := by
  change source.expr.staticType.isInteger
  rw [TemplateExpr.staticType_of_constant? h]
  rfl

/-! ### JavaScript -/

namespace JavaScript

variable {names : JavaScriptNames} {number : Fragment} {d : ℤ}

/-- The text of a count that is written out as a power of ten is not used. -/
theorem round_literal_of_le (h : d.natAbs ≤ maxFoldedDigits) (digits digits' : Option Fragment) :
    round names number digits (.literal d) = round names number digits' (.literal d) := by
  rw [round, round, if_pos h, if_pos h]

/-- A count that is too large to be written out is treated as one that is not known. -/
theorem round_literal_of_lt (h : maxFoldedDigits < d.natAbs) (digits : Fragment) :
    round names number (some digits) (.literal d) = round names number (some digits) .dynamic := by
  have hd : d ≠ 0 := by
    rintro rfl
    exact absurd h (Nat.not_lt_zero _)
  rw [round, round, if_neg hd, if_neg (Nat.not_le.mpr h), Option.getD_some]

end JavaScript

namespace Round

variable {names : RuntimeNames} {target : Target} {number digits digits' : Argument}

/-! ### Known numbers -/

theorem evaluate_singleton (number : Number) : evaluate [number] = evaluate [number, .int 0] := rfl

theorem hasIntegerValue_zero (negative : Bool) : (zero negative).HasIntegerValue 0 := by
  have hpos : 0 < overflowRank := by rw [overflowRank]; omega
  rw [zero, ofRank_of_lt hpos]
  exact ⟨rfl, by rw [value, magnitude_zero, mul_zero, Int.cast_zero]⟩

/-- Each zero is a digit count of zero. -/
theorem integerValue_eq_ok_zero {z : Number}
    (hz : z ∈ [.int 0, .float (zero false), .float (zero true)]) :
    z.integerValue name 1 = .ok 0 := by
  simp only [List.mem_cons, List.not_mem_nil, or_false] at hz
  rcases hz with rfl | rfl | rfl
  · rfl
  · exact integerValue_float_eq_ok_iff.mpr ⟨hasIntegerValue_zero _, by norm_num, by norm_num⟩
  · exact integerValue_float_eq_ok_iff.mpr ⟨hasIntegerValue_zero _, by norm_num, by norm_num⟩

/-! ### Emitted calls -/

theorem emit_singleton (names : RuntimeNames) (target : Target) (number : Argument) :
    emit names target [number] =
      (number.facts.type.requireNumeric name 0).map fun _ => fragment names target number none := by
  cases h : number.facts.type.requireNumeric name 0 <;>
    simp [emit, typedArguments, arguments, h, bind, Except.bind, pure, Except.pure, Except.map]

/-- A digit count that may be an integer has no part in the checks. -/
theorem emit_pair (h : digits.facts.type.isInteger) :
    emit names target [number, digits] = (number.facts.type.requireNumeric name 0).map fun _ =>
      fragment names target number (some digits) := by
  cases h' : number.facts.type.requireNumeric name 0 <;>
    simp [emit, typedArguments, arguments, StaticType.requireInteger, h, h', bind, Except.bind,
      pure, Except.pure, Except.map]

theorem emit_pair_congr (h : digits.facts.type.isInteger) (h' : digits'.facts.type.isInteger)
    (htext : fragment names target number (some digits) =
      fragment names target number (some digits')) :
    emit names target [number, digits] = emit names target [number, digits'] := by
  rw [emit_pair h, emit_pair h', htext]

theorem emit_pair_eq_singleton (h : digits.facts.type.isInteger)
    (htext : fragment names target number (some digits) = fragment names target number none) :
    emit names target [number, digits] = emit names target [number] := by
  rw [emit_pair h, emit_singleton, htext]

/-- The digit count of a call that is emitted for JavaScript. -/
theorem fragment_javaScript_of_constant {d : ℤ} (h : digits.facts.constant = some d) :
    fragment names .javaScript number (some digits) =
      JavaScript.round names.javaScript number.fragment (some digits.fragment) (.literal d) := by
  simp only [fragment, Option.map_some, DigitCount.ofFacts, h]

theorem fragment_javaScript_of_none (h : digits.facts.constant = none) :
    fragment names .javaScript number (some digits) =
      JavaScript.round names.javaScript number.fragment (some digits.fragment) .dynamic := by
  simp only [fragment, Option.map_some, DigitCount.ofFacts, h]

/-- **Omitted and known digit counts.** Whatever names the generated code calls: a call on known
numbers without a digit count has the outcome of one to zero digits, zero being the integer or a
binary64 zero; a call emitted for Python without one that of a call whose digit count may be an
integer and has the text `0`; and two calls emitted for JavaScript have one outcome if the
expressions of their digit counts fold to the same count `d` with `|d| ≤ 308`, for `d = 0` the one
without a digit count. For larger `|d|` the outcome is that of a call whose digit count does not
fold, may be an integer and has the same text. -/
theorem round_omitted_digits (names : RuntimeNames) :
    (∀ number z : Number, z ∈ [.int 0, .float (zero false), .float (zero true)] →
      evaluate [number, z] = evaluate [number]) ∧
    ∀ number : Argument,
      (∀ digits : Argument, digits.facts.type.isInteger → digits.fragment.text = "0" →
        emit names .python [number, digits] = emit names .python [number]) ∧
      ∀ (d : ℤ) (digits : SourceArgument), digits.expr.constant? = some d →
        (d.natAbs ≤ 308 → ∀ digits' : SourceArgument, digits'.expr.constant? = some d →
          emit names .javaScript [number, digits.toArgument] =
            emit names .javaScript [number, digits'.toArgument]) ∧
        (d = 0 → emit names .javaScript [number, digits.toArgument] =
          emit names .javaScript [number]) ∧
        (308 < d.natAbs → ∀ facts : StaticFacts, facts.type.isInteger → facts.constant = none →
          emit names .javaScript [number, digits.toArgument] =
            emit names .javaScript [number, ⟨digits.fragment, facts⟩]) := by
  refine ⟨fun number z hz => ?_, fun number => ⟨fun digits hint htext => ?_, fun d digits hd => ?_⟩⟩
  · rw [evaluate_pair, integerValue_eq_ok_zero hz, evaluate_singleton]
    rfl
  · refine emit_pair_eq_singleton hint ?_
    simp only [fragment, Python.round, Option.map_some, Option.map_none, Option.elim, htext]
  have hint := SourceArgument.isInteger_of_constant hd
  refine ⟨fun hle digits' hd' => ?_, fun hzero => ?_, fun hlt facts hint' hnone => ?_⟩
  · refine emit_pair_congr hint (SourceArgument.isInteger_of_constant hd') ?_
    rw [fragment_javaScript_of_constant hd, fragment_javaScript_of_constant hd']
    exact JavaScript.round_literal_of_le hle _ _
  · subst hzero
    refine emit_pair_eq_singleton hint ?_
    rw [fragment_javaScript_of_constant hd]
    exact JavaScript.round_literal_of_le (Nat.zero_le _) _ none
  · refine emit_pair_congr hint hint' ?_
    rw [fragment_javaScript_of_constant hd, fragment_javaScript_of_none hnone]
    exact JavaScript.round_literal_of_lt hlt _

/-- The number `5/2` to a negative zero of digits; a digit count of unknown type that is written
`0`; and in JavaScript the hundreds of `x` by a literal and by a difference, a difference that comes
to zero, and a digit count out of reach. -/
theorem round_omitted_digits_hundreds :
    let x : Argument := ⟨.atom "x", ⟨.float, none⟩⟩
    let zeroText : Argument := ⟨.atom "0", (TemplateExpr.var "n" .unknown).facts⟩
    let literal : SourceArgument := ⟨.intLiteral (-2), .int (-2)⟩
    let difference : SourceArgument := ⟨⟨"1 - 3", 6⟩, .binary .minus (.int 1) (.int 3)⟩
    let cancelled : SourceArgument := ⟨⟨"3 - 3", 6⟩, .binary .minus (.int 3) (.int 3)⟩
    let large : SourceArgument := ⟨.intLiteral 400, .int 400⟩
    evaluate [.float (ofRatio false 5 2), .float (zero true)] = .ok (.int 3) ∧
      emit {} .python [x, zeroText] = emit {} .python [x] ∧
      emit {} .javaScript [x, literal.toArgument] = .ok ⟨"Math.round(x / 100) * 100", 7⟩ ∧
      emit {} .javaScript [x, difference.toArgument] = .ok ⟨"Math.round(x / 100) * 100", 7⟩ ∧
      emit {} .javaScript [x, cancelled.toArgument] = .ok (.atom "Math.round(x)") ∧
      emit {} .javaScript [x, large.toArgument] =
        .ok ⟨"Math.round(x * Math.pow(10, 400)) / Math.pow(10, 400)", 7⟩ := by
  intro x zeroText literal difference cancelled large
  obtain ⟨hvalue, hemit⟩ := round_omitted_digits {}
  obtain ⟨hpython, hjavaScript⟩ := hemit x
  have hzero : evaluate [.float (ofRatio false 5 2)] = .ok (.int 3) := by decide +kernel
  have hliteral : emit {} .javaScript [x, literal.toArgument] =
      .ok ⟨"Math.round(x / 100) * 100", 7⟩ := by decide +kernel
  have hplain : emit {} .javaScript [x] = .ok (.atom "Math.round(x)") := by decide +kernel
  have hdynamic : emit {} .javaScript [x, ⟨large.fragment, ⟨.int, none⟩⟩] =
      .ok ⟨"Math.round(x * Math.pow(10, 400)) / Math.pow(10, 400)", 7⟩ := by decide +kernel
  refine ⟨(hvalue _ _ (by simp)).trans hzero, hpython zeroText rfl rfl, hliteral, ?_, ?_, ?_⟩
  · rw [(hjavaScript (-2) difference rfl).1 (by decide) literal rfl, hliteral]
  · rw [(hjavaScript 0 cancelled rfl).2.1 rfl, hplain]
  · rw [(hjavaScript 400 large rfl).2.2 (by decide) ⟨.int, none⟩ rfl rfl, hdynamic]

end Round

end DecimalRounding
