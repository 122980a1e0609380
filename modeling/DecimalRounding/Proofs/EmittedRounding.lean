import DecimalRounding.Emit.JavaScript
import DecimalRounding.Proofs.SourceValue

/-!
# What emitted rounding calls compute

Whichever form a rounding call is emitted in, a power of ten that is written out or one that is
computed, a multiplication followed by a division or the other way round, it computes the same
number: with `R` for the function that rounds to whole numbers, `R (x * 10 ^ d) / 10 ^ d`
(`JavaScript.exists_denotes_round`). The number and the digit count can be any text that is an
expression of the recorded precedence, and an emitted call is such a text again, so that this holds
for nested calls as well (`JavaScript.exists_denotes_foldl`).
-/

namespace DecimalRounding.JavaScript

variable {names : JavaScriptNames} {env : Environment} {R : ℚ → ℚ}

/-- What the two functions of the run-time library compute. -/
structure Library (names : JavaScriptNames) (env : Environment) (R : ℚ → ℚ) : Prop where
  round_name : Token.isName names.roundFunction.toList
  power_name : Token.isName names.powerFunction.toList
  round : ∀ y, env.function names.roundFunction [y] = some (R y)
  power : ∀ k : ℤ, env.function names.powerFunction [10, k] = some (10 ^ k)

/-- The text of the digit count, if there is one, has the value `d`, and if there is none the count
is known to be `d`. -/
structure Counts (env : Environment) (digits : Option Fragment) (count : DigitCount) (d : ℤ) :
    Prop where
  text : ∀ fragment ∈ digits, ∃ level tree, Reads fragment.text level tree ∧
    tree.eval env = some (d : ℚ)
  known : count = .literal d ∨ count = .dynamic ∧ digits.isSome

section

variable {number factor : Fragment} {level : ℤ} {a f : SourceTree} {x y : ℚ} {d : ℤ} {p : ℕ}
  {scale unscale : Operator} {digits : Option Fragment} {count : DigitCount}

/-! ### The parts of a call -/

theorem denotes_plainRound (hlib : Library names env R) (ha : Reads number.text level a)
    (hx : a.eval env = some x) :
    ∃ t, (plainRound names number).Denotes t ∧ t.eval env = some (R x) := by
  have hreads := reads_call hlib.round_name (.cons ⟨_, ha⟩ .nil)
  refine ⟨.call names.roundFunction [a], Fragment.denotes_iff.mpr hreads, ?_⟩
  rw [SourceTree.eval_call_singleton _ hx, hlib.round]

theorem denotes_scaledRound (hlib : Library names env R) (hscale : scale.isBinary)
    (hunscale : unscale.isBinary) (ha : Reads number.text level a)
    (hle : number.precedence ≤ level) (hf : Reads factor.text factor.precedence f) :
    (scaledRound names scale unscale number factor).Denotes
      (.binary unscale (.call names.roundFunction [.binary scale a f]) f) := by
  have hscaled := reads_binary hscale ha hle hf le_rfl
  have hround := reads_call hlib.round_name (.cons ⟨_, hscaled⟩ .nil)
  exact Fragment.denotes_iff.mpr (reads_binary hunscale hround le_rfl hf le_rfl)

theorem reads_tenPowerLiteral (p : ℕ) :
    Reads (tenPowerLiteral p).text (tenPowerLiteral p).precedence (.numeral ⟨10 ^ p, 0⟩) :=
  reads_toString _

/-- Scaling up and down again. -/
theorem eval_times_divideBy (hlib : Library names env R) (hx : a.eval env = some x)
    (hf : f.eval env = some y) (hy : y ≠ 0) :
    (SourceTree.binary .divideBy (.call names.roundFunction [.binary .times a f]) f).eval env =
      some (R (x * y) / y) := by
  have hscaled : (SourceTree.binary .times a f).eval env = some (x * y) := by
    rw [SourceTree.eval_binary hx, hf]
    rfl
  have hround := SourceTree.eval_call_singleton names.roundFunction hscaled
  rw [hlib.round] at hround
  rw [SourceTree.eval_binary hround, hf, Operator.binaryValue, if_neg hy]

/-- Scaling down and up again. -/
theorem eval_divideBy_times (hlib : Library names env R) (hx : a.eval env = some x)
    (hf : f.eval env = some y) (hy : y ≠ 0) :
    (SourceTree.binary .times (.call names.roundFunction [.binary .divideBy a f]) f).eval env =
      some (R (x / y) * y) := by
  have hscaled : (SourceTree.binary .divideBy a f).eval env = some (x / y) := by
    rw [SourceTree.eval_binary hx, hf, Operator.binaryValue, if_neg hy]
  have hround := SourceTree.eval_call_singleton names.roundFunction hscaled
  rw [hlib.round] at hround
  rw [SourceTree.eval_binary hround, hf]
  rfl

/-- The power of ten is computed. -/
theorem denotes_powerRound (hlib : Library names env R) (ha : Reads number.text level a)
    (hle : number.precedence ≤ level) (hx : a.eval env = some x) {digits : Fragment} {m : ℤ}
    {b : SourceTree} (hb : Reads digits.text m b) (hd : b.eval env = some (d : ℚ)) :
    ∃ t, (powerRound names number digits).Denotes t ∧
      t.eval env = some (R (x * 10 ^ d) / 10 ^ d) := by
  have hfactor := reads_call hlib.power_name (.cons ⟨_, reads_toString 10⟩ (.cons ⟨_, hb⟩ .nil))
  have hvalue := SourceTree.eval_call_pair names.powerFunction (SourceTree.eval_numeral 10) hd
  rw [Nat.cast_ofNat, hlib.power] at hvalue
  exact ⟨_, denotes_scaledRound hlib rfl rfl ha hle hfactor,
    eval_times_divideBy hlib hx hvalue (zpow_ne_zero _ (by norm_num))⟩

/-- The power of ten is written out, and the digit count is positive. -/
theorem denotes_scaledRound_up (hlib : Library names env R) (ha : Reads number.text level a)
    (hle : number.precedence ≤ level) (hx : a.eval env = some x) (p : ℕ) :
    ∃ t, (scaledRound names .times .divideBy number (tenPowerLiteral p)).Denotes t ∧
      t.eval env = some (R (x * 10 ^ (p : ℤ)) / 10 ^ (p : ℤ)) := by
  refine ⟨_, denotes_scaledRound hlib rfl rfl ha hle (reads_tenPowerLiteral p), ?_⟩
  rw [eval_times_divideBy hlib hx (SourceTree.eval_numeral _) (by positivity)]
  push_cast
  rfl

/-- The power of ten is written out, and the digit count is negative. -/
theorem denotes_scaledRound_down (hlib : Library names env R) (ha : Reads number.text level a)
    (hle : number.precedence ≤ level) (hx : a.eval env = some x) (p : ℕ) :
    ∃ t, (scaledRound names .divideBy .times number (tenPowerLiteral p)).Denotes t ∧
      t.eval env = some (R (x * 10 ^ (-p : ℤ)) / 10 ^ (-p : ℤ)) := by
  refine ⟨_, denotes_scaledRound hlib rfl rfl ha hle (reads_tenPowerLiteral p), ?_⟩
  rw [eval_divideBy_times hlib hx (SourceTree.eval_numeral _) (by positivity), zpow_neg,
    zpow_natCast, div_inv_eq_mul, ← div_eq_mul_inv]
  push_cast
  rfl

/-! ### All forms of a call -/

/-- Every form of a rounding call has the same value. -/
theorem exists_denotes_round (hlib : Library names env R) (ha : Reads number.text level a)
    (hle : number.precedence ≤ level) (hx : a.eval env = some x)
    (hcounts : Counts env digits count d) :
    ∃ t, (round names number digits count).Denotes t ∧
      t.eval env = some (R (x * 10 ^ d) / 10 ^ d) := by
  rcases hcounts.known with rfl | ⟨rfl, hsome⟩
  · rw [round]
    split_ifs with hzero hfold hpos
    · rw [hzero, zpow_zero, mul_one, div_one]
      exact denotes_plainRound hlib ha hx
    · obtain ⟨p, rfl⟩ := Int.eq_ofNat_of_zero_le hpos.le
      exact denotes_scaledRound_up hlib ha hle hx p
    · obtain ⟨p, rfl⟩ : ∃ p : ℕ, d = -p := ⟨d.natAbs, by omega⟩
      rw [Int.natAbs_neg, Int.natAbs_natCast]
      exact denotes_scaledRound_down hlib ha hle hx p
    · cases digits with
      | none =>
        exact denotes_powerRound hlib ha hle hx (reads_intLiteral d) (SourceTree.eval_ofInt d)
      | some fragment =>
        obtain ⟨m, b, hb, hd⟩ := hcounts.text fragment rfl
        exact denotes_powerRound hlib ha hle hx hb hd
  · obtain ⟨fragment, rfl⟩ := Option.isSome_iff_exists.mp hsome
    obtain ⟨m, b, hb, hd⟩ := hcounts.text fragment rfl
    exact denotes_powerRound hlib ha hle hx hb hd

/-- Calls around calls. -/
theorem exists_denotes_foldl (hlib : Library names env R)
    {calls : List (Option Fragment × DigitCount)} {ds : List ℤ}
    (hcalls : List.Forall₂ (fun call d => Counts env call.1 call.2 d) calls ds)
    (ha : number.Denotes a) (hx : a.eval env = some x) :
    ∃ t, (calls.foldl (fun inner call => round names inner call.1 call.2) number).Denotes t ∧
      t.eval env = some (ds.foldl (fun x d => R (x * 10 ^ d) / 10 ^ d) x) := by
  induction hcalls generalizing number a x with
  | nil => exact ⟨a, ha, hx⟩
  | cons hfirst _ ih =>
    obtain ⟨t, ht, hvalue⟩ :=
      exists_denotes_round hlib (Fragment.denotes_iff.mp ha) le_rfl hx hfirst
    exact ih ht hvalue

/-- **All forms of a rounding call mean the same.** Let the number be a text of the recorded
precedence or more, with the value `x`, and the digit count a text with the value `d`. Written out
with or without that text, or computed from it, the call is a text of exactly its recorded
precedence, with the value `R (x * 10 ^ d) / 10 ^ d`; and so are any further calls around it. -/
theorem round_forms (hlib : Library names env R) {digits : Fragment} {m : ℤ} {b : SourceTree}
    (ha : Reads number.text level a) (hle : number.precedence ≤ level) (hb : Reads digits.text m b)
    (hx : a.eval env = some x) (hd : b.eval env = some (d : ℚ)) :
    ∀ call ∈ [round names number none (.literal d), round names number (some digits) (.literal d),
        round names number (some digits) .dynamic],
      (∃ t, call.Denotes t ∧ t.eval env = some (R (x * 10 ^ d) / 10 ^ d)) ∧
      ∀ (outer : List (Option Fragment × DigitCount)) (ds : List ℤ),
        List.Forall₂ (fun c e => Counts env c.1 c.2 e) outer ds →
        ∃ t, (outer.foldl (fun inner c => round names inner c.1 c.2) call).Denotes t ∧
          t.eval env =
            some (ds.foldl (fun y e => R (y * 10 ^ e) / 10 ^ e) (R (x * 10 ^ d) / 10 ^ d)) := by
  have htext : ∀ fragment ∈ some digits, ∃ level tree, Reads fragment.text level tree ∧
      tree.eval env = some (d : ℚ) := by
    rintro _ ⟨⟩
    exact ⟨m, b, hb, hd⟩
  have hcall : ∀ call ∈ [round names number none (.literal d),
      round names number (some digits) (.literal d), round names number (some digits) .dynamic],
      ∃ t, call.Denotes t ∧ t.eval env = some (R (x * 10 ^ d) / 10 ^ d) := by
    simp only [List.mem_cons, List.not_mem_nil, or_false]
    rintro call (rfl | rfl | rfl)
    · exact exists_denotes_round hlib ha hle hx ⟨by rintro _ ⟨⟩, .inl rfl⟩
    · exact exists_denotes_round hlib ha hle hx ⟨htext, .inl rfl⟩
    · exact exists_denotes_round hlib ha hle hx ⟨htext, .inr ⟨rfl, rfl⟩⟩
  intro call hmem
  obtain ⟨t, ht, hvalue⟩ := hcall call hmem
  exact ⟨⟨t, ht, hvalue⟩, fun outer ds houter => exists_denotes_foldl hlib houter ht hvalue⟩

end

/-! ### The library of the default names -/

/-- `Math.round` rounds half up, and `Math.pow` takes whole powers. -/
def mathLibrary (value : String → Option ℚ) : Environment where
  value := value
  function
    | "Math.round", [y] => some ⌊y + 1 / 2⌋
    | "Math.pow", [x, y] => if y.den = 1 then some (x ^ y.num) else none
    | _, _ => none

theorem library_mathLibrary (value : String → Option ℚ) :
    Library {} (mathLibrary value) fun y => ⌊y + 1 / 2⌋ where
  round_name := by decide
  power_name := by decide
  round _ := rfl
  power k := by simp [mathLibrary]

/-- The sum of `a = 1` and `b = 0.005`, rounded to `n - 1` places with `n = 3`. -/
theorem round_forms_sum :
    let env := mathLibrary fun
      | "a" => some 1
      | "b" => some (1 / 200)
      | "n" => some 3
      | _ => none
    let number : Fragment := .binary .plus (.atom "a") (.atom "b")
    let digits : Fragment := .binary .minus (.atom "n") (.atom (toString 1))
    Library {} env (fun y => ⌊y + 1 / 2⌋) ∧
      Reads number.text number.precedence (.binary .plus (.name "a") (.name "b")) ∧
      Reads digits.text digits.precedence (.binary .minus (.name "n") (.numeral ⟨1, 0⟩)) ∧
      (round {} number none (.literal 2)).text = "Math.round((a + b) * 100) / 100" ∧
      (∃ t, (round {} number none (.literal 2)).Denotes t ∧ t.eval env = some (101 / 100)) ∧
      ∃ t, (round {} number (some digits) .dynamic).Denotes t ∧ t.eval env = some (101 / 100) := by
  intro env number digits
  have hlib : Library {} env fun y => ⌊y + 1 / 2⌋ := library_mathLibrary _
  have ha : Reads number.text number.precedence (.binary .plus (.name "a") (.name "b")) :=
    reads_binary rfl (reads_name (by decide)) le_rfl (reads_name (by decide)) le_rfl
  have hb : Reads digits.text digits.precedence (.binary .minus (.name "n") (.numeral ⟨1, 0⟩)) :=
    reads_binary rfl (reads_name (by decide)) le_rfl (reads_toString 1) le_rfl
  have hx : (SourceTree.binary .plus (.name "a") (.name "b")).eval env = some (201 / 200) := by
    decide +kernel
  have hd : (SourceTree.binary .minus (.name "n") (.numeral ⟨1, 0⟩)).eval env =
      some ((2 : ℤ) : ℚ) := by
    decide +kernel
  have hforms := round_forms hlib ha le_rfl hb hx hd
  have hvalue :
      ((⌊(201 / 200 : ℚ) * 10 ^ (2 : ℤ) + 1 / 2⌋ : ℤ) : ℚ) / 10 ^ (2 : ℤ) = 101 / 100 := by
    decide +kernel
  rw [hvalue] at hforms
  exact ⟨hlib, ha, hb, by decide, (hforms _ (by simp)).1, (hforms _ (by simp)).1⟩

end DecimalRounding.JavaScript
