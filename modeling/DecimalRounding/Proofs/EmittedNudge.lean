import DecimalRounding.Proofs.Nudge
import DecimalRounding.Proofs.PythonValue

/-!
# What the emitted outward nudge computes

The nudge that is emitted for Python adds `epsilon` to the significand whatever its sign. For a
positive number this is the library's own nudge. For a negative one it leads the other way, towards
zero, by the distance `2⁻⁵²` of significands, and without rounding (`Python.evalText_nudgedText`).
-/

namespace DecimalRounding

namespace Binary64

variable {r f : ℕ} {E : ℤ}

/-! ### Significand plus epsilon, times a power of two -/

theorem epsilon_eq_twoPow : epsilon = twoPow (-52) := by
  rw [twoPow_eq (by omega) (by omega)]
  rfl

/-- The numbers from `2⁻¹⁰²²` to `2¹⁰²³` by magnitude, split. -/
theorem exists_split_of_abs_value {v : Binary64} (hlo : 2 ^ (-1022 : ℤ) ≤ |v.value|)
    (hhi : |v.value| < 2 ^ (1023 : ℤ)) :
    ∃ s r, ∃ h : r < overflowRank, v = finite s r h ∧ 2 ^ 52 ≤ r ∧ r < 2046 * 2 ^ 52 ∧
      ∃ f E, f < 2 ^ 52 ∧ -1021 ≤ E ∧ E ≤ 1023 ∧ v.split = ⟨ofRank s (halfRank + f), E⟩ ∧
        magnitude r = magnitude (halfRank + f) * 2 ^ E := by
  cases v with
  | nan | infinity =>
    simp only [value, abs_zero] at hlo
    exact absurd hlo (not_le.mpr (zpow_pos two_pos _))
  | finite s r h =>
    rw [abs_value_finite] at hlo hhi
    have hr : 2 ^ 52 ≤ r := by
      rwa [← magnitude_strictMono.le_iff_le, magnitude_normal]
    have hlt : r < 2046 * 2 ^ 52 := by
      change r < twoPowRank 1023
      rwa [← magnitude_strictMono.lt_iff_lt, magnitude_twoPowRank (by omega)]
    obtain ⟨f, E, hf, -, -, hsplit, hmagnitude⟩ := exists_split (s := s) (h := h) (by omega)
    have hE : E = (r / 2 ^ 52 : ℕ) - 1022 := by
      rw [split_normal hr] at hsplit
      exact (congrArg Split.exponent hsplit).symm
    exact ⟨s, r, h, rfl, hr, hlt, f, E, hf, by omega, by omega, hsplit, hmagnitude⟩

/-- A positive significand plus `epsilon`, scaled in one step, is the nudge. -/
theorem significand_add_epsilon_mul {h : r < overflowRank} (hf : f < 2 ^ 52) (h₁ : -1022 ≤ E)
    (h₂ : E ≤ 1023) (hsplit : (finite false r h).split = ⟨ofRank false (halfRank + f), E⟩) :
    (ofRank false (halfRank + f) + epsilon) * twoPow E = (finite false r h).nudge := by
  have hlt : halfRank + f < overflowRank := by rw [overflowRank, halfRank]; omega
  have hlt' : nudgeRank (halfRank + f) < overflowRank := by
    have hle := nudgeRank_le (halfRank + f)
    rw [halfRank] at hle ⊢
    rw [overflowRank]
    omega
  have hsum : ofRank false (halfRank + f) + epsilon = ofRank false (nudgeRank (halfRank + f)) := by
    rw [← significand_add hf, ofRank_of_lt hlt]
    rfl
  rw [hsum, ofRank_of_lt hlt', finite_mul_twoPow (by omega) h₂,
    nudge_finite hf (by omega) (by omega) hsplit]

theorem natCast_sub_two (f : ℕ) : ((2 ^ 52 + f - 2 : ℕ) : ℚ) = 2 ^ 52 + f - 2 := by
  rw [Nat.cast_sub (by omega), Nat.cast_add, Nat.cast_pow, Nat.cast_ofNat]

/-- A negative significand plus `epsilon` is two less in units of the last place of significands,
exactly: below `1/2` the numbers lie twice as close. -/
theorem exists_significand_add_epsilon (hf : f < 2 ^ 52) :
    ∃ q, ∃ hq : q < overflowRank, magnitude q = (2 ^ 52 + f - 2) * 2 ^ (-53 : ℤ) ∧
      ofRank true (halfRank + f) + epsilon = finite true q hq := by
  have hlt : halfRank + f < overflowRank := by rw [overflowRank, halfRank]; omega
  have hless : twoPowRank (-52) < halfRank + f := by rw [twoPowRank, halfRank]; omega
  have hdiff : magnitude (halfRank + f) - magnitude (twoPowRank (-52)) =
      (2 ^ 52 + f - 2) * 2 ^ (-53 : ℤ) := by
    rw [magnitude_significand hf.le, magnitude_twoPowRank (by omega),
      show (-52 : ℤ) = 1 + -53 by norm_num, zpow_add₀ two_ne_zero]
    ring
  obtain ⟨q, hq⟩ := exists_magnitude_eq (m := 2 ^ 52 + f - 2) (by omega) (k := -53) (by omega)
  rw [natCast_sub_two] at hq
  have hqlt : q < halfRank + f := by
    rw [← magnitude_strictMono.lt_iff_lt, hq, ← hdiff]
    exact sub_lt_self _ (magnitude_pos (by rw [twoPowRank]; omega))
  refine ⟨q, hqlt.trans hlt, hq, ?_⟩
  have hepsilon : epsilon = finite (!true) (twoPowRank (-52)) (twoPowRank_lt (by omega)) :=
    ofRank_of_lt _
  rw [hepsilon, ofRank_of_lt hlt, finite_add_finite_not hless, hdiff, ← hq, nearest_magnitude,
    ofRank_of_lt (hqlt.trans hlt)]

/-- A negative significand plus `epsilon`, scaled, is the number less in magnitude, exactly. -/
theorem exists_significand_add_epsilon_mul (hf : f < 2 ^ 52) (h₁ : -1021 ≤ E) (h₂ : E ≤ 1023) :
    ∃ q, ∃ hq : q < overflowRank,
      magnitude q = magnitude (halfRank + f) * 2 ^ E - 2 ^ (E - 52) ∧
      (ofRank true (halfRank + f) + epsilon) * twoPow E = finite true q hq := by
  obtain ⟨p, hp, hsum, hadd⟩ := exists_significand_add_epsilon hf
  obtain ⟨q, hq⟩ := exists_magnitude_eq (m := 2 ^ 52 + f - 2) (by omega) (k := E - 53) (by omega)
  have hscale : (2 : ℚ) ^ (E - 53) = 2 ^ (-53 : ℤ) * 2 ^ E := by
    rw [← zpow_add₀ two_ne_zero, neg_add_eq_sub]
  have hproduct : magnitude p * 2 ^ E = magnitude q := by
    rw [hsum, hq, hscale, natCast_sub_two, mul_assoc]
  have hqlt : q < overflowRank := by
    refine lt_of_lt_of_le ?_ (twoPowRank_lt (n := 1023) le_rfl).le
    rw [← magnitude_strictMono.lt_iff_lt, magnitude_twoPowRank (by omega), hq]
    calc ((2 ^ 52 + f - 2 : ℕ) : ℚ) * 2 ^ (E - 53) < 2 ^ 53 * 2 ^ (E - 53) := by
          gcongr
          exact_mod_cast (by omega : 2 ^ 52 + f - 2 < 2 ^ 53)
      _ = 2 ^ E := by
          rw [← zpow_natCast, ← zpow_add₀ two_ne_zero]
          norm_num
      _ ≤ 2 ^ (1023 : ℤ) := zpow_le_zpow_right₀ one_le_two h₂
  refine ⟨q, hqlt, ?_, ?_⟩
  · rw [← hproduct, hsum, magnitude_significand hf.le, show E - 52 = 1 + (-53 + E) by ring,
      zpow_add₀ two_ne_zero, zpow_add₀ two_ne_zero]
    ring
  · rw [hadd, finite_mul_twoPow (by omega) h₂, hproduct, nearest_magnitude, ofRank_of_lt hqlt]

end Binary64

namespace Python

open Binary64

/-! ### The values of the parts -/

/-- What the emitted nudge uses of the standard library. -/
structure Library (env : Environment) : Prop where
  /-- The constant is the distance from one to the next larger number. -/
  epsilon : ∃ ε : Binary64, env.value "sys.float_info.epsilon" = some (.float ε) ∧ ε.isFinite ∧
    ε.value = 2 ^ (-52 : ℤ)
  /-- A number that is not zero is decomposed exactly. -/
  frexp : ∀ (x : Value) (v : Binary64), x.toFloat? = some v → v.isFinite → v.value ≠ 0 →
    ∃ parts, v.IsSplit parts ∧ env.function "math.frexp" [x] =
      some (.pair (.float parts.significand) (.int parts.exponent))
  /-- Negative powers of two are exact in the range of normal numbers. -/
  power : ∀ e : ℤ, -1022 ≤ e → e < 0 → ∃ p : Binary64,
    env.power (.ofInt 2) (.ofInt e) = some p ∧ p.isFinite ∧ p.value = 2 ^ e

variable {env : Environment} {t : Tree} {x : Value} {v : Binary64}

theorem Library.value_epsilon (hlib : Library env) :
    env.value "sys.float_info.epsilon" = some (.float Binary64.epsilon) := by
  obtain ⟨ε, henv, hfinite, hvalue⟩ := hlib.epsilon
  rw [henv, eq_twoPow (by omega) (by omega) hfinite hvalue, epsilon_eq_twoPow]

theorem toFloat?_int {n : ℤ} (h : n.natAbs ≤ 2 ^ 53) :
    (Value.int n).toFloat? = some (ofInt n) := by
  rw [Value.toFloat?, if_pos (isFinite_ofInt h)]

/-- A power of two is an integer or a binary64 number, and stands for the same factor. -/
theorem Library.exists_powerValue_two (hlib : Library env) {e : ℤ} (h₁ : -1022 ≤ e)
    (h₂ : e ≤ 1023) :
    ∃ y, powerValue env (.int 2) (.int e) = some y ∧ y.toFloat? = some (twoPow e) := by
  rcases lt_or_ge e 0 with hneg | hpos
  · obtain ⟨p, hp, hfinite, hvalue⟩ := hlib.power e h₁ hneg
    refine ⟨.float p, ?_, congrArg some (eq_twoPow h₁ h₂ hfinite hvalue)⟩
    rw [powerValue, if_neg (not_le.mpr hneg), floatValue, toFloat?_int (by omega),
      toFloat?_int (by omega)]
    simp [hp]
  · obtain ⟨k, rfl⟩ := Int.eq_ofNat_of_zero_le hpos
    have hofInt : ofInt ((2 ^ k : ℕ) : ℤ) = twoPow k := by
      rw [twoPow_eq h₁ h₂]
      exact ofInt_natCast (by rw [magnitude_twoPowRank h₁, zpow_natCast]; norm_cast)
    refine ⟨.int ((2 ^ k : ℕ) : ℤ), ?_, ?_⟩
    · rw [powerValue, if_pos hpos]
      simp
    · rw [Value.toFloat?, hofInt, if_pos (isFinite_twoPow h₁ h₂)]

/-- What the emitted nudge evaluates to. -/
theorem eval_nudgedTree (hlib : Library env) (hx : t.eval env = some x)
    (hv : x.toFloat? = some v) (hlo : 2 ^ (-1022 : ℤ) ≤ |v.value|)
    (hhi : |v.value| < 2 ^ (1023 : ℤ)) :
    (nudgedTree t).eval env =
      some (.float ((v.split.significand + Binary64.epsilon) * twoPow v.split.exponent)) := by
  obtain ⟨s, r, h, rfl, -, -, f, E, hf, hE₁, hE₂, hsplit, -⟩ := exists_split_of_abs_value hlo hhi
  have hne : (finite s r h).value ≠ 0 := by
    intro hzero
    rw [hzero, abs_zero] at hlo
    exact absurd hlo (not_le.mpr (zpow_pos two_pos _))
  obtain ⟨parts, hparts, hfrexp⟩ := hlib.frexp x _ hv rfl hne
  obtain rfl := hparts.unique (isSplit_split hne)
  rw [hsplit] at hfrexp ⊢
  obtain ⟨y, hpower, hy⟩ := hlib.exists_powerValue_two (e := E) (by omega) hE₂
  have hcall := (Tree.eval_call_singleton "math.frexp" hx).trans hfrexp
  have hsignificand := Tree.eval_item hcall (show (Tree.integer 0).eval env = _ from rfl)
  have hexponent := Tree.eval_item hcall (show (Tree.integer 1).eval env = _ from rfl)
  have hsum := Tree.eval_binary .plus hsignificand
    (show (Tree.name "sys.float_info.epsilon").eval env = _ from hlib.value_epsilon)
  have hfactor := Tree.eval_power (show (Tree.integer 2).eval env = _ from rfl) hexponent
  exact (Tree.eval_binary .times hsum (hfactor.trans hpower)).trans (binaryValue_times_float hy)

/-- **The emitted nudge goes up.** Let the number be any expression with a value that is `v` in
binary64, from `2⁻¹⁰²²` to `2¹⁰²³` by magnitude. The emitted text has one value, and this is the
nudge of `v` exactly if `v` is positive. A negative `v` is moved up by two units in the last place
of its significand, without rounding, although its nudge lies below it. -/
theorem evalText_nudgedText (hlib : Library env) {number : Fragment}
    (hx : evalText env number.text = some x) (hv : x.toFloat? = some v)
    (hlo : 2 ^ (-1022 : ℤ) ≤ |v.value|) (hhi : |v.value| < 2 ^ (1023 : ℤ)) :
    ∃ w, evalText env (nudgedText {} number) = some (.float w) ∧ (w = v.nudge ↔ 0 < v.value) ∧
      (v.value < 0 → w.isFinite ∧ w.value = v.value + 2 ^ (v.split.exponent - 52) ∧
        v.nudge.isFinite ∧ v.nudge.value < v.value) := by
  obtain ⟨t, hread, ht⟩ := Option.bind_eq_some_iff.mp hx
  have heval : evalText env (nudgedText {} number) =
      some (.float ((v.split.significand + Binary64.epsilon) * twoPow v.split.exponent)) := by
    rw [evalText, read_nudgedText hread, Option.bind_some, eval_nudgedTree hlib ht hv hlo hhi]
  refine ⟨_, heval, ?_⟩
  obtain ⟨s, r, h, rfl, hr, hr', f, E, hf, hE₁, hE₂, hsplit, hmagnitude⟩ :=
    exists_split_of_abs_value hlo hhi
  have hpos : 0 < magnitude r := magnitude_pos (by omega)
  rw [hsplit]
  cases s with
  | false =>
    have hvalue : 0 < (finite false r h).value := by rwa [value, signFactor_false, one_mul]
    have hnudge := significand_add_epsilon_mul hf ((by decide : (-1022 : ℤ) ≤ -1021).trans hE₁)
      hE₂ hsplit
    exact ⟨iff_of_true hnudge hvalue, fun hneg => absurd hneg hvalue.not_gt⟩
  | true =>
    have hvalue : (finite true r h).value < 0 := by
      rwa [value, signFactor_true, neg_one_mul, neg_lt_zero]
    obtain ⟨q, hq, hinward, hproduct⟩ := exists_significand_add_epsilon_mul hf hE₁ hE₂
    have hlt : nudgeRank r < overflowRank := by
      have hle := nudgeRank_le r
      rw [overflowRank]
      omega
    have hnudge : (finite true r h).nudge = finite true (nudgeRank r) hlt := by
      rw [nudge_normal hr, ofRank_of_lt hlt]
    have houtward : (finite true (nudgeRank r) hlt).value < (finite true r h).value := by
      rw [value, value, signFactor_true, neg_one_mul, neg_one_mul, neg_lt_neg_iff]
      exact magnitude_strictMono (lt_nudgeRank r)
    have hupward : (finite true q hq).value = (finite true r h).value + 2 ^ (E - 52) := by
      rw [value, value, signFactor_true, hinward, hmagnitude]
      ring
    have hgap : (0 : ℚ) < 2 ^ (E - 52) := zpow_pos two_pos _
    rw [hproduct, hnudge]
    refine ⟨iff_of_false ?_ hvalue.not_gt, fun _ => ⟨rfl, hupward, rfl, houtward⟩⟩
    intro heq
    rw [heq] at hupward
    linarith

/-! ### The standard library -/

/-- The functions and constants that the emitted nudge uses, and variables as given. -/
def standardLibrary (value : String → Option Value) : Environment where
  value
    | "sys.float_info.epsilon" => some (.float .epsilon)
    | name => value name
  function
    | "math.frexp", [x] => x.toFloat?.map fun v =>
      .pair (.float v.split.significand) (.int v.split.exponent)
    | _, _ => none
  remainder _ _ := none
  power x y := if x = ofInt 2 then some (twoPow y.value.num) else none

theorem library_standardLibrary (value : String → Option Value) :
    Library (standardLibrary value) where
  epsilon := by
    refine ⟨.epsilon, rfl, rfl, ?_⟩
    rw [epsilon_eq_twoPow, value_twoPow (by omega) (by omega)]
  frexp x v hv _ hne := ⟨v.split, isSplit_split hne, by simp [standardLibrary, hv]⟩
  power e h₁ h₂ := by
    refine ⟨twoPow e, ?_, isFinite_twoPow h₁ (by omega), value_twoPow h₁ (by omega)⟩
    simp only [standardLibrary, if_pos]
    rw [value_ofInt (by omega), Rat.num_intCast]

/-- The tie `1.005` is nudged as the library nudges it. -/
theorem evalText_nudgedText_tie :
    let env := standardLibrary fun _ => none
    let number : Fragment := .atom "1.005"
    let v := ofRank false 4607204936798154260
    Library env ∧ evalText env number.text = some (.float v) ∧
      (Value.float v).toFloat? = some v ∧ 2 ^ (-1022 : ℤ) ≤ |v.value| ∧
      |v.value| < 2 ^ (1023 : ℤ) ∧ 0 < v.value ∧
      evalText env (nudgedText {} number) = some (.float v.nudge) := by
  intro env number v
  have hlib : Library env := library_standardLibrary _
  have hx : evalText env number.text = some (.float v) := by decide +kernel
  have hlo : 2 ^ (-1022 : ℤ) ≤ |v.value| := by decide +kernel
  have hhi : |v.value| < 2 ^ (1023 : ℤ) := by decide +kernel
  have hpos : 0 < v.value := by decide +kernel
  obtain ⟨w, hw, hnudge, -⟩ := evalText_nudgedText hlib hx rfl hlo hhi
  exact ⟨hlib, hx, rfl, hlo, hhi, hpos, by rw [hw, hnudge.mpr hpos]⟩

/-- The tie `-1.005` is moved the other way, four places off from its nudge. -/
theorem evalText_nudgedText_ne_nudge :
    let env := standardLibrary fun _ => none
    let number : Fragment := ⟨"-1.005", Operator.negative.precedence⟩
    let v := ofRank true 4607204936798154260
    Library env ∧ evalText env number.text = some (.float v) ∧
      2 ^ (-1022 : ℤ) ≤ |v.value| ∧ |v.value| < 2 ^ (1023 : ℤ) ∧
      v.nudge = ofRank true (4607204936798154260 + 2) ∧
      evalText env (nudgedText {} number) = some (.float (ofRank true (4607204936798154260 - 2))) ∧
      evalText env (nudgedText {} number) ≠ some (.float v.nudge) := by
  refine ⟨library_standardLibrary _, ?_⟩
  decide +kernel

end Python

end DecimalRounding
