import DecimalRounding.Proofs.Multiples

/-!
# Rounding an integer again and again

Rounding an integer gives a multiple of the step and loses none of the powers of ten that divide the
integer already (`tenPow_dvd_of_roundInt`): a step that is no coarser than one of those leaves the
integer as it is, and a coarser one makes it a multiple of the coarser step. Over a run of digit
counts, where a failing step changes nothing, the value therefore stays a multiple of all steps that
have succeeded, and every step that is no coarser than one of them succeeds and changes nothing
(`Round.run_absorbs_finer`).
-/

namespace DecimalRounding

variable {n k : ℤ} {p : ℕ}

/-! ### One step -/

/-- A multiple of the step is rounded to itself. -/
theorem roundInt_eq_self (hn : int64? n = some n) (hdvd : 10 ^ p ∣ n) :
    roundInt n (-p) = .ok (.int n) := by
  rw [roundInt_eq_ok_iff hn, nearestMultiple_eq_self_iff.mpr hdvd]
  exact ⟨hn, rfl⟩

/-- The result is a multiple of the step, and of every power of ten that divides the integer. -/
theorem tenPow_dvd_of_roundInt (hn : int64? n = some n) (hk : roundInt n (-p) = .ok (.int k)) :
    (10 : ℤ) ^ p ∣ k ∧ ∀ q, (10 : ℤ) ^ q ∣ n → (10 : ℤ) ^ q ∣ k := by
  have hstep : (10 : ℤ) ^ p ∣ k := by
    rw [eq_nearestMultiple_of_roundInt hn hk]
    exact Dvd.intro_left _ rfl
  refine ⟨hstep, fun q hq => ?_⟩
  rcases Nat.le_total q p with hle | hle
  · exact (pow_dvd_pow 10 hle).trans hstep
  · have hself := roundInt_eq_self hn ((pow_dvd_pow 10 hle).trans hq)
    obtain rfl : n = k := by simpa using hself.symm.trans hk
    exact hq

namespace Round

/-- Evaluating a call on an integer and a digit count `d ≤ 0`: either it fails, or the value is a
multiple of `10 ^ |d|` and of every power of ten that divides the integer. The value that a run goes
on with is an integer in both cases. -/
theorem evaluate_int_cases {d : ℤ} (hn : int64? n = some n) (hd : d ≤ 0) :
    ∃ k, next (.int n) (evaluate [.int n, .int d]) = .int k ∧ int64? k = some k ∧
      (∀ q, (10 : ℤ) ^ q ∣ n → (10 : ℤ) ^ q ∣ k) ∧
      ∀ x, evaluate [.int n, .int d] = .ok x → (10 : ℤ) ^ d.natAbs ∣ k := by
  obtain ⟨p, rfl⟩ : ∃ p : ℕ, d = -p := ⟨d.natAbs, by omega⟩
  rw [evaluate_digits, Number.round]
  cases hround : roundInt n (-p) with
  | error reason => exact ⟨n, rfl, hn, fun q hq => hq, by rintro _ ⟨⟩⟩
  | ok x =>
    obtain ⟨hk, rfl⟩ := (roundInt_eq_ok_iff hn).mp hround
    obtain ⟨hstep, hkeep⟩ := tenPow_dvd_of_roundInt hn hround
    refine ⟨_, rfl, hk, hkeep, fun _ _ => ?_⟩
    rwa [Int.natAbs_neg, Int.natAbs_natCast]

/-- A digit count whose step divides the integer changes nothing. -/
theorem evaluate_int_eq_self {d : ℤ} (hn : int64? n = some n) (hd : d ≤ 0)
    (hdvd : (10 : ℤ) ^ d.natAbs ∣ n) : evaluate [.int n, .int d] = .ok (.int n) := by
  obtain ⟨p, rfl⟩ : ∃ p : ℕ, d = -p := ⟨d.natAbs, by omega⟩
  rw [Int.natAbs_neg, Int.natAbs_natCast] at hdvd
  rw [evaluate_digits, Number.round, roundInt_eq_self hn hdvd]
  rfl

/-! ### Runs -/

/-- The value that a run has come to after its first `i` steps. -/
def valueAfter (start : Number) (digits : List Number) (i : ℕ) : Number :=
  ((run start digits).take i).foldl next start

variable {start digits : Number} {rest : List Number} {i : ℕ}

theorem valueAfter_cons_succ :
    valueAfter start (digits :: rest) (i + 1) =
      valueAfter (next start (evaluate [start, digits])) rest i := rfl

/-- Every step of a run evaluates the value that the steps before it have come to. -/
theorem getElem?_run {all : List Number} (h : all[i]? = some digits) :
    (run start all)[i]? = some (evaluate [valueAfter start all i, digits]) := by
  induction all generalizing start i with
  | nil => simp at h
  | cons first rest ih =>
    cases i with
    | zero =>
      obtain rfl : first = digits := by simpa using h
      rfl
    | succ i => exact ih (by simpa using h)

theorem valueAfter_succ {result : Except CallError Number} {all : List Number}
    (h : (run start all)[i]? = some result) :
    valueAfter start all (i + 1) = next (valueAfter start all i) result := by
  rw [valueAfter, List.take_add_one, h, List.foldl_append]
  rfl

/-- What a run from an integer keeps: the value is an integer, and a multiple of the powers of ten
that divided it at the start and of the steps that have succeeded since. -/
theorem exists_valueAfter {counts : List ℤ} (hn : int64? n = some n) (hcounts : ∀ d ∈ counts, d ≤ 0)
    (i : ℕ) :
    ∃ k, valueAfter (.int n) (counts.map .int) i = .int k ∧ int64? k = some k ∧
      (∀ q, (10 : ℤ) ^ q ∣ n → (10 : ℤ) ^ q ∣ k) ∧
      ∀ j < i, ∀ d, counts[j]? = some d →
        (∃ x, (run (.int n) (counts.map .int))[j]? = some (.ok x)) → (10 : ℤ) ^ d.natAbs ∣ k := by
  induction counts generalizing n i with
  | nil => exact ⟨n, by simp [valueAfter, run], hn, fun q hq => hq, by simp⟩
  | cons first rest ih =>
    cases i with
    | zero => exact ⟨n, rfl, hn, fun q hq => hq, by omega⟩
    | succ i =>
      obtain ⟨m, hnext, hm, hkeep, hstep⟩ := evaluate_int_cases hn (hcounts first (by simp))
      obtain ⟨k, hvalue, hk, hkeep', hsteps⟩ := ih hm (fun d hd => hcounts d (by simp [hd])) i
      refine ⟨k, ?_, hk, fun q hq => hkeep' q (hkeep q hq), ?_⟩
      · rw [List.map_cons, valueAfter_cons_succ, hnext, hvalue]
      · rintro (_ | j) hj d hd ⟨x, hx⟩
        · obtain rfl : first = d := by simpa using hd
          exact hkeep' _ (hstep x (by simpa [run] using hx))
        · refine hsteps j (by omega) d (by simpa using hd) ⟨x, ?_⟩
          simpa [run, hnext] using hx

/-- **Coarser rounding absorbs finer rounding.** Let a 64-bit integer be rounded to any digit counts
`d ≤ 0` in turn, where a step that fails changes nothing. After every number `i` of steps the value
is an integer `k`, and a multiple of `10 ^ |d|` for every `d` of an earlier step `j` that succeeded;
and if the next step is no coarser than such a step, it succeeds and leaves `k` as it is. -/
theorem run_absorbs_finer {counts : List ℤ} (hn : int64? n = some n)
    (hcounts : ∀ d ∈ counts, d ≤ 0) (i : ℕ) :
    ∃ k : ℤ, valueAfter (.int n) (counts.map .int) i = .int k ∧
      ∀ j < i, ∀ d, counts[j]? = some d →
        (∃ x, (run (.int n) (counts.map .int))[j]? = some (.ok x)) →
        (10 : ℤ) ^ d.natAbs ∣ k ∧
          ∀ e, counts[i]? = some e → e.natAbs ≤ d.natAbs →
            (run (.int n) (counts.map .int))[i]? = some (.ok (.int k)) ∧
              valueAfter (.int n) (counts.map .int) (i + 1) = .int k := by
  obtain ⟨k, hvalue, hk, -, hsteps⟩ := exists_valueAfter hn hcounts i
  refine ⟨k, hvalue, fun j hj d hd hok => ⟨hsteps j hj d hd hok, fun e he hle => ?_⟩⟩
  have hdvd : (10 : ℤ) ^ e.natAbs ∣ k := (pow_dvd_pow 10 hle).trans (hsteps j hj d hd hok)
  have hresult : (run (.int n) (counts.map .int))[i]? = some (.ok (.int k)) := by
    rw [getElem?_run (by rw [List.getElem?_map, he]; rfl), hvalue,
      evaluate_int_eq_self hk (hcounts e (List.mem_of_getElem? he)) hdvd]
  exact ⟨hresult, by rw [valueAfter_succ hresult]; rfl⟩

/-- From the largest 64-bit integer, tens overflow and change nothing; after the hundreds that
follow, tens succeed and change nothing. -/
theorem run_absorbs_finer_after_overflow :
    let n : ℤ := 9223372036854775807
    let counts : List ℤ := [-1, -2, -1]
    let results := run (.int n) (counts.map .int)
    int64? n = some n ∧ (∀ d ∈ counts, d ≤ 0) ∧ (results[0]?.bind (·.toOption)) = none ∧
      results[1]? = some (.ok (.int 9223372036854775800)) ∧
      results[2]? = some (.ok (.int 9223372036854775800)) := by
  intro n counts results
  have hn : int64? n = some n := by decide
  have hcounts : ∀ d ∈ counts, d ≤ 0 := by decide
  have hfirst : results[1]? = some (.ok (.int 9223372036854775800)) := by rfl
  obtain ⟨k, hvalue, habsorbs⟩ := run_absorbs_finer hn hcounts 2
  have hk : valueAfter (.int n) (counts.map .int) 2 = .int 9223372036854775800 := by rfl
  obtain rfl : 9223372036854775800 = k := Number.int.inj (hk.symm.trans hvalue)
  have hlast := ((habsorbs 1 (by decide) (-2) rfl ⟨_, hfirst⟩).2 (-1) rfl (by decide)).1
  exact ⟨hn, hcounts, rfl, hfirst, hlast⟩

end Round

end DecimalRounding
