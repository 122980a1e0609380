import DecimalRounding.Decimal.Shortest
import DecimalRounding.Proofs.Value

/-!
# The number of places of the shortest decimal

A decimal *reads* as a rank when the rank is the nearest one to it. The search for the shortest
decimal looks at two points of every grid only; since reading is monotone, they are enough
(`onGrid?_isSome`), and no other point of the grid is closer (`onGrid?_closest`). It ends on the
coarsest grid with a point that reads back (`exists_exponent`). So the number of places that the
search ends with is the least number of places of any decimal that reads back
(`decimalPlaces_le_iff`), and never more than `maxPlaces` (`reads_maxPlaces`).
-/

namespace DecimalRounding

open Binary64

namespace Decimal

/-- The value of a decimal. -/
def value (d : Decimal) : ℚ := d.numerator / 10 ^ d.places

/-- Some decimal of `places` places reads as `rank`. -/
def Reads (rank places : ℕ) : Prop := ∃ n : ℕ, nearest (n / 10 ^ places) = rank

variable {r k l : ℕ}

theorem rank_eq_nearest (d : Decimal) : d.rank = nearest (d.numerator / 10 ^ d.places) := by
  have hU := unitsPerOne_pos.ne'
  rw [rank, nearestRank_eq_nearest (Nat.pow_pos (by omega)), Nat.cast_mul, mul_div_mul_right _ _ hU,
    Nat.cast_pow, Nat.cast_ofNat]

theorem Reads.of_rank {d : Decimal} (h : d.rank = r) : Reads r d.places :=
  ⟨d.numerator, by rw [← h, rank_eq_nearest]⟩

/-- A decimal has as many places more as it is given zeros. -/
theorem Reads.mono (h : Reads r k) (hkl : k ≤ l) : Reads r l := by
  obtain ⟨n, rfl⟩ := h
  obtain ⟨m, rfl⟩ := Nat.exists_eq_add_of_le hkl
  refine ⟨n * 10 ^ m, ?_⟩
  rw [pow_add, Nat.cast_mul, Nat.cast_pow, Nat.cast_ofNat,
    mul_div_mul_right _ _ (pow_ne_zero m (by norm_num))]

/-! ### Two points of a grid are enough -/

/-- The magnitude of a rank on the way from the grid point below it to the next one. -/
private theorem magnitude_eq_grid_add (r k : ℕ) {step : ℕ} (hstep : 0 < step) :
    magnitude r = ((units r * 10 ^ k / (step * unitsPerOne) * step : ℕ) : ℚ) / 10 ^ k +
      (units r * 10 ^ k % (step * unitsPerOne) : ℕ) / (step * unitsPerOne : ℕ) *
        (step / 10 ^ k) := by
  have hU := unitsPerOne_pos.ne'
  have hstep' : (step : ℚ) ≠ 0 := by exact_mod_cast hstep.ne'
  have hsplit : (units r * 10 ^ k : ℚ) = step * unitsPerOne *
      (units r * 10 ^ k / (step * unitsPerOne) : ℕ) +
        (units r * 10 ^ k % (step * unitsPerOne) : ℕ) := by
    exact_mod_cast (Nat.div_add_mod (units r * 10 ^ k) (step * unitsPerOne)).symm
  have hmag : magnitude r = units r * 10 ^ k / (unitsPerOne * 10 ^ k) := by
    rw [magnitude, mul_div_mul_right _ _ (by positivity)]
  rw [hmag, hsplit]
  push_cast
  field_simp

/-- The magnitude of a rank lies between the two grid points that the search looks at. -/
private theorem grid_bracket {step : ℕ} (hstep : 0 < step) :
    ((units r * 10 ^ k / (step * unitsPerOne) * step : ℕ) : ℚ) / 10 ^ k ≤ magnitude r ∧
      magnitude r ≤ (((units r * 10 ^ k / (step * unitsPerOne) + 1) * step : ℕ) : ℚ) / 10 ^ k := by
  have hU : 0 < unitsPerOne := by exact_mod_cast unitsPerOne_pos
  have hrem : ((units r * 10 ^ k % (step * unitsPerOne) : ℕ) : ℚ) / (step * unitsPerOne : ℕ) ≤ 1 :=
    div_le_one_of_le₀ (by exact_mod_cast (Nat.mod_lt _ (Nat.mul_pos hstep hU)).le)
      (Nat.cast_nonneg _)
  have hcell : (0 : ℚ) ≤ step / 10 ^ k := by positivity
  rw [magnitude_eq_grid_add r k hstep, Nat.add_one_mul, Nat.cast_add, add_div]
  exact ⟨le_add_of_nonneg_right (by positivity), by gcongr; exact mul_le_of_le_one_left hcell hrem⟩

/-- The remainder tells the side of the middle of the two points. -/
private theorem two_mul_magnitude_lt_iff {step : ℕ} (hstep : 0 < step) :
    2 * magnitude r < ((units r * 10 ^ k / (step * unitsPerOne) * step : ℕ) : ℚ) / 10 ^ k +
        (((units r * 10 ^ k / (step * unitsPerOne) + 1) * step : ℕ) : ℚ) / 10 ^ k ↔
      2 * (units r * 10 ^ k % (step * unitsPerOne)) < step * unitsPerOne := by
  have hU : 0 < unitsPerOne := by exact_mod_cast unitsPerOne_pos
  have hcell : (0 : ℚ) < (step * unitsPerOne : ℕ) := by exact_mod_cast Nat.mul_pos hstep hU
  have hpos : (0 : ℚ) < step / 10 ^ k := by positivity
  rw [magnitude_eq_grid_add r k hstep, Nat.add_one_mul, Nat.cast_add _ step, add_div, ← add_assoc,
    ← two_mul, mul_add, add_lt_add_iff_left, ← mul_assoc, mul_lt_iff_lt_one_left hpos,
    ← mul_div_assoc, div_lt_one hcell]
  exact_mod_cast Iff.rfl

theorem pick?_eq_some {lower upper d : Decimal} {nearer lowerHit upperHit : Bool}
    (h : pick? lower upper nearer lowerHit upperHit = some d) :
    (lowerHit ∧ d = lower) ∨ (upperHit ∧ d = upper) := by
  cases lowerHit <;> cases upperHit <;> cases nearer <;> simp_all [pick?]

theorem pick?_isSome {lower upper : Decimal} {nearer lowerHit upperHit : Bool}
    (h : lowerHit ∨ upperHit) : (pick? lower upper nearer lowerHit upperHit).isSome := by
  cases lowerHit <;> cases upperHit <;> cases nearer <;> simp_all [pick?]

/-- A point that the search finds is one of the grid, and reads back. -/
theorem onGrid?_spec {step : ℕ} {d : Decimal} (h : onGrid? r step k = some d) :
    d.places = k ∧ d.rank = r ∧ ∃ i, d.numerator = i * step := by
  rw [onGrid?] at h
  rcases pick?_eq_some h with ⟨hit, rfl⟩ | ⟨hit, rfl⟩
  · exact ⟨rfl, beq_iff_eq.mp hit, _, rfl⟩
  · exact ⟨rfl, beq_iff_eq.mp hit, _, rfl⟩

/-- If any point of a grid reads back, so does one of the two that the search looks at: the one
between that point and the magnitude itself. -/
private theorem nearest_grid_eq {step n : ℕ} (hstep : 0 < step)
    (hn : nearest ((n * step : ℕ) / 10 ^ k) = r) :
    (n ≤ units r * 10 ^ k / (step * unitsPerOne) ∧
        nearest ((units r * 10 ^ k / (step * unitsPerOne) * step : ℕ) / 10 ^ k) = r) ∨
      (units r * 10 ^ k / (step * unitsPerOne) + 1 ≤ n ∧
        nearest (((units r * 10 ^ k / (step * unitsPerOne) + 1) * step : ℕ) / 10 ^ k) = r) := by
  obtain ⟨hlo, hhi⟩ := grid_bracket (r := r) (k := k) hstep
  have hbetween : ∀ m l : ℕ, m ≤ l → ((m * step : ℕ) : ℚ) / 10 ^ k ≤ (l * step : ℕ) / 10 ^ k :=
    fun m l hml => by gcongr
  generalize units r * 10 ^ k / (step * unitsPerOne) = i at *
  rcases Nat.lt_or_ge i n with hin | hin
  · exact .inr ⟨hin, nearest_eq_of_le_of_le (magnitude_nonneg r) hhi (hbetween _ _ hin)
      (nearest_magnitude r) hn⟩
  · exact .inl ⟨hin, nearest_eq_of_le_of_le (by positivity) (hbetween _ _ hin) hlo hn
      (nearest_magnitude r)⟩

/-- If any point of a grid reads back, the search finds one. -/
theorem onGrid?_isSome {step n : ℕ} (hstep : 0 < step)
    (h : nearest ((n * step : ℕ) / 10 ^ k) = r) : (onGrid? r step k).isSome := by
  rw [onGrid?]
  refine pick?_isSome ?_
  rw [beq_iff_eq, beq_iff_eq, rank_eq_nearest, rank_eq_nearest]
  exact (nearest_grid_eq hstep h).imp And.right And.right

/-- Of two points that read back, the search takes the nearer one. -/
theorem pick?_closest (distance : Decimal → ℚ) {lower upper d : Decimal}
    {nearer lowerHit upperHit : Bool} (hnear : nearer → distance lower ≤ distance upper)
    (hfar : ¬ nearer → distance upper ≤ distance lower)
    (h : pick? lower upper nearer lowerHit upperHit = some d) :
    (lowerHit → distance d ≤ distance lower) ∧ (upperHit → distance d ≤ distance upper) := by
  cases lowerHit <;> cases upperHit <;> cases nearer <;> simp_all [pick?]

/-- No point of the grid that reads back is closer to the magnitude than the one that the search
finds. -/
theorem onGrid?_closest {step n : ℕ} {d : Decimal} (hstep : 0 < step)
    (hd : onGrid? r step k = some d) (hn : nearest ((n * step : ℕ) / 10 ^ k) = r) :
    |d.value - magnitude r| ≤ |((n * step : ℕ) : ℚ) / 10 ^ k - magnitude r| := by
  obtain ⟨hlo, hhi⟩ := grid_bracket (r := r) (k := k) hstep
  have hmiddle := two_mul_magnitude_lt_iff (r := r) (k := k) hstep
  have hbetween : ∀ m l : ℕ, m ≤ l → ((m * step : ℕ) : ℚ) / 10 ^ k ≤ (l * step : ℕ) / 10 ^ k :=
    fun m l hml => by gcongr
  rw [onGrid?] at hd
  obtain ⟨hlower, hupper⟩ := pick?_closest (fun d => |d.value - magnitude r|)
    (fun hnear => by
      have hlt := hmiddle.mpr (decide_eq_true_iff.mp hnear)
      simp only [value]
      rw [abs_of_nonpos (by linarith), abs_of_nonneg (by linarith)]
      linarith)
    (fun hfar => by
      have hge := not_lt.mp (mt hmiddle.mp (mt decide_eq_true_iff.mpr hfar))
      simp only [value]
      rw [abs_of_nonneg (by linarith), abs_of_nonpos (by linarith)]
      linarith) hd
  rw [beq_iff_eq, rank_eq_nearest] at hlower hupper
  simp only [value] at hlower hupper ⊢
  rcases nearest_grid_eq hstep hn with ⟨hle, hreads⟩ | ⟨hle, hreads⟩
  · have hbelow := hbetween _ _ hle
    refine (hlower hreads).trans ?_
    rw [abs_of_nonpos (by linarith), abs_of_nonpos (by linarith)]
    linarith
  · have habove := hbetween _ _ hle
    refine (hupper hreads).trans ?_
    rw [abs_of_nonneg (by linarith), abs_of_nonneg (by linarith)]
    linarith

/-! ### Grids by exponents -/

/-- The search on the grid of the multiples of `10 ^ exponent`. -/
def atExponent? (rank : ℕ) (exponent : ℤ) : Option Decimal :=
  onGrid? rank (10 ^ exponent.toNat) (-exponent).toNat

/-- The points of the grid. -/
theorem gridPoint_eq (n : ℕ) (j : ℤ) :
    ((n * 10 ^ j.toNat : ℕ) : ℚ) / 10 ^ (-j).toNat = n * 10 ^ j := by
  have hexp : ((j.toNat : ℕ) : ℤ) - (-j).toNat = j := by omega
  rw [Nat.cast_mul, Nat.cast_pow, Nat.cast_ofNat, mul_div_assoc, ← zpow_natCast, ← zpow_natCast,
    ← zpow_sub₀ (by norm_num), hexp]

variable {j : ℤ} {d : Decimal}

theorem atExponent?_natCast (r e : ℕ) : atExponent? r e = onGrid? r (10 ^ e) 0 := by
  rw [atExponent?, Int.toNat_natCast, Int.toNat_eq_zero.mpr (by omega)]

theorem atExponent?_neg_natCast (r k : ℕ) : atExponent? r (-k) = onGrid? r 1 k := by
  rw [atExponent?, neg_neg, Int.toNat_natCast, Int.toNat_eq_zero.mpr (by omega), pow_zero]

theorem atExponent?_isSome {n : ℕ} (h : nearest (n * 10 ^ j) = r) : (atExponent? r j).isSome :=
  onGrid?_isSome (Nat.pow_pos (by omega)) (by rwa [gridPoint_eq])

theorem Reads.atExponent?_isSome (h : Reads r k) : (atExponent? r (-k)).isSome := by
  obtain ⟨n, hn⟩ := h
  exact Decimal.atExponent?_isSome (n := n) (by rwa [zpow_neg, zpow_natCast, ← div_eq_mul_inv])

/-! ### The search as a whole -/

/-- A grid finer than the distance to the rank below has a point that reads back. -/
theorem reads_of_lt_spacing {t k : ℕ} (h : unitsPerOne < spacing t * 10 ^ k) :
    Reads (t + 1) k := by
  have hU := unitsPerOne_pos
  have h10 : (0 : ℚ) < 10 ^ k := by positivity
  have hfine : (1 : ℚ) / 10 ^ k < spacing t / unitsPerOne := by
    rw [div_lt_div_iff₀ h10 hU, one_mul]
    exact_mod_cast h
  have hmono : (spacing t : ℚ) / unitsPerOne ≤ spacing (t + 1) / unitsPerOne :=
    div_le_div_of_nonneg_right (by exact_mod_cast spacing_mono (Nat.le_succ t)) hU.le
  have hstep := magnitude_succ t
  have hnext := magnitude_succ (t + 1)
  have hnonneg := magnitude_nonneg (t + 1)
  refine ⟨⌊magnitude (t + 1) * 10 ^ k + 1 / 2⌋₊, ?_⟩
  have hlo := Nat.floor_le (show 0 ≤ magnitude (t + 1) * 10 ^ k + 1 / 2 by positivity)
  have hhi := Nat.lt_floor_add_one (magnitude (t + 1) * 10 ^ k + 1 / 2)
  generalize ⌊magnitude (t + 1) * 10 ^ k + 1 / 2⌋₊ = n at *
  -- the point of the grid nearest to the magnitude is at most half a step away
  have hup : (n : ℚ) / 10 ^ k ≤ magnitude (t + 1) + 1 / 10 ^ k / 2 := by
    rw [div_le_iff₀ h10, add_mul, div_right_comm, div_mul_cancel₀ _ h10.ne']
    exact hlo
  have hdown : magnitude (t + 1) - 1 / 10 ^ k / 2 < n / 10 ^ k := by
    rw [lt_div_iff₀ h10, sub_mul, div_right_comm, div_mul_cancel₀ _ h10.ne']
    linarith
  refine le_antisymm (Nat.le_of_not_lt fun hlt => ?_) ?_
  · rcases (lt_nearest_iff (by positivity)).mp hlt with hpast | ⟨htie, -⟩ <;> linarith
  · exact (lt_nearest_iff (by positivity)).mpr (.inl (by linarith))

/-- The finest grid is finer than the distance of any two magnitudes. -/
theorem reads_maxPlaces (r : ℕ) : Reads r maxPlaces := by
  obtain _ | t := r
  · exact ⟨0, by simp⟩
  · refine reads_of_lt_spacing ?_
    calc unitsPerOne < 10 ^ maxPlaces := by
          rw [unitsPerOne, unitExponent_eq, maxPlaces]
          decide +kernel
      _ ≤ spacing t * 10 ^ maxPlaces := Nat.le_mul_of_pos_left _ (spacing_pos t)

/-- A search through `0`, `1`, … ends at the first hit. -/
private theorem findSome?_range_eq_some {α : Type} {f : ℕ → Option α} {N : ℕ} {x : α}
    (h : (List.range N).findSome? f = some x) : ∃ a, f a = some x ∧ ∀ i < a, f i = none := by
  obtain ⟨before, a, after, hrange, ha, hbefore⟩ := List.findSome?_eq_some_iff.mp h
  rw [List.range_eq_range', List.range'_eq_append_iff] at hrange
  obtain ⟨i, -, rfl, hafter⟩ := hrange
  obtain rfl : a = i := by
    have hhead := congrArg List.head? hafter
    rw [List.head?_cons, List.head?_range'] at hhead
    split_ifs at hhead
    simpa using hhead
  exact ⟨a, ha, fun i hi => hbefore i (by simpa using hi)⟩

/-- Among the whole numbers, the search ends on the coarsest grid with a hit. -/
theorem wholeGrid?_eq_some {E : ℕ} (h : wholeGrid? r E = some d) :
    ∃ e ≤ E, atExponent? r e = some d ∧ ∀ i, e < i → i ≤ E → atExponent? r i = none := by
  induction E with
  | zero =>
    refine ⟨0, le_rfl, ?_, fun i hi hi' => by omega⟩
    rw [atExponent?_natCast, pow_zero]
    exact h
  | succ E ih =>
    rw [wholeGrid?, ← atExponent?_natCast] at h
    cases hfirst : atExponent? r (E + 1 : ℕ) with
    | some d' =>
      rw [hfirst] at h
      obtain rfl := Option.some.inj h
      exact ⟨E + 1, le_rfl, hfirst, fun i hi hi' => by omega⟩
    | none =>
      rw [hfirst] at h
      obtain ⟨e, he, hd, hbefore⟩ := ih h
      refine ⟨e, by omega, hd, fun i hi hi' => ?_⟩
      rcases hi'.lt_or_eq with hlt | rfl
      · exact hbefore i hi (by omega)
      · exact hfirst

theorem wholeGrid?_eq_none {E : ℕ} (h : wholeGrid? r E = none) {e : ℕ} (he : e ≤ E) :
    atExponent? r e = none := by
  induction E with
  | zero =>
    obtain rfl : e = 0 := by omega
    rw [atExponent?_natCast, pow_zero]
    exact h
  | succ E ih =>
    rw [wholeGrid?, ← atExponent?_natCast] at h
    cases hfirst : atExponent? r (E + 1 : ℕ) with
    | some d' =>
      rw [hfirst] at h
      cases h
    | none =>
      rw [hfirst] at h
      rcases he.lt_or_eq with hlt | rfl
      · exact ih h (by omega)
      · exact hfirst

/-- **The search.** It ends on the coarsest grid, of those that it looks at, that has a point that
reads back. -/
theorem exists_exponent (r : ℕ) : ∃ j : ℤ, j ≤ exponentBound r ∧
    atExponent? r j = some (shortest r) ∧
    ∀ e : ℤ, j < e → e ≤ exponentBound r → atExponent? r e = none := by
  rw [shortest]
  cases hwhole : wholeGrid? r (exponentBound r) with
  | some d =>
    obtain ⟨e, he, hd, hbefore⟩ := wholeGrid?_eq_some hwhole
    refine ⟨e, by omega, hd, fun i hi hi' => ?_⟩
    obtain ⟨i, rfl⟩ := Int.eq_ofNat_of_zero_le (show 0 ≤ i by omega)
    exact hbefore i (by omega) (by omega)
  | none =>
    cases hfrac : (List.range maxPlaces).findSome? fun k => onGrid? r 1 (k + 1) with
    | none =>
      obtain ⟨K, hK⟩ : ∃ K, maxPlaces = K + 1 := ⟨323, rfl⟩
      have hlast := List.findSome?_eq_none_iff.mp hfrac K (List.mem_range.mpr (by omega))
      have hsome := (reads_maxPlaces r).atExponent?_isSome
      rw [hK, atExponent?_neg_natCast, hlast] at hsome
      cases hsome
    | some d =>
      obtain ⟨a, ha, hbefore⟩ := findSome?_range_eq_some hfrac
      refine ⟨-(a + 1 : ℕ), by omega, ?_, fun i hi hi' => ?_⟩
      · rw [atExponent?_neg_natCast]
        exact ha
      -- the whole numbers were looked at before
      · rcases le_or_gt 0 i with hi₀ | hi₀
        · obtain ⟨i, rfl⟩ := Int.eq_ofNat_of_zero_le hi₀
          exact wholeGrid?_eq_none hwhole (by omega)
        · obtain ⟨k, rfl⟩ : ∃ k : ℕ, i = -(k + 1 : ℕ) := ⟨(-i - 1).toNat, by omega⟩
          rw [atExponent?_neg_natCast]
          exact hbefore k (by omega)

/-- The search succeeds, with a decimal that reads back, and no decimal of fewer places does. -/
theorem shortest_spec (r : ℕ) :
    (shortest r).rank = r ∧ ∀ k, Reads r k → (shortest r).places ≤ k := by
  obtain ⟨j, hj, hd, hbefore⟩ := exists_exponent r
  obtain ⟨hplaces, hrank, -⟩ := onGrid?_spec hd
  refine ⟨hrank, fun k hk => ?_⟩
  rw [hplaces]
  by_contra hmore
  have hsome := hk.atExponent?_isSome
  rw [hbefore (-k) (by omega) (by omega)] at hsome
  cases hsome

/-! ### The places of a text -/

theorem length_lastDigits (places n : ℕ) : (lastDigits places n).length = places := by
  induction places with
  | zero => rfl
  | succ places ih => rw [lastDigits, List.length_cons, ih]

/-- The text of a natural number has no point. -/
private theorem point_notMem_toString (n : ℕ) : '.' ∉ (toString n).toList := by
  rw [Nat.toString_eq_ofList_toDigits, String.toList_ofList]
  intro hmem
  have hdigit := Nat.isDigit_of_mem_toDigits (by decide) (by decide) hmem
  exact absurd hdigit (by decide)

end Decimal

namespace Binary64

/-- The digits after the point are those behind the first point. -/
private theorem fractionDigits_of_toList_eq {text : String} {whole rest : List Char}
    (h : text.toList = whole ++ '.' :: rest) (hwhole : '.' ∉ whole) :
    fractionDigits text = rest.length := by
  have hpass : ∀ c ∈ whole, decide (c ≠ '.') = true := fun c hc =>
    decide_eq_true fun heq => hwhole (heq ▸ hc)
  rw [fractionDigits, h, List.dropWhile_append_of_pos hpass]
  rfl

private theorem fractionDigits_of_notMem {text : String} (h : '.' ∉ text.toList) :
    fractionDigits text = 0 := by
  have hpass : ∀ c ∈ text.toList, decide (c ≠ '.') = true := fun c hc =>
    decide_eq_true fun heq => h (heq ▸ hc)
  rw [fractionDigits, List.dropWhile_eq_nil_iff.mpr hpass]
  rfl

/-- A decimal is written with as many digits after the point as it has places, whatever sign
stands before. -/
theorem fractionDigits_text {sign : String} (hsign : '.' ∉ sign.toList) (d : Decimal) :
    fractionDigits (sign ++ d.text) = d.places := by
  have hwhole : '.' ∉ sign.toList ++ (toString (d.numerator / 10 ^ d.places)).toList := by
    rw [List.mem_append]
    exact not_or.mpr ⟨hsign, Decimal.point_notMem_toString _⟩
  rw [Decimal.text]
  split_ifs with hplaces
  · rw [fractionDigits_of_notMem (by rwa [String.toList_append]), hplaces]
  · have hpoint : (sign ++ (toString (d.numerator / 10 ^ d.places) ++ "." ++
          String.ofList (Decimal.lastDigits d.places d.numerator))).toList =
        sign.toList ++ (toString (d.numerator / 10 ^ d.places)).toList ++
          '.' :: Decimal.lastDigits d.places d.numerator := by
      simp
    rw [fractionDigits_of_toList_eq hpoint hwhole, Decimal.length_lastDigits]

/-- The sign stands in front. -/
theorem text_finite (s : Bool) (r : ℕ) (h : r < overflowRank) :
    (finite s r h).text = (if s then "-" else "") ++ (Decimal.shortest r).text := by
  rw [text]
  generalize Decimal.shortest r = d
  cases s
  · rw [if_neg Bool.false_ne_true, if_neg Bool.false_ne_true, String.empty_append]
  · rfl

/-- The places of a number are those of its shortest decimal. -/
theorem decimalPlaces_finite {s : Bool} {r : ℕ} {h : r < overflowRank} :
    (finite s r h).decimalPlaces = (Decimal.shortest r).places := by
  rw [decimalPlaces, text_finite]
  exact fractionDigits_text (by cases s <;> decide) _

/-- **Places of the shortest text.** A finite number is written with at most `d` digits after the
point exactly if some decimal of `d` places reads as it. -/
theorem decimalPlaces_le_iff {s : Bool} {r d : ℕ} {h : r < overflowRank} :
    (finite s r h).decimalPlaces ≤ d ↔ Decimal.Reads r d := by
  obtain ⟨hrank, hleast⟩ := Decimal.shortest_spec r
  rw [decimalPlaces_finite]
  exact ⟨fun hle => (Decimal.Reads.of_rank hrank).mono hle, hleast d⟩

end Binary64

end DecimalRounding
