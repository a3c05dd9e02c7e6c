import Ennbo.Index.Splitting
import Ennbo.Model.Fit
import Ennbo.Moments
import Mathlib.Algebra.BigOperators.Ring.List

/-! # Sensitivity indices

The first-order index of an input is the share of the variance of the outcomes
that lies between bins of its ranks, so it lies between zero and one.
-/

namespace Ennbo

section Definitions

variable {D : Type} [Floating D] [Analysis D]

def averageOf (values : List D) : D := values.foldl (· + ·) 0 / (values.length : ℕ)

/-- `var(0.0)` -/
def varianceOf (values : List D) : D :=
  let average := averageOf values
  (values.map fun v => (v - average) * (v - average)).foldl (· + ·) 0 / (values.length : ℕ)

def Array2.columnAt (x : Array2 D) (dim : ℕ) : List D := x.rows.map fun row => row.getD dim 0

def ValueOrder (values : List D) (a b : ℕ) : Prop :=
  totalCmp (values.getD a 0) (values.getD b 0) ≠ .gt

instance (values : List D) : DecidableRel (ValueOrder values) :=
  fun a b => inferInstanceAs (Decidable (totalCmp (values.getD a 0) (values.getD b 0) ≠ .gt))

/-- The bin of each value, by its rank. -/
def rankBins (values : List D) (numBins : ℕ) : List ℕ :=
  let n := values.length
  let indexed := (List.range n).insertionSort (ValueOrder values)
  indexed.zipIdx.foldl (fun bins e => bins.set e.1 (e.2 * numBins / n)) (List.replicate n 0)

def binPlaces (bins : List ℕ) (bin : ℕ) : List ℕ :=
  (List.range bins.length).filter fun i => bins.getD i 0 = bin

/-- The variance between the bins; an outcome that is missing panics. -/
def varExplained (y : List D) (bins : List ℕ) (numBins : ℕ) : Outcome D :=
  (List.range numBins).foldlM (fun sum bin => do
    let binY ← (binPlaces bins bin).mapM fun i => Outcome.ofOption .panic y[i]?
    if binY.isEmpty then return sum
    else
      let gap := averageOf binY - averageOf y
      return sum + (binY.length : ℕ) / (bins.length : ℕ) * (gap * gap)) 0

def binCount (n : ℕ) : ℕ := if 30 ≤ n then 10 else 3

def calculateSobolIndices (x : Array2 D) (y : List D) : Outcome (List D) :=
  if x.nrows < 9 then pure (List.replicate x.ncols 1)
  else
    let vy := varianceOf y
    if leB vy 0 || !isFinite vy then pure (List.replicate x.ncols 1)
    else
      let numBins := binCount x.nrows
      (List.range x.ncols).mapM fun dim =>
        let column := x.columnAt dim
        if leB (varianceOf column) (literal 1 12) then pure 0
        else do
          let explained ← varExplained y (rankBins column numBins) numBins
          return explained / vy

end Definitions

section Bins

variable {D : Type} [Floating D] [Analysis D] {numBins : ℕ}

theorem foldl_set_lt {n : ℕ} (ranks : List (ℕ × ℕ)) (hranks : ∀ e ∈ ranks, e.2 < n)
    (hpos : 0 < numBins) {bins : List ℕ} (hbins : ∀ b ∈ bins, b < numBins) :
    (ranks.foldl (fun bins e => bins.set e.1 (e.2 * numBins / n)) bins).length = bins.length ∧
      ∀ b ∈ ranks.foldl (fun bins e => bins.set e.1 (e.2 * numBins / n)) bins, b < numBins := by
  induction ranks generalizing bins with
  | nil => exact ⟨rfl, hbins⟩
  | cons e ranks ih =>
    rw [List.forall_mem_cons] at hranks
    have hset : ∀ b ∈ bins.set e.1 (e.2 * numBins / n), b < numBins := by
      intro b hb
      rcases List.mem_or_eq_of_mem_set hb with hb | rfl
      · exact hbins b hb
      · exact (Nat.div_lt_iff_lt_mul (Nat.zero_lt_of_lt hranks.1)).mpr
          (by rw [Nat.mul_comm numBins]; exact Nat.mul_lt_mul_of_pos_right hranks.1 hpos)
    obtain ⟨hlength, hlt⟩ := ih hranks.2 hset
    exact ⟨hlength.trans List.length_set, hlt⟩

theorem rankBins_spec (values : List D) (hpos : 0 < numBins) :
    (rankBins values numBins).length = values.length ∧
      ∀ b ∈ rankBins values numBins, b < numBins := by
  have hranks : ∀ e ∈ ((List.range values.length).insertionSort (ValueOrder values)).zipIdx,
      e.2 < values.length := by
    rintro ⟨i, rank⟩ he
    have hlt := (List.mem_zipIdx' he).1
    simpa using hlt
  have hzero : ∀ b ∈ List.replicate values.length 0, b < numBins := by
    intro b hb
    rw [List.eq_of_mem_replicate hb]
    exact hpos
  obtain ⟨hlength, hlt⟩ := foldl_set_lt _ hranks hpos hzero
  exact ⟨hlength.trans List.length_replicate, hlt⟩

end Bins

section Exact

variable {K : Type} [ExactArith K] [Analysis K] {numBins : ℕ} {x : Array2 K} {y : List K}
  {bins : List ℕ}

omit [Analysis K] in
theorem averageOf_exact (values : List K) : averageOf values = mean values := by
  rw [averageOf, mean, List.sum_eq_foldl]

omit [Analysis K] in
theorem varianceOf_exact (values : List K) :
    varianceOf values = deviations values / values.length := by
  rw [varianceOf, averageOf_exact, deviations, List.sum_eq_foldl]

def binOutcomes (y : List K) (bins : List ℕ) (bin : ℕ) : List K :=
  (binPlaces bins bin).map fun i => y.getD i 0

omit [Analysis K] in
theorem mapM_binPlaces (hlen : bins.length = y.length) (bin : ℕ) :
    ((binPlaces bins bin).mapM fun i => Outcome.ofOption .panic y[i]?) =
      .ok (binOutcomes y bins bin) := by
  rw [mapM_ok_iff, binOutcomes, List.forall₂_map_right_iff, List.forall₂_same]
  intro i hi
  have hlt : i < y.length := hlen ▸ List.mem_range.mp (List.mem_filter.mp hi).1
  rw [Outcome.ofOption_eq_ok, List.getD_eq_getElem _ _ hlt, List.getElem?_eq_getElem hlt]

omit [Analysis K] in
theorem map_getD_range (y : List K) : (List.range y.length).map (fun i => y.getD i 0) = y := by
  refine List.ext_getElem (by simp) fun i hi hi' => ?_
  simp [List.getD_eq_getElem?_getD, hi']

omit [Analysis K] in
/-- The variance between the bins is what the bins leave of the deviations. -/
theorem varExplained_eq (hne : y ≠ []) (hlen : bins.length = y.length)
    (hbins : ∀ b ∈ bins, b < numBins) :
    ∃ explained, varExplained y bins numBins = .ok explained ∧ 0 ≤ explained ∧
      explained * y.length +
        ((List.range numBins).map fun b => deviations (binOutcomes y bins b)).sum =
          deviations y := by
  have hplaces : ∀ i ∈ List.range y.length, bins.getD i 0 < numBins := by
    intro i hi
    have hlt : i < bins.length := hlen.symm ▸ List.mem_range.mp hi
    rw [List.getD_eq_getElem _ _ hlt]
    exact hbins _ (List.getElem_mem hlt)
  have hdeviations := deviations_bins (fun i => y.getD i 0) hplaces
  rw [map_getD_range] at hdeviations
  refine ⟨((List.range numBins).map fun b => (binOutcomes y bins b).length / (y.length : K) *
    ((mean (binOutcomes y bins b) - mean y) *
      (mean (binOutcomes y bins b) - mean y))).sum, ?_, ?_, ?_⟩
  · unfold varExplained
    rw [List.sum_eq_foldl, List.foldl_map]
    apply Outcome.foldlM_eq_ok
    intro b _ sum
    dsimp only
    rw [mapM_binPlaces hlen, averageOf_exact, hlen]
    change (if (binOutcomes y bins b).isEmpty then _ else _) = _
    split
    next hempty =>
      rw [List.isEmpty_iff.mp hempty]
      simp [pure, Except.pure]
    next =>
      rw [averageOf_exact]
      rfl
  · refine List.sum_nonneg fun v hv => ?_
    obtain ⟨b, -, rfl⟩ := List.mem_map.mp hv
    exact mul_nonneg (div_nonneg (Nat.cast_nonneg _) (Nat.cast_nonneg _)) (mul_self_nonneg _)
  · have hlength : (y.length : K) ≠ 0 := Nat.cast_ne_zero.mpr (by simpa using hne)
    have hbin : ∀ b, binOutcomes y bins b =
        ((List.range y.length).filter fun i => bins.getD i 0 = b).map fun i => y.getD i 0 := by
      intro b
      rw [binOutcomes, binPlaces, hlen]
    rw [← List.sum_map_mul_right, ← hdeviations, add_comm]
    simp only [hbin]
    refine congrArg₂ (· + ·) rfl (congrArg List.sum (List.map_congr_left fun b _ => ?_))
    rw [mul_right_comm, div_mul_cancel₀ _ hlength]

/-- An input that hardly varies explains nothing; another what its bins leave of the deviations. -/
def Explains (x : Array2 K) (y : List K) (dim : ℕ) (s : K) : Prop :=
  if varianceOf (x.columnAt dim) ≤ literal 1 12 then s = 0
  else s * deviations y + ((List.range (binCount x.nrows)).map fun b =>
    deviations (binOutcomes y (rankBins (x.columnAt dim) (binCount x.nrows)) b)).sum =
      deviations y

/-- The index of an input whose bins leave a part of the deviations. -/
theorem exists_explains (hne : y ≠ []) (hlen : y.length = x.nrows) (hpos : 0 < varianceOf y)
    (dim : ℕ) :
    ∃ s, (if leB (varianceOf (x.columnAt dim)) (literal 1 12) then pure 0
      else do
        let explained ← varExplained y (rankBins (x.columnAt dim) (binCount x.nrows))
          (binCount x.nrows)
        return explained / varianceOf y : Outcome K) = .ok s ∧
      Explains x y dim s ∧ 0 ≤ s ∧ s ≤ 1 := by
  unfold Explains
  rw [leB_exact]
  by_cases hconstant : varianceOf (x.columnAt dim) ≤ literal 1 12
  · refine ⟨0, if_pos (by simpa using hconstant), ?_, le_rfl, zero_le_one⟩
    rw [if_pos hconstant]
  · rw [if_neg (by simpa using hconstant)]
    have hcount : 0 < binCount x.nrows := by
      unfold binCount
      split <;> decide
    obtain ⟨hbins, hlt⟩ := rankBins_spec (x.columnAt dim) hcount
    have hranks : (rankBins (x.columnAt dim) (binCount x.nrows)).length = y.length :=
      hbins.trans ((List.length_map _).trans hlen.symm)
    obtain ⟨explained, hexplained, hnonneg, hsum⟩ := varExplained_eq hne hranks hlt
    have hlength : (0 : K) < y.length := Nat.cast_pos.mpr (List.length_pos_of_ne_nil hne)
    have hdeviations : varianceOf y * y.length = deviations y := by
      rw [varianceOf_exact, div_mul_cancel₀ _ hlength.ne']
    have hshare : explained / varianceOf y * deviations y = explained * y.length := by
      rw [← hdeviations, ← mul_assoc, div_mul_cancel₀ _ hpos.ne']
    have hwithin : 0 ≤ ((List.range (binCount x.nrows)).map fun b =>
        deviations (binOutcomes y (rankBins (x.columnAt dim) (binCount x.nrows)) b)).sum := by
      refine List.sum_nonneg fun v hv => ?_
      obtain ⟨b, -, rfl⟩ := List.mem_map.mp hv
      exact deviations_nonneg _
    have hle : explained ≤ varianceOf y := by
      rw [← mul_le_mul_iff_of_pos_right hlength, hdeviations, ← hsum]
      exact le_add_of_nonneg_right hwithin
    rw [hexplained]
    refine ⟨_, rfl, ?_, div_nonneg hnonneg hpos.le, (div_le_one hpos).mpr hle⟩
    rw [if_neg hconstant, hshare]
    exact hsum

/-- An index for each input, between zero and one; with enough rows, and outcomes that vary, it is
the share of their variance that the bins of the input explain. -/
theorem sobolIndices_spec (hlen : y.length = x.nrows) :
    ∃ sobol, calculateSobolIndices x y = .ok sobol ∧ sobol.length = x.ncols ∧
      (∀ s ∈ sobol, 0 ≤ s ∧ s ≤ 1) ∧
        (9 ≤ x.nrows → 0 < varianceOf y → isFinite (varianceOf y) = true →
          List.Forall₂ (Explains x y) (List.range x.ncols) sobol) := by
  have hones : ∃ sobol : List K, sobol = List.replicate x.ncols 1 ∧ sobol.length = x.ncols ∧
      ∀ s ∈ sobol, 0 ≤ s ∧ s ≤ 1 := by
    refine ⟨_, rfl, List.length_replicate, fun s hs => ?_⟩
    rw [List.eq_of_mem_replicate hs]
    exact ⟨zero_le_one, le_rfl⟩
  unfold calculateSobolIndices
  by_cases hrows : x.nrows < 9
  · obtain ⟨_, rfl, hlength, hmem⟩ := hones
    rw [if_pos hrows]
    exact ⟨_, rfl, hlength, hmem, fun hnine => absurd hrows (not_lt.mpr hnine)⟩
  rw [if_neg hrows]
  dsimp only
  by_cases hvary : 0 < varianceOf y ∧ isFinite (varianceOf y) = true
  · rw [if_neg (by simp [leB_exact, hvary])]
    have hne : y ≠ [] := by
      rintro rfl
      rw [← hlen, List.length_nil] at hrows
      exact hrows (by decide)
    obtain ⟨sobol, hsobol, hindices⟩ :=
      Outcome.exists_mapM fun dim (_ : dim ∈ List.range x.ncols) =>
        exists_explains hne hlen hvary.1 dim
    refine ⟨sobol, hsobol, ?_, fun s hs => ?_, fun _ _ _ => hindices.imp fun _ _ h => h.1⟩
    · rw [← hindices.length_eq, List.length_range]
    · obtain ⟨dim, -, hindex⟩ := exists_mem_left hindices hs
      exact hindex.2
  · obtain ⟨_, rfl, hlength, hmem⟩ := hones
    refine ⟨_, if_pos ?_, hlength, hmem, fun _ hpos hfinite => absurd ⟨hpos, hfinite⟩ hvary⟩
    rw [leB_exact]
    by_cases hpos : 0 < varianceOf y
    · simp [Bool.eq_false_iff.mpr fun hfinite => hvary ⟨hpos, hfinite⟩]
    · simp [not_lt.mp hpos]

end Exact

section Example

/-- Outcomes that the bins of the input explain in part. -/
theorem sobolIndices_spec_nine :
    ∃ sobol, calculateSobolIndices (.column [8, 7, 6, 5, 4, 3, 2, 1, 0])
        [(0 : ℚ), 1, 0, 2, 2, 2, 5, 5, 6] = .ok sobol ∧ sobol.length = 1 ∧
      (∀ s ∈ sobol, 0 ≤ s ∧ s ≤ 1) ∧
        (9 ≤ 9 → 0 < varianceOf [(0 : ℚ), 1, 0, 2, 2, 2, 5, 5, 6] →
          isFinite (varianceOf [(0 : ℚ), 1, 0, 2, 2, 2, 5, 5, 6]) = true →
          List.Forall₂ (Explains (.column [8, 7, 6, 5, 4, 3, 2, 1, 0])
            [(0 : ℚ), 1, 0, 2, 2, 2, 5, 5, 6]) (List.range 1) sobol) :=
  sobolIndices_spec (x := .column [8, 7, 6, 5, 4, 3, 2, 1, 0]) rfl

end Example

end Ennbo
