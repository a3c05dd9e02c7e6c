import Ennbo.Strategy.Random
import Mathlib.Data.List.GetD
import Mathlib.Data.List.Nodup
import Mathlib.Tactic.Linarith
import Mathlib.Tactic.FieldSimp

/-! # Latin hypercubes

The first arms of an optimizer fill each dimension evenly: the range of a
dimension is cut into as many bins as there are arms, a shuffle hands the bins
out, and each arm is drawn from its bin.
-/

namespace Ennbo

open RandomGenerator

section Definitions

variable {D ρ : Type} [Floating D] [RandomGenerator D ρ]

/-- `perm.swap(i, j)` -/
def swapped (perm : List ℕ) (i j : ℕ) : Outcome (List ℕ) :=
  match perm[i]?, perm[j]? with
  | some a, some b => pure ((perm.set i b).set j a)
  | _, _ => throw .panic

def shuffleStep (perm : List ℕ) (i : ℕ) : Call ρ (List ℕ) := do
  let jIdx ← genUpTo i
  Call.ofOutcome (swapped perm i jIdx)

def shuffledBins (numSamples : ℕ) : Call ρ (List ℕ) :=
  (List.range' 1 (numSamples - 1)).reverse.foldlM shuffleStep (List.range numSamples)

/-- A draw from a bin. -/
def drawFromBin (numSamples : ℕ) (lower range : D) (bin : ℕ) : Call ρ D := do
  let binStart := (bin : D) / (numSamples : D)
  let binEnd := ((bin + 1 : ℕ) : D) / (numSamples : D)
  let offset ← gen
  let unit := binStart + offset * (binEnd - binStart)
  return lower + unit * range

/-- The coordinates of all samples in one dimension. -/
def lhdColumn (numSamples : ℕ) (bounds : D × D) : Call ρ (List D) := do
  let perm ← shuffledBins numSamples
  perm.mapM (drawFromBin numSamples bounds.1 (bounds.2 - bounds.1))

def generateLhd (numSamples numDim : ℕ) (bounds : List (D × D)) : Call ρ (List (List D)) := do
  let columns ← (List.range numDim).mapM fun j => do
    let range ← Call.ofOutcome (Outcome.ofOption .panic bounds[j]?)
    lhdColumn numSamples range
  return (List.range numSamples).map fun i => columns.map fun column => column.getD i 0

end Definitions

section Shuffle

variable {K ρ : Type} [ExactArith K] [RandomGenerator K ρ] [LawfulGenerator K ρ]
  {E : Failure → Prop} {perm : List ℕ} {i j n : ℕ}

theorem swapped_eq_ok (hi : i < perm.length) (hj : j < perm.length) :
    ∃ perm', swapped perm i j = .ok perm' ∧ perm'.Perm perm := by
  unfold swapped
  rw [List.getElem?_eq_getElem hi, List.getElem?_eq_getElem hj]
  exact ⟨_, rfl, List.set_set_perm hi hj⟩

theorem ends_shuffleStep (hi : i < perm.length) :
    Call.Ends (fun _ => True) E (shuffleStep perm i : Call ρ (List ℕ)) fun perm' =>
      perm'.Perm perm := by
  unfold shuffleStep
  apply (ends_genUpTo i).bind
  intro j hj
  obtain ⟨perm', hok, hperm⟩ := swapped_eq_ok hi (hj.trans_lt hi)
  rw [hok]
  exact Call.ends_ok hperm

theorem ends_shuffledBins (n : ℕ) :
    Call.Ends (fun _ => True) E (shuffledBins n : Call ρ (List ℕ)) fun perm =>
      perm.Perm (List.range n) := by
  unfold shuffledBins
  refine Call.ends_foldlM (P := fun perm : List ℕ => perm.Perm (List.range n)) ?_ (.refl _)
  intro i hi perm hperm
  have hlt : i < perm.length := by
    have hmem := List.mem_range'_1.mp (List.mem_reverse.mp hi)
    rw [hperm.length_eq, List.length_range]
    omega
  exact (ends_shuffleStep hlt).mono fun perm' h => h.trans hperm

end Shuffle

section Bins

variable {K ρ : Type} [ExactArith K] {E : Failure → Prop} {n : ℕ} {bounds : K × K}

/-- The part of a range that a bin stands for. -/
def InBin (n : ℕ) (bounds : K × K) (bin : ℕ) (x : K) : Prop :=
  bounds.1 + (bin : K) / n * (bounds.2 - bounds.1) ≤ x ∧
    x < bounds.1 + ((bin : K) + 1) / n * (bounds.2 - bounds.1)

theorem InBin.eq {a b : ℕ} {x : K} (hn : 0 < n) (hlt : bounds.1 < bounds.2)
    (ha : InBin n bounds a x) (hb : InBin n bounds b x) : a = b := by
  have hpos : (0 : K) < n := Nat.cast_pos.mpr hn
  have hrange : 0 < bounds.2 - bounds.1 := sub_pos.mpr hlt
  have hle : ∀ {a b : ℕ}, InBin n bounds a x → InBin n bounds b x → a ≤ b := by
    intro a b ha hb
    have hlt := ha.1.trans_lt hb.2
    have hlt := lt_of_mul_lt_mul_right (lt_of_add_lt_add_left hlt) hrange.le
    have hlt := (div_lt_div_iff_of_pos_right hpos).mp hlt
    exact Nat.lt_succ_iff.mp (by exact_mod_cast hlt)
  exact le_antisymm (hle ha hb) (hle hb ha)

theorem InBin.mem {bin : ℕ} {x : K} (hlt : bounds.1 < bounds.2) (hbin : bin < n)
    (h : InBin n bounds bin x) : bounds.1 ≤ x ∧ x < bounds.2 := by
  have hpos : (0 : K) < n := Nat.cast_pos.mpr (by omega)
  have hrange : 0 < bounds.2 - bounds.1 := sub_pos.mpr hlt
  have hstart : (0 : K) ≤ (bin : K) / n := by positivity
  have hend : ((bin : K) + 1) / n ≤ 1 := by
    rw [div_le_one hpos]
    exact_mod_cast hbin
  constructor
  · exact (le_add_of_nonneg_right (mul_nonneg hstart hrange.le)).trans h.1
  · have hle := mul_le_of_le_one_left hrange.le hend
    have hx := h.2
    linarith

variable [RandomGenerator K ρ] [LawfulGenerator K ρ]

theorem ends_drawFromBin (hn : 0 < n) (hlt : bounds.1 < bounds.2) (bin : ℕ) :
    Call.Ends (fun _ => True) E
      (drawFromBin n bounds.1 (bounds.2 - bounds.1) bin : Call ρ K) (InBin n bounds bin) := by
  unfold drawFromBin
  apply ends_gen.bind
  rintro offset ⟨hoffset, hone⟩
  apply Call.ends_pure
  have hpos : (0 : K) < n := Nat.cast_pos.mpr hn
  have hrange : 0 < bounds.2 - bounds.1 := sub_pos.mpr hlt
  have hwidth : ((bin + 1 : ℕ) : K) / n - (bin : K) / n = 1 / n := by
    rw [← sub_div, Nat.cast_succ, add_sub_cancel_left]
  have hinv : (0 : K) < 1 / n := by positivity
  rw [hwidth]
  constructor
  · have hle := mul_le_mul_of_nonneg_right
      (le_add_of_nonneg_right (a := (bin : K) / n) (mul_nonneg hoffset hinv.le)) hrange.le
    linarith
  · have hunit : (bin : K) / n + offset * (1 / n) < ((bin : K) + 1) / n := by
      rw [add_div]
      exact add_lt_add_of_le_of_lt le_rfl (mul_lt_of_lt_one_left hinv hone)
    have hlt := mul_lt_mul_of_pos_right hunit hrange
    linarith

def Stratified (n : ℕ) (bounds : K × K) (column : List K) : Prop :=
  column.length = n ∧ ∀ bin < n, ∃! i, i < n ∧ InBin n bounds bin (column.getD i 0)

theorem stratified_of_perm (hlt : bounds.1 < bounds.2) {perm : List ℕ}
    (hperm : perm.Perm (List.range n)) {column : List K}
    (hcolumn : List.Forall₂ (InBin n bounds) perm column) : Stratified n bounds column := by
  have hlen : perm.length = n := by simpa using hperm.length_eq
  have hclen : column.length = n := hcolumn.length_eq.symm.trans hlen
  have hnodup : perm.Nodup := hperm.nodup_iff.mpr List.nodup_range
  have hget : ∀ i < n, InBin n bounds (perm.getD i 0) (column.getD i 0) := by
    intro i hi
    rw [List.getD_eq_getElem _ _ (hlen.symm ▸ hi), List.getD_eq_getElem _ _ (hclen.symm ▸ hi)]
    exact hcolumn.get (hlen.symm ▸ hi) (hclen.symm ▸ hi)
  refine ⟨hclen, fun bin hbin => ?_⟩
  obtain ⟨i, hi, hbi⟩ := List.getElem_of_mem (hperm.mem_iff.mpr (List.mem_range.mpr hbin))
  have hbi : perm.getD i 0 = bin := (List.getD_eq_getElem _ _ hi).trans hbi
  have hi' : i < n := hlen ▸ hi
  refine ⟨i, ⟨hi', hbi ▸ hget i hi'⟩, ?_⟩
  rintro k ⟨hk, hin⟩
  have heq : perm.getD k 0 = perm.getD i 0 := ((hget k hk).eq (by omega) hlt hin).trans hbi.symm
  rw [List.getD_eq_getElem _ _ (hlen.symm ▸ hk), List.getD_eq_getElem _ _ hi] at heq
  exact hnodup.getElem_inj_iff.mp heq

theorem ends_lhdColumn (hlt : bounds.1 < bounds.2) :
    Call.Ends (fun _ => True) E (lhdColumn n bounds : Call ρ (List K)) fun column =>
      Stratified n bounds column ∧ ∀ x ∈ column, bounds.1 ≤ x ∧ x < bounds.2 := by
  unfold lhdColumn
  apply (ends_shuffledBins n).bind
  intro perm hperm
  have hbin : ∀ bin ∈ perm, bin < n := fun bin hmem => by
    simpa using hperm.mem_iff.mp hmem
  have hdraws := Call.ends_mapM (E := E) fun bin hmem =>
    ends_drawFromBin (ρ := ρ) (E := E) ((Nat.zero_le _).trans_lt (hbin bin hmem)) hlt bin
  apply hdraws.mono
  intro column hcolumn
  refine ⟨stratified_of_perm hlt hperm hcolumn, fun x hx => ?_⟩
  obtain ⟨bin, hmem, hin⟩ := exists_mem_left hcolumn hx
  exact hin.mem hlt (hbin bin hmem)

end Bins

section Hypercube

variable {K ρ : Type} [ExactArith K] [RandomGenerator K ρ] [LawfulGenerator K ρ]
  {E : Failure → Prop} {n : ℕ} {bounds : List (K × K)}

/-- Samples within their bounds, with one in each bin of each dimension. -/
structure FillsBins (n : ℕ) (bounds : List (K × K)) (rows : List (List K)) : Prop where
  length_eq : rows.length = n
  within : ∀ row ∈ rows, List.Forall₂ (fun b x => b.1 ≤ x ∧ x < b.2) bounds row
  filled : ∀ j, (hj : j < bounds.length) → ∀ bin < n,
    ∃! i, i < n ∧ InBin n bounds[j] bin ((rows.getD i []).getD j 0)

theorem ends_generateLhd (hbounds : ∀ b ∈ bounds, b.1 < b.2) :
    Call.Ends (fun _ => True) E (generateLhd n bounds.length bounds : Call ρ (List (List K)))
      (FillsBins n bounds) := by
  unfold generateLhd
  have hcolumn : ∀ j ∈ List.range bounds.length, Call.Ends (fun _ => True) E
      (do
        let range ← Call.ofOutcome (Outcome.ofOption .panic bounds[j]?)
        lhdColumn n range : Call ρ (List K)) fun column => ∀ b ∈ bounds[j]?,
          Stratified n b column ∧ ∀ x ∈ column, b.1 ≤ x ∧ x < b.2 := by
    intro j hj
    have hj : j < bounds.length := List.mem_range.mp hj
    rw [List.getElem?_eq_getElem hj]
    apply (Call.ends_ok (P := fun b => b = bounds[j]) rfl).bind
    rintro b rfl
    apply (ends_lhdColumn (hbounds _ (List.getElem_mem hj))).mono
    rintro column h _ ⟨⟩
    exact h
  apply (Call.ends_mapM hcolumn).bind
  intro columns hcolumns
  apply Call.ends_pure
  have hlen : columns.length = bounds.length := by simpa using hcolumns.length_eq.symm
  have hget : ∀ j, (hj : j < bounds.length) → (hj' : j < columns.length) →
      Stratified n bounds[j] columns[j] ∧
        ∀ x ∈ columns[j], bounds[j].1 ≤ x ∧ x < bounds[j].2 := by
    intro j hj hj'
    have h := hcolumns.get (by simpa using hj) hj'
    simp only [List.get_eq_getElem, List.getElem_range] at h
    exact h _ (List.getElem?_eq_getElem hj)
  refine ⟨by simp, ?_, ?_⟩
  · intro row hrow
    obtain ⟨i, hi, rfl⟩ := List.mem_map.mp hrow
    rw [List.forall₂_iff_get]
    refine ⟨by simp [hlen], fun j hj hj' => ?_⟩
    have hj'' : j < columns.length := by simpa using hj'
    obtain ⟨hstrat, hmem⟩ := hget j hj hj''
    simp only [List.get_eq_getElem, List.getElem_map]
    apply hmem
    rw [List.getD_eq_getElem _ _ (hstrat.1.symm ▸ List.mem_range.mp hi)]
    exact List.getElem_mem _
  · intro j hj bin hbin
    have hj' : j < columns.length := hlen.symm ▸ hj
    obtain ⟨i, ⟨hi, hin⟩, huniq⟩ := (hget j hj hj').1.2 bin hbin
    have hentry : ∀ k < n, (((List.range n).map fun i =>
        columns.map fun column => column.getD i 0).getD k []).getD j 0 = columns[j].getD k 0 := by
      intro k hk
      have hrow :
          ((List.range n).map fun i => columns.map fun column => column.getD i 0).getD k [] =
            columns.map fun column => column.getD k 0 := by
        rw [List.getD_eq_getElem _ _ (by simpa using hk), List.getElem_map, List.getElem_range]
      rw [hrow, List.getD_eq_getElem _ _ (by simpa using hj'), List.getElem_map]
    refine ⟨i, ⟨hi, (hentry i hi).symm ▸ hin⟩, ?_⟩
    rintro k ⟨hk, hkin⟩
    exact huniq k ⟨hk, hentry k hk ▸ hkin⟩

/-- The samples of every dimension fill its bins, whatever the generator draws. -/
theorem generateLhd_fillsBins (hbounds : ∀ b ∈ bounds, b.1 < b.2) (n : ℕ) (s : ρ) :
    ∃ rows s', (generateLhd n bounds.length bounds).Returns s rows s' ∧
      FillsBins n bounds rows := by
  obtain ⟨rows, s', hreturns, hfills, -⟩ := (ends_generateLhd (n := n) hbounds s trivial).returns
  exact ⟨rows, s', hreturns, hfills⟩

theorem generateLhd_fillsBins_two :
    ∃ rows s', (generateLhd 3 2 [(0, 1), (-5, 5)]).Returns (Counter.mk 4) rows s' ∧
      FillsBins 3 [((0 : ℚ), 1), (-5, 5)] rows :=
  @generateLhd_fillsBins ℚ Counter _ _ _ [(0, 1), (-5, 5)] (by simp) 3 ⟨4⟩

end Hypercube

end Ennbo
