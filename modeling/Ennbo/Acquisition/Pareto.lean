import Ennbo.Acquisition.Arms

/-! # Non-dominated sorting

Candidates with several objectives are sorted into fronts. The general algorithm
counts for each row how many rows dominate it and releases a row when its counter
drops to zero; with two objectives, skylines are peeled off instead. Both come to
the same fronts for finite values. Peeling never ends when a second objective is
not above negative infinity.
-/

namespace Ennbo

open Ranking

variable {D : Type} [Floating D] [Analysis D]

inductive AcquisitionError where
  | invalidParameter (message : String)
  | noCandidates
  deriving DecidableEq

section Counting

/-- Whether the first row is nowhere less, as far as the loop goes, and somewhere greater. -/
def rowFlags : List D → List D → Bool → Bool × Bool
  | x :: xs, y :: ys, anyGt => if ltB x y then (false, anyGt) else rowFlags xs ys (anyGt || ltB y x)
  | _, _, anyGt => (true, anyGt)

def rowDominates (x y : List D) : Bool := (rowFlags x y false).1 && (rowFlags x y false).2

def Array2.rowAt (a : Array2 D) (i : ℕ) : List D := a.rows.getD i []

/-- The rows that row `i` dominates. -/
def dominatedRows (objectives : Array2 D) (i : ℕ) : List ℕ :=
  (List.range objectives.nrows).filter fun j =>
    i ≠ j && rowDominates (objectives.rowAt i) (objectives.rowAt j)

/-- The number of rows that dominate row `i`. -/
def dominationCount (objectives : Array2 D) (i : ℕ) : ℕ :=
  ((List.range objectives.nrows).filter fun j =>
    i ≠ j && !rowDominates (objectives.rowAt i) (objectives.rowAt j) &&
      !(rowFlags (objectives.rowAt i) (objectives.rowAt j) false).1 &&
      rowDominates (objectives.rowAt j) (objectives.rowAt i)).length

/-- Count a row down, and release it at zero; a counter that is zero already underflows. -/
def release (state : List ℕ × List ℕ) (j : ℕ) : Outcome (List ℕ × List ℕ) :=
  match state.1[j]? with
  | some (count + 1) =>
    pure (state.1.set j count, if count = 0 then state.2 ++ [j] else state.2)
  | _ => throw .panic

/-- The loop over the fronts, for at most `fuel` rounds. -/
def releaseFronts (dominated : ℕ → List ℕ) : ℕ → List ℕ → List ℕ → Outcome (List (List ℕ))
  | 0, _, _ => throw .diverge
  | fuel + 1, counts, currentFront =>
    if currentFront = [] then pure []
    else do
      let (counts, nextFront) ← (currentFront.flatMap dominated).foldlM release (counts, [])
      let fronts ← releaseFronts dominated fuel counts nextFront
      return currentFront :: fronts

/-- The general algorithm, for any number of objectives. -/
def nonDominSortByCounts (fuel : ℕ) (objectives : Array2 D) : Outcome (List (List ℕ)) :=
  let n := objectives.nrows
  if n = 0 then pure []
  else
    let counts := (List.range n).map (dominationCount objectives)
    releaseFronts (dominatedRows objectives) fuel counts
      ((List.range n).filter fun i => counts.getD i 0 = 0)

end Counting

section Peeling

def Array2.pointAt (a : Array2 D) (i : ℕ) : ℕ × D × D :=
  (i, (a.rowAt i).getD 0 0, (a.rowAt i).getD 1 0)

/-- The loop over the skylines, for at most `fuel` rounds. -/
def peelFronts (point : ℕ → ℕ × D × D) : ℕ → List ℕ → Outcome (List (List ℕ))
  | 0, _ => throw .diverge
  | fuel + 1, remaining =>
    if remaining = [] then pure []
    else do
      let sorted := remaining.insertionSort fun i j => SweepOrder (point i) (point j)
      let front := skyline (sorted.map point)
      let fronts ← peelFronts point fuel (sorted.filter fun i => i ∉ front)
      return front :: fronts

theorem skyline_map_sublist [LawfulCompare D] {point : ℕ → ℕ × D × D}
    (hpoint : ∀ i, (point i).1 = i) (remaining : List ℕ) :
    (skyline (remaining.map point)).Sublist remaining := by
  have hid : (remaining.map point).map Prod.fst = remaining := by
    rw [List.map_map]
    exact (List.map_congr_left fun i _ => hpoint i).trans (List.map_id _)
  have hsub := sublist_skyline (remaining.map point)
  rwa [hid] at hsub

def nonDominSort2d (fuel : ℕ) (objectives : Array2 D) : Outcome (List (List ℕ)) :=
  let n := objectives.nrows
  if n = 0 then pure [] else peelFronts objectives.pointAt fuel (List.range n)

end Peeling

def nonDominSort (fuel : ℕ) (objectives : Array2 D) : Outcome (List (List ℕ)) :=
  if objectives.ncols = 2 then nonDominSort2d fuel objectives
  else nonDominSortByCounts fuel objectives

namespace ParetoAcquisition

def armsFromParetoFronts2d (fuel : ℕ) (seed : UInt64) (mu sigma : List D) (numArms : ℕ) :
    Outcome (Except AcquisitionError (List ℕ)) :=
  if mu.length = 0 then pure (.error .noCandidates)
  else do
    let arms ← armsFromParetoFronts fuel mu sigma (min numArms mu.length) seed
    return .ok arms

/-- Fronts are taken in full until one does not fit, which is shuffled. -/
def takeFronts (shuffle : List ℕ → List ℕ) (numArms : ℕ) : List ℕ → List (List ℕ) → List ℕ
  | selected, [] => selected
  | selected, front :: fronts =>
    if numArms ≤ selected.length then selected
    else
      let remaining := numArms - selected.length
      if front.length ≤ remaining then takeFronts shuffle numArms (selected ++ front) fronts
      else takeFronts shuffle numArms (selected ++ (shuffle front).take remaining) fronts

def select (shuffle : List ℕ → List ℕ) (seed : UInt64) (fuel : ℕ) (mu se : Array2 D)
    (numArms : ℕ) : Outcome (Except AcquisitionError (List ℕ)) :=
  if mu.nrows = 0 then pure (.error .noCandidates)
  else if numArms = 0 then pure (.ok [])
  else if mu.shape ≠ se.shape then
    pure (.error (.invalidParameter s!"mu shape {mu.shape} does not match se shape {se.shape}"))
  else if mu.ncols = 1 then
    armsFromParetoFronts2d fuel seed (mu.rows.map fun row => row.getD 0 0)
      (se.rows.map fun row => row.getD 0 0) numArms
  else do
    let paretoFronts ← nonDominSort fuel mu
    return .ok (takeFronts shuffle numArms [] paretoFronts)

end ParetoAcquisition

section Release

variable {counts counts' js more : List ℕ} {j count : ℕ}

theorem lt_length_of_getD (h : counts.getD j 0 = count + 1) : j < counts.length := by
  by_contra hge
  rw [List.getD_eq_default _ _ (not_lt.mp hge)] at h
  exact Nat.succ_ne_zero count h.symm

theorem getD_set_of_getD (h : counts.getD j 0 = count + 1) (i : ℕ) :
    (counts.set j count).getD i 0 = if i = j then count else counts.getD i 0 := by
  have hlt := lt_length_of_getD h
  rw [List.getD_eq_getElem?_getD, List.getElem?_set, List.getD_eq_getElem?_getD]
  by_cases hij : j = i
  · subst hij
    simp [hlt]
  · simp [hij, Ne.symm hij]

theorem release_eq_ok (h : counts.getD j 0 = count + 1) (released : List ℕ) :
    release (counts, released) j =
      .ok (counts.set j count, if count = 0 then released ++ [j] else released) := by
  have hlt := lt_length_of_getD h
  have hsome : counts[j]? = some (count + 1) := by
    rw [List.getElem?_eq_getElem hlt, ← h, List.getD_eq_getElem _ _ hlt]
  unfold release
  rw [hsome]
  rfl

/-- Each counter drops by the number of times its row is listed, and the rows whose counters drop
to zero are released once. -/
structure Released (counts js counts' more : List ℕ) : Prop where
  counts_eq : ∀ j, counts'.getD j 0 = counts.getD j 0 - js.count j
  nodup : more.Nodup
  mem_iff : ∀ j, j ∈ more ↔ j ∈ js ∧ counts.getD j 0 = js.count j

theorem released_nil (counts : List ℕ) : Released counts [] counts [] :=
  ⟨by simp, List.nodup_nil, by simp⟩

theorem Released.cons (hj : counts.getD j 0 = count + 1) (hle : js.count j ≤ count)
    (h : Released (counts.set j count) js counts' more) :
    Released counts (j :: js) counts' (if count = 0 then j :: more else more) where
  counts_eq i := by
    rw [h.counts_eq, getD_set_of_getD hj]
    split
    next hij =>
      subst hij
      rw [List.count_cons_self]
      omega
    next hij => rw [List.count_cons_of_ne (Ne.symm hij)]
  nodup := by
    split
    next hzero =>
      have hnot : j ∉ js := List.count_eq_zero.mp (by omega)
      exact List.nodup_cons.mpr ⟨fun hmem => hnot ((h.mem_iff j).mp hmem).1, h.nodup⟩
    next => exact h.nodup
  mem_iff i := by
    have hmem := h.mem_iff i
    rw [getD_set_of_getD hj] at hmem
    by_cases hij : i = j
    · subst hij
      rw [if_pos rfl] at hmem
      rw [List.count_cons_self, hj, and_iff_right List.mem_cons_self, Nat.add_right_cancel_iff]
      split
      next hzero =>
        rw [iff_true_left List.mem_cons_self]
        omega
      next hzero =>
        rw [hmem]
        exact and_iff_right_of_imp fun heq => List.count_pos_iff.mp (by omega)
    · rw [if_neg hij] at hmem
      rw [List.count_cons_of_ne (Ne.symm hij), List.mem_cons, or_iff_right hij, ← hmem]
      split
      next => rw [List.mem_cons, or_iff_right hij]
      next => rfl

/-- Rows are released one after the other. -/
theorem foldlM_release (released : List ℕ) (h : ∀ j ∈ js, js.count j ≤ counts.getD j 0) :
    ∃ counts' more, js.foldlM release (counts, released) = .ok (counts', released ++ more) ∧
      Released counts js counts' more := by
  induction js generalizing counts released with
  | nil => exact ⟨counts, [], by simp, released_nil counts⟩
  | cons j js ih =>
    have hle := h j List.mem_cons_self
    rw [List.count_cons_self] at hle
    obtain ⟨count, hcount⟩ : ∃ count, counts.getD j 0 = count + 1 :=
      ⟨counts.getD j 0 - 1, by omega⟩
    have hrest : ∀ i ∈ js, js.count i ≤ (counts.set j count).getD i 0 := by
      intro i hi
      have hi := h i (List.mem_cons_of_mem _ hi)
      rw [getD_set_of_getD hcount]
      split
      next hij =>
        subst hij
        omega
      next hij =>
        rw [List.count_cons_of_ne (Ne.symm hij)] at hi
        exact hi
    obtain ⟨counts', more, hfold, hreleased⟩ :=
      ih (if count = 0 then released ++ [j] else released) hrest
    refine ⟨counts', _, ?_, hreleased.cons hcount (by omega)⟩
    rw [List.foldlM_cons, release_eq_ok hcount]
    refine hfold.trans ?_
    split <;> simp

variable {n : ℕ} {dom : ℕ → ℕ → Prop} [DecidableRel dom] {dominated : ℕ → List ℕ}
  {counts front : List ℕ} {rest : Finset ℕ}

/-- Where the loop has come to: the front is the next layer of the rows that are left, and the
counters say how many of these dominate a row. -/
structure Counting (n : ℕ) (dom : ℕ → ℕ → Prop) [DecidableRel dom] (counts front : List ℕ)
    (rest : Finset ℕ) : Prop where
  nodup : front.Nodup
  front_eq : front.toFinset = undominated dom rest
  lt_of_mem : ∀ i ∈ rest, i < n
  closed : ∀ i ∈ rest, ∀ j < n, dom i j → j ∈ rest
  counts_eq : ∀ j < n, counts.getD j 0 = (rest.filter fun i => dom i j).card

/-- A row is released once by each row of the front that dominates it. -/
theorem count_flatMap_dominated
    (hdominated : ∀ i < n, dominated i = (List.range n).filter fun j => dom i j)
    (hnodup : front.Nodup) (hfront : ∀ i ∈ front, i < n) (j : ℕ) :
    (front.flatMap dominated).count j =
      if j < n then (front.toFinset.filter fun i => dom i j).card else 0 := by
  have hcount : ∀ i ∈ front, (dominated i).count j = if j < n ∧ dom i j then 1 else 0 := by
    intro i hi
    rw [hdominated i (hfront i hi)]
    split
    next h =>
      apply List.count_eq_one_of_mem (List.nodup_range.filter _)
      simpa using h
    next h =>
      apply List.count_eq_zero.mpr
      simpa using h
  induction front with
  | nil => simp
  | cons i front ih =>
    rw [List.nodup_cons] at hnodup
    rw [List.forall_mem_cons] at hfront hcount
    rw [List.flatMap_cons, List.count_append, hcount.1, ih hnodup.2 hfront.2 hcount.2]
    by_cases hj : j < n
    · rw [if_pos hj, if_pos hj, List.toFinset_cons, Finset.filter_insert]
      by_cases hdom : dom i j
      · rw [if_pos ⟨hj, hdom⟩, if_pos hdom, Finset.card_insert_of_notMem, Nat.add_comm]
        intro hmem
        exact hnodup.1 (List.mem_toFinset.mp (Finset.mem_filter.mp hmem).1)
      · rw [if_neg fun h => hdom h.2, if_neg hdom, Nat.zero_add]
    · rw [if_neg hj, if_neg hj, if_neg fun h => hj h.1]

/-- A round releases the next layer. -/
theorem mem_flatMap_dominated
    (hdominated : ∀ i < n, dominated i = (List.range n).filter fun j => dom i j)
    (hlt : ∀ i ∈ front, i < n) {j : ℕ} :
    j ∈ front.flatMap dominated ↔ j < n ∧ ∃ i ∈ front, dom i j := by
  rw [List.mem_flatMap]
  constructor
  · rintro ⟨i, hi, hj⟩
    rw [hdominated i (hlt i hi), List.mem_filter, List.mem_range, decide_eq_true_iff] at hj
    exact ⟨hj.1, i, hi, hj.2⟩
  · rintro ⟨hj, i, hi, hdom⟩
    refine ⟨i, hi, ?_⟩
    rw [hdominated i (hlt i hi), List.mem_filter, List.mem_range, decide_eq_true_iff]
    exact ⟨hj, hdom⟩

theorem Counting.front_subset (h : Counting n dom counts front rest) :
    front.toFinset ⊆ rest := h.front_eq ▸ undominated_subset

theorem Counting.filter_subset (h : Counting n dom counts front rest) (j : ℕ) :
    (front.toFinset.filter fun i => dom i j) ⊆ rest.filter fun i => dom i j :=
  Finset.filter_subset_filter _ h.front_subset

/-- A counter drops to zero when all rows that dominate its row are in the front. -/
theorem Counting.card_eq_iff (h : Counting n dom counts front rest) {j : ℕ} :
    (rest.filter fun i => dom i j).card = (front.toFinset.filter fun i => dom i j).card ↔
      ∀ k ∈ rest, dom k j → k ∈ front.toFinset := by
  constructor
  · intro heq k hk hkj
    have hall := Finset.eq_of_subset_of_card_le (h.filter_subset j) heq.le
    have hkmem : k ∈ front.toFinset.filter fun i => dom i j := by
      rw [hall]
      exact Finset.mem_filter.mpr ⟨hk, hkj⟩
    exact (Finset.mem_filter.mp hkmem).1
  · intro hfront
    congr 1
    apply Finset.Subset.antisymm
    · intro i hi
      obtain ⟨hirest, hij⟩ := Finset.mem_filter.mp hi
      exact Finset.mem_filter.mpr ⟨hfront i hirest hij, hij⟩
    · exact h.filter_subset j

/-- The next front: rows that the front dominates and nothing else that is left does. -/
theorem Counting.mem_undominated_next (h : Counting n dom counts front rest) {j : ℕ} :
    j ∈ undominated dom (rest \ front.toFinset) ↔
      (j < n ∧ ∃ i ∈ front, dom i j) ∧ ∀ k ∈ rest, dom k j → k ∈ front.toFinset := by
  rw [mem_undominated, Finset.mem_sdiff]
  constructor
  · rintro ⟨⟨hjrest, hjnot⟩, hundom⟩
    have hfront : ∀ k ∈ rest, dom k j → k ∈ front.toFinset := by
      intro k hk hkj
      by_contra hnot
      exact hundom k (Finset.mem_sdiff.mpr ⟨hk, hnot⟩) hkj
    obtain ⟨k, hk, hkj⟩ : ∃ k ∈ rest, dom k j := by
      by_contra hnone
      push Not at hnone
      rw [h.front_eq] at hjnot
      exact hjnot (mem_undominated.mpr ⟨hjrest, hnone⟩)
    exact ⟨⟨h.lt_of_mem j hjrest, k, List.mem_toFinset.mp (hfront k hk hkj), hkj⟩, hfront⟩
  · rintro ⟨⟨hj, i, hi, hdom⟩, hfront⟩
    have hirest := h.front_subset (List.mem_toFinset.mpr hi)
    refine ⟨⟨h.closed i hirest j hj hdom, fun hmem => ?_⟩, fun k hk hkj => ?_⟩
    · rw [h.front_eq] at hmem
      exact (mem_undominated.mp hmem).2 i hirest hdom
    · obtain ⟨hkrest, hknot⟩ := Finset.mem_sdiff.mp hk
      exact hknot (hfront k hkrest hkj)

theorem Counting.next (hdominated : ∀ i < n, dominated i = (List.range n).filter fun j => dom i j)
    (h : Counting n dom counts front rest) :
    ∃ counts' front',
      (front.flatMap dominated).foldlM release (counts, []) = .ok (counts', front') ∧
      Counting n dom counts' front' (rest \ front.toFinset) := by
  have hlt : ∀ i ∈ front, i < n := fun i hi =>
    h.lt_of_mem i (h.front_subset (List.mem_toFinset.mpr hi))
  have hcount := count_flatMap_dominated hdominated h.nodup hlt
  have hle : ∀ j ∈ front.flatMap dominated,
      (front.flatMap dominated).count j ≤ counts.getD j 0 := by
    intro j hj
    have hjn := ((mem_flatMap_dominated hdominated hlt).mp hj).1
    rw [hcount, if_pos hjn, h.counts_eq j hjn]
    exact Finset.card_le_card (h.filter_subset j)
  obtain ⟨counts', front', hfold, hreleased⟩ := foldlM_release [] hle
  refine ⟨counts', front', hfold, hreleased.nodup, ?_, ?_, ?_, ?_⟩
  · ext j
    rw [List.mem_toFinset, hreleased.mem_iff,
      mem_flatMap_dominated hdominated hlt, h.mem_undominated_next, hcount]
    apply and_congr_right
    rintro ⟨hj, -⟩
    rw [if_pos hj, h.counts_eq j hj, h.card_eq_iff]
  · intro i hi
    exact h.lt_of_mem i (Finset.mem_sdiff.mp hi).1
  · intro i hi j hj hdom
    obtain ⟨hi, hnot⟩ := Finset.mem_sdiff.mp hi
    refine Finset.mem_sdiff.mpr ⟨h.closed i hi j hj hdom, fun hmem => ?_⟩
    rw [h.front_eq] at hmem
    exact (mem_undominated.mp hmem).2 i hi hdom
  · intro j hj
    rw [hreleased.counts_eq, hcount, if_pos hj, h.counts_eq j hj,
      ← Finset.card_sdiff_of_subset (h.filter_subset j)]
    congr 1
    ext i
    simp only [Finset.mem_sdiff, Finset.mem_filter]
    tauto

/-- The loop takes the layers of the rows that are left; no counter underflows. -/
theorem releaseFronts_layered [IsStrictOrder ℕ dom]
    (hdominated : ∀ i < n, dominated i = (List.range n).filter fun j => dom i j)
    (h : Counting n dom counts front rest) {fuel : ℕ} (hfuel : rest.card < fuel) :
    ∃ fronts, releaseFronts dominated fuel counts front = .ok fronts ∧
      Layered dom rest fronts := by
  induction fuel generalizing counts front rest with
  | zero => omega
  | succ fuel ih =>
    unfold releaseFronts
    split
    next hnil =>
      have hempty : rest = ∅ := by
        by_contra hne
        have hlayer : (undominated dom rest).Nonempty :=
          undominated_nonempty (Finset.nonempty_iff_ne_empty.mpr hne)
        rw [← h.front_eq, hnil] at hlayer
        exact Finset.not_nonempty_empty hlayer
      subst hempty
      exact ⟨[], rfl, .nil⟩
    next hne =>
      have hsub : front.toFinset ⊆ rest := h.front_eq ▸ undominated_subset
      obtain ⟨i, hi⟩ := List.exists_mem_of_ne_nil front hne
      have hi' : i ∈ front.toFinset := List.mem_toFinset.mpr hi
      obtain ⟨counts', front', hfold, hnext⟩ := h.next hdominated
      have hlt : (rest \ front.toFinset).card < rest.card :=
        Finset.card_lt_card (Finset.sdiff_ssubset hsub ⟨i, hi'⟩)
      obtain ⟨fronts, hfronts, hlayered⟩ := ih hnext (by omega)
      refine ⟨front :: fronts, ?_, .cons ⟨i, hsub hi'⟩ h.nodup h.front_eq hlayered⟩
      rw [hfold]
      change (releaseFronts dominated fuel counts' front' >>= _) = _
      rw [hfronts]
      rfl

end Release

section Exact

variable {K : Type} [ExactArith K] [Analysis K]

/-- Row `i` is at least row `j` in every objective and greater in one. -/
def RowDominates (objectives : Array2 K) (i j : ℕ) : Prop :=
  (∀ k < objectives.ncols, (objectives.rowAt j).getD k 0 ≤ (objectives.rowAt i).getD k 0) ∧
    ∃ k < objectives.ncols, (objectives.rowAt j).getD k 0 < (objectives.rowAt i).getD k 0

instance (objectives : Array2 K) (i j : ℕ) : Decidable (RowDominates objectives i j) := by
  unfold RowDominates
  infer_instance

instance (objectives : Array2 K) : IsStrictOrder ℕ (RowDominates objectives) where
  irrefl i := by
    rintro ⟨-, k, -, hlt⟩
    exact lt_irrefl _ hlt
  trans i j l := by
    rintro ⟨hij, k, hk, hlt⟩ ⟨hjl, -⟩
    exact ⟨fun m hm => (hjl m hm).trans (hij m hm), k, hk, (hjl k hk).trans_lt hlt⟩

omit [Analysis K] in
/-- The loop over two rows of one width compares them as a whole. -/
theorem rowFlags_eq {x y : List K} (h : x.length = y.length) (anyGt : Bool) :
    ((rowFlags x y anyGt).1 = true ↔ ∀ k < x.length, y.getD k 0 ≤ x.getD k 0) ∧
    ((rowFlags x y anyGt).1 = true → ((rowFlags x y anyGt).2 = true ↔
      anyGt = true ∨ ∃ k < x.length, y.getD k 0 < x.getD k 0)) := by
  induction x generalizing y anyGt with
  | nil =>
    obtain rfl : y = [] := List.length_eq_zero_iff.mp h.symm
    simp [rowFlags]
  | cons a x ih =>
    cases y with
    | nil => cases h
    | cons b y =>
      obtain ⟨hall, hany⟩ := ih (Nat.succ.inj h) (anyGt || ltB b a)
      rw [List.length_cons, Nat.forall_lt_succ_left, Nat.exists_lt_succ_left]
      simp only [List.getD_cons_zero, List.getD_cons_succ]
      unfold rowFlags
      rw [ltB_exact a b]
      by_cases hlt : a < b
      · simp [hlt, hlt.not_ge]
      · rw [if_neg (by simpa using hlt)]
        rw [hall]
        constructor
        · exact (and_iff_right (not_lt.mp hlt)).symm
        · intro hge
          rw [hany (hall.mpr hge), Bool.or_eq_true, ltB_exact, decide_eq_true_iff]
          exact or_assoc

variable {objectives : Array2 K}

omit [ExactArith K] [Analysis K] in
theorem length_rowAt {i : ℕ} (hi : i < objectives.nrows) :
    (objectives.rowAt i).length = objectives.ncols := by
  unfold Array2.rowAt
  rw [List.getD_eq_getElem _ _ hi]
  exact objectives.width _ (List.getElem_mem hi)

omit [Analysis K] in
theorem rowDominates_iff {i j : ℕ} (hi : i < objectives.nrows) (hj : j < objectives.nrows) :
    rowDominates (objectives.rowAt i) (objectives.rowAt j) = true ↔
      RowDominates objectives i j := by
  have hlength : (objectives.rowAt i).length = (objectives.rowAt j).length :=
    (length_rowAt hi).trans (length_rowAt hj).symm
  obtain ⟨hall, hany⟩ := rowFlags_eq hlength false
  rw [length_rowAt hi] at hall hany
  unfold rowDominates RowDominates
  rw [Bool.and_eq_true, ← hall]
  apply and_congr_right
  intro hge
  rw [hany hge]
  simp

omit [Analysis K] in
theorem dominatedRows_eq {i : ℕ} (hi : i < objectives.nrows) :
    dominatedRows objectives i =
      (List.range objectives.nrows).filter fun j => RowDominates objectives i j := by
  unfold dominatedRows
  apply List.filter_congr
  intro j hj
  rw [Bool.eq_iff_iff, Bool.and_eq_true, rowDominates_iff hi (List.mem_range.mp hj),
    decide_eq_true_iff, decide_eq_true_iff, and_iff_right_iff_imp]
  rintro hdom rfl
  exact irrefl_of (RowDominates objectives) i hdom

omit [Analysis K] in
/-- The counter of a row is the number of rows that dominate it. -/
theorem dominationCount_eq {i : ℕ} (hi : i < objectives.nrows) :
    dominationCount objectives i =
      ((Finset.range objectives.nrows).filter fun j => RowDominates objectives j i).card := by
  have hfilter : ((List.range objectives.nrows).filter fun j =>
      i ≠ j && !rowDominates (objectives.rowAt i) (objectives.rowAt j) &&
        !(rowFlags (objectives.rowAt i) (objectives.rowAt j) false).1 &&
        rowDominates (objectives.rowAt j) (objectives.rowAt i)) =
      (List.range objectives.nrows).filter fun j => RowDominates objectives j i := by
    apply List.filter_congr
    intro j hj
    have hj' := List.mem_range.mp hj
    rw [Bool.eq_iff_iff, Bool.and_eq_true, rowDominates_iff hj' hi, decide_eq_true_iff,
      and_iff_right_iff_imp]
    intro hdom
    have hne : i ≠ j := by
      rintro rfl
      exact irrefl_of (RowDominates objectives) i hdom
    have hnot : ¬ rowDominates (objectives.rowAt i) (objectives.rowAt j) = true := by
      rw [rowDominates_iff hi hj']
      exact fun h => irrefl_of (RowDominates objectives) i (trans_of _ h hdom)
    have hflag : ¬ (rowFlags (objectives.rowAt i) (objectives.rowAt j) false).1 = true := by
      rw [(rowFlags_eq ((length_rowAt hi).trans (length_rowAt hj').symm) false).1, length_rowAt hi]
      intro hge
      obtain ⟨k, hk, hlt⟩ := hdom.2
      exact hlt.not_ge (hge k hk)
    simp [hne, hnot, hflag]
  unfold dominationCount
  rw [hfilter, ← List.toFinset_card_of_nodup (List.nodup_range.filter _), List.toFinset_filter]
  congr 1
  ext j
  simp

omit [Analysis K] in
theorem nonDominSortByCounts_layered {fuel : ℕ} (hfuel : objectives.nrows < fuel) :
    ∃ fronts, nonDominSortByCounts fuel objectives = .ok fronts ∧
      Layered (RowDominates objectives) (Finset.range objectives.nrows) fronts := by
  unfold nonDominSortByCounts
  dsimp only
  split
  next hempty =>
    rw [hempty]
    exact ⟨[], rfl, .nil⟩
  next =>
    have hgetD : ∀ i < objectives.nrows,
        ((List.range objectives.nrows).map (dominationCount objectives)).getD i 0 =
          ((Finset.range objectives.nrows).filter fun j => RowDominates objectives j i).card := by
      intro i hi
      rw [List.getD_eq_getElem?_getD, List.getElem?_map, List.getElem?_range hi]
      exact dominationCount_eq hi
    have hstart : Counting objectives.nrows (RowDominates objectives)
        ((List.range objectives.nrows).map (dominationCount objectives))
        ((List.range objectives.nrows).filter fun i =>
          ((List.range objectives.nrows).map (dominationCount objectives)).getD i 0 = 0)
        (Finset.range objectives.nrows) := by
      constructor
      · exact List.nodup_range.filter _
      · ext i
        rw [List.mem_toFinset, List.mem_filter, mem_undominated, List.mem_range, Finset.mem_range,
          decide_eq_true_iff]
        apply and_congr_right
        intro hi
        rw [hgetD i hi, Finset.card_eq_zero, Finset.filter_eq_empty_iff]
      · intro i hi
        exact Finset.mem_range.mp hi
      · intro _ _ j hj _
        exact Finset.mem_range.mpr hj
      · exact hgetD
    apply releaseFronts_layered (fun i hi => dominatedRows_eq hi) hstart
    rwa [Finset.card_range]

omit [Analysis K] in
theorem rowDominates_iff_dominates (hcols : objectives.ncols = 2) (i j : ℕ) :
    RowDominates objectives i j ↔
      Dominates (objectives.pointAt i).2 (objectives.pointAt j).2 := by
  unfold RowDominates Dominates Array2.pointAt
  rw [hcols]
  simp only [Nat.forall_lt_succ_left, Nat.exists_lt_succ_left, Nat.not_lt_zero, false_imp_iff,
    imp_true_iff, and_true, false_and, exists_false, or_false]
  rw [and_assoc]

variable [ExactOrder K]

section Peel

variable {point : ℕ → ℕ × K × K} {dom : ℕ → ℕ → Prop} [DecidableRel dom] {remaining : List ℕ}

instance : Std.Total fun i j => SweepOrder (point i) (point j) where
  total i j := Std.Total.total (point i) (point j)

instance : IsTrans ℕ fun i j => SweepOrder (point i) (point j) where
  trans i j k := IsTrans.trans (point i) (point j) (point k)

/-- A skyline is the next layer of the rows that are left. -/
theorem mem_skyline_sorted (hpoint : ∀ i, (point i).1 = i)
    (hdom : ∀ i j, dom i j ↔ Dominates (point i).2 (point j).2)
    (hfinite : ∀ i ∈ remaining, negInfinity < (point i).2.2) {i : ℕ} :
    i ∈ skyline ((remaining.insertionSort fun i j => SweepOrder (point i) (point j)).map point) ↔
      i ∈ undominated dom remaining.toFinset := by
  have hmem : ∀ j, j ∈ remaining.insertionSort (fun i j => SweepOrder (point i) (point j)) ↔
      j ∈ remaining := fun j => List.mem_insertionSort _
  have hsorted : ((remaining.insertionSort fun i j => SweepOrder (point i) (point j)).map
      point).Pairwise SweepOrder :=
    List.pairwise_map.mpr (List.pairwise_insertionSort _ remaining)
  rw [skyline_eq hsorted]
  · simp only [List.mem_map, List.mem_filter, decide_eq_true_iff, hmem, forall_exists_index,
      and_imp, forall_apply_eq_imp_iff₂, mem_undominated, List.mem_toFinset, hdom]
    constructor
    · rintro ⟨_, ⟨⟨j, hj, rfl⟩, hundom⟩, hi⟩
      obtain rfl : j = i := (hpoint j).symm.trans hi
      exact ⟨hj, hundom⟩
    · rintro ⟨hi, hundom⟩
      exact ⟨point i, ⟨⟨i, hi, rfl⟩, hundom⟩, hpoint i⟩
  · rw [List.forall_mem_map]
    intro j hj
    exact hfinite j ((hmem j).mp hj)

/-- The loop over the skylines takes the layers of the rows that are left. -/
theorem peelFronts_layered [IsStrictOrder ℕ dom] (hpoint : ∀ i, (point i).1 = i)
    (hdom : ∀ i j, dom i j ↔ Dominates (point i).2 (point j).2) (hnodup : remaining.Nodup)
    (hfinite : ∀ i ∈ remaining, negInfinity < (point i).2.2) {fuel : ℕ}
    (hfuel : remaining.length < fuel) :
    ∃ fronts, peelFronts point fuel remaining = .ok fronts ∧
      Layered dom remaining.toFinset fronts := by
  induction fuel generalizing remaining with
  | zero => omega
  | succ fuel ih =>
    unfold peelFronts
    split
    next hnil =>
      rw [hnil]
      exact ⟨[], rfl, .nil⟩
    next hne =>
      let sorted := remaining.insertionSort fun i j => SweepOrder (point i) (point j)
      have hperm : sorted.Perm remaining := List.perm_insertionSort _ _
      have hsorted : sorted.Nodup := hperm.nodup_iff.mpr hnodup
      let front := skyline (sorted.map point)
      have hfront : front.toFinset = undominated dom remaining.toFinset := by
        ext i
        rw [List.mem_toFinset]
        exact mem_skyline_sorted hpoint hdom hfinite
      have hnodup' : front.Nodup := hsorted.sublist (skyline_map_sublist hpoint sorted)
      have hnonempty : remaining.toFinset.Nonempty := by
        obtain ⟨i, hi⟩ := List.exists_mem_of_ne_nil _ hne
        exact ⟨i, List.mem_toFinset.mpr hi⟩
      obtain ⟨i, hi⟩ := hfront ▸ undominated_nonempty hnonempty
      have hi' : i ∈ sorted := by
        rw [hfront] at hi
        exact hperm.mem_iff.mpr (List.mem_toFinset.mp (undominated_subset hi))
      have hrest : (sorted.filter fun i => i ∉ front).toFinset =
          remaining.toFinset \ front.toFinset := by
        ext j
        simp [hperm.mem_iff]
      have hlt : (sorted.filter fun i => i ∉ front).length < sorted.length :=
        List.length_filter_lt_length_iff_exists.mpr
          ⟨i, hi', by simpa using List.mem_toFinset.mp hi⟩
      have hlength := hperm.length_eq
      obtain ⟨fronts, hfronts, hlayered⟩ := ih (hsorted.filter fun i => i ∉ front)
        (fun j hj => hfinite j (hperm.mem_iff.mp (List.mem_of_mem_filter hj)))
        (by omega)
      rw [hrest] at hlayered
      refine ⟨front :: fronts, ?_, .cons hnonempty hnodup' hfront hlayered⟩
      change (peelFronts point fuel (sorted.filter fun i => i ∉ front) >>= _) = _
      rw [hfronts]
      rfl

end Peel

/-- Fronts that list every index once, dominate neither themselves nor earlier ones, and are each
dominated from the front before. -/
structure Fronts (dom : ℕ → ℕ → Prop) (n : ℕ) (fronts : List (List ℕ)) : Prop where
  perm : fronts.flatten.Perm (List.range n)
  not_dominated : ∀ (r s : ℕ) (a b : List ℕ), r ≤ s → fronts[r]? = some a → fronts[s]? = some b →
    ∀ i ∈ a, ∀ j ∈ b, ¬ dom j i
  dominated : ∀ (r : ℕ) (a b : List ℕ), fronts[r]? = some a → fronts[r + 1]? = some b →
    ∀ i ∈ b, ∃ j ∈ a, dom j i

theorem fronts_of_layered {dom : ℕ → ℕ → Prop} [DecidableRel dom] {n : ℕ}
    {fronts : List (List ℕ)} (h : Layered dom (Finset.range n) fronts) : Fronts dom n fronts where
  perm := by
    apply (List.perm_ext_iff_of_nodup h.nodup_flatten List.nodup_range).mpr
    intro i
    rw [h.mem_flatten, Finset.mem_range, List.mem_range]
  not_dominated _ _ _ _ hrs ha hb _ hi _ hj := h.not_dom hrs ha hb hi hj
  dominated _ _ _ ha hb _ hi := h.exists_dom ha hb hi

theorem negInfinity_lt_pointAt (hcols : objectives.ncols = 2)
    (hfinite : ∀ row ∈ objectives.rows, ∀ v ∈ row, isFinite v = true) {i : ℕ}
    (hi : i < objectives.nrows) : negInfinity < (objectives.pointAt i).2.2 := by
  have hlength : 1 < (objectives.rowAt i).length := by
    rw [length_rowAt hi, hcols]
    exact Nat.one_lt_two
  have hmem : objectives.rowAt i ∈ objectives.rows := by
    unfold Array2.rowAt
    rw [List.getD_eq_getElem _ _ hi]
    exact List.getElem_mem hi
  unfold Array2.pointAt
  dsimp only
  rw [List.getD_eq_getElem _ _ hlength]
  exact ExactOrder.negInfinity_lt _ (hfinite _ hmem _ (List.getElem_mem hlength))

theorem nonDominSort2d_layered (hcols : objectives.ncols = 2)
    (hfinite : ∀ row ∈ objectives.rows, ∀ v ∈ row, isFinite v = true) {fuel : ℕ}
    (hfuel : objectives.nrows < fuel) :
    ∃ fronts, nonDominSort2d fuel objectives = .ok fronts ∧
      Layered (RowDominates objectives) (Finset.range objectives.nrows) fronts := by
  unfold nonDominSort2d
  dsimp only
  split
  next hempty =>
    rw [hempty]
    exact ⟨[], rfl, .nil⟩
  next =>
    have hrange : Finset.range objectives.nrows = (List.range objectives.nrows).toFinset := by
      ext i
      simp
    rw [hrange]
    apply peelFronts_layered (fun _ => rfl) (rowDominates_iff_dominates hcols) List.nodup_range
    · intro i hi
      exact negInfinity_lt_pointAt hcols hfinite (List.mem_range.mp hi)
    · rwa [List.length_range]

/-- Sorting finite objectives leads to fronts, no counter underflows on the way, and with two
objectives the skylines are the fronts that the counters would lead to. -/
theorem nonDominSort_fronts
    (hfinite : ∀ row ∈ objectives.rows, ∀ v ∈ row, isFinite v = true) {fuel : ℕ}
    (hfuel : objectives.nrows < fuel) :
    (∃ fronts, nonDominSort fuel objectives = .ok fronts ∧
      Fronts (RowDominates objectives) objectives.nrows fronts) ∧
    (objectives.ncols = 2 → ∃ fronts fronts', nonDominSort2d fuel objectives = .ok fronts ∧
      nonDominSortByCounts fuel objectives = .ok fronts' ∧
      List.Forall₂ (fun a b => a.toFinset = b.toFinset) fronts fronts') := by
  obtain ⟨counted, hcounted, hlayered⟩ := nonDominSortByCounts_layered hfuel
  constructor
  · unfold nonDominSort
    split
    next h2 =>
      obtain ⟨fronts, hfronts, h⟩ := nonDominSort2d_layered h2 hfinite hfuel
      exact ⟨fronts, hfronts, fronts_of_layered h⟩
    next => exact ⟨counted, hcounted, fronts_of_layered hlayered⟩
  · intro h2
    obtain ⟨fronts, hfronts, h⟩ := nonDominSort2d_layered h2 hfinite hfuel
    exact ⟨fronts, counted, hfronts, hcounted, h.unique hlayered⟩

def threeCandidates : Array2 ℚ := ⟨2, [[1, 3], [2, 1], [1, 2]], by decide⟩

theorem threeCandidates_fronts :
    ∃ fronts, nonDominSort 4 threeCandidates = .ok fronts ∧
      Fronts (RowDominates threeCandidates) 3 fronts := by
  have hfuel : threeCandidates.nrows < 4 := by decide
  have hfinite : ∀ row ∈ threeCandidates.rows, ∀ v ∈ row, isFinite v = true := by decide +kernel
  exact (nonDominSort_fronts hfinite hfuel).1

end Exact

end Ennbo
