import Ennbo.Acquisition.Skyline

/-! # Arms by Pareto fronts

Arms are chosen by mean and error: front after front is taken in full, and the
front that does not fit is drawn from by a congruential generator. No arm that is
chosen is dominated by one that is left out.
-/

namespace Ennbo

open Ranking

variable {D : Type} [Floating D] [Analysis D]

/-- The values of an index, which must be finite. -/
def readPoint (a b : List D) (i : ℕ) : Outcome (ℕ × D × D) :=
  match a[i]?, b[i]? with
  | some x, some y =>
    if isFinite x && isFinite y then pure (i, x, y)
    else throw (.error (.invalidParameter "a and b must be finite"))
  | _, _ => throw .panic

def paretoFront2dMaximize (a b : List D) (idx : Option (List ℕ)) : Outcome (List ℕ) :=
  if a.length ≠ b.length then throw .panic
  else if a.length = 0 then pure []
  else do
    let pairs ← (idx.getD (List.range a.length)).mapM (readPoint a b)
    return skyline (pairs.insertionSort SweepOrder)

def nextState (state : UInt64) : UInt64 := state * 6364136223846793005 + 1442695040888963407

/-- Draw from a pool without putting back; an empty pool panics. -/
def drawFrom : ℕ → UInt64 → List ℕ → Outcome (List ℕ)
  | 0, _, _ => pure []
  | k + 1, state, pool =>
    let i := (nextState state).toNat % pool.length
    match pool[i]? with
    | none => throw .panic
    | some x => do
      let rest ← drawFrom k (nextState state) (pool.eraseIdx i)
      return x :: rest

def deterministicChoice (indices : List ℕ) (k : ℕ) (seed : UInt64) : Outcome (List ℕ) :=
  if indices.length ≤ k then pure indices else drawFrom k seed indices

def MuOrder (mu : List D) (a b : ℕ) : Prop := totalCmp (mu.getD b 0) (mu.getD a 0) ≠ .gt

instance (mu : List D) (a b : ℕ) : Decidable (MuOrder mu a b) := by
  unfold MuOrder
  infer_instance

/-- `expect` turns an error into a panic. -/
def expectOk {α : Type} : Outcome α → Outcome α
  | .error (.error _) => .error .panic
  | x => x

/-- The loop over the fronts, for at most `fuel` rounds. -/
def keepFronts (mu se : List D) (numArms : ℕ) (seed : UInt64) :
    ℕ → List ℕ → List ℕ → Outcome (List ℕ)
  | 0, _, _ => throw .diverge
  | fuel + 1, iKeep, remaining =>
    if remaining = [] ∨ numArms ≤ iKeep.length then pure iKeep
    else do
      let front ← expectOk (paretoFront2dMaximize mu se (some remaining))
      if front = [] then pure iKeep
      else
        let frontSorted := front.insertionSort (MuOrder mu)
        if iKeep.length + frontSorted.length ≤ numArms then
          keepFronts mu se numArms seed fuel (iKeep ++ frontSorted)
            (remaining.filter fun i => i ∉ frontSorted)
        else do
          let selected ← deterministicChoice frontSorted (numArms - iKeep.length) seed
          return iKeep ++ selected

def armsFromParetoFronts (fuel : ℕ) (mu se : List D) (numArms : ℕ) (seed : UInt64) :
    Outcome (List ℕ) :=
  if mu.length = 0 ∨ numArms = 0 then pure []
  else do
    let iKeep ← keepFronts mu se numArms seed fuel [] (List.range mu.length)
    return iKeep.insertionSort (MuOrder mu)

section Choice

theorem drawFrom_eq_ok {k : ℕ} {pool : List ℕ} (state : UInt64) (h : k ≤ pool.length) :
    ∃ drawn rest, drawFrom k state pool = .ok drawn ∧ drawn.length = k ∧
      (drawn ++ rest).Perm pool := by
  induction k generalizing state pool with
  | zero => exact ⟨[], pool, rfl, rfl, .refl _⟩
  | succ k ih =>
    have hi : (nextState state).toNat % pool.length < pool.length := Nat.mod_lt _ (by omega)
    have hlength : k ≤ (pool.eraseIdx ((nextState state).toNat % pool.length)).length := by
      rw [List.length_eraseIdx_of_lt hi]
      omega
    obtain ⟨drawn, rest, hdrawn, hk, hperm⟩ := ih (nextState state) hlength
    refine ⟨pool[(nextState state).toNat % pool.length] :: drawn, rest, ?_, by simp [hk], ?_⟩
    · unfold drawFrom
      dsimp only
      rw [List.getElem?_eq_getElem hi]
      dsimp only
      rw [hdrawn]
      rfl
    · exact (hperm.cons _).trans (List.getElem_cons_eraseIdx_perm hi)

theorem deterministicChoice_eq_ok (indices : List ℕ) (k : ℕ) (seed : UInt64) :
    ∃ chosen rest, deterministicChoice indices k seed = .ok chosen ∧
      chosen.length = min k indices.length ∧ (chosen ++ rest).Perm indices := by
  unfold deterministicChoice
  split
  next h => exact ⟨indices, [], rfl, (min_eq_right h).symm, by rw [List.append_nil]⟩
  next h =>
    have hle : k ≤ indices.length := by omega
    obtain ⟨drawn, rest, hdrawn, hk, hperm⟩ := drawFrom_eq_ok seed hle
    exact ⟨drawn, rest, hdrawn, hk.trans (min_eq_left hle).symm, hperm⟩

end Choice

section Exact

variable {K : Type} [ExactArith K] [Analysis K] [ExactOrder K]

instance : IsStrictOrder (K × K) Dominates where
  irrefl p h := h.2.2.elim (lt_irrefl _) (lt_irrefl _)
  trans p q r hpq hqr := by
    refine ⟨hqr.1.trans hpq.1, hqr.2.1.trans hpq.2.1, ?_⟩
    rcases hpq.2.2 with h | h
    · exact .inl (hqr.1.trans_lt h)
    · exact .inr (hqr.2.1.trans_lt h)

/-- The mean and error of an index. -/
def pointAt (a b : List K) (i : ℕ) : K × K := (a.getD i 0, b.getD i 0)

def IndexDominates (a b : List K) (i j : ℕ) : Prop := Dominates (pointAt a b i) (pointAt a b j)

instance (a b : List K) (i j : ℕ) : Decidable (IndexDominates a b i j) := by
  unfold IndexDominates
  infer_instance

instance (a b : List K) : IsStrictOrder ℕ (IndexDominates a b) where
  irrefl i := irrefl_of (Dominates (K := K)) (pointAt a b i)
  trans _ _ _ := trans_of (Dominates (K := K))

/-- Two columns of the same length without infinities. -/
structure Finite2 (a b : List K) : Prop where
  length_eq : a.length = b.length
  finite_left : ∀ v ∈ a, isFinite v = true
  finite_right : ∀ v ∈ b, isFinite v = true

variable {a b mu se : List K} {indices : List ℕ}

omit [ExactOrder K] in
theorem Finite2.readPoint (h : Finite2 a b) {i : ℕ} (hi : i < a.length) :
    readPoint a b i = .ok (i, pointAt a b i) := by
  have hi' : i < b.length := h.length_eq ▸ hi
  unfold Ennbo.readPoint pointAt
  rw [List.getElem?_eq_getElem hi, List.getElem?_eq_getElem hi', List.getD_eq_getElem _ _ hi,
    List.getD_eq_getElem _ _ hi']
  dsimp only
  rw [h.finite_left _ (List.getElem_mem hi), h.finite_right _ (List.getElem_mem hi')]
  rfl

theorem Finite2.negInfinity_lt (h : Finite2 a b) {i : ℕ} (hi : i < a.length) :
    negInfinity < (pointAt a b i).2 := by
  have hi' : i < b.length := h.length_eq ▸ hi
  unfold pointAt
  dsimp only
  rw [List.getD_eq_getElem _ _ hi']
  exact ExactOrder.negInfinity_lt _ (h.finite_right _ (List.getElem_mem hi'))

/-- The front is made of the indices that no index of the subset dominates. -/
theorem paretoFront2dMaximize_eq_ok (h : Finite2 a b) (hindices : ∀ i ∈ indices, i < a.length) :
    ∃ front, paretoFront2dMaximize a b (some indices) = .ok front ∧
      front.Perm (indices.filter fun i => ∀ j ∈ indices, ¬ IndexDominates a b j i) := by
  unfold paretoFront2dMaximize
  rw [if_neg (not_not.mpr h.length_eq)]
  split
  next hempty =>
    obtain rfl : indices = [] := by
      apply List.eq_nil_iff_forall_not_mem.mpr
      intro i hi
      exact absurd (hindices i hi) (by omega)
    exact ⟨[], rfl, .refl _⟩
  next =>
    let points := indices.map fun i => (i, pointAt a b i)
    have hread : indices.mapM (readPoint a b) = .ok points := by
      rw [mapM_ok_iff, List.forall₂_map_right_iff, List.forall₂_same]
      exact fun i hi => h.readPoint (hindices i hi)
    have hperm : (points.insertionSort SweepOrder).Perm points := List.perm_insertionSort _ _
    have hfinite : ∀ p ∈ points.insertionSort SweepOrder, negInfinity < p.2.2 := by
      intro p hp
      obtain ⟨i, hi, rfl⟩ := List.mem_map.mp (hperm.mem_iff.mp hp)
      exact h.negInfinity_lt (hindices i hi)
    refine ⟨skyline (points.insertionSort SweepOrder), ?_, ?_⟩
    · change (indices.mapM (readPoint a b) >>= _) = _
      rw [hread]
      rfl
    · rw [skyline_eq (List.pairwise_insertionSort _ _) hfinite]
      refine ((hperm.filter _).map Prod.fst).trans ?_
      have hsame : points.filter (fun p => ∀ q ∈ points.insertionSort SweepOrder,
          ¬ Dominates q.2 p.2) = points.filter (fun p => ∀ q ∈ points, ¬ Dominates q.2 p.2) := by
        apply List.filter_congr
        intro p _
        apply decide_eq_decide.mpr
        simp only [hperm.mem_iff]
      rw [hsame, List.filter_map, List.map_map]
      apply List.Perm.of_eq
      refine (List.map_id _).trans ?_
      apply List.filter_congr
      intro i _
      apply decide_eq_decide.mpr
      simp only [points, List.forall_mem_map]
      rfl

/-- Indices chosen so far and indices left, none of which dominates a chosen one. -/
structure Choosing (mu se : List K) (iKeep remaining : List ℕ) : Prop where
  perm : (iKeep ++ remaining).Perm (List.range mu.length)
  not_dominated : ∀ i ∈ iKeep, ∀ j ∈ remaining, ¬ IndexDominates mu se j i

/-- As many arms as wanted, none of them dominated by an index that is left out. -/
structure Chosen (mu se : List K) (numArms : ℕ) (arms : List ℕ) : Prop where
  length_eq : arms.length = min numArms mu.length
  nodup : arms.Nodup
  lt_length : ∀ i ∈ arms, i < mu.length
  not_dominated : ∀ i ∈ arms, ∀ j < mu.length, j ∉ arms → ¬ IndexDominates mu se j i

variable {iKeep remaining front : List ℕ} {numArms : ℕ}

omit [Analysis K] [ExactOrder K] in
theorem choosing_start : Choosing mu se [] (List.range mu.length) where
  perm := .refl _
  not_dominated := by rintro i ⟨⟩

omit [Analysis K] [ExactOrder K] in
theorem Choosing.lt_length (h : Choosing mu se iKeep remaining) :
    ∀ i ∈ remaining, i < mu.length :=
  fun _ hi => List.mem_range.mp (h.perm.mem_iff.mp (List.mem_append_right _ hi))

omit [Analysis K] [ExactOrder K] in
/-- Any part of the indices left completes the choice, when it is of the right length and nothing
left dominates it. -/
theorem Choosing.chosen {selected rest : List ℕ} (h : Choosing mu se iKeep remaining)
    (hperm : (selected ++ rest).Perm remaining)
    (hselected : ∀ i ∈ selected, ∀ j ∈ remaining, ¬ IndexDominates mu se j i)
    (hlength : (iKeep ++ selected).length = min numArms mu.length) :
    Chosen mu se numArms (iKeep ++ selected) := by
  have hall : ((iKeep ++ selected) ++ rest).Perm (List.range mu.length) := by
    rw [List.append_assoc]
    exact (hperm.append_left iKeep).trans h.perm
  constructor
  · exact hlength
  · exact (List.nodup_append'.mp (hall.nodup_iff.mpr List.nodup_range)).1
  · intro i hi
    exact List.mem_range.mp (hall.mem_iff.mp (List.mem_append_left _ hi))
  · intro i hi j hj hnot
    have hleft : j ∈ remaining := by
      rcases List.mem_append.mp (h.perm.mem_iff.mpr (List.mem_range.mpr hj)) with hmem | hmem
      · exact absurd (List.mem_append_left _ hmem) hnot
      · exact hmem
    rcases List.mem_append.mp hi with hi | hi
    · exact h.not_dominated i hi j hleft
    · exact hselected i hi j hleft

omit [Analysis K] [ExactOrder K] in
theorem mem_front
    (hfront : front.Perm (remaining.filter fun i => ∀ j ∈ remaining, ¬ IndexDominates mu se j i)) :
    ∀ i ∈ front, i ∈ remaining ∧ ∀ j ∈ remaining, ¬ IndexDominates mu se j i := by
  intro i hi
  simpa using hfront.mem_iff.mp hi

omit [Analysis K] [ExactOrder K] in
theorem front_append_perm
    (hfront : front.Perm (remaining.filter fun i => ∀ j ∈ remaining, ¬ IndexDominates mu se j i)) :
    (front ++ remaining.filter fun i => i ∉ front).Perm remaining := by
  have hrest : (remaining.filter fun i => i ∉ front) =
      remaining.filter fun i => !decide (∀ j ∈ remaining, ¬ IndexDominates mu se j i) := by
    apply List.filter_congr
    intro i hi
    rw [Bool.eq_iff_iff, decide_eq_true_iff, hfront.mem_iff, List.mem_filter]
    simp [hi]
  rw [hrest]
  exact (hfront.append_right _).trans (List.filter_append_perm _ _)

omit [Analysis K] [ExactOrder K] in
theorem Choosing.append (h : Choosing mu se iKeep remaining)
    (hfront : front.Perm (remaining.filter fun i => ∀ j ∈ remaining, ¬ IndexDominates mu se j i)) :
    Choosing mu se (iKeep ++ front) (remaining.filter fun i => i ∉ front) := by
  constructor
  · rw [List.append_assoc]
    exact ((front_append_perm hfront).append_left iKeep).trans h.perm
  · intro i hi j hj
    have hj' : j ∈ remaining := List.mem_of_mem_filter hj
    rcases List.mem_append.mp hi with hi | hi
    · exact h.not_dominated i hi j hj'
    · exact (mem_front hfront i hi).2 j hj'

omit [Analysis K] [ExactOrder K] in
theorem front_ne_nil (hne : remaining ≠ [])
    (hfront : front.Perm (remaining.filter fun i => ∀ j ∈ remaining, ¬ IndexDominates mu se j i)) :
    front ≠ [] := by
  have hsome : remaining.toFinset.Nonempty := by
    obtain ⟨i, hi⟩ := List.exists_mem_of_ne_nil _ hne
    exact ⟨i, List.mem_toFinset.mpr hi⟩
  have hlayer : (undominated (IndexDominates mu se) remaining.toFinset).Nonempty :=
    undominated_nonempty hsome
  obtain ⟨i, hi⟩ := hlayer
  simp only [mem_undominated, List.mem_toFinset] at hi
  have hmem : i ∈ front := hfront.mem_iff.mpr (List.mem_filter.mpr ⟨hi.1, decide_eq_true hi.2⟩)
  exact List.ne_nil_of_mem hmem

/-- The loop over the fronts chooses the arms; every round takes a front that is not empty. -/
theorem keepFronts_eq_ok (hfinite : Finite2 mu se) (seed : UInt64) {fuel : ℕ}
    (h : Choosing mu se iKeep remaining) (hle : iKeep.length ≤ numArms)
    (hfuel : remaining.length < fuel) :
    ∃ arms, keepFronts mu se numArms seed fuel iKeep remaining = .ok arms ∧
      Chosen mu se numArms arms := by
  induction fuel generalizing iKeep remaining with
  | zero => omega
  | succ fuel ih =>
    have hlength : iKeep.length + remaining.length = mu.length := by
      rw [← List.length_append, h.perm.length_eq, List.length_range]
    unfold keepFronts
    split
    next hstop =>
      have hmin : (iKeep ++ []).length = min numArms mu.length := by
        rw [List.append_nil]
        rcases hstop with rfl | hfull
        · rw [List.length_nil] at hlength
          omega
        · omega
      refine ⟨iKeep, rfl, ?_⟩
      rw [← List.append_nil iKeep]
      exact h.chosen (.refl _) (by rintro i ⟨⟩) hmin
    next hgo =>
      push Not at hgo
      obtain ⟨front, hok, hfront⟩ := paretoFront2dMaximize_eq_ok hfinite h.lt_length
      have hsorted := (List.perm_insertionSort (MuOrder mu) front).trans hfront
      have hne := front_ne_nil hgo.1 hfront
      rw [hok]
      change ∃ arms, (if front = [] then _ else _) = _ ∧ _
      rw [if_neg hne]
      split
      next hfits =>
        apply ih (h.append hsorted)
        · rwa [List.length_append]
        · obtain ⟨i, hi⟩ := List.exists_mem_of_ne_nil _ hne
          have hi' : i ∈ front.insertionSort (MuOrder mu) := (List.mem_insertionSort _).mpr hi
          have hlt : (remaining.filter fun i => i ∉ front.insertionSort (MuOrder mu)).length <
              remaining.length :=
            List.length_filter_lt_length_iff_exists.mpr
              ⟨i, (mem_front hfront i hi).1, by simpa using hi'⟩
          omega
      next hover =>
        obtain ⟨selected, rest, hselected, hk, hperm⟩ := deterministicChoice_eq_ok
          (front.insertionSort (MuOrder mu)) (numArms - iKeep.length) seed
        have hrest := (hperm.append_right _).trans (front_append_perm hsorted)
        rw [List.append_assoc] at hrest
        refine ⟨iKeep ++ selected, by rw [hselected]; rfl, h.chosen hrest ?_ ?_⟩
        · intro i hi
          exact (mem_front hsorted i (hperm.mem_iff.mp (List.mem_append_left _ hi))).2
        · have hsub := (front_append_perm hsorted).length_eq
          rw [List.length_append] at hsub
          rw [List.length_append, hk]
          omega

theorem muOrder_iff {i j : ℕ} : MuOrder mu i j ↔ mu.getD j 0 ≤ mu.getD i 0 := by
  unfold MuOrder
  rw [ExactOrder.totalCmp_eq, Ne, compare_gt_iff_gt, not_lt]

instance (mu : List K) : Std.Total (MuOrder mu) where
  total i j := by
    simp only [muOrder_iff]
    exact le_total _ _

instance (mu : List K) : IsTrans ℕ (MuOrder mu) where
  trans i j k := by
    simp only [muOrder_iff]
    exact fun hij hjk => hjk.trans hij

omit [Analysis K] [ExactOrder K] in
theorem Chosen.perm {arms arms' : List ℕ} (h : Chosen mu se numArms arms)
    (hperm : arms'.Perm arms) : Chosen mu se numArms arms' where
  length_eq := hperm.length_eq.trans h.length_eq
  nodup := hperm.nodup_iff.mpr h.nodup
  lt_length i hi := h.lt_length i (hperm.mem_iff.mp hi)
  not_dominated i hi j hj hnot :=
    h.not_dominated i (hperm.mem_iff.mp hi) j hj fun hmem => hnot (hperm.mem_iff.mpr hmem)

omit [Analysis K] [ExactOrder K] in
theorem chosen_nil (h : mu.length = 0 ∨ numArms = 0) : Chosen mu se numArms [] where
  length_eq := by rw [List.length_nil]; omega
  nodup := List.nodup_nil
  lt_length := by rintro i ⟨⟩
  not_dominated := by rintro i ⟨⟩

theorem armsFromParetoFronts_eq_ok (hfinite : Finite2 mu se) (numArms : ℕ) (seed : UInt64)
    {fuel : ℕ} (hfuel : mu.length < fuel) :
    ∃ arms, armsFromParetoFronts fuel mu se numArms seed = .ok arms ∧
      Chosen mu se numArms arms ∧ arms.Pairwise fun i j => mu.getD j 0 ≤ mu.getD i 0 := by
  unfold armsFromParetoFronts
  split
  next hnone => exact ⟨[], rfl, chosen_nil hnone, .nil⟩
  next =>
    obtain ⟨arms, harms, hchosen⟩ := keepFronts_eq_ok hfinite seed choosing_start
      (Nat.zero_le numArms) (by rwa [List.length_range])
    refine ⟨arms.insertionSort (MuOrder mu), by rw [harms]; rfl,
      hchosen.perm (List.perm_insertionSort _ _), ?_⟩
    exact (List.pairwise_insertionSort (MuOrder mu) arms).imp fun h => muOrder_iff.mp h

/-- The front of a subset is made of its undominated indices, and the arms of the fronts are as
many as wanted, descend in mean, and are dominated by no index that is left out. -/
theorem paretoArms (hfinite : Finite2 mu se) :
    (∀ (idx : Option (List ℕ)) (indices : List ℕ), indices = idx.getD (List.range mu.length) →
      (∀ i ∈ indices, i < mu.length) → ∃ front, paretoFront2dMaximize mu se idx = .ok front ∧
        front.Perm (indices.filter fun i => ∀ j ∈ indices, ¬ IndexDominates mu se j i)) ∧
    ∀ (numArms : ℕ) (seed : UInt64) (fuel : ℕ), mu.length < fuel →
      ∃ arms, armsFromParetoFronts fuel mu se numArms seed = .ok arms ∧
        Chosen mu se numArms arms ∧ arms.Pairwise fun i j => mu.getD j 0 ≤ mu.getD i 0 := by
  constructor
  · rintro idx indices rfl hindices
    cases idx with
    | none => exact paretoFront2dMaximize_eq_ok hfinite hindices
    | some indices => exact paretoFront2dMaximize_eq_ok hfinite hindices
  · intro numArms seed fuel hfuel
    exact armsFromParetoFronts_eq_ok hfinite numArms seed hfuel

theorem paretoArms_three :
    ∃ arms, armsFromParetoFronts 4 ([1, 2, 1] : List ℚ) [3, 1, 2] 2 7 = .ok arms ∧
      Chosen ([1, 2, 1] : List ℚ) [3, 1, 2] 2 arms ∧
      arms.Pairwise fun i j => ([1, 2, 1] : List ℚ).getD j 0 ≤ ([1, 2, 1] : List ℚ).getD i 0 := by
  have hfinite : Finite2 ([1, 2, 1] : List ℚ) [3, 1, 2] := by
    constructor
    · rfl
    · decide +kernel
    · decide +kernel
  exact (paretoArms hfinite).2 2 7 4 (by decide)

end Exact

end Ennbo
