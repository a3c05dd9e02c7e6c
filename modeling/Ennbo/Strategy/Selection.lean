import Ennbo.Acquisition.Pareto
import Ennbo.Strategy.Candidates
import Ennbo.TrustRegion.Optimizer
import Ennbo.TrustRegion.Ranges

/-! # Arms of segments

The candidates of all regions are scored in one pass of the surrogate. Each
region has a segment of them and a number of arms, which are chosen within the
segment: at random, by the bound on the mean, by a draw of the posterior or by
Pareto fronts.
-/

namespace Ennbo

open RandomGenerator

section Definitions

variable {D ρ : Type}

/-- An array of three dimensions, given by its rows along the last one. -/
structure Array3 (D : Type) where
  outer : ℕ
  inner : ℕ
  flat : Array2 D
  size : flat.nrows = outer * inner

/-- What a strategy asks of a surrogate: means and errors, and draws of functions. -/
structure Surrogate (D ρ : Type) where
  predict : Array2 D → Outcome (Array2 D × Array2 D)
  sample : Array2 D → ℕ → Call ρ (Array3 D)
  lengthscales : Option (List D)

inductive AcquisitionConfig (D : Type) where
  | ucb (beta : D)
  | thompson
  | random
  | pareto

/-- The candidates of a region, and how many of them become arms. -/
structure CandidateSegment where
  start : ℕ
  stop : ℕ
  arms : ℕ
  region : ℕ

namespace CandidateSegment

def len (segment : CandidateSegment) : ℕ := segment.stop - segment.start

end CandidateSegment

namespace AcquisitionError

def toString : AcquisitionError → String
  | invalidParameter message => s!"Invalid parameter: {message}"
  | noCandidates => "No candidates available"

/-- Errors of an acquisition are passed on by their text. -/
def orInvalid {α : Type} : Except AcquisitionError α → Outcome α
  | .ok a => pure a
  | .error e => throw (.error (.invalidParameter e.toString))

end AcquisitionError

/-- `a.column(0)` -/
def Array2.zerothColumn [Zero D] (a : Array2 D) : List D := a.rows.map fun row => row.getD 0 0

variable [Floating D] [Analysis D]

namespace MorboTrustRegion

def scalarize (m : MorboTrustRegion D) (y : Array2 D) (clip : Bool) :
    Except TrustRegionError (List D) :=
  match m.yMin, m.yMax with
  | some yMin, some yMax => scalarizeWithRanges y yMin yMax m.weights m.alpha m.numMetrics clip
  | _, _ => throw (.invalidState "scalarize called before observations")

end MorboTrustRegion

/-- The mean and a multiple of the error; matrices of two shapes panic. -/
def ucbValues (mu se : Array2 D) (beta : D) : Outcome (Array2 D) :=
  if h : mu.nrows = se.nrows ∧ mu.ncols = se.ncols then
    pure ((mu.zip se h.2).mapCols fun _ p => p.1 + p.2 * beta)
  else throw .panic

def ucbScores (tr : TrustRegionState D) (mu se : Array2 D) (beta : D) : Outcome (List D) := do
  let values ← ucbValues mu se beta
  match tr with
  | .morbo m => MorboTrustRegion.ofExcept (m.scalarize values false)
  | .turbo _ => return values.zerothColumn

/-- The scores of the candidates in each draw; a TuRBO region uses the first draw only. -/
def thompsonScores (tr : TrustRegionState D) (samples : Array3 D) (maxArms n : ℕ) :
    Outcome (List (List D)) :=
  match tr with
  | .morbo m => do
    if samples.flat.nrows ≠ maxArms * n then
      throw (.error (.invalidParameter "ShapeError/IncompatibleShape: incompatible shapes"))
    else
      let scalar ← MorboTrustRegion.ofExcept (m.scalarize samples.flat false)
      return (List.range maxArms).map fun arm => (scalar.drop (arm * n)).take n
  | .turbo _ =>
    if samples.outer = 0 ∨ samples.flat.ncols = 0 ∨ samples.inner ≠ n then throw .panic
    else
      pure (samples.flat.zerothColumn.take n ::
        List.replicate (maxArms - 1) (List.replicate n 0))

variable [RandomGenerator D ρ]

def argmaxRandomTie (values : List D) : Call ρ ℕ :=
  if values.length = 0 then return 0
  else
    let maxVal := values.foldl max negInfinity
    let ties := (List.range values.length).filter fun i => leB maxVal (values.getD i 0)
    if ties.length = 0 then genUpTo (values.length - 1)
    else if ties.length = 1 then return ties.getD 0 0
    else do
      let t ← genUpTo (ties.length - 1)
      return ties.getD t 0

/-- Choose in each segment. -/
def selectSegments (choose : CandidateSegment → Call ρ (List ℕ))
    (segments : List CandidateSegment) : Call ρ (List ℕ) :=
  List.flatten <$> segments.mapM choose

/-- A choice of places within a segment. -/
def within (choose : CandidateSegment → Call ρ (List ℕ)) (segment : CandidateSegment) :
    Call ρ (List ℕ) :=
  (fun chosen => chosen.map fun index => segment.start + index) <$> choose segment

namespace RandomAcquisition

def select (nCandidates numArms : ℕ) : Call ρ (List ℕ) :=
  if nCandidates = 0 then
    .ofOutcome (AcquisitionError.orInvalid (.error .noCandidates))
  else (fun indices => indices.take numArms) <$> shuffled (List.range nCandidates)

end RandomAcquisition

def selectSegmentedRandom (segments : List CandidateSegment) : Call ρ (List ℕ) :=
  selectSegments (within fun segment => RandomAcquisition.select segment.len segment.arms) segments

/-- One arm after the other; places that are chosen score negative infinity. -/
def thompsonStep (scores : List (List D)) (morbo : Bool) (segment : CandidateSegment)
    (chosen : List ℕ) (arm : ℕ) : Call ρ (List ℕ) := do
  let row := scores.getD (if morbo then arm else 0) []
  let values := (row.drop segment.start).take segment.len
  let next ← argmaxRandomTie (chosen.foldl (fun values previous => values.set previous negInfinity)
    values)
  return chosen ++ [next]

def thompsonSegment (scores : List (List D)) (morbo : Bool) (segment : CandidateSegment) :
    Call ρ (List ℕ) :=
  (List.range segment.arms).foldlM (thompsonStep scores morbo segment) []

def maxArms (segments : List CandidateSegment) : ℕ :=
  (segments.map CandidateSegment.arms).max?.getD 1

def selectSegmentedThompson (tr : TrustRegionState D) (surrogate : Surrogate D ρ)
    (candidates : Array2 D) (segments : List CandidateSegment) : Call ρ (List ℕ) := do
  let samples ← surrogate.sample candidates (maxArms segments)
  let scores ← .ofOutcome (thompsonScores tr samples (maxArms segments) candidates.nrows)
  selectSegments (within (thompsonSegment scores tr.isMorbo)) segments

/-- The best of a segment, with ties in the order of a shuffle. -/
def ucbSegment (scores : List D) (segment : CandidateSegment) : Call ρ (List ℕ) :=
  (fun indices => (indices.insertionSort (MuOrder scores)).take segment.arms) <$>
    shuffled (List.range' segment.start segment.len)

def selectSegmentedUcb (tr : TrustRegionState D) (surrogate : Surrogate D ρ)
    (candidates : Array2 D) (segments : List CandidateSegment) (beta : D) : Call ρ (List ℕ) := do
  let prediction ← .ofOutcome (surrogate.predict candidates)
  let scores ← .ofOutcome (ucbScores tr prediction.1 prediction.2 beta)
  selectSegments (ucbSegment scores) segments

/-- The rows of a segment. -/
def Array2.segment (a : Array2 D) (segment : CandidateSegment) : Array2 D where
  ncols := a.ncols
  rows := (a.rows.drop segment.start).take segment.len
  width := fun row hrow => a.width row (List.mem_of_mem_drop (List.mem_of_mem_take hrow))

namespace ParetoAcquisition

/-- Fronts are taken in full until one does not fit, which is shuffled by the generator. -/
def drawFronts (numArms : ℕ) : List ℕ → List (List ℕ) → Call ρ (List ℕ)
  | selected, [] => return selected
  | selected, front :: fronts =>
    if numArms ≤ selected.length then return selected
    else
      let remaining := numArms - selected.length
      if front.length ≤ remaining then drawFronts numArms (selected ++ front) fronts
      else do
        let frontIndices ← shuffled front
        drawFronts numArms (selected ++ frontIndices.take remaining) fronts

/-- A selection that draws its seed or its shuffle from the generator. -/
def drawSelect (fuel : ℕ) (mu se : Array2 D) (numArms : ℕ) :
    Call ρ (Except AcquisitionError (List ℕ)) :=
  if mu.nrows = 0 then return .error .noCandidates
  else if numArms = 0 then return .ok []
  else if mu.shape ≠ se.shape then
    return .error (.invalidParameter s!"mu shape {mu.shape} does not match se shape {se.shape}")
  else if mu.ncols = 1 then do
    let seed ← genWord
    Call.ofOutcome (armsFromParetoFronts2d fuel seed mu.zerothColumn se.zerothColumn numArms)
  else do
    let paretoFronts ← Call.ofOutcome (nonDominSort fuel mu)
    let selected ← drawFronts numArms [] paretoFronts
    return .ok selected

end ParetoAcquisition

def paretoSegment (fuel : ℕ) (mu se : Array2 D) (segment : CandidateSegment) :
    Call ρ (List ℕ) := do
  let chosen ← ParetoAcquisition.drawSelect fuel (mu.segment segment) (se.segment segment)
    segment.arms
  Call.ofOutcome (AcquisitionError.orInvalid chosen)

def selectSegmentedPareto (fuel : ℕ) (surrogate : Surrogate D ρ) (candidates : Array2 D)
    (segments : List CandidateSegment) : Call ρ (List ℕ) := do
  let prediction ← .ofOutcome (surrogate.predict candidates)
  selectSegments (within (paretoSegment fuel prediction.1 prediction.2)) segments

def selectSegmentedArms (fuel : ℕ) (config : AcquisitionConfig D) (tr : TrustRegionState D)
    (surrogate : Option (Surrogate D ρ)) (candidates : Array2 D)
    (segments : List CandidateSegment) : Call ρ (List ℕ) :=
  match surrogate, config with
  | none, _ => selectSegmentedRandom segments
  | some _, .random => selectSegmentedRandom segments
  | some surrogate, .thompson => selectSegmentedThompson tr surrogate candidates segments
  | some surrogate, .ucb beta => selectSegmentedUcb tr surrogate candidates segments beta
  | some surrogate, .pareto => selectSegmentedPareto fuel surrogate candidates segments

end Definitions

/-- As many distinct candidates of a segment as it has arms, none of which is worse than one that is
left out. -/
structure Picks (worse : ℕ → ℕ → ℕ → Prop) (segment : CandidateSegment) (chosen : List ℕ) :
    Prop where
  length_eq : chosen.length = segment.arms
  nodup : chosen.Nodup
  mem : ∀ i ∈ chosen, segment.start ≤ i ∧ i < segment.stop
  best : ∀ k i, chosen[k]? = some i → ∀ j, segment.start ≤ j → j < segment.stop → j ∉ chosen →
    ¬ worse k i j

def CandidateSegment.Ample (segment : CandidateSegment) : Prop := segment.arms ≤ segment.len

def CandidateSegment.places (segment : CandidateSegment) : CandidateSegment :=
  ⟨0, segment.len, segment.arms, segment.region⟩

section Picks

variable {worse : ℕ → ℕ → ℕ → Prop} {segment : CandidateSegment} {chosen : List ℕ}

theorem Picks.shift
    (h : Picks (fun k i j => worse k (segment.start + i) (segment.start + j)) segment.places
      chosen) :
    Picks worse segment (chosen.map fun index => segment.start + index) where
  length_eq := (List.length_map _).trans h.length_eq
  nodup := h.nodup.map fun _ _ => Nat.add_left_cancel
  mem i hi := by
    obtain ⟨index, hmem, rfl⟩ := List.mem_map.mp hi
    have hlt := (h.mem index hmem).2
    simp only [CandidateSegment.places, CandidateSegment.len] at hlt
    omega
  best k i hk j hstart hstop hj := by
    rw [List.getElem?_map, Option.map_eq_some_iff] at hk
    obtain ⟨index, hindex, rfl⟩ := hk
    have hj' : j = segment.start + (j - segment.start) := by omega
    have hnot : j - segment.start ∉ chosen := fun hmem =>
      hj (hj' ▸ List.mem_map_of_mem hmem)
    have hbest := h.best k index hindex (j - segment.start) (Nat.zero_le _)
      (by simp only [CandidateSegment.places, CandidateSegment.len]; omega) hnot
    rwa [← hj'] at hbest

theorem Picks.mono {worse' : ℕ → ℕ → ℕ → Prop} (h : Picks worse segment chosen)
    (himp : ∀ k i j, worse' k i j → worse k i j) : Picks worse' segment chosen where
  length_eq := h.length_eq
  nodup := h.nodup
  mem := h.mem
  best k i hk j hstart hstop hj hworse := h.best k i hk j hstart hstop hj (himp k i j hworse)

/-- The front of an ordered arrangement of the candidates. -/
theorem picks_take (hample : segment.Ample) {sorted : List ℕ}
    (hperm : sorted.Perm (List.range' segment.start segment.len))
    (hsorted : sorted.Pairwise fun i j => ∀ k, ¬ worse k i j) :
    Picks worse segment (sorted.take segment.arms) := by
  have hlen : sorted.length = segment.len := by simpa using hperm.length_eq
  have hnodup : sorted.Nodup := hperm.nodup_iff.mpr (List.nodup_range' ..)
  have hmem : ∀ i, i ∈ sorted ↔ segment.start ≤ i ∧ i < segment.stop := by
    intro i
    rw [hperm.mem_iff, List.mem_range'_1]
    unfold CandidateSegment.len
    omega
  refine ⟨?_, hnodup.sublist (List.take_sublist _ _), ?_, ?_⟩
  · rw [List.length_take, hlen]
    exact min_eq_left hample
  · intro i hi
    exact (hmem i).mp (List.mem_of_mem_take hi)
  · intro k i hk j hstart hstop hj
    have hdrop : j ∈ sorted.drop segment.arms := by
      have hin : j ∈ sorted.take segment.arms ++ sorted.drop segment.arms := by
        rw [List.take_append_drop]
        exact (hmem j).mpr ⟨hstart, hstop⟩
      exact (List.mem_append.mp hin).resolve_left hj
    rw [← List.take_append_drop segment.arms sorted, List.pairwise_append] at hsorted
    exact hsorted.2.2 i (List.mem_of_getElem? hk) j hdrop k

end Picks

section Exact

variable {K ρ : Type} [ExactArith K] [Analysis K] [ExactOrder K] [RandomGenerator K ρ]
  [LawfulGenerator K ρ] {E : Failure → Prop} {segment : CandidateSegment}

theorem ends_selectSegments {worse : ℕ → ℕ → ℕ → Prop}
    {choose : CandidateSegment → Call ρ (List ℕ)} {segments : List CandidateSegment}
    (h : ∀ segment ∈ segments, Call.Ends (fun _ => True) E (choose segment) (Picks worse segment)) :
    Call.Ends (fun _ => True) E (selectSegments choose segments) fun indices =>
      ∃ parts, indices = parts.flatten ∧ List.Forall₂ (Picks worse) segments parts := by
  unfold selectSegments
  apply (Call.ends_mapM h).map
  intro parts hparts
  exact ⟨parts, rfl, hparts⟩

theorem ends_within {worse : ℕ → ℕ → ℕ → Prop} {choose : CandidateSegment → Call ρ (List ℕ)}
    (h : Call.Ends (fun _ => True) E (choose segment)
      (Picks (fun k i j => worse k (segment.start + i) (segment.start + j)) segment.places)) :
    Call.Ends (fun _ => True) E (within choose segment) (Picks worse segment) := by
  unfold within
  exact h.map fun _ hchosen => hchosen.shift

omit [Analysis K] [ExactOrder K] in
theorem ends_random (hample : segment.Ample) (hpos : 0 < segment.len) :
    Call.Ends (fun _ => True) E
      (within (fun segment => RandomAcquisition.select segment.len segment.arms) segment :
        Call ρ (List ℕ)) (Picks (fun _ _ _ => False) segment) := by
  apply ends_within
  unfold RandomAcquisition.select
  rw [if_neg hpos.ne']
  apply (ends_shuffled _).map
  intro indices hperm
  have hample' : segment.places.Ample := hample
  apply picks_take hample'
  · exact hperm.trans (.of_eq List.range_eq_range')
  · exact List.pairwise_of_forall fun _ _ _ => id

theorem ends_ucbSegment (hample : segment.Ample) (scores : List K) :
    Call.Ends (fun _ => True) E (ucbSegment scores segment : Call ρ (List ℕ))
      (Picks (fun _ i j => scores.getD i 0 < scores.getD j 0) segment) := by
  unfold ucbSegment
  apply (ends_shuffled _).map
  intro indices hperm
  apply picks_take hample ((List.perm_insertionSort _ _).trans hperm)
  apply (List.pairwise_insertionSort (MuOrder scores) indices).imp
  intro i j hij _
  exact not_lt.mpr (muOrder_iff.mp hij)

section Argmax

variable {values : List K}

omit [ExactOrder K] in
/-- The place of a greatest value is drawn, if a value is above negative infinity. -/
theorem ends_argmaxRandomTie (hsome : ∃ v ∈ values, negInfinity < v) :
    Call.Ends (fun _ => True) E (argmaxRandomTie values : Call ρ ℕ) fun i =>
      i < values.length ∧ ∀ v ∈ values, v ≤ values.getD i 0 := by
  obtain ⟨v₀, hv₀, hlt⟩ := hsome
  have hpos : values.length ≠ 0 := List.length_pos_of_mem hv₀ |>.ne'
  have hgreatest : IsGreatest {v | v = negInfinity ∨ v ∈ values} (values.foldl max negInfinity) :=
    Paired.isLeast_foldl_min (α := Kᵒᵈ) _ _
  obtain ⟨hmem, hbound⟩ := hgreatest
  have hle : ∀ v ∈ values, v ≤ values.foldl max negInfinity := fun v hv => hbound (.inr hv)
  have hmax : values.foldl max negInfinity ∈ values := by
    rcases hmem with heq | hmem
    · exact absurd ((hle v₀ hv₀).trans_eq heq) (not_le.mpr hlt)
    · exact hmem
  unfold argmaxRandomTie
  rw [if_neg hpos]
  dsimp only
  generalize hm : values.foldl max negInfinity = maxVal at hle hmax
  generalize hties :
    (List.range values.length).filter (fun i => leB maxVal (values.getD i 0)) = ties
  have hgood : ∀ i ∈ ties, i < values.length ∧ ∀ v ∈ values, v ≤ values.getD i 0 := by
    intro i hi
    rw [← hties, List.mem_filter, List.mem_range, leB_exact, decide_eq_true_eq] at hi
    exact ⟨hi.1, fun v hv => (hle v hv).trans hi.2⟩
  have hne : ties.length ≠ 0 := by
    obtain ⟨i, hi, hget⟩ := List.getElem_of_mem hmax
    have hin : i ∈ ties := by
      rw [← hties, List.mem_filter, List.mem_range, leB_exact, decide_eq_true_eq,
        List.getD_eq_getElem _ _ hi, hget]
      exact ⟨hi, le_rfl⟩
    exact (List.length_pos_of_mem hin).ne'
  rw [if_neg hne]
  have hget : ∀ t, t < ties.length → ties.getD t 0 ∈ ties := by
    intro t ht
    rw [List.getD_eq_getElem _ _ ht]
    exact List.getElem_mem ht
  apply Call.ends_ite
  · intro _
    exact Call.ends_pure (hgood _ (hget 0 (by omega)))
  · intro _
    apply (ends_genUpTo _).bind
    intro t ht
    exact Call.ends_pure (hgood _ (hget t (by omega)))

end Argmax

section Thompson

variable {row : List K} {n : ℕ} {chosen : List ℕ}

omit [ExactOrder K] in
theorem getD_foldl_set (chosen : List ℕ) (values : List K) (i : ℕ) (hi : i < values.length) :
    (chosen.foldl (fun values previous => values.set previous negInfinity) values).getD i 0 =
      if i ∈ chosen then negInfinity else values.getD i 0 := by
  induction chosen generalizing values with
  | nil => simp
  | cons p chosen ih =>
    rw [List.foldl_cons, ih _ (by simpa using hi)]
    by_cases hmem : i ∈ chosen
    · simp [hmem]
    · by_cases hp : p = i
      · subst hp
        simp [hmem, List.getD_eq_getElem?_getD, List.getElem?_set_self hi]
      · rw [getD_set_of_ne values _ hp]
        have hne : i ≠ p := fun h => hp h.symm
        simp [hmem, hne]

omit [ExactArith K] [ExactOrder K] in
theorem length_foldl_set (chosen : List ℕ) (values : List K) :
    (chosen.foldl (fun values previous => values.set previous negInfinity) values).length =
      values.length := by
  induction chosen generalizing values with
  | nil => rfl
  | cons p chosen ih =>
    rw [List.foldl_cons, ih]
    exact List.length_set

/-- The arms so far: distinct places, each the best in its row when it was chosen. -/
structure Picking (rowOf : ℕ → List K) (n : ℕ) (chosen : List ℕ) : Prop where
  nodup : chosen.Nodup
  lt : ∀ i ∈ chosen, i < n
  best : ∀ k i, chosen[k]? = some i → ∀ j < n, j ∉ chosen →
    (rowOf k).getD j 0 ≤ (rowOf k).getD i 0

omit [ExactOrder K] in
/-- The next arm is the best of the places that are left. -/
theorem Picking.next {rowOf : ℕ → List K} (h : Picking rowOf n chosen) (hroom : chosen.length < n)
    (hlen : (rowOf chosen.length).length = n)
    (hfinite : ∀ v ∈ rowOf chosen.length, negInfinity < v) :
    Call.Ends (fun _ => True) E (argmaxRandomTie (chosen.foldl
      (fun values previous => values.set previous negInfinity) (rowOf chosen.length)) : Call ρ ℕ)
      fun i => Picking rowOf n (chosen ++ [i]) := by
  obtain ⟨j₀, hj₀, hnot₀⟩ : ∃ j < n, j ∉ chosen := by
    by_contra hall
    push Not at hall
    have hsub : List.range n ⊆ chosen := fun j hj => hall j (List.mem_range.mp hj)
    have hle := (List.nodup_range.subperm hsub).length_le
    rw [List.length_range] at hle
    omega
  have hget : ∀ j < n, (chosen.foldl (fun values previous => values.set previous negInfinity)
      (rowOf chosen.length)).getD j 0 =
        if j ∈ chosen then negInfinity else (rowOf chosen.length).getD j 0 :=
    fun j hj => getD_foldl_set chosen _ j (hlen.symm ▸ hj)
  have hcount := length_foldl_set chosen (rowOf chosen.length)
  generalize chosen.foldl (fun values previous => values.set previous negInfinity)
    (rowOf chosen.length) = values at hget hcount ⊢
  rw [hlen] at hcount
  have habove : ∀ j < n, negInfinity < (rowOf chosen.length).getD j 0 := by
    intro j hj
    rw [List.getD_eq_getElem _ _ (hlen.symm ▸ hj)]
    exact hfinite _ (List.getElem_mem _)
  have hmem : ∀ j < n, values.getD j 0 ∈ values := by
    intro j hj
    rw [List.getD_eq_getElem _ _ (hcount.symm ▸ hj)]
    exact List.getElem_mem _
  have hfree : values.getD j₀ 0 = (rowOf chosen.length).getD j₀ 0 := by
    rw [hget j₀ hj₀, if_neg hnot₀]
  apply (ends_argmaxRandomTie ⟨_, hmem j₀ hj₀, hfree ▸ habove j₀ hj₀⟩).mono
  rintro i ⟨hi, hmax⟩
  rw [hcount] at hi
  have hnot : i ∉ chosen := by
    intro hin
    have hle := hmax _ (hmem j₀ hj₀)
    rw [hfree, hget i hi, if_pos hin] at hle
    exact absurd hle (not_le.mpr (habove j₀ hj₀))
  refine ⟨?_, ?_, ?_⟩
  · exact h.nodup.append (List.nodup_singleton i) (by simpa using hnot)
  · intro j hj
    rcases List.mem_append.mp hj with hj | hj
    · exact h.lt j hj
    · exact List.mem_singleton.mp hj ▸ hi
  · intro k p hp j hj hjnot
    rw [List.mem_append, List.mem_singleton, not_or] at hjnot
    rcases lt_trichotomy k chosen.length with hk | rfl | hk
    · rw [List.getElem?_append_left hk] at hp
      exact h.best k p hp j hj hjnot.1
    · rw [List.getElem?_concat_length] at hp
      obtain rfl := Option.some.inj hp
      have hle := hmax _ (hmem j hj)
      rwa [hget j hj, if_neg hjnot.1, hget i hi, if_neg hnot] at hle
    · rw [List.getElem?_eq_none (by rw [List.length_append]; exact hk)] at hp
      cases hp

def scoresOf (scores : List (List K)) (morbo : Bool) (arm : ℕ) : List K :=
  scores.getD (if morbo then arm else 0) []

/-- Every arm has a row of scores above negative infinity. -/
def Scored (scores : List (List K)) (morbo : Bool) (arms n : ℕ) : Prop :=
  ∀ arm < arms, (scoresOf scores morbo arm).length = n ∧
    ∀ v ∈ scoresOf scores morbo arm, negInfinity < v

omit [ExactOrder K] in
/-- A draw decides between candidates. -/
theorem ends_thompsonSegment {scores : List (List K)} {morbo : Bool} {total : ℕ}
    (hscored : Scored scores morbo segment.arms total) (hample : segment.Ample)
    (hstop : segment.stop ≤ total) :
    Call.Ends (fun _ => True) E (within (thompsonSegment scores morbo) segment : Call ρ (List ℕ))
      (Picks (fun k i j => (scoresOf scores morbo k).getD i 0 < (scoresOf scores morbo k).getD j 0)
        segment) := by
  apply ends_within
  have hlen : ∀ arm < segment.arms,
      (((scoresOf scores morbo arm).drop segment.start).take segment.len).length = segment.len := by
    intro arm harm
    rw [List.length_take, List.length_drop, (hscored arm harm).1]
    unfold CandidateSegment.len
    omega
  have hloop : ∀ m ≤ segment.arms, Call.Ends (fun _ => True) E
      ((List.range m).foldlM (thompsonStep scores morbo segment) [] : Call ρ (List ℕ)) fun chosen =>
        chosen.length = m ∧ Picking
          (fun arm => ((scoresOf scores morbo arm).drop segment.start).take segment.len)
          segment.len chosen := by
    intro m hm
    induction m with
    | zero => exact Call.ends_pure ⟨rfl, List.nodup_nil, by simp, by simp⟩
    | succ m ih =>
      rw [List.range_succ, List.foldlM_append]
      apply (ih (by omega)).bind
      rintro chosen ⟨rfl, hpicking⟩
      rw [List.foldlM_cons]
      unfold thompsonStep
      simp only [bind_assoc]
      have hnext := hpicking.next (E := E) (ρ := ρ) (hm.trans hample) (hlen _ hm) (by
        intro v hv
        exact (hscored _ hm).2 v (List.mem_of_mem_drop (List.mem_of_mem_take hv)))
      apply hnext.bind
      intro i hi
      exact Call.ends_pure ⟨by simp, hi⟩
  apply (hloop segment.arms le_rfl).mono
  rintro chosen ⟨hcount, hpicking⟩
  refine ⟨hcount, hpicking.nodup, fun i hi => ⟨Nat.zero_le _, hpicking.lt i hi⟩, ?_⟩
  intro k i hk j _ hj hnot
  have harm : k < segment.arms := by
    have := (List.getElem?_eq_some_iff.mp hk).1
    omega
  have hi := hpicking.lt i (List.mem_of_getElem? hk)
  have hget : ∀ p < segment.len,
      (((scoresOf scores morbo k).drop segment.start).take segment.len).getD p 0 =
        (scoresOf scores morbo k).getD (segment.start + p) 0 := by
    intro p hp
    simp [List.getD_eq_getElem?_getD, List.getElem?_take_of_lt hp, List.getElem?_drop]
  rw [← hget i hi, ← hget j hj]
  exact not_lt.mpr (hpicking.best k i hk j hj hnot)

end Thompson

section Pareto

omit [Analysis K] [ExactOrder K] in
theorem zerothColumn_segment (a : Array2 K) (segment : CandidateSegment) :
    (a.segment segment).zerothColumn = (a.zerothColumn.drop segment.start).take segment.len := by
  simp [Array2.segment, Array2.zerothColumn, List.map_drop, List.map_take]

omit [ExactArith K] [Analysis K] [ExactOrder K] in
theorem nrows_segment {a : Array2 K} (h : segment.stop ≤ a.nrows) :
    (a.segment segment).nrows = segment.len := by
  unfold Array2.nrows at h ⊢
  unfold Array2.segment
  rw [List.length_take, List.length_drop]
  unfold CandidateSegment.len
  omega

omit [ExactArith K] [ExactOrder K] in
theorem Finite2.slice {a b : List K} (h : Finite2 a b) (start len : ℕ) :
    Finite2 ((a.drop start).take len) ((b.drop start).take len) where
  length_eq := by simp [h.length_eq]
  finite_left v hv := h.finite_left v (List.mem_of_mem_drop (List.mem_of_mem_take hv))
  finite_right v hv := h.finite_right v (List.mem_of_mem_drop (List.mem_of_mem_take hv))

omit [Analysis K] [ExactOrder K] in
theorem pointAt_segment (a b : List K) {start len i : ℕ} (hi : i < len) :
    pointAt ((a.drop start).take len) ((b.drop start).take len) i = pointAt a b (start + i) := by
  simp [pointAt, List.getD_eq_getElem?_getD, List.getElem?_take_of_lt hi, List.getElem?_drop]

omit [LawfulGenerator K ρ] in
/-- Dominance decides between candidates. -/
theorem ends_paretoSegment {mu se : Array2 K} (hmu : mu.ncols = 1) (hse : se.ncols = 1)
    (hrows : mu.nrows = se.nrows) (hfinite : Finite2 mu.zerothColumn se.zerothColumn)
    (hample : segment.Ample) (hpos : 0 < segment.arms) (hstop : segment.stop ≤ mu.nrows) {fuel : ℕ}
    (hfuel : mu.nrows < fuel) :
    Call.Ends (fun _ => True) E (within (paretoSegment fuel mu se) segment : Call ρ (List ℕ))
      (Picks (fun _ i j => IndexDominates mu.zerothColumn se.zerothColumn j i) segment) := by
  apply ends_within
  have hlen := nrows_segment hstop
  have hlen' := nrows_segment (hrows ▸ hstop)
  have hroom : 0 < segment.len := hpos.trans_le hample
  have hcolumn : ((mu.zerothColumn.drop segment.start).take segment.len).length = segment.len := by
    rw [← zerothColumn_segment, Array2.zerothColumn, List.length_map]
    exact hlen
  have hcols : (mu.segment segment).ncols = 1 := hmu
  have hshape : (mu.segment segment).shape = (se.segment segment).shape := by
    simp only [Array2.shape, hlen, hlen', hcols]
    exact congrArg (fun cols => [segment.len, cols]) hse.symm
  unfold paretoSegment ParetoAcquisition.drawSelect
  rw [if_neg (by omega), if_neg hpos.ne', if_neg (not_not.mpr hshape), if_pos hcols]
  simp only [bind_assoc]
  apply (RandomGenerator.ends_draw (P := fun _ => True) fun _ => trivial).bind
  intro seed _
  unfold ParetoAcquisition.armsFromParetoFronts2d
  rw [zerothColumn_segment, zerothColumn_segment, if_neg (by omega)]
  have hfuel' : ((mu.zerothColumn.drop segment.start).take segment.len).length < fuel := by
    rw [hcolumn]
    unfold CandidateSegment.len
    omega
  obtain ⟨arms, harms, hchosen, -⟩ := armsFromParetoFronts_eq_ok
    (hfinite.slice segment.start segment.len) (min segment.arms segment.len) seed hfuel'
  rw [hcolumn, harms]
  apply Call.ends_ok
  have hlt : ∀ i ∈ arms, i < segment.len := fun i hi => hcolumn ▸ hchosen.lt_length i hi
  have hcount : arms.length = segment.arms := by
    have hmin := hchosen.length_eq
    rw [hcolumn] at hmin
    unfold CandidateSegment.Ample at hample
    omega
  refine ⟨hcount, hchosen.nodup, fun i hi => ⟨Nat.zero_le _, hlt i hi⟩, ?_⟩
  intro k i hk j _ hj hnot hdom
  have hi : i < segment.len := hlt i (List.mem_of_getElem? hk)
  have hj : j < segment.len := hj
  apply hchosen.not_dominated i (List.mem_of_getElem? hk) j (hcolumn.symm ▸ hj) hnot
  unfold IndexDominates at hdom ⊢
  rwa [pointAt_segment _ _ hi, pointAt_segment _ _ hj]

end Pareto

section Segments

/-- Segments that follow one another. -/
def Consecutive : ℕ → List CandidateSegment → Prop
  | _, [] => True
  | offset, segment :: rest =>
    segment.start = offset ∧ offset ≤ segment.stop ∧ Consecutive segment.stop rest

variable {worse : ℕ → ℕ → ℕ → Prop} {segments : List CandidateSegment} {parts : List (List ℕ)}

theorem nodup_flatten_picks {offset : ℕ} (hsegments : Consecutive offset segments)
    (hpicks : List.Forall₂ (Picks worse) segments parts) :
    parts.flatten.Nodup ∧ ∀ i ∈ parts.flatten, offset ≤ i := by
  induction hpicks generalizing offset with
  | nil => simp
  | cons hpick _ ih =>
    obtain ⟨hstart, hle, hrest⟩ := hsegments
    obtain ⟨hnodup, hfrom⟩ := ih hrest
    rw [List.flatten_cons]
    constructor
    · apply hpick.nodup.append hnodup
      intro i hi hi'
      exact absurd (hpick.mem i hi).2 (not_lt.mpr (hfrom i hi'))
    · intro i hi
      rcases List.mem_append.mp hi with hi | hi
      · exact hstart ▸ (hpick.mem i hi).1
      · exact hle.trans (hfrom i hi)

/-- The segments of `n` candidates, each with an arm and room for its arms. -/
structure Allotted (n : ℕ) (segments : List CandidateSegment) : Prop where
  consecutive : Consecutive 0 segments
  arms_pos : ∀ segment ∈ segments, 0 < segment.arms
  ample : ∀ segment ∈ segments, segment.Ample
  stop_le : ∀ segment ∈ segments, segment.stop ≤ n

variable {n : ℕ}

omit [Analysis K] [ExactOrder K] in
theorem ends_selectSegmentedRandom (h : Allotted n segments) :
    Call.Ends (fun _ => True) E (selectSegmentedRandom segments : Call ρ (List ℕ)) fun indices =>
      ∃ parts, indices = parts.flatten ∧
        List.Forall₂ (Picks fun _ _ _ => False) segments parts :=
  ends_selectSegments fun segment hmem =>
    ends_random (h.ample segment hmem) ((h.arms_pos segment hmem).trans_le (h.ample segment hmem))

/-- In each segment the arms are the best candidates by the bound, by the draws or by dominance. -/
theorem ends_selections (h : Allotted n segments) :
    (∀ scores : List K, Call.Ends (fun _ => True) E
      (selectSegments (ucbSegment scores) segments : Call ρ (List ℕ)) fun indices =>
        ∃ parts, indices = parts.flatten ∧ List.Forall₂
          (Picks fun _ i j => scores.getD i 0 < scores.getD j 0) segments parts) ∧
    (∀ (scores : List (List K)) (morbo : Bool),
      (∀ segment ∈ segments, Scored scores morbo segment.arms n) →
      Call.Ends (fun _ => True) E
        (selectSegments (within (thompsonSegment scores morbo)) segments : Call ρ (List ℕ))
        fun indices => ∃ parts, indices = parts.flatten ∧ List.Forall₂
          (Picks fun k i j =>
            (scoresOf scores morbo k).getD i 0 < (scoresOf scores morbo k).getD j 0)
          segments parts) ∧
    ∀ (mu se : Array2 K) (fuel : ℕ), mu.ncols = 1 → se.ncols = 1 → mu.nrows = n → se.nrows = n →
      Finite2 mu.zerothColumn se.zerothColumn → n < fuel →
      Call.Ends (fun _ => True) E
        (selectSegments (within (paretoSegment fuel mu se)) segments : Call ρ (List ℕ))
        fun indices => ∃ parts, indices = parts.flatten ∧ List.Forall₂
          (Picks fun _ i j => IndexDominates mu.zerothColumn se.zerothColumn j i)
          segments parts := by
  refine ⟨?_, ?_, ?_⟩
  · intro scores
    exact ends_selectSegments fun segment hmem => ends_ucbSegment (h.ample segment hmem) scores
  · intro scores morbo hscored
    exact ends_selectSegments fun segment hmem =>
      ends_thompsonSegment (hscored segment hmem) (h.ample segment hmem) (h.stop_le segment hmem)
  · rintro mu se fuel hmu hse rfl hrows hfinite hfuel
    exact ends_selectSegments fun segment hmem =>
      ends_paretoSegment hmu hse hrows.symm hfinite (h.ample segment hmem)
        (h.arms_pos segment hmem) (h.stop_le segment hmem) hfuel

end Segments

section Surrogates

/-- A surrogate of one metric that answers with finite numbers, for rows of its dimensions. -/
structure Surrogate.Serves (surrogate : Surrogate K ρ) (numDim : ℕ) : Prop where
  predict : ∀ x : Array2 K, x.ncols = numDim → ∃ mu se, surrogate.predict x = .ok (mu, se) ∧
    mu.ncols = 1 ∧ se.ncols = 1 ∧ mu.nrows = x.nrows ∧ se.nrows = x.nrows ∧
      Finite2 mu.zerothColumn se.zerothColumn
  sample : ∀ (x : Array2 K) (k : ℕ), x.ncols = numDim →
    Call.Ends (fun _ => True) (fun _ => False) (surrogate.sample x k) fun samples =>
      samples.outer = k ∧ samples.inner = x.nrows ∧ samples.flat.ncols = 1 ∧
        ∀ v ∈ samples.flat.zerothColumn, isFinite v = true
  lengthscales : ∀ ls ∈ surrogate.lengthscales, ls.length = numDim ∧ ∀ v ∈ ls, 0 < v

variable {segments : List CandidateSegment} {candidates : Array2 K} {n : ℕ}

theorem maxArms_spec (h : Allotted n segments) (hne : segments ≠ []) :
    0 < maxArms segments ∧ ∀ segment ∈ segments, segment.arms ≤ maxArms segments := by
  have hmap : segments.map CandidateSegment.arms ≠ [] := by simpa using hne
  obtain ⟨m, hm⟩ : ∃ m, (segments.map CandidateSegment.arms).max? = some m :=
    Option.isSome_iff_exists.mp (by simpa using hmap)
  obtain ⟨hmem, hle⟩ := List.max?_eq_some_iff.mp hm
  obtain ⟨segment, hsegment, rfl⟩ := List.mem_map.mp hmem
  unfold maxArms
  rw [hm, Option.getD_some]
  exact ⟨h.arms_pos segment hsegment, fun other hother => hle _ (List.mem_map_of_mem hother)⟩

theorem thompsonScores_turbo (t : TurboTrustRegion K) {samples : Array3 K} {arms n : ℕ}
    (hpos : 0 < arms) (houter : samples.outer = arms) (hinner : samples.inner = n)
    (hcols : samples.flat.ncols = 1)
    (hfinite : ∀ v ∈ samples.flat.zerothColumn, isFinite v = true) :
    ∃ scores, thompsonScores (.turbo t) samples arms n = .ok scores ∧
      (∀ arm, scoresOf scores false arm = samples.flat.zerothColumn.take n) ∧
      ∀ m, Scored scores false m n := by
  have hsize : n ≤ samples.flat.zerothColumn.length := by
    have hrows : samples.flat.zerothColumn.length = arms * n := by
      rw [Array2.zerothColumn, List.length_map, ← houter, ← hinner]
      exact samples.size
    exact hrows ▸ Nat.le_mul_of_pos_left n hpos
  refine ⟨samples.flat.zerothColumn.take n :: List.replicate (arms - 1) (List.replicate n 0), ?_,
    fun _ => rfl, ?_⟩
  · unfold thompsonScores
    exact if_neg (by omega)
  · intro m arm _
    refine ⟨List.length_take_of_le hsize, fun v hv => ?_⟩
    exact ExactOrder.negInfinity_lt v (hfinite v (List.mem_of_mem_take hv))

omit [ExactOrder K] [Analysis K] in
theorem getD_zerothColumn (a : Array2 K) (i : ℕ) :
    a.zerothColumn.getD i 0 = (a.rows.getD i []).getD 0 0 := by
  unfold Array2.zerothColumn
  simp only [List.getD_eq_getElem?_getD, List.getElem?_map]
  cases a.rows[i]? <;> simp

omit [ExactOrder K] in
theorem ucbScores_turbo (t : TurboTrustRegion K) {mu se : Array2 K} (hmu : mu.ncols = 1)
    (hse : se.ncols = 1) (hrows : mu.nrows = se.nrows) (beta : K) :
    ∃ scores, ucbScores (.turbo t) mu se beta = .ok scores ∧ ∀ i,
      scores.getD i 0 = mu.zerothColumn.getD i 0 + se.zerothColumn.getD i 0 * beta := by
  unfold ucbScores ucbValues
  rw [dif_pos ⟨hrows, hmu.trans hse.symm⟩]
  refine ⟨_, rfl, fun i => ?_⟩
  have hlength : mu.rows.length = se.rows.length := hrows
  simp only [getD_zerothColumn, Array2.mapCols, Array2.zip]
  by_cases hi : i < mu.rows.length
  · have hi' : i < se.rows.length := hlength ▸ hi
    obtain ⟨a, ha⟩ := List.length_eq_one_iff.mp ((mu.width _ (List.getElem_mem hi)).trans hmu)
    obtain ⟨b, hb⟩ := List.length_eq_one_iff.mp ((se.width _ (List.getElem_mem hi')).trans hse)
    simp [List.getD_eq_getElem?_getD, hi, hi', ha, hb]
  · have hi' : ¬ i < se.rows.length := fun h => hi (hlength ▸ h)
    simp only [not_lt] at hi hi'
    simp [List.getD_eq_getElem?_getD, hi, hi']

/-- When an acquisition prefers the second candidate, by means, errors and a draw. -/
def AcquisitionConfig.Prefers (mu se draw : List K) : AcquisitionConfig K → ℕ → ℕ → Prop
  | ucb beta => fun i j =>
    mu.getD i 0 + se.getD i 0 * beta < mu.getD j 0 + se.getD j 0 * beta
  | thompson => fun i j => draw.getD i 0 < draw.getD j 0
  | random => fun _ _ => False
  | pareto => fun i j => IndexDominates mu se j i

section Serving

variable {surrogate : Surrogate K ρ} {mu se : Array2 K}

/-- A draw of the surrogate for some candidates. -/
def Surrogate.Draws (surrogate : Surrogate K ρ) (candidates : Array2 K) (arms : ℕ)
    (draw : List K) : Prop :=
  ∃ rng samples rng', Call.Returns (surrogate.sample candidates arms) rng samples rng' ∧
    draw = samples.flat.zerothColumn.take candidates.nrows

/-- The best candidates of each segment, which with Thompson sampling a draw decides. -/
def Selected (surrogate : Surrogate K ρ) (config : AcquisitionConfig K) (candidates : Array2 K)
    (mu se : List K) (segments : List CandidateSegment) (indices : List ℕ) : Prop :=
  ∃ draw parts, (config = .thompson → surrogate.Draws candidates (maxArms segments) draw) ∧
    indices = parts.flatten ∧
      List.Forall₂ (Picks fun _ => config.Prefers mu se draw) segments parts

omit [Analysis K] [ExactOrder K] [RandomGenerator K ρ] [LawfulGenerator K ρ] in
theorem Selected.of_parts {config : AcquisitionConfig K} {mu se : List K} (draw : List K)
    (hdraw : config = .thompson → surrogate.Draws candidates (maxArms segments) draw)
    {worse : ℕ → ℕ → ℕ → Prop} {indices : List ℕ} {parts : List (List ℕ)}
    (hflat : indices = parts.flatten) (hparts : List.Forall₂ (Picks worse) segments parts)
    (himp : ∀ k i j, config.Prefers mu se draw i j → worse k i j) :
    Selected surrogate config candidates mu se segments indices :=
  ⟨draw, parts, hdraw, hflat, hparts.imp fun _ _ hpicks => hpicks.mono himp⟩

theorem ends_selectSegmentedThompson (hserves : surrogate.Serves candidates.ncols)
    (t : TurboTrustRegion K) (hne : segments ≠ []) (h : Allotted candidates.nrows segments)
    (mu se : List K) :
    Call.Ends (fun _ => True) (fun _ => False)
      (selectSegmentedThompson (.turbo t) surrogate candidates segments : Call ρ (List ℕ))
      (Selected surrogate .thompson candidates mu se segments) := by
  obtain ⟨hpos, -⟩ := maxArms_spec h hne
  unfold selectSegmentedThompson
  apply (hserves.sample candidates (maxArms segments) rfl).returned.bind
  rintro samples ⟨⟨houter, hinner, hcols, hsamples⟩, rng, rng', hdraw⟩
  obtain ⟨scores, hscores, hfirst, hscored⟩ :=
    thompsonScores_turbo t hpos houter hinner hcols hsamples
  rw [hscores]
  apply (Call.ends_ok (P := fun s => s = scores) rfl).bind
  rintro _ rfl
  apply ((ends_selections h).2.1 _ false fun segment _ => hscored segment.arms).mono
  rintro indices ⟨parts, hflat, hparts⟩
  refine .of_parts _ (fun _ => ⟨rng, samples, rng', hdraw, rfl⟩) hflat hparts ?_
  intro k i j hprefers
  rw [hfirst k]
  exact hprefers

theorem ends_selectSegmentedUcb (hpredict : surrogate.predict candidates = .ok (mu, se))
    (hmu : mu.ncols = 1) (hse : se.ncols = 1) (hrows : mu.nrows = se.nrows)
    (t : TurboTrustRegion K) (beta : K) (h : Allotted candidates.nrows segments) :
    Call.Ends (fun _ => True) (fun _ => False)
      (selectSegmentedUcb (.turbo t) surrogate candidates segments beta : Call ρ (List ℕ))
      (Selected surrogate (.ucb beta) candidates mu.zerothColumn se.zerothColumn segments) := by
  obtain ⟨scores, hscores, hget⟩ := ucbScores_turbo t hmu hse hrows beta
  unfold selectSegmentedUcb
  rw [hpredict]
  apply (Call.ends_ok (P := fun p => p = (mu, se)) rfl).bind
  rintro _ rfl
  rw [hscores]
  apply (Call.ends_ok (P := fun s => s = scores) rfl).bind
  rintro _ rfl
  apply ((ends_selections h).1 _).mono
  rintro indices ⟨parts, hflat, hparts⟩
  refine .of_parts [] (fun h => by cases h) hflat hparts fun _ i j hprefers => ?_
  rw [hget i, hget j]
  exact hprefers

theorem ends_selectSegmentedPareto (hpredict : surrogate.predict candidates = .ok (mu, se))
    (hmu : mu.ncols = 1) (hse : se.ncols = 1) (hmuRows : mu.nrows = candidates.nrows)
    (hseRows : se.nrows = candidates.nrows) (hfinite : Finite2 mu.zerothColumn se.zerothColumn)
    (h : Allotted candidates.nrows segments) {fuel : ℕ} (hfuel : candidates.nrows < fuel) :
    Call.Ends (fun _ => True) (fun _ => False)
      (selectSegmentedPareto fuel surrogate candidates segments : Call ρ (List ℕ))
      (Selected surrogate .pareto candidates mu.zerothColumn se.zerothColumn segments) := by
  unfold selectSegmentedPareto
  rw [hpredict]
  apply (Call.ends_ok (P := fun p => p = (mu, se)) rfl).bind
  rintro _ rfl
  apply ((ends_selections h).2.2 mu se fuel hmu hse hmuRows hseRows hfinite hfuel).mono
  rintro indices ⟨parts, hflat, hparts⟩
  exact .of_parts [] (fun h => by cases h) hflat hparts fun _ _ _ => id

/-- The best candidates of each segment are selected, as the acquisition prefers them. -/
theorem ends_selectSegmentedArms (hserves : surrogate.Serves candidates.ncols)
    (config : AcquisitionConfig K) (t : TurboTrustRegion K) (hne : segments ≠ [])
    (h : Allotted candidates.nrows segments) {fuel : ℕ} (hfuel : candidates.nrows < fuel)
    (hpredict : surrogate.predict candidates = .ok (mu, se)) :
    Call.Ends (fun _ => True) (fun _ => False)
      (selectSegmentedArms fuel config (.turbo t) (some surrogate) candidates segments :
        Call ρ (List ℕ))
      (Selected surrogate config candidates mu.zerothColumn se.zerothColumn segments) := by
  obtain ⟨mu', se', hpredict', hmu, hse, hmuRows, hseRows, hfinite⟩ :=
    hserves.predict candidates rfl
  obtain ⟨rfl, rfl⟩ := Prod.mk.inj (Except.ok.inj (hpredict.symm.trans hpredict'))
  cases config with
  | random =>
    apply (ends_selectSegmentedRandom h).mono
    rintro indices ⟨parts, hflat, hparts⟩
    exact .of_parts [] (fun h => by cases h) hflat hparts fun _ _ _ => id
  | thompson => exact ends_selectSegmentedThompson hserves t hne h _ _
  | ucb beta =>
    exact ends_selectSegmentedUcb hpredict hmu hse (hmuRows.trans hseRows.symm) t beta h
  | pareto => exact ends_selectSegmentedPareto hpredict hmu hse hmuRows hseRows hfinite h hfuel

theorem ends_selectSegmented {surrogate : Option (Surrogate K ρ)}
    (hserves : ∀ sg ∈ surrogate, sg.Serves candidates.ncols) (config : AcquisitionConfig K)
    (t : TurboTrustRegion K) (hne : segments ≠ []) (h : Allotted candidates.nrows segments)
    {fuel : ℕ} (hfuel : candidates.nrows < fuel) :
    Call.Ends (fun _ => True) (fun _ => False)
      (selectSegmentedArms fuel config (.turbo t) surrogate candidates segments :
        Call ρ (List ℕ)) fun indices => ∃ worse parts, indices = parts.flatten ∧
          List.Forall₂ (Picks worse) segments parts := by
  cases surrogate with
  | none =>
    apply (ends_selectSegmentedRandom h).mono
    rintro indices ⟨parts, hparts⟩
    exact ⟨_, parts, hparts⟩
  | some surrogate =>
    have hserves : surrogate.Serves candidates.ncols := hserves surrogate rfl
    obtain ⟨mu, se, hpredict, -⟩ := hserves.predict candidates rfl
    apply (ends_selectSegmentedArms hserves config t hne h hfuel hpredict).mono
    rintro indices ⟨draw, parts, -, hparts⟩
    exact ⟨_, parts, hparts⟩

/-- The selection returns distinct candidates, the best of each segment. -/
theorem selectSegmentedArms_selects {surrogate : Surrogate K ρ} {mu se : Array2 K}
    (hserves : surrogate.Serves candidates.ncols)
    (hpredict : surrogate.predict candidates = .ok (mu, se)) (config : AcquisitionConfig K)
    (t : TurboTrustRegion K) (hne : segments ≠ []) (h : Allotted candidates.nrows segments)
    {fuel : ℕ} (hfuel : candidates.nrows < fuel) (rng : ρ) :
    ∃ indices rng', Call.Returns
      (selectSegmentedArms fuel config (.turbo t) (some surrogate) candidates segments) rng
        indices rng' ∧
      Selected surrogate config candidates mu.zerothColumn se.zerothColumn segments indices ∧
        indices.Nodup := by
  obtain ⟨indices, rng', hreturns, hselected, -⟩ :=
    (ends_selectSegmentedArms hserves config t hne h hfuel hpredict rng trivial).returns
  obtain ⟨draw, parts, -, rfl, hparts⟩ := id hselected
  exact ⟨_, rng', hreturns, hselected, (nodup_flatten_picks h.consecutive hparts).1⟩

end Serving

end Surrogates

end Exact

section Example

/-- A surrogate that knows nothing. -/
def level : Surrogate ℚ Counter where
  predict x := .ok (⟨1, x.rows.map fun _ => [0], by simp⟩, ⟨1, x.rows.map fun _ => [1], by simp⟩)
  sample x k := pure
    { outer := k
      inner := x.nrows
      flat := .column (List.replicate (k * x.nrows) 0)
      size := by simp [Array2.nrows, Array2.column] }
  lengthscales := none

theorem serves_level (n : ℕ) : level.Serves n where
  predict x _ := by
    have hzero : isFinite (0 : ℚ) = true := by decide
    have hone : isFinite (1 : ℚ) = true := by decide
    refine ⟨_, _, rfl, rfl, rfl, by simp [Array2.nrows], by simp [Array2.nrows], ?_⟩
    constructor <;> simp [Array2.zerothColumn, hzero, hone]
  sample x k _ := by
    apply Call.ends_pure
    refine ⟨rfl, rfl, rfl, fun v hv => ?_⟩
    have hzero : v = 0 := by
      simp only [Array2.zerothColumn, Array2.column, List.map_map, List.mem_map] at hv
      obtain ⟨w, hw, rfl⟩ := hv
      exact List.eq_of_mem_replicate hw
    rw [hzero]
    decide
  lengthscales := nofun

/-- Two of three candidates, and one of two. -/
theorem selectSegmentedArms_selects_five :
    ∃ indices rng', Call.Returns
      (selectSegmentedArms 6 (.ucb 2) (.turbo (.new 1 .default)) (some level)
        (.column [0, 1, 2, 3, 4]) [⟨0, 3, 2, 0⟩, ⟨3, 5, 1, 1⟩]) (Counter.mk 4) indices rng' ∧
      Selected level (.ucb 2) (.column [0, 1, 2, 3, 4])
        (Array2.column [0, 0, 0, 0, 0]).zerothColumn (Array2.column [1, 1, 1, 1, 1]).zerothColumn
        [⟨0, 3, 2, 0⟩, ⟨3, 5, 1, 1⟩] indices ∧ indices.Nodup :=
  have hallotted : Allotted 5 [⟨0, 3, 2, 0⟩, ⟨3, 5, 1, 1⟩] :=
    { consecutive := ⟨rfl, by decide, rfl, by decide, trivial⟩
      arms_pos := by decide
      ample := by simp [CandidateSegment.Ample, CandidateSegment.len]
      stop_le := by decide }
  selectSegmentedArms_selects (serves_level 1)
    (show level.predict (.column [0, 1, 2, 3, 4]) =
      .ok (.column [0, 0, 0, 0, 0], .column [1, 1, 1, 1, 1]) from rfl) (.ucb 2) (.new 1 .default)
    (by simp) hallotted (by decide) ⟨4⟩

end Example

end Ennbo
