import Ennbo.Strategy.Experimental

/-! # Arms of one region

With a single region the arms are chosen among all candidates at once. Except for
Thompson sampling this is the selection in segments with one segment, draw for draw.
-/

namespace Ennbo

open RandomGenerator

section Definitions

variable {D ρ : Type}

/-- Entries of two vectors, one of which may be a single entry; other lengths panic. -/
def broadcast (f : D → D → D) (xs ys : List D) : Outcome (List D) :=
  match xs, ys with
  | [x], ys => pure (ys.map (f x))
  | xs, [y] => pure (xs.map fun x => f x y)
  | xs, ys => if xs.length = ys.length then pure (List.zipWith f xs ys) else throw .panic

namespace Array3

/-- `samples[[arm, cand, m]]` -/
def get? (a : Array3 D) (arm cand m : ℕ) : Option D :=
  if arm < a.outer ∧ cand < a.inner then a.flat.rows[arm * a.inner + cand]?.bind (·[m]?) else none

/-- The metrics of the candidates, arm by arm; a draw that is missing panics. -/
def flattened (a : Array3 D) (numArms n : ℕ) : Outcome (Array2 D) := do
  let rows ← (List.range numArms).mapM fun arm => (List.range n).mapM fun cand =>
    (List.range a.flat.ncols).mapM fun m => Outcome.ofOption .panic (a.get? arm cand m)
  if h : ∀ row ∈ rows.flatten, row.length = a.flat.ncols then pure ⟨a.flat.ncols, rows.flatten, h⟩
  else throw .panic

end Array3

/-- `a.column(0)`, which panics without columns. -/
def Array2.columnZero [Zero D] (a : Array2 D) : Outcome (List D) :=
  if a.ncols = 0 then throw .panic else pure a.zerothColumn

variable [Floating D] [Analysis D]

def DrawOrder (values : List D) (a b : ℕ) : Prop :=
  cmpOrEqual (values.getD b 0) (values.getD a 0) ≠ .gt

instance (values : List D) : DecidableRel (DrawOrder values) :=
  fun a b => inferInstanceAs (Decidable (cmpOrEqual (values.getD b 0) (values.getD a 0) ≠ .gt))

def whole (n numArms : ℕ) : CandidateSegment := ⟨0, n, numArms, 0⟩

variable [RandomGenerator D ρ]

namespace UCBAcquisition

def select (beta : D) (mu sigma : List D) (numArms : ℕ) : Call ρ (List ℕ) :=
  if mu.length = 0 then .ofOutcome (AcquisitionError.orInvalid (.error .noCandidates))
  else if numArms = 0 then return []
  else do
    let ucb ← .ofOutcome (broadcast (· + ·) mu (sigma.map fun s => s * beta))
    (fun indices => (indices.insertionSort (MuOrder ucb)).take numArms) <$>
      shuffled (List.range ucb.length)

end UCBAcquisition

/-- The rows of the candidates that are chosen. -/
def selectRows (xCand : Array2 D) (choose : Call ρ (List ℕ)) : Call ρ (List (List D)) := do
  let indices ← choose
  .ofOutcome (selectByIndices xCand indices)

def selectWithRandom (xCand : Array2 D) (numArms : ℕ) : Call ρ (List (List D)) :=
  selectRows xCand (RandomAcquisition.select xCand.nrows numArms)

/-- A Morbo region scores each arm by its own draw, a TuRBO region ranks the first draw. -/
def selectWithThompson (tr : TrustRegionState D) (surrogate : Surrogate D ρ) (xCand : Array2 D)
    (numArms : ℕ) : Call ρ (List (List D)) :=
  selectRows xCand do
    let samples ← surrogate.sample xCand numArms
    match tr with
    | .morbo m => do
      let flat ← .ofOutcome (samples.flattened numArms xCand.nrows)
      let flatScores ← .ofOutcome (MorboTrustRegion.ofExcept (m.scalarize flat false))
      let allScores := (List.range numArms).map fun arm =>
        (flatScores.drop (arm * xCand.nrows)).take xCand.nrows
      thompsonSegment allScores true (whole xCand.nrows numArms)
    | .turbo _ => do
      let sampleValues ← .ofOutcome ((List.range xCand.nrows).mapM fun i =>
        Outcome.ofOption .panic (samples.get? 0 i 0))
      return ((List.range xCand.nrows).insertionSort (DrawOrder sampleValues)).take numArms

def selectWithUcb (tr : TrustRegionState D) (surrogate : Surrogate D ρ) (xCand : Array2 D)
    (numArms : ℕ) (beta : D) : Call ρ (List (List D)) :=
  selectRows xCand do
    let pred ← .ofOutcome (surrogate.predict xCand)
    match tr with
    | .morbo m => do
      let ucbVals ← .ofOutcome (ucbValues pred.1 pred.2 beta)
      let scores ← .ofOutcome (MorboTrustRegion.ofExcept (m.scalarize ucbVals false))
      (fun indices => (indices.insertionSort (MuOrder scores)).take numArms) <$>
        shuffled (List.range scores.length)
    | .turbo _ => do
      let mu ← .ofOutcome pred.1.columnZero
      let sigma ← .ofOutcome pred.2.columnZero
      UCBAcquisition.select beta mu sigma numArms

def selectWithPareto (fuel : ℕ) (surrogate : Surrogate D ρ) (xCand : Array2 D) (numArms : ℕ) :
    Call ρ (List (List D)) :=
  selectRows xCand do
    let pred ← .ofOutcome (surrogate.predict xCand)
    let chosen ← ParetoAcquisition.drawSelect fuel pred.1 pred.2 numArms
    .ofOutcome (AcquisitionError.orInvalid chosen)

def selectArms (fuel : ℕ) (config : AcquisitionConfig D) (tr : TrustRegionState D)
    (surrogate : Option (Surrogate D ρ)) (xCand : Array2 D) (numArms : ℕ) :
    Call ρ (List (List D)) :=
  match surrogate, config with
  | none, _ => selectWithRandom xCand numArms
  | some _, .random => selectWithRandom xCand numArms
  | some surrogate, .thompson => selectWithThompson tr surrogate xCand numArms
  | some surrogate, .ucb beta => selectWithUcb tr surrogate xCand numArms beta
  | some surrogate, .pareto => selectWithPareto fuel surrogate xCand numArms

end Definitions

theorem Call.ok_bind {σ α β : Type} (a : α) (f : α → Call σ β) :
    (Call.ofOutcome (.ok a) >>= f) = f a := rfl

section Segments

variable {D ρ : Type} [Floating D] [Analysis D] [RandomGenerator D ρ]

theorem selectSegments_singleton (choose : CandidateSegment → Call ρ (List ℕ))
    (segment : CandidateSegment) : selectSegments choose [segment] = choose segment := by
  simp [selectSegments]

theorem within_whole (choose : CandidateSegment → Call ρ (List ℕ)) (n numArms : ℕ) :
    within choose (whole n numArms) = choose (whole n numArms) := by
  simp [within, whole]

omit [Floating D] [Analysis D] in
theorem selectSegmentedRandom_whole (n numArms : ℕ) :
    selectSegmentedRandom [whole n numArms] =
      (RandomAcquisition.select n numArms : Call ρ (List ℕ)) := by
  unfold selectSegmentedRandom
  rw [selectSegments_singleton, within_whole]
  rfl

omit [Floating D] [Analysis D] in
theorem segment_whole {a : Array2 D} {n : ℕ} (h : a.nrows = n) (numArms : ℕ) :
    a.segment (whole n numArms) = a := by
  cases a
  subst h
  simp [Array2.segment, whole, CandidateSegment.len, Array2.nrows]

theorem ucbSegment_whole (scores : List D) (n numArms : ℕ) :
    ucbSegment scores (whole n numArms) =
      ((fun indices => (indices.insertionSort (MuOrder scores)).take numArms) <$>
        shuffled (List.range n) : Call ρ (List ℕ)) := by
  unfold ucbSegment
  rw [List.range_eq_range']
  rfl

end Segments

section Exact

variable {K ρ : Type} [ExactArith K] [Analysis K] [ExactOrder K] [RandomGenerator K ρ]
  [LawfulGenerator K ρ] {surrogate : Surrogate K ρ} {xCand mu se : Array2 K} {numArms : ℕ}

omit [ExactArith K] [Analysis K] [ExactOrder K] [RandomGenerator K ρ] [LawfulGenerator K ρ] in
theorem broadcast_eq (f : K → K → K) {xs ys : List K} (h : xs.length = ys.length) :
    broadcast f xs ys = .ok (List.zipWith f xs ys) := by
  unfold broadcast
  split
  next x ys =>
    obtain ⟨y, rfl⟩ := List.length_eq_one_iff.mp h.symm
    rfl
  next y _ =>
    obtain ⟨x, rfl⟩ := List.length_eq_one_iff.mp h
    rfl
  next => exact if_pos h

omit [ExactOrder K] in
theorem ucbScores_eq (t : TurboTrustRegion K) (hmu : mu.ncols = 1) (hse : se.ncols = 1)
    (hrows : mu.nrows = se.nrows) (beta : K) :
    ucbScores (.turbo t) mu se beta =
      .ok (List.zipWith (· + ·) mu.zerothColumn (se.zerothColumn.map fun s => s * beta)) := by
  obtain ⟨scores, hscores, hget⟩ := ucbScores_turbo t hmu hse hrows beta
  unfold ucbScores ucbValues at hscores ⊢
  rw [dif_pos ⟨hrows, hmu.trans hse.symm⟩] at hscores ⊢
  obtain rfl := Except.ok.inj hscores
  refine congrArg Except.ok (List.ext_getElem ?_ fun i hi hi' => ?_)
  · simp [Array2.zerothColumn, Array2.mapCols, Array2.zip]
  · have hscore := hget i
    rw [List.getD_eq_getElem _ _ hi] at hscore
    simp only [List.length_zipWith, List.length_map, lt_min_iff] at hi'
    rw [hscore, List.getD_eq_getElem _ _ hi'.1, List.getD_eq_getElem _ _ hi'.2]
    simp

omit [LawfulGenerator K ρ] [ExactOrder K] in
/-- Without Thompson sampling the arms are those of a single segment, from the same draws. -/
theorem selectArms_eq_selectSegmentedArms (config : AcquisitionConfig K)
    (hconfig : config ≠ .thompson) (hserves : surrogate.Serves xCand.ncols)
    (t : TurboTrustRegion K) (hcand : 0 < xCand.nrows) (hpos : 0 < numArms) (fuel : ℕ) :
    (selectArms fuel config (.turbo t) (some surrogate) xCand numArms : Call ρ _) =
      selectRows xCand (selectSegmentedArms fuel config (.turbo t) (some surrogate) xCand
        [whole xCand.nrows numArms]) := by
  obtain ⟨mu, se, hpredict, hmu, hse, hmuRows, hseRows, -⟩ := hserves.predict xCand rfl
  cases config with
  | random =>
    unfold selectArms selectSegmentedArms
    rw [selectSegmentedRandom_whole]
    rfl
  | thompson => exact absurd rfl hconfig
  | ucb beta =>
    have hlength : mu.zerothColumn.length = xCand.nrows := (List.length_map _).trans hmuRows
    have hlength' : (se.zerothColumn.map fun s => s * beta).length = xCand.nrows :=
      (List.length_map _).trans ((List.length_map _).trans hseRows)
    have hscores : (List.zipWith (· + ·) mu.zerothColumn
        (se.zerothColumn.map fun s => s * beta)).length = xCand.nrows := by
      rw [List.length_zipWith, hlength, hlength', min_self]
    have hselect : (UCBAcquisition.select beta mu.zerothColumn se.zerothColumn numArms :
        Call ρ (List ℕ)) = ucbSegment (List.zipWith (· + ·) mu.zerothColumn
          (se.zerothColumn.map fun s => s * beta)) (whole xCand.nrows numArms) := by
      unfold UCBAcquisition.select
      rw [if_neg (hlength ▸ hcand.ne'), if_neg hpos.ne',
        broadcast_eq _ (hlength.trans hlength'.symm), Call.ok_bind, hscores, ucbSegment_whole]
    unfold selectArms selectSegmentedArms selectWithUcb selectSegmentedUcb
    dsimp only
    rw [hpredict, Call.ok_bind, Call.ok_bind, ucbScores_eq t hmu hse (hmuRows.trans hseRows.symm),
      Call.ok_bind, selectSegments_singleton]
    dsimp only
    rw [Array2.columnZero, if_neg (by omega), Array2.columnZero, if_neg (by omega)]
    exact congrArg (selectRows xCand) hselect
  | pareto =>
    unfold selectArms selectSegmentedArms selectWithPareto selectSegmentedPareto
    dsimp only
    rw [hpredict, Call.ok_bind, Call.ok_bind, selectSegments_singleton, within_whole]
    unfold paretoSegment
    rw [segment_whole hmuRows, segment_whole hseRows]
    rfl

/-- The best of the candidates, which with Thompson sampling a draw decides. -/
def Chooses (surrogate : Surrogate K ρ) (config : AcquisitionConfig K) (xCand : Array2 K)
    (mu se : List K) (numArms : ℕ) (indices : List ℕ) : Prop :=
  ∃ draw, (config = .thompson → surrogate.Draws xCand numArms draw) ∧
    Picks (fun _ => config.Prefers mu se draw) (whole xCand.nrows numArms) indices

theorem allotted_whole {n : ℕ} (hpos : 0 < numArms) (hle : numArms ≤ n) :
    Allotted n [whole n numArms] where
  consecutive := ⟨rfl, Nat.zero_le _, trivial⟩
  arms_pos := by simpa [whole] using hpos
  ample := by simpa [whole, CandidateSegment.Ample, CandidateSegment.len] using hle
  stop_le := by simp [whole]

omit [ExactArith K] [Analysis K] [ExactOrder K] in
/-- The rows of a choice. -/
theorem Picks.rows {worse : ℕ → ℕ → ℕ → Prop} {indices : List ℕ} (hpos : 0 < numArms)
    (h : Picks worse (whole xCand.nrows numArms) indices) :
    ∃ rows, selectByIndices xCand indices = .ok rows ∧ rows.length = numArms ∧
      ∀ row ∈ rows, row ∈ xCand.rows := by
  have hne : indices ≠ [] := by
    rintro rfl
    exact hpos.ne h.length_eq
  have hrow : ∀ i ∈ indices, ∃ row, Outcome.ofOption .panic xCand.rows[i]? = .ok row ∧
      row ∈ xCand.rows := by
    intro i hi
    have hlt : i < xCand.rows.length := (h.mem i hi).2
    exact ⟨xCand.rows[i], Outcome.ofOption_eq_ok.mpr (List.getElem?_eq_getElem hlt),
      List.getElem_mem hlt⟩
  obtain ⟨rows, hrows, hmem⟩ := Outcome.exists_mapM hrow
  refine ⟨rows, ?_, hmem.length_eq.symm.trans h.length_eq, fun row hin => ?_⟩
  · unfold selectByIndices
    rw [if_neg hne]
    exact hrows
  · obtain ⟨i, -, hin⟩ := exists_mem_left hmem hin
    exact hin

section Thompson

variable {samples : Array3 K}

omit [ExactOrder K] [Analysis K] in
theorem drawOrder_iff {values : List K} {i j : ℕ} :
    DrawOrder values i j ↔ values.getD j 0 ≤ values.getD i 0 := by
  unfold DrawOrder
  rw [cmpOrEqual_exact, Ne, compare_gt_iff_gt, not_lt]

instance (values : List K) : Std.Total (DrawOrder values) where
  total i j := by
    simp only [drawOrder_iff]
    exact le_total _ _

instance (values : List K) : IsTrans ℕ (DrawOrder values) where
  trans i j k := by
    simp only [drawOrder_iff]
    exact fun hij hjk => hjk.trans hij

omit [Analysis K] [ExactOrder K] in
theorem sampleValues_eq {n : ℕ} (houter : 0 < samples.outer) (hinner : samples.inner = n)
    (hcols : samples.flat.ncols = 1) :
    ((List.range n).mapM fun i => Outcome.ofOption .panic (samples.get? 0 i 0)) =
      .ok (samples.flat.zerothColumn.take n) := by
  have hrows : samples.flat.rows.length = samples.outer * n := hinner ▸ samples.size
  have hle : n ≤ samples.flat.rows.length := hrows ▸ Nat.le_mul_of_pos_left n houter
  rw [mapM_ok_iff, forall₂_range]
  refine ⟨by simpa [Array2.zerothColumn] using hle, fun i hi => ?_⟩
  have hi' : i < samples.flat.rows.length := hi.trans_le hle
  obtain ⟨a, ha⟩ := List.length_eq_one_iff.mp
    ((samples.flat.width _ (List.getElem_mem hi')).trans hcols)
  unfold Array3.get?
  rw [if_pos ⟨houter, hinner.symm ▸ hi⟩, Nat.zero_mul, Nat.zero_add,
    List.getElem?_eq_getElem hi', Option.bind_some, ha, Outcome.ofOption_eq_ok]
  simp [Array2.zerothColumn, List.getD_eq_getElem?_getD, hi, hi', ha]

end Thompson

/-- The best candidates are chosen, as the acquisition prefers them. -/
theorem ends_selectArms (hserves : surrogate.Serves xCand.ncols) (config : AcquisitionConfig K)
    (t : TurboTrustRegion K) (hpos : 0 < numArms) (hle : numArms ≤ xCand.nrows) {fuel : ℕ}
    (hfuel : xCand.nrows < fuel) (hpredict : surrogate.predict xCand = .ok (mu, se)) :
    Call.Ends (fun _ => True) (fun _ => False)
      (selectArms fuel config (.turbo t) (some surrogate) xCand numArms : Call ρ (List (List K)))
      fun rows => ∃ indices, selectByIndices xCand indices = .ok rows ∧
        Chooses surrogate config xCand mu.zerothColumn se.zerothColumn numArms indices := by
  have hrows : ∀ indices,
      Chooses surrogate config xCand mu.zerothColumn se.zerothColumn numArms indices →
        Call.Ends (fun _ : ρ => True) (fun _ => False)
          (Call.ofOutcome (selectByIndices xCand indices)) fun rows => ∃ indices,
            selectByIndices xCand indices = .ok rows ∧
              Chooses surrogate config xCand mu.zerothColumn se.zerothColumn numArms indices := by
    intro indices hchooses
    obtain ⟨draw, hdraw, hpicks⟩ := id hchooses
    obtain ⟨rows, hselect, -⟩ := hpicks.rows hpos
    rw [hselect]
    exact Call.ends_ok ⟨indices, hselect, hchooses⟩
  by_cases hconfig : config = .thompson
  · subst hconfig
    unfold selectArms selectWithThompson selectRows
    dsimp only
    refine Call.Ends.bind ?_ hrows
    apply (hserves.sample xCand numArms rfl).returned.bind
    rintro samples ⟨⟨houter, hinner, hcols, -⟩, rng, rng', hdraw⟩
    rw [sampleValues_eq (houter.symm ▸ hpos) hinner hcols, Call.ok_bind]
    refine Call.ends_pure ⟨_, fun _ => ⟨rng, samples, rng', hdraw, rfl⟩, ?_⟩
    have hample : (whole xCand.nrows numArms).Ample := hle
    apply picks_take hample
    · exact (List.perm_insertionSort _ _).trans (.of_eq List.range_eq_range')
    · apply (List.pairwise_insertionSort (DrawOrder _) _).imp
      intro i j hij _
      exact not_lt.mpr (drawOrder_iff.mp hij)
  · rw [selectArms_eq_selectSegmentedArms config hconfig hserves t (hpos.trans_le hle) hpos]
    unfold selectRows
    refine Call.Ends.bind ?_ hrows
    apply (ends_selectSegmentedArms hserves config t (by simp) (allotted_whole hpos hle) hfuel
      hpredict).mono
    rintro indices ⟨draw, parts, -, rfl, hparts⟩
    obtain ⟨part, rest, hpicks, hrest, rfl⟩ := List.forall₂_cons_left_iff.mp hparts
    obtain rfl := List.forall₂_nil_left_iff.mp hrest
    refine ⟨draw, fun h => absurd h hconfig, ?_⟩
    rw [List.flatten_cons, List.flatten_nil, List.append_nil]
    exact hpicks

/-- With or without a surrogate the arms are rows of distinct candidates. -/
theorem ends_selectArms_picks {surrogate : Option (Surrogate K ρ)}
    (hserves : ∀ sg ∈ surrogate, sg.Serves xCand.ncols) (config : AcquisitionConfig K)
    (t : TurboTrustRegion K) (hpos : 0 < numArms) (hle : numArms ≤ xCand.nrows) {fuel : ℕ}
    (hfuel : xCand.nrows < fuel) :
    Call.Ends (fun _ => True) (fun _ => False)
      (selectArms fuel config (.turbo t) surrogate xCand numArms : Call ρ (List (List K)))
      fun rows => ∃ indices, selectByIndices xCand indices = .ok rows ∧
        Picks (fun _ _ _ => False) (whole xCand.nrows numArms) indices ∧
          ∀ sg ∈ surrogate, ∀ mu se, sg.predict xCand = .ok (mu, se) →
            Chooses sg config xCand mu.zerothColumn se.zerothColumn numArms indices := by
  cases surrogate with
  | none =>
    unfold selectArms selectWithRandom selectRows
    dsimp only
    have hrandom : Call.Ends (fun _ : ρ => True) (fun _ => False)
        (within (fun segment => RandomAcquisition.select segment.len segment.arms)
          (whole xCand.nrows numArms)) (Picks (fun _ _ _ => False) (whole xCand.nrows numArms)) :=
      ends_random hle (hpos.trans_le hle)
    rw [within_whole] at hrandom
    apply hrandom.bind
    intro indices hpicks
    obtain ⟨rows, hselect, -⟩ := hpicks.rows hpos
    rw [hselect]
    exact Call.ends_ok ⟨indices, hselect, hpicks, nofun⟩
  | some surrogate =>
    have hserves : surrogate.Serves xCand.ncols := hserves surrogate rfl
    obtain ⟨mu, se, hpredict, -⟩ := hserves.predict xCand rfl
    apply (ends_selectArms hserves config t hpos hle hfuel hpredict).mono
    rintro rows ⟨indices, hselect, hchooses⟩
    obtain ⟨draw, -, hpicks⟩ := id hchooses
    refine ⟨indices, hselect, hpicks.mono fun _ _ _ => False.elim, ?_⟩
    rintro _ ⟨⟩ mu' se' hpredict'
    obtain ⟨rfl, rfl⟩ := Prod.mk.inj (Except.ok.inj (hpredict.symm.trans hpredict'))
    exact hchooses

/-- The selection returns the rows of distinct candidates, none of which is worse than one that is
left out. Without Thompson sampling they are those of a single segment. -/
theorem selectArms_selects (hserves : surrogate.Serves xCand.ncols)
    (hpredict : surrogate.predict xCand = .ok (mu, se)) (config : AcquisitionConfig K)
    (t : TurboTrustRegion K) (hpos : 0 < numArms) (hle : numArms ≤ xCand.nrows) {fuel : ℕ}
    (hfuel : xCand.nrows < fuel) (rng : ρ) :
    (∃ rows rng' indices,
      Call.Returns (selectArms fuel config (.turbo t) (some surrogate) xCand numArms) rng rows
        rng' ∧ selectByIndices xCand indices = .ok rows ∧
          Chooses surrogate config xCand mu.zerothColumn se.zerothColumn numArms indices) ∧
      (config ≠ .thompson → selectArms fuel config (.turbo t) (some surrogate) xCand numArms rng =
        selectRows xCand (selectSegmentedArms fuel config (.turbo t) (some surrogate) xCand
          [whole xCand.nrows numArms]) rng) := by
  constructor
  · obtain ⟨rows, rng', hreturns, ⟨indices, hselect, hchooses⟩, -⟩ :=
      (ends_selectArms hserves config t hpos hle hfuel hpredict rng trivial).returns
    exact ⟨rows, rng', indices, hreturns, hselect, hchooses⟩
  · intro hconfig
    rw [selectArms_eq_selectSegmentedArms config hconfig hserves t (hpos.trans_le hle) hpos]

end Exact

section Example

/-- The two best of three candidates. -/
theorem selectArms_selects_three :
    (∃ rows rng' indices,
      Call.Returns (selectArms 4 (.ucb 2) (.turbo (.new 1 .default)) (some level)
        (.column [0, 1, 2]) 2) (Counter.mk 4) rows rng' ∧
      selectByIndices (.column [0, 1, 2]) indices = .ok rows ∧
        Chooses level (.ucb 2) (.column [0, 1, 2]) (Array2.column [0, 0, 0]).zerothColumn
          (Array2.column [1, 1, 1]).zerothColumn 2 indices) ∧
      (AcquisitionConfig.ucb (2 : ℚ) ≠ .thompson →
        selectArms 4 (.ucb 2) (.turbo (.new 1 .default)) (some level) (.column [0, 1, 2]) 2
          (Counter.mk 4) =
        selectRows (.column [0, 1, 2]) (selectSegmentedArms 4 (.ucb 2) (.turbo (.new 1 .default))
          (some level) (.column [0, 1, 2]) [whole 3 2]) (Counter.mk 4)) :=
  selectArms_selects (serves_level 1)
    (show level.predict (.column [0, 1, 2]) = .ok (.column [0, 0, 0], .column [1, 1, 1]) from rfl)
    (.ucb 2) (.new 1 .default) two_pos (by decide) (by decide) ⟨4⟩

end Example

end Ennbo
