import Ennbo.Model.Interleaving
import Ennbo.Model.Reached

/-! # Paths to a posterior

A posterior follows a weighted path or, without variances and noise, a fused
one. A list of parameters follows the weighted path for each of them, over one
search when they ask for the same number of neighbours. With a search that is a
function of its query, the paths compute the same entries.
-/

namespace Ennbo

open YBounds (NormalEntry)

/-- The root of zero is exact. -/
class ExactRoot (K : Type) [ExactArith K] [Analysis K] : Prop where
  sqrt_zero : sqrt (0 : K) = 0

instance : ExactRoot ℚ := ⟨by decide +kernel⟩

section Fused

variable {K : Type} [ExactArith K] [Analysis K]

theorem seFromVarianceComponents_zero [ExactRoot K] (epistemicVar scale : K) :
    seFromVarianceComponents epistemicVar 0 scale =
      (sqrt (max epistemicVar EPS_VAR) * scale, sqrt (max epistemicVar EPS_VAR) * scale, 0) := by
  unfold seFromVarianceComponents
  simp only [add_zero, ltB_exact, decide_eq_true_eq]
  split
  next h => rw [max_eq_right h.le]
  next h => rw [max_eq_left (not_lt.mp h), ExactRoot.sqrt_zero, zero_mul]

theorem zipWith_weights (params : ENNParams K) (neighbors : List (Neighbor K)) :
    List.zipWith (fun (n : Neighbor K) varY => 1 / (varTotal params n.dist2 + varY)) neighbors
        (neighbors.map fun _ => 0) =
      neighbors.map fun n => 1 / varTotal params n.dist2 := by
  rw [List.zipWith_map_right, List.zipWith_self]
  simp only [add_zero]

theorem map_normal_computeWeightedStats [ExactRoot K] (params : ENNParams K) (yScale : List K)
    (neighbors : List (Neighbor K)) :
    (computeWeightedStats params false yScale neighbors none).map WeightedStats.normal =
      fuseNeighborsToMuSe params yScale yScale.length neighbors := by
  unfold computeWeightedStats fuseNeighborsToMuSe statsFromNeighborWeights
  rw [List.map_map]
  apply List.map_congr_left
  intro j _
  simp only [Function.comp_apply, zipWith_weights, Bool.false_eq_true, if_false,
    seFromVarianceComponents_zero]

end Fused

/-- A neighbour search: the queries, the number of places, and whether the nearest row is left
out and ties are broken. -/
abbrev NeighborSearch (D : Type) : Type := Array2 D → ℕ → Bool → Bool → Outcome (Hits D)

namespace EpistemicNearestNeighbors

open Call (Answers)

section Entries

variable {D F : Type} [Floating D] [Analysis D] (m : EpistemicNearestNeighbors D F)
  (search : NeighborSearch D) (x : Array2 D) (params : ENNParams D) (flags : PosteriorFlags)

/-- The neighbours that a search finds for the queries. -/
def nearest : Outcome (Option (NeighborData D)) := do
  let searchK ← m.neighborSearchK params flags.excludeNearest
  if searchK = 0 then pure none
  else
    let hits ← search x searchK flags.excludeNearest flags.tieBreakNeighbors
    let k := availableK searchK params flags.excludeNearest
    if k = 0 then pure none
    else
      let rows ← hits.rows.mapM (m.neighborRow k)
      return some ⟨k, rows⟩

/-- The entries of the weighted path over these neighbours. -/
def weighted : Option (NeighborData D) → Outcome (DrawInternals D)
  | some data => m.computeWeightedPosterior data params flags.observationNoise
  | none => pure (m.emptyPosteriorInternals x.nrows)

def internals : Outcome (DrawInternals D) :=
  if x.ncols ≠ m.numDim then throw (.error (.invalidShape [x.nrows, m.numDim] x.shape))
  else if m.numObs = 0 then pure (m.emptyPosteriorInternals x.nrows)
  else do
    let data ← m.nearest search x params flags
    m.weighted x params flags data

def light : Outcome Bool := if flags.observationNoise then pure false else not <$> m.hasYvar

/-- The internals behind each slice of a batch. -/
def slices (first : ENNParams D) (paramss : List (ENNParams D)) : Outcome (List (DrawInternals D)) :=
  if (paramss.all fun p => p.kNumNeighbors = first.kNumNeighbors) ∧ 0 < m.numObs then do
    let data ← m.nearest search x first flags
    paramss.mapM fun params => m.weighted x params flags data
  else paramss.mapM fun params => m.internals search x params flags

omit [Floating D] [Analysis D] in
/-- The calls that a search makes, followed by another one. -/
theorem nearest_bind {E : Type} (g : Option (NeighborData D) → Outcome E) :
    (m.nearest search x params flags >>= g) = (do
      let searchK ← m.neighborSearchK params flags.excludeNearest
      if searchK = 0 then g none
      else
        let hits ← search x searchK flags.excludeNearest flags.tieBreakNeighbors
        if availableK searchK params flags.excludeNearest = 0 then g none
        else
          let rows ← hits.rows.mapM
            (m.neighborRow (availableK searchK params flags.excludeNearest))
          g (some ⟨availableK searchK params flags.excludeNearest, rows⟩)) := by
  unfold nearest
  rw [bind_assoc]
  congr 1
  funext searchK
  by_cases h0 : searchK = 0
  · rw [if_pos h0, if_pos h0, pure_bind]
  · rw [if_neg h0, if_neg h0, bind_assoc]
    congr 1
    funext hits
    by_cases hk : availableK searchK params flags.excludeNearest = 0
    · rw [if_pos hk, if_pos hk, pure_bind]
    · rw [if_neg hk, if_neg hk, bind_assoc]
      simp only [pure_bind]

end Entries

def normals {D : Type} (i : DrawInternals D) : Array2 (NormalEntry D) :=
  i.stats.mapCols fun _ s => s.normal

section Search

variable {D F : Type} [Floating D] [Floating F] [FloatCast D F] [Analysis D]

/-- The models of `S` read alike, and their search is this function. -/
structure SearchesAs (faiss : Faiss F) (env : Env F) (S : EpistemicNearestNeighbors D F → Prop)
    (search : NeighborSearch D) : Prop where
  reads : ∀ m m', S m → S m' → SameReads m m'
  answers : ∀ m x searchK excludeNearest tieBreakNeighbors, S m →
    Answers S Eq (indexSearch faiss env x searchK excludeNearest tieBreakNeighbors) m
      (search x searchK excludeNearest tieBreakNeighbors)

variable {faiss : Faiss F} {env : Env F} {S : EpistemicNearestNeighbors D F → Prop}
  {search : NeighborSearch D} {m m₁ : EpistemicNearestNeighbors D F} {x : Array2 D}
  {params : ENNParams D} {flags : PosteriorFlags}

section Answers

variable (h : SearchesAs faiss env S search) (hm : S m)

include h hm

theorem SearchesAs.getNeighborData (hm₁ : S m₁) :
    Answers S Eq
      (getNeighborData faiss env x params flags.excludeNearest flags.tieBreakNeighbors) m₁
      (m.nearest search x params flags) := by
  apply Call.answers_get_bind
  rw [← (h.reads m m₁ hm hm₁).neighborSearchK_eq]
  apply Call.answers_ofOutcome_bind hm₁
  rintro searchK -
  apply Call.answers_ite
  · intro
    exact Call.answers_pure hm₁ rfl
  · intro
    apply (h.answers m₁ x searchK _ _ hm₁).bind
    rintro hits _ m₂ rfl hm₂
    apply Call.answers_ite
    · intro
      exact Call.answers_pure hm₂ rfl
    · intro
      apply Call.answers_get_bind
      rw [← (h.reads m m₂ hm hm₂).neighborRow_eq]
      apply Call.answers_ofOutcome_bind hm₂
      rintro rows -
      exact Call.answers_pure hm₂ rfl

theorem SearchesAs.computePosteriorInternals (hm₁ : S m₁) :
    Answers S Eq (computePosteriorInternals faiss env x params flags) m₁
      (m.internals search x params flags) := by
  have hr := h.reads m m₁ hm hm₁
  apply Call.answers_get_bind
  rw [← hr.numDim_eq, ← hr.numObs_eq, ← hr.emptyInternals_eq]
  apply Call.answers_ite
  · intro
    exact Call.answers_ofOutcome hm₁ rfl
  · intro
    apply Call.answers_ite
    · intro
      exact Call.answers_pure hm₁ rfl
    · intro
      apply (h.getNeighborData hm hm₁).bind
      rintro data _ m₂ rfl hm₂
      have hr₂ := h.reads m m₂ hm hm₂
      apply Call.answers_get_bind
      cases data with
      | none => exact Call.answers_pure hm₂ (hr₂.emptyInternals_eq _).symm
      | some data =>
        dsimp only [weighted]
        rw [← hr₂.computeWeightedPosterior_eq]
        exact Call.answers_ofOutcome hm₂ (Outcome.matches_rfl _)

theorem SearchesAs.slices {first : ENNParams D} {paramss : List (ENNParams D)} (hm₁ : S m₁) :
    Answers S Eq
      (if (paramss.all fun p => p.kNumNeighbors = first.kNumNeighbors) ∧ 0 < m.numObs then
        computeBatchWithSharedNeighbors faiss env x first paramss flags
      else computeBatchSeparateNeighbors faiss env x paramss flags) m₁
      (m.slices search x flags first paramss) := by
  apply Call.answers_ite
  · intro
    apply (h.getNeighborData hm hm₁).bind
    rintro data _ m₂ rfl hm₂
    have hr₂ := h.reads m m₂ hm hm₂
    apply Call.answers_get_bind
    cases data with
    | none =>
      dsimp only [weighted]
      rw [← hr₂.emptyInternals_eq, List.mapM_pure]
      exact Call.answers_pure hm₂ rfl
    | some data =>
      dsimp only [weighted]
      rw [← hr₂.computeWeightedPosterior_eq]
      exact Call.answers_ofOutcome hm₂ (Outcome.matches_rfl _)
  · intro
    have hmap : Answers S (List.Forall₂ Eq)
        (paramss.mapM fun params => EpistemicNearestNeighbors.computePosteriorInternals faiss env x
          params flags) m₁ (paramss.mapM fun params => m.internals search x params flags) :=
      Call.answers_mapM hm₁ fun _ _ hm₂ => h.computePosteriorInternals hm hm₂
    rw [List.forall₂_eq_eq_eq] at hmap
    exact hmap

end Answers

section Weighted

variable {D F : Type} [Floating D] [Analysis D] {m : EpistemicNearestNeighbors D F}
  {data : NeighborData D} {params : ENNParams D} {noise b : Bool}

theorem length_computeWeightedStats (yScale : List D) (neighbors : List (Neighbor D))
    (yvars : Option (List (List D))) :
    (computeWeightedStats params noise yScale neighbors yvars).length = yScale.length := by
  unfold computeWeightedStats
  rw [List.length_map, List.length_range]

theorem exists_weighted_of_rows (data : NeighborData D) (hs : m.yScale.length = m.numMetrics) (hv : m.hasYvar = .ok b)
    {stats : List (List (WeightedStats D))} (hmap : (data.rows.mapM fun neighbors => do
      let yvars ← m.yvarNeighbors b neighbors
      return computeWeightedStats params noise m.yScale neighbors yvars) = .ok stats) :
    ∃ i, m.computeWeightedPosterior data params noise = .ok i ∧
      metricsMatrix m.numMetrics stats = .ok i.stats := by
  have hw : ∀ row ∈ stats, row.length = m.numMetrics := by
    intro row hrow
    obtain ⟨neighbors, -, hrow⟩ := exists_mem_left (mapM_ok_iff.mp hmap) hrow
    obtain ⟨yvars, -, hrow⟩ := Outcome.bind_eq_ok.mp hrow
    rw [← Outcome.pure_eq_ok.mp hrow, length_computeWeightedStats, hs]
  have hmatrix : metricsMatrix m.numMetrics stats = .ok ⟨m.numMetrics, stats, hw⟩ := dif_pos hw
  refine ⟨⟨data.k, data.rows.map fun row => row.map Neighbor.idx, ⟨m.numMetrics, stats, hw⟩⟩, ?_,
    hmatrix⟩
  unfold computeWeightedPosterior
  rw [hv]
  simp only [Outcome.bind_eq_ok]
  exact ⟨b, rfl, stats, hmap, _, hmatrix, rfl⟩

end Weighted

end Search

section Light

variable {K F : Type} [ExactArith K] [Analysis K] [ExactRoot K]
  {m : EpistemicNearestNeighbors K F} {params : ENNParams K}

theorem metricsMatrix_map {E E' : Type} {n : ℕ} {rows : List (List E)} {out : Array2 E}
    (f : E → E') (h : metricsMatrix n rows = .ok out) :
    metricsMatrix n (rows.map (List.map f)) = .ok (out.mapCols fun _ e => f e) := by
  unfold metricsMatrix at h ⊢
  split at h
  next hw =>
    obtain rfl := Outcome.pure_eq_ok.mp h
    have hw' : ∀ row ∈ rows.map (List.map f), row.length = n := by
      intro row hrow
      obtain ⟨row, hmem, rfl⟩ := List.mem_map.mp hrow
      rw [List.length_map, hw row hmem]
    rw [dif_pos hw']
    refine congrArg Except.ok (Array2.eq_of_rows (by rfl) ?_)
    apply List.map_congr_left
    intro row _
    apply List.ext_getElem (by simp)
    intro i h₁ h₂
    simp
  next => simp at h

variable (params) in
/-- The fused entries of some neighbours are those of the weighted path. -/
theorem fused_eq_normals (hv : m.hasYvar = .ok false) (hs : m.yScale.length = m.numMetrics)
    (data : NeighborData K) :
    ∃ i, m.computeWeightedPosterior data params false = .ok i ∧
      metricsMatrix m.numMetrics
        (data.rows.map (fuseNeighborsToMuSe params m.yScale m.numMetrics)) = .ok (normals i) := by
  have hmap : (data.rows.mapM fun neighbors => do
      let yvars ← m.yvarNeighbors false neighbors
      return computeWeightedStats params false m.yScale neighbors yvars) =
      (.ok (data.rows.map fun neighbors =>
        computeWeightedStats params false m.yScale neighbors none) : Outcome _) :=
    List.mapM_pure
  obtain ⟨i, hi, hstats⟩ := exists_weighted_of_rows data hs hv hmap
  refine ⟨i, hi, ?_⟩
  have hfused := metricsMatrix_map WeightedStats.normal hstats
  rw [List.map_map] at hfused
  have hrows : fuseNeighborsToMuSe params m.yScale m.numMetrics =
      List.map WeightedStats.normal ∘ fun neighbors =>
        computeWeightedStats params false m.yScale neighbors none := by
    funext neighbors
    rw [Function.comp_apply, map_normal_computeWeightedStats, hs]
  rw [hrows]
  exact hfused

variable {D : Type} [Floating F] [FloatCast K F] {faiss : Faiss F} {env : Env F}
  {S : EpistemicNearestNeighbors K F → Prop} {search : NeighborSearch K}
  {m₁ : EpistemicNearestNeighbors K F} {x : Array2 K} {flags : PosteriorFlags}

/-- The fused path ends as the weighted one, with its entries. -/
theorem SearchesAs.computePosteriorLight (h : SearchesAs faiss env S search) (hm : S m)
    (hm₁ : S m₁) (hv : m.hasYvar = .ok false) (hnoise : flags.observationNoise = false)
    (hs : 0 < m.numObs → m.yScale.length = m.numMetrics) :
    Answers S (fun n i => n.entries = normals i)
      (computePosteriorLight faiss env x params flags) m₁ (m.internals search x params flags) := by
  have hr := h.reads m m₁ hm hm₁
  have hempty := hr.emptyInternals_eq x.nrows
  apply Call.answers_get_bind
  rw [← hr.numDim_eq, ← hr.numObs_eq, ← hr.neighborSearchK_eq, ← hempty]
  apply Call.answers_ite
  · intro
    exact Call.answers_ofOutcome hm₁ rfl
  · intro
    apply Call.answers_ite
    · intro
      exact Call.answers_pure hm₁ rfl
    · intro hobs
      rw [nearest_bind]
      apply Call.answers_ofOutcome_bind hm₁
      rintro searchK -
      apply Call.answers_ite
      · intro
        exact Call.answers_pure hm₁ rfl
      · intro
        apply (h.answers m₁ x searchK _ _ hm₁).bind
        rintro hits _ m₂ rfl hm₂
        have hr₂ := h.reads m m₂ hm hm₂
        apply Call.answers_ite
        · intro
          exact Call.answers_pure hm₂ rfl
        · intro
          apply Call.answers_get_bind
          rw [← hr₂.neighborRow_eq, ← hr₂.numMetrics_eq, ← hr₂.yScale_eq]
          apply Call.answers_ofOutcome_bind hm₂
          rintro rows -
          obtain ⟨i, hi, hfused⟩ := fused_eq_normals params hv (hs (Nat.pos_of_ne_zero hobs))
            ⟨availableK searchK params flags.excludeNearest, rows⟩
          rw [weighted, hnoise, hi, hfused]
          exact Call.answers_pure hm₂ rfl

/-- A posterior has the entries of the weighted path. -/
theorem SearchesAs.posterior (h : SearchesAs faiss env S search) (hm : S m)
    (hs : 0 < m.numObs → m.yScale.length = m.numMetrics) :
    Answers S (fun n i => n.entries = m.naturalized (normals i))
      (posterior faiss env x params flags) m (do
        let _ ← m.light flags
        m.internals search x params flags) := by
  have hafter : ∀ (n : ENNNormal K) i s₁, n.entries = normals i → S s₁ →
      Answers S (fun n i => n.entries = m.naturalized (normals i)) (do
        let m ← Call.get
        return { n with entries := m.naturalized n.entries }) s₁ (pure i) := by
    intro n i m₁ hn hm₁
    apply Call.answers_get_bind
    apply Call.answers_pure hm₁
    rw [← (h.reads m m₁ hm hm₁).naturalized_eq, hn]
  have hinternals : Answers S Eq
      (EpistemicNearestNeighbors.computePosteriorInternals faiss env x params flags) m
      (m.internals search x params flags) := h.computePosteriorInternals hm hm
  apply Call.answers_get_bind
  apply Call.answers_ofOutcome_bind hm
  intro light hlight
  rw [← bind_pure (m.internals search x params flags)]
  cases light with
  | true =>
    split at hlight
    next => simp at hlight
    next hnoise =>
      obtain ⟨b, hb, hnot⟩ := Outcome.map_eq_ok.mp hlight
      obtain rfl : b = false := by simpa using hnot
      exact (h.computePosteriorLight hm hm hb (Bool.eq_false_of_not_eq_true hnoise) hs).bind hafter
  | false =>
    simp only [Bool.false_eq_true, if_false, ← bind_pure_comp, bind_assoc, pure_bind]
    apply hinternals.bind
    rintro i _ m₁ rfl hm₁
    exact hafter (normalOf i) i m₁ rfl hm₁

end Light

section Agreement

variable {D F : Type} [Floating D] [Analysis D]

/-- A batch returns when each posterior does, and its slices are their entries. -/
def Agrees (batch : Outcome (List (Array2 (NormalEntry D)))) (singles : List (Outcome (ENNNormal D))) :
    Prop :=
  ∀ slices, batch = .ok slices ↔
    List.Forall₂ (fun single slice => ∃ n, single = .ok n ∧ n.entries = slice) singles slices

def Reuses (m : EpistemicNearestNeighbors D F) (paramss : List (ENNParams D)) : Prop :=
  (∀ p ∈ paramss, ∀ q ∈ paramss, p.kNumNeighbors = q.kNumNeighbors) ∧ 0 < m.numObs

/-- The row at an index can be read, with its variances when the model has some. -/
structure RowReads (m : EpistemicNearestNeighbors D F) (i : ℕ) : Prop where
  y : ∃ y, orPanic (m.backend.rowY i) = .ok y
  yvar : m.hasYvar = .ok true → i < m.numObs → ∃ v, m.expectYvar i = .ok v

/-- The search is not refused, and the rows that it finds can be read. -/
structure Served (m : EpistemicNearestNeighbors D F) (search : NeighborSearch D) (x : Array2 D)
    (flags : PosteriorFlags) (params : ENNParams D) : Prop where
  enough : flags.excludeNearest = true → 1 < m.numObs
  found : 0 < m.searchCount params.kNumNeighbors flags.excludeNearest →
    ∃ hits, search x (m.searchCount params.kNumNeighbors flags.excludeNearest)
        flags.excludeNearest flags.tieBreakNeighbors = .ok hits ∧
      ∀ k, k = availableK (m.searchCount params.kNumNeighbors flags.excludeNearest) params
          flags.excludeNearest → 0 < k →
        (∃ b, m.hasYvar = .ok b) ∧
          ∀ row ∈ hits.rows, ∀ hit ∈ row.take k, m.RowReads (asUsize hit.2)

def VarianceLost (m : EpistemicNearestNeighbors D F) (flags : PosteriorFlags) : Prop :=
  flags.observationNoise = false ∧ ∀ b, m.hasYvar ≠ .ok b

variable {m : EpistemicNearestNeighbors D F} {data : NeighborData D} {params : ENNParams D}
  {noise b : Bool}

omit [Analysis D] in
theorem exists_yvarNeighbors_iff {neighbors : List (Neighbor D)} :
    (∃ v, m.yvarNeighbors b neighbors = .ok v) ↔
      (b = true → ∀ n ∈ neighbors, n.idx < m.numObs → ∃ v, m.expectYvar n.idx = .ok v) := by
  cases b with
  | false =>
    constructor
    · rintro - ⟨⟩
    · intro
      exact ⟨none, rfl⟩
  | true =>
    have hmap : (∃ v, m.yvarNeighbors true neighbors = .ok v) ↔
        ∃ rows, (neighbors.mapM fun n =>
          if n.idx < m.numObs then m.expectYvar n.idx
          else pure (List.replicate m.numMetrics 0)) = .ok rows := by
      simp [yvarNeighbors]
    rw [hmap, Outcome.exists_mapM_iff]
    constructor
    · rintro h - n hn hidx
      simpa only [if_pos hidx] using h n hn
    · intro h n hn
      split
      next hidx => exact h rfl n hn hidx
      next => exact ⟨_, rfl⟩

/-- Whether the weighted path returns does not depend on its parameters. -/
theorem exists_weighted_iff (hs : m.yScale.length = m.numMetrics) :
    (∃ i, m.computeWeightedPosterior data params noise = .ok i) ↔
      ∃ b, m.hasYvar = .ok b ∧ ∀ neighbors ∈ data.rows, ∃ v, m.yvarNeighbors b neighbors = .ok v := by
  constructor
  · rintro ⟨i, hi⟩
    obtain ⟨b, hb, hi⟩ := Outcome.bind_eq_ok.mp hi
    obtain ⟨rows, hrows, -⟩ := Outcome.bind_eq_ok.mp hi
    refine ⟨b, hb, fun neighbors hmem => ?_⟩
    obtain ⟨row, hrow⟩ := Outcome.exists_mapM_iff.mp ⟨rows, hrows⟩ neighbors hmem
    obtain ⟨v, hv, -⟩ := Outcome.bind_eq_ok.mp hrow
    exact ⟨v, hv⟩
  · rintro ⟨b, hb, hrows⟩
    obtain ⟨stats, hstats⟩ := (Outcome.exists_mapM_iff (f := fun neighbors => do
        let yvars ← m.yvarNeighbors b neighbors
        return computeWeightedStats params noise m.yScale neighbors yvars)).mpr
      fun neighbors hmem => by
        obtain ⟨v, hv⟩ := hrows neighbors hmem
        rw [hv]
        exact ⟨_, rfl⟩
    obtain ⟨i, hi, -⟩ := exists_weighted_of_rows data hs hb hstats
    exact ⟨i, hi⟩

omit [Floating D] [Analysis D] in
theorem exists_neighborRow_iff {k : ℕ} {hits : List (D × ℤ)} :
    (∃ row, m.neighborRow k hits = .ok row) ↔
      ∀ hit ∈ hits.take k, ∃ y, orPanic (m.backend.rowY (asUsize hit.2)) = .ok y := by
  unfold neighborRow
  rw [Outcome.exists_mapM_iff]
  apply forall₂_congr
  intro hit _
  simp only [Outcome.bind_eq_ok, Outcome.pure_eq_ok]
  constructor
  · rintro ⟨_, y, hy, -⟩
    exact ⟨y, hy⟩
  · rintro ⟨y, hy⟩
    exact ⟨_, y, hy, rfl⟩

omit [Floating D] [Analysis D] in
theorem idx_of_neighborRow {k : ℕ} {hits : List (D × ℤ)} {row : List (Neighbor D)}
    (h : m.neighborRow k hits = .ok row) :
    List.Forall₂ (fun hit n => Neighbor.idx n = asUsize hit.2) (hits.take k) row := by
  apply (mapM_ok_iff.mp h).imp
  intro hit n hn
  obtain ⟨y, -, hn⟩ := Outcome.bind_eq_ok.mp hn
  rw [← Outcome.pure_eq_ok.mp hn]

/-- The weighted path over rows that a search found. -/
theorem exists_weighted_rows_iff (hs : m.yScale.length = m.numMetrics) {k : ℕ}
    {hits : List (List (D × ℤ))} {rows : List (List (Neighbor D))}
    (hrows : hits.mapM (m.neighborRow k) = .ok rows) :
    (∃ i, m.computeWeightedPosterior ⟨k, rows⟩ params noise = .ok i) ↔
      (∃ b, m.hasYvar = .ok b) ∧ ∀ row ∈ hits, ∀ hit ∈ row.take k, m.hasYvar = .ok true →
        asUsize hit.2 < m.numObs → ∃ v, m.expectYvar (asUsize hit.2) = .ok v := by
  have hall := mapM_ok_iff.mp hrows
  rw [exists_weighted_iff hs]
  simp only [exists_yvarNeighbors_iff]
  constructor
  · rintro ⟨b, hb, hyvar⟩
    refine ⟨⟨b, hb⟩, fun row hrow hit hhit htrue hidx => ?_⟩
    obtain ⟨neighbors, hmem, hread⟩ := exists_mem_right hall hrow
    obtain ⟨n, hn, hid⟩ := exists_mem_right (idx_of_neighborRow hread) hhit
    rw [← hid] at hidx ⊢
    exact hyvar neighbors hmem (Except.ok.inj (hb.symm.trans htrue)) n hn hidx
  · rintro ⟨⟨b, hb⟩, hyvar⟩
    refine ⟨b, hb, fun neighbors hmem htrue n hn hidx => ?_⟩
    obtain ⟨row, hrow, hread⟩ := exists_mem_left hall hmem
    obtain ⟨hit, hhit, hid⟩ := exists_mem_left (idx_of_neighborRow hread) hn
    rw [hid] at hidx ⊢
    exact hyvar row hrow hit hhit (htrue ▸ hb) hidx

variable {search : NeighborSearch D} {x : Array2 D} {flags : PosteriorFlags}

theorem exists_read_iff (hs : m.yScale.length = m.numMetrics) {k : ℕ}
    {hits : List (List (D × ℤ))} :
    (∃ rows, hits.mapM (m.neighborRow k) = .ok rows ∧
        ∃ i, m.computeWeightedPosterior ⟨k, rows⟩ params noise = .ok i) ↔
      (∃ b, m.hasYvar = .ok b) ∧
        ∀ row ∈ hits, ∀ hit ∈ row.take k, m.RowReads (asUsize hit.2) := by
  constructor
  · rintro ⟨rows, hrows, hi⟩
    obtain ⟨hb, hyvar⟩ := (exists_weighted_rows_iff hs hrows).mp hi
    have hread := Outcome.exists_mapM_iff.mp ⟨rows, hrows⟩
    refine ⟨hb, fun row hrow hit hhit => ⟨?_, hyvar row hrow hit hhit⟩⟩
    exact exists_neighborRow_iff.mp (hread row hrow) hit hhit
  · rintro ⟨hb, hreads⟩
    obtain ⟨rows, hrows⟩ := (Outcome.exists_mapM_iff (f := m.neighborRow k)).mpr
      fun row hrow => exists_neighborRow_iff.mpr fun hit hhit => (hreads row hrow hit hhit).y
    exact ⟨rows, hrows, (exists_weighted_rows_iff hs hrows).mpr
      ⟨hb, fun row hrow hit hhit => (hreads row hrow hit hhit).yvar⟩⟩

/-- A request is served exactly when its neighbours are found and the weighted path returns. -/
theorem served_iff (hs : m.yScale.length = m.numMetrics) :
    m.Served search x flags params ↔
      ∃ data, m.nearest search x params flags = .ok data ∧
        ∃ i, m.weighted x params flags data = .ok i := by
  simp only [nearest, Outcome.bind_eq_ok]
  constructor
  · intro h
    have hk : m.neighborSearchK params flags.excludeNearest =
        .ok (m.searchCount params.kNumNeighbors flags.excludeNearest) := by
      refine if_neg fun hfew => ?_
      have := h.enough hfew.1
      omega
    by_cases h0 : m.searchCount params.kNumNeighbors flags.excludeNearest = 0
    · exact ⟨none, ⟨_, hk, if_pos h0⟩, _, rfl⟩
    · obtain ⟨hits, hhits, hread⟩ := h.found (Nat.pos_of_ne_zero h0)
      by_cases hzero : availableK (m.searchCount params.kNumNeighbors flags.excludeNearest) params
          flags.excludeNearest = 0
      · refine ⟨none, ⟨_, hk, ?_⟩, _, rfl⟩
        rw [if_neg h0, hhits]
        exact if_pos hzero
      · obtain ⟨rows, hrows, i, hi⟩ :=
          (exists_read_iff hs).mpr (hread _ rfl (Nat.pos_of_ne_zero hzero))
        refine ⟨some ⟨_, rows⟩, ⟨_, hk, ?_⟩, i, hi⟩
        rw [if_neg h0, hhits]
        refine (if_neg hzero).trans ?_
        rw [hrows]
        rfl
  · rintro ⟨data, ⟨searchK, hk, hdata⟩, i, hi⟩
    unfold neighborSearchK at hk
    split at hk
    next => simp at hk
    next hfew =>
      obtain rfl := Outcome.pure_eq_ok.mp hk
      constructor
      · intro hex
        by_contra hlt
        exact hfew ⟨hex, by omega⟩
      · intro hpos
        rw [if_neg hpos.ne'] at hdata
        obtain ⟨hits, hhits, hdata⟩ := Outcome.bind_eq_ok.mp hdata
        refine ⟨hits, hhits, ?_⟩
        rintro k rfl hk
        rw [if_neg hk.ne'] at hdata
        obtain ⟨rows, hrows, hdata⟩ := Outcome.bind_eq_ok.mp hdata
        obtain rfl := Outcome.pure_eq_ok.mp hdata
        exact (exists_read_iff hs).mp ⟨rows, hrows, i, hi⟩

/-- The internals behind one posterior. -/
def single (m : EpistemicNearestNeighbors D F) (search : NeighborSearch D) (x : Array2 D)
    (params : ENNParams D) (flags : PosteriorFlags) : Outcome (DrawInternals D) := do
  let _ ← m.light flags
  m.internals search x params flags

omit [Floating D] [Analysis D] in
theorem exists_light_iff : (∃ b, m.light flags = .ok b) ↔ ¬ m.VarianceLost flags := by
  unfold light VarianceLost
  cases hnoise : flags.observationNoise with
  | true => simp
  | false =>
    simp
    tauto

omit [Floating D] [Analysis D] in
theorem light_eq_of_empty (h0 : m.numObs = 0) : ∃ b, m.light flags = .ok b := by
  apply exists_light_iff.mpr
  rintro ⟨-, hlost⟩
  apply hlost false
  unfold hasYvar
  rw [if_neg (by omega)]
  rfl

omit [Floating D] [Analysis D] in
theorem nearest_congr {p q : ENNParams D} (h : p.kNumNeighbors = q.kNumNeighbors) :
    m.nearest search x p flags = m.nearest search x q flags := by
  unfold nearest neighborSearchK availableK
  rw [h]

theorem internals_eq (hx : x.ncols = m.numDim) (hobs : 0 < m.numObs) :
    m.internals search x params flags =
      (m.nearest search x params flags >>= m.weighted x params flags) := by
  unfold internals
  rw [if_neg (not_not.mpr hx), if_neg hobs.ne']

omit [Floating D] [Analysis D] in
theorem availableK_pos_iff {searchK : ℕ} (hobs : 0 < m.numObs)
    (h : m.neighborSearchK params flags.excludeNearest = .ok searchK) :
    0 < availableK searchK params flags.excludeNearest ↔ 0 < params.kNumNeighbors := by
  unfold neighborSearchK at h
  split at h
  next => simp at h
  next hfew =>
    obtain rfl := Outcome.pure_eq_ok.mp h
    unfold availableK searchCount
    cases hex : flags.excludeNearest with
    | true =>
      simp only [hex, true_and, not_le] at hfew
      simp only [if_true]
      omega
    | false =>
      simp only [Bool.false_eq_true, if_false]
      omega

omit [Floating D] [Analysis D] in
theorem searchK_pos_of_availableK {searchK : ℕ} {excludeNearest : Bool}
    (h : 0 < availableK searchK params excludeNearest) : 0 < searchK := by
  unfold availableK at h
  split at h <;> omega

theorem hasYvar_of_internals {i : DrawInternals D} (hobs : 0 < m.numObs)
    (hk : 0 < params.kNumNeighbors) (h : m.internals search x params flags = .ok i) :
    ∃ b, m.hasYvar = .ok b := by
  unfold internals at h
  split at h
  next => simp at h
  next =>
    rw [if_neg hobs.ne', nearest_bind, Outcome.bind_eq_ok] at h
    obtain ⟨searchK, hsearchK, h⟩ := h
    have hpos := (availableK_pos_iff hobs hsearchK).mpr hk
    rw [if_neg (searchK_pos_of_availableK hpos).ne', Outcome.bind_eq_ok] at h
    obtain ⟨hits, -, h⟩ := h
    rw [if_neg hpos.ne', Outcome.bind_eq_ok] at h
    obtain ⟨rows, -, h⟩ := h
    obtain ⟨b, hb, -⟩ := Outcome.bind_eq_ok.mp h
    exact ⟨b, hb⟩

/-- The requests that are refused one by one and served together. -/
structure Diverts (m : EpistemicNearestNeighbors D F) (search : NeighborSearch D) (x : Array2 D)
    (paramss : List (ENNParams D)) (flags : PosteriorFlags) : Prop where
  reuses : m.Reuses paramss
  served : ∀ p ∈ paramss, m.Served search x flags p
  refused : x.ncols ≠ m.numDim ∨ m.VarianceLost flags

variable {first : ENNParams D} {paramss : List (ENNParams D)}

omit [Floating D] [Analysis D] in
theorem reuses_cons_iff :
    m.Reuses (first :: paramss) ↔
      ((first :: paramss).all fun p => p.kNumNeighbors = first.kNumNeighbors) ∧ 0 < m.numObs := by
  unfold Reuses
  simp only [List.all_eq_true, decide_eq_true_eq]
  constructor
  · rintro ⟨h, hobs⟩
    exact ⟨fun p hp => h p hp first (List.mem_cons_self ..), hobs⟩
  · rintro ⟨h, hobs⟩
    exact ⟨fun p hp q hq => (h p hp).trans (h q hq).symm, hobs⟩

omit [Floating D] [Analysis D] in
theorem served_congr {p q : ENNParams D} (h : p.kNumNeighbors = q.kNumNeighbors)
    (hp : m.Served search x flags p) : m.Served search x flags q := by
  obtain ⟨henough, hfound⟩ := hp
  unfold availableK at hfound
  rw [h] at hfound
  exact ⟨henough, hfound⟩

theorem exists_slices (hs : m.yScale.length = m.numMetrics) (hr : m.Reuses (first :: paramss))
    (h : m.Served search x flags first) :
    ∃ data, m.nearest search x first flags = .ok data ∧
      m.slices search x flags first (first :: paramss) =
        (first :: paramss).mapM (fun params => m.weighted x params flags data) ∧
      ∃ is, m.slices search x flags first (first :: paramss) = .ok is := by
  obtain ⟨data, hdata, i, hi⟩ := (served_iff hs).mp h
  have hslices : m.slices search x flags first (first :: paramss) =
      (first :: paramss).mapM (fun params => m.weighted x params flags data) := by
    unfold slices
    rw [if_pos (reuses_cons_iff.mp hr), hdata]
    rfl
  refine ⟨data, hdata, hslices, ?_⟩
  rw [hslices]
  apply Outcome.exists_mapM_iff.mpr
  intro p _
  cases data with
  | none => exact ⟨_, rfl⟩
  | some data => exact (exists_weighted_iff hs).mpr ((exists_weighted_iff hs).mp ⟨i, hi⟩)

theorem served_of_slices (hs : m.yScale.length = m.numMetrics) (hr : m.Reuses (first :: paramss))
    {is : List (DrawInternals D)}
    (h : m.slices search x flags first (first :: paramss) = .ok is) :
    m.Served search x flags first := by
  unfold slices at h
  rw [if_pos (reuses_cons_iff.mp hr), Outcome.bind_eq_ok] at h
  obtain ⟨data, hdata, his⟩ := h
  obtain ⟨i, hi⟩ := Outcome.exists_mapM_iff.mp ⟨is, his⟩ first (List.mem_cons_self ..)
  exact (served_iff hs).mpr ⟨data, hdata, i, hi⟩

theorem single_eq {b : Bool} (hb : m.light flags = .ok b) :
    m.single search x params flags = m.internals search x params flags := by
  unfold single
  rw [hb]
  rfl

theorem internals_of_single {i : DrawInternals D} (h : m.single search x params flags = .ok i) :
    (∃ b, m.light flags = .ok b) ∧ m.internals search x params flags = .ok i := by
  obtain ⟨b, hb, hi⟩ := Outcome.bind_eq_ok.mp h
  exact ⟨⟨b, hb⟩, hi⟩

theorem ncols_of_internals {i : DrawInternals D} (h : m.internals search x params flags = .ok i) :
    x.ncols = m.numDim := by
  by_contra hne
  unfold internals at h
  rw [if_pos hne] at h
  simp at h

/-- Apart from diverted requests, a batch returns when each posterior does. -/
theorem slices_eq_ok_iff (hs : 0 < m.numObs → m.yScale.length = m.numMetrics)
    (h : ¬ m.Diverts search x (first :: paramss) flags) (is : List (DrawInternals D)) :
    m.slices search x flags first (first :: paramss) = .ok is ↔
      (first :: paramss).mapM (fun p => m.single search x p flags) = .ok is := by
  have hfirst : first ∈ first :: paramss := List.mem_cons_self ..
  by_cases hr : m.Reuses (first :: paramss)
  · have hs := hs hr.2
    by_cases hserved : m.Served search x flags first
    · -- the search serves all parameters, and no posterior is refused
      have hall : ∀ p ∈ first :: paramss, m.Served search x flags p := fun p hp =>
        served_congr (hr.1 first hfirst p hp) hserved
      have hrefused : ¬ (x.ncols ≠ m.numDim ∨ m.VarianceLost flags) := fun hd => h ⟨hr, hall, hd⟩
      push Not at hrefused
      obtain ⟨b, hb⟩ := exists_light_iff.mpr hrefused.2
      obtain ⟨data, hdata, hslices, -⟩ := exists_slices hs hr hserved
      rw [hslices]
      apply Iff.of_eq
      congr 1
      apply Outcome.mapM_congr
      intro p hp
      rw [single_eq hb, internals_eq hrefused.1 hr.2, nearest_congr (hr.1 p hp first hfirst), hdata]
      rfl
    · constructor
      · intro his
        exact absurd (served_of_slices hs hr his) hserved
      · intro his
        obtain ⟨i, hi⟩ := Outcome.exists_mapM_iff.mp ⟨is, his⟩ first hfirst
        obtain ⟨-, hi⟩ := internals_of_single hi
        rw [internals_eq (ncols_of_internals hi) hr.2] at hi
        obtain ⟨data, hdata, hi⟩ := Outcome.bind_eq_ok.mp hi
        exact absurd ((served_iff hs).mpr ⟨data, hdata, i, hi⟩) hserved
  · have hslices : m.slices search x flags first (first :: paramss) =
        (first :: paramss).mapM fun p => m.internals search x p flags := by
      unfold slices
      exact if_neg (reuses_cons_iff.not.mp hr)
    rw [hslices]
    by_cases hlight : ∃ b, m.light flags = .ok b
    · obtain ⟨b, hb⟩ := hlight
      simp only [single_eq hb]
    · constructor
      · intro his
        -- of two different numbers of neighbours one is positive
        have hobs : 0 < m.numObs := by
          by_contra h0
          exact hlight (light_eq_of_empty (by omega))
        have hpos : ∃ p ∈ first :: paramss, 0 < p.kNumNeighbors := by
          by_contra hzero
          push Not at hzero
          refine hr ⟨fun p hp q hq => ?_, hobs⟩
          have hp := hzero p hp
          have hq := hzero q hq
          omega
        obtain ⟨p, hp, hk⟩ := hpos
        obtain ⟨i, hi⟩ := Outcome.exists_mapM_iff.mp ⟨is, his⟩ p hp
        obtain ⟨b, hb⟩ := hasYvar_of_internals hobs hk hi
        exact absurd (exists_light_iff.mpr fun hlost => hlost.2 b hb) hlight
      · intro his
        obtain ⟨i, hi⟩ := Outcome.exists_mapM_iff.mp ⟨is, his⟩ first hfirst
        exact absurd (internals_of_single hi).1 hlight

end Agreement

section InMemory

variable {D F : Type} [Floating D] [Floating F] [FloatCast D F] [Analysis D]
  {m : EpistemicNearestNeighbors D F}

theorem searchesAs_reindexed (faiss : Faiss F) (env : Env F) (h : Reindexed m m) :
    SearchesAs faiss env (Reindexed m) fun x searchK excludeNearest tieBreakNeighbors =>
      (indexSearch faiss env x searchK excludeNearest tieBreakNeighbors m).1 where
  reads m₁ m₂ h₁ h₂ := Alike.sameReads ⟨h₁, h₂⟩
  answers m₁ x searchK excludeNearest tieBreakNeighbors h₁ := by
    have hmatch : Call.Matches (Alike m) Eq
        (indexSearch faiss env x searchK excludeNearest tieBreakNeighbors) m₁
        (indexSearch faiss env x searchK excludeNearest tieBreakNeighbors) m :=
      Alike.indexSearch_matches ⟨h₁, h⟩ _ _ _
    exact ⟨hmatch.1, hmatch.2.1⟩

end InMemory

section Paths

variable {K F : Type} [ExactArith K] [Analysis K] [ExactRoot K] [Floating F] [FloatCast K F]
  [DecidableEq F] {faiss : Faiss F} {env : Env F} {S : EpistemicNearestNeighbors K F → Prop}
  {search : NeighborSearch K} {m : EpistemicNearestNeighbors K F} {x : Array2 K}
  {flags : PosteriorFlags}

omit [ExactRoot K] [DecidableEq F] in
theorem SearchesAs.batchPosterior (h : SearchesAs faiss env S search) (hm : S m)
    (first : ENNParams K) (rest : List (ENNParams K)) :
    Answers S (fun slices is => slices = is.map fun i => m.naturalized (normals i))
      (batchPosterior faiss env x (first :: rest) flags) m
      (m.slices search x flags first (first :: rest)) := by
  have hslices : Answers S Eq
      (if ((first :: rest).all fun p => p.kNumNeighbors = first.kNumNeighbors) ∧ 0 < m.numObs then
        computeBatchWithSharedNeighbors faiss env x first (first :: rest) flags
      else computeBatchSeparateNeighbors faiss env x (first :: rest) flags) m
      (m.slices search x flags first (first :: rest)) := h.slices hm hm
  rw [← bind_pure (m.slices search x flags first (first :: rest))]
  apply Call.answers_get_bind
  have hafter : ∀ (is is' : List (DrawInternals K)) m₁, is = is' → S m₁ →
      Answers S (fun slices is => slices = is.map fun i => m.naturalized (normals i)) (do
        let m ← Call.get
        return is.map fun i => m.naturalized (i.stats.mapCols fun _ s => s.normal)) m₁
        (pure is') := by
    rintro is _ m₁ rfl hm₁
    apply Call.answers_get_bind
    rw [← (h.reads m m₁ hm hm₁).naturalized_eq]
    exact Call.answers_pure hm₁ rfl
  have hbind := Call.Answers.bind hslices hafter
  split at hbind
  next hreuse =>
    dsimp only
    rw [if_pos hreuse]
    exact hbind
  next hreuse =>
    dsimp only
    rw [if_neg hreuse]
    exact hbind

/--
A batch returns exactly when each posterior does, with its values, unless one search serves
parameters that are refused one by one.
-/
theorem batchPosterior_agrees_iff (h : SearchesAs faiss env S search) (hm : S m)
    (hreached : Reached m) (x : Array2 K) {paramss : List (ENNParams K)} (hne : paramss ≠ [])
    (flags : PosteriorFlags) :
    Agrees (batchPosterior faiss env x paramss flags m).1
        (paramss.map fun params => (posterior faiss env x params flags m).1) ↔
      ¬ m.Diverts search x paramss flags := by
  obtain ⟨first, rest, rfl⟩ := List.exists_cons_of_ne_nil hne
  have hs := hreached.scaledRows
  -- what a batch and a posterior return, in terms of their internals
  have hbatch : ∀ slices, (EpistemicNearestNeighbors.batchPosterior faiss env x (first :: rest)
      flags m).1 = .ok slices ↔
        ∃ is, m.slices search x flags first (first :: rest) = .ok is ∧
          is.map (fun i => m.naturalized (normals i)) = slices := fun slices => by
    have hbatch : Answers S (fun slices is => slices = is.map fun i => m.naturalized (normals i))
        (EpistemicNearestNeighbors.batchPosterior faiss env x (first :: rest) flags) m
        (m.slices search x flags first (first :: rest)) := h.batchPosterior hm first rest
    have hiff := hbatch.1.exists_iff (f := id) slices
    simpa using hiff
  have hsingle : ∀ params slice, (∃ n, (EpistemicNearestNeighbors.posterior faiss env x params
      flags m).1 = .ok n ∧ n.entries = slice) ↔
        ∃ i, m.single search x params flags = .ok i ∧ m.naturalized (normals i) = slice :=
    fun params slice =>
      (SearchesAs.posterior h hm hs).1.exists_iff slice
  unfold Agrees
  simp only [hbatch, List.forall₂_map_left_iff, hsingle]
  constructor
  · rintro hagree ⟨hreuses, hserved, hrefused⟩
    obtain ⟨data, -, -, is, his⟩ := exists_slices (hs hreuses.2) hreuses
      (hserved first (List.mem_cons_self ..))
    obtain ⟨_, _, ⟨i, hi, -⟩, -, -⟩ := List.forall₂_cons_left_iff.mp ((hagree _).mp ⟨is, his, rfl⟩)
    obtain ⟨hlight, hi⟩ := internals_of_single hi
    rcases hrefused with hx | hlost
    · exact hx (ncols_of_internals hi)
    · exact exists_light_iff.mp hlight hlost
  · intro hdiverts slices
    rw [forall₂_exists_iff]
    simp only [slices_eq_ok_iff hs hdiverts, mapM_ok_iff]

end Paths

section Example

def pairModel : Outcome (EpistemicNearestNeighbors ℚ ℚ) :=
  newWithOptions defaultEnv (.column [0, 2]) (.column [1, 5]) none {}

theorem returns_pairModel : pairModel.returns = true := by decide +kernel

theorem reindexed_pairModel {m : EpistemicNearestNeighbors ℚ ℚ} (h : pairModel = .ok m) :
    Reindexed m m := by
  have hb : chooseBounds none (persistedBounds (none : Option (WorkDir ℚ ℚ)) 1) 1 =
      .ok (YBounds.unboundedBounds 1) := rfl
  obtain ⟨y, stored, held, b, -, -, hl⟩ := ((holds_newWithOptions defaultEnv
    (p := ⟨.column [0, 2], .column [1, 5], none, rfl, fun _ h => by cases h⟩) rfl rfl hb
    (validateBounds_unboundedBounds 1)).1 m h).loaded
  exact hl.reindexed hl

theorem batchPosterior_agrees_pair :
    ∃ m, pairModel = .ok m ∧
      Agrees (batchPosterior .flat defaultEnv (.column [1]) [⟨2, 1, 0⟩, ⟨2, 3, 1⟩] {} m).1
        ([⟨2, 1, 0⟩, ⟨2, 3, 1⟩].map fun p => (posterior .flat defaultEnv (.column [1]) p {} m).1) := by
  have hm := Outcome.eq_ok_value returns_pairModel
  have hr := reindexed_pairModel hm
  refine ⟨_, hm, (batchPosterior_agrees_iff (searchesAs_reindexed .flat defaultEnv hr) hr
    (.newWithOptions _ _ _ _ _ hm) (.column [1]) (by simp) {}).mpr ?_⟩
  rintro ⟨-, -, hx | hlost⟩
  · exact hx (by decide +kernel)
  · exact hlost.2 false (by decide +kernel)

theorem length_wideQuery : ∀ row ∈ [[(1 : ℚ), 1]], row.length = 2 := by simp

def wideQuery : Array2 ℚ := ⟨2, [[1, 1]], length_wideQuery⟩

/-- A query of the wrong width is refused one by one, and answered together. -/
theorem not_batchPosterior_agrees :
    ∃ m, pairModel = .ok m ∧
      ¬ Agrees (batchPosterior .flat defaultEnv wideQuery [⟨0, 1, 0⟩] {} m).1
        ([⟨0, 1, 0⟩].map fun p => (posterior .flat defaultEnv wideQuery p {} m).1) := by
  have hm := Outcome.eq_ok_value returns_pairModel
  refine ⟨_, hm, fun h => ?_⟩
  have hbatch := Outcome.eq_ok_value (x := (batchPosterior .flat defaultEnv wideQuery
    [⟨0, 1, 0⟩] {} (pairModel.value returns_pairModel)).1) (by decide +kernel)
  obtain ⟨_, _, ⟨n, hn, -⟩, -, -⟩ := List.forall₂_cons_left_iff.mp ((h _).mp hbatch)
  have hfail : (posterior .flat defaultEnv wideQuery ⟨0, 1, 0⟩ {}
      (pairModel.value returns_pairModel)).1.returns = false := by decide +kernel
  have hok := congrArg Outcome.returns hn
  exact absurd (hfail.symm.trans hok) (by simp [Outcome.returns])

end Example

end EpistemicNearestNeighbors

end Ennbo
