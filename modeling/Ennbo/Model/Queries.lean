import Ennbo.Model.Posterior
import Ennbo.Relational

/-! # Queries of two models

Posteriors and draws read a model through its search, its rows and a few fields.
Two models that agree on these answer such queries alike, whatever holds their
rows.
-/

namespace Ennbo

open YBounds (NormalEntry)

variable {D F : Type} [Floating D] [Floating F] [FloatCast D F] [Analysis D]

/-- The first `k` columns of two searches. -/
structure SameUpTo (k : ℕ) (hits hits' : Hits D) : Prop where
  rows_eq : hits.rows.map (List.take k) = hits'.rows.map (List.take k)
  ncols_eq : min k hits.ncols = min k hits'.ncols

omit [Floating D] [Analysis D] in
theorem SameUpTo.refl (k : ℕ) (hits : Hits D) : SameUpTo k hits hits := ⟨rfl, rfl⟩

omit [Floating D] [Analysis D] in
theorem SameUpTo.mono {k l : ℕ} {hits hits' : Hits D} (h : SameUpTo k hits hits') (hl : l ≤ k) :
    SameUpTo l hits hits' := by
  constructor
  · have htake : ∀ rows : List (List (D × ℤ)),
        rows.map (List.take l) = (rows.map (List.take k)).map (List.take l) := fun rows => by
      rw [List.map_map]
      apply List.map_congr_left
      intro row _
      rw [Function.comp_apply, List.take_take, min_eq_left hl]
    rw [htake, htake hits'.rows, h.rows_eq]
  · have hn := h.ncols_eq
    omega

namespace EpistemicNearestNeighbors

open Call (Matches)

variable {m m' : EpistemicNearestNeighbors D F} {env : Env F} {faiss : Faiss F} {x : Array2 D}

/-- What queries read besides the search. -/
structure SameReads (m m' : EpistemicNearestNeighbors D F) : Prop where
  numObs_eq : m.numObs = m'.numObs
  numDim_eq : m.numDim = m'.numDim
  numMetrics_eq : m.numMetrics = m'.numMetrics
  yScale_eq : m.yScale = m'.yScale
  yBounds_eq : m.yBounds = m'.yBounds
  bounded_eq : m.boundedOutputs = m'.boundedOutputs
  hasYvar_eq : m.hasYvar = m'.hasYvar
  rowY_eq : ∀ i, orPanic (m.backend.rowY i) = orPanic (m'.backend.rowY i)
  expectYvar_eq : ∀ i, i < m.numObs → m.expectYvar i = m'.expectYvar i

section Reads

variable (h : SameReads m m')

include h

omit [Floating F] [FloatCast D F] [Analysis D] in
theorem SameReads.emptyInternals_eq (n : ℕ) :
    m.emptyPosteriorInternals n = m'.emptyPosteriorInternals n := by
  simp only [emptyPosteriorInternals, h.numMetrics_eq]

omit [Floating D] [Floating F] [FloatCast D F] [Analysis D] in
theorem SameReads.searchCount_eq (k : ℕ) (excludeNearest : Bool) :
    m.searchCount k excludeNearest = m'.searchCount k excludeNearest := by
  simp only [searchCount, h.numObs_eq]

omit [Floating D] [Floating F] [FloatCast D F] [Analysis D] in
theorem SameReads.neighborSearchK_eq (params : ENNParams D) (excludeNearest : Bool) :
    m.neighborSearchK params excludeNearest = m'.neighborSearchK params excludeNearest := by
  simp only [neighborSearchK, h.numObs_eq, h.searchCount_eq]

omit [Floating D] [Floating F] [FloatCast D F] [Analysis D] in
theorem SameReads.neighborRow_eq (k : ℕ) : m.neighborRow k = m'.neighborRow k := by
  funext hits
  simp only [neighborRow, h.rowY_eq]

omit [Floating F] [FloatCast D F] in
theorem SameReads.naturalized_eq : m.naturalized = m'.naturalized := by
  funext entries
  simp only [naturalized, h.bounded_eq, h.yBounds_eq]

omit [Floating F] [FloatCast D F] [Analysis D] in
theorem SameReads.yvarNeighbors_eq : m.yvarNeighbors = m'.yvarNeighbors := by
  funext hasYvar neighbors
  have hrow : (fun n : Neighbor D => if n.idx < m.numObs then m.expectYvar n.idx
      else pure (List.replicate m.numMetrics 0)) = fun n =>
      if n.idx < m'.numObs then m'.expectYvar n.idx
      else pure (List.replicate m'.numMetrics 0) := by
    funext n
    rw [← h.numObs_eq, ← h.numMetrics_eq]
    split
    next hi => exact h.expectYvar_eq _ hi
    · rfl
  simp only [yvarNeighbors, hrow]

omit [Floating F] [FloatCast D F] in
theorem SameReads.computeWeightedPosterior_eq :
    m.computeWeightedPosterior = m'.computeWeightedPosterior := by
  funext data params noise
  simp only [computeWeightedPosterior, h.hasYvar_eq, h.yvarNeighbors_eq, h.yScale_eq,
    h.numMetrics_eq]

omit [Floating F] [FloatCast D F] in
theorem SameReads.drawFromInternals_eq : m.drawFromInternals = m'.drawFromInternals := by
  funext internals seeds
  simp only [drawFromInternals, h.numMetrics_eq]

end Reads

/-- Searches end alike, as far as their columns are used. -/
def SearchesMatch (R : EpistemicNearestNeighbors D F → EpistemicNearestNeighbors D F → Prop)
    (faiss : Faiss F) (env : Env F) (x : Array2 D) (excludeNearest tieBreakNeighbors : Bool) :
    Prop :=
  ∀ m m' searchK, R m m' → 0 < searchK → searchK ≤ m.numObs → 0 < m.numObs →
    Matches R (SameUpTo (if excludeNearest then searchK - 1 else searchK))
      (indexSearch faiss env x searchK excludeNearest tieBreakNeighbors) m
      (indexSearch faiss env x searchK excludeNearest tieBreakNeighbors) m'

section Queries

variable {R : EpistemicNearestNeighbors D F → EpistemicNearestNeighbors D F → Prop}
  {params : ENNParams D} {flags : PosteriorFlags}

omit [Floating D] [Floating F] [FloatCast D F] [Analysis D] in
theorem searchCount_le (m : EpistemicNearestNeighbors D F) (k : ℕ) (excludeNearest : Bool) :
    m.searchCount k excludeNearest ≤ m.numObs := by
  unfold searchCount
  split <;> exact min_le_right _ _

omit [Floating F] [FloatCast D F] [Analysis D] [Floating D] in
theorem neighborSearchK_eq_ok {searchK : ℕ} {excludeNearest : Bool}
    (h : m.neighborSearchK params excludeNearest = .ok searchK) : searchK ≤ m.numObs := by
  unfold neighborSearchK at h
  split at h
  · simp at h
  · obtain rfl := Outcome.pure_eq_ok.mp h
    exact m.searchCount_le _ _

omit [Floating D] [Analysis D] in
theorem availableK_le (searchK : ℕ) (params : ENNParams D) (excludeNearest : Bool) :
    availableK searchK params excludeNearest ≤ if excludeNearest then searchK - 1 else searchK :=
  min_le_right _ _

omit [Floating D] [Floating F] [FloatCast D F] [Analysis D] in
theorem mapM_neighborRow_eq {k : ℕ} {hits hits' : Hits D} (hr : SameReads m m')
    (h : SameUpTo k hits hits') :
    hits.rows.mapM (m.neighborRow k) = hits'.rows.mapM (m'.neighborRow k) := by
  have htake : ∀ rows : List (List (D × ℤ)), rows.mapM (m'.neighborRow k) =
      (rows.map (List.take k)).mapM (m'.neighborRow k) := fun rows => by
    rw [List.mapM_map]
    congr 1
    funext row
    simp only [neighborRow, Function.comp_apply, List.take_take, min_self]
  rw [hr.neighborRow_eq, htake, htake hits'.rows, h.rows_eq]

omit [Floating D] [Analysis D] in
theorem takeIds_eq {k : ℕ} {hits hits' : Hits D} (h : SameUpTo k hits hits') :
    computePosteriorLight.takeIds k hits = computePosteriorLight.takeIds k hits' := by
  have hrows := congrArg (List.map (List.map Prod.snd)) h.rows_eq
  simp only [List.map_map] at hrows
  simp only [computePosteriorLight.takeIds, h.ncols_eq, Array2.mk.injEq, true_and]
  exact hrows

variable (hreads : ∀ m m', R m m' → SameReads m m')

include hreads

theorem getNeighborData_matches (hsearch : SearchesMatch R faiss env x flags.excludeNearest
    flags.tieBreakNeighbors) (h : R m m') :
    Matches R Eq
      (getNeighborData faiss env x params flags.excludeNearest flags.tieBreakNeighbors) m
      (getNeighborData faiss env x params flags.excludeNearest flags.tieBreakNeighbors) m' := by
  apply Call.matches_get_bind
  have hr := hreads m m' h
  rw [← hr.neighborSearchK_eq]
  cases hk : m.neighborSearchK params flags.excludeNearest with
  | error e => exact ⟨rfl, h⟩
  | ok searchK =>
    have hle := neighborSearchK_eq_ok hk
    apply Call.matches_ok_bind
    apply Call.matches_ite Iff.rfl
    · intro
      exact Call.matches_pure h rfl
    · intro h0
      have hpos := Nat.pos_of_ne_zero h0
      apply (hsearch m m' searchK h hpos hle (by omega)).bind
      intro hits hits' s₁ t₁ hup hR₁
      apply Call.matches_ite Iff.rfl
      · intro
        exact Call.matches_pure hR₁ rfl
      · intro
        apply Call.matches_get_bind
        rw [mapM_neighborRow_eq (hreads s₁ t₁ hR₁) (hup.mono (availableK_le _ _ _))]
        apply Call.matches_ofOutcome_bind hR₁ (Outcome.matches_rfl _)
        rintro rows _ rfl
        exact Call.matches_pure hR₁ rfl

theorem computePosteriorInternals_matches (hsearch : SearchesMatch R faiss env x
    flags.excludeNearest flags.tieBreakNeighbors) (h : R m m') :
    Matches R Eq (computePosteriorInternals faiss env x params flags) m
      (computePosteriorInternals faiss env x params flags) m' := by
  have hr := hreads m m' h
  apply Call.matches_get_bind
  rw [← hr.numDim_eq, ← hr.numObs_eq]
  apply Call.matches_ite Iff.rfl
  · intro
    exact Call.matches_ofOutcome h rfl
  · intro
    apply Call.matches_ite Iff.rfl
    · intro
      exact Call.matches_pure h (hr.emptyInternals_eq _)
    · intro
      apply (getNeighborData_matches hreads hsearch h).bind
      rintro data _ s₁ t₁ rfl hR₁
      have hr₁ := hreads s₁ t₁ hR₁
      apply Call.matches_get_bind
      cases data with
      | none => exact Call.matches_pure hR₁ (hr₁.emptyInternals_eq _)
      | some data =>
        dsimp only
        rw [hr₁.computeWeightedPosterior_eq]
        exact Call.matches_ofOutcome hR₁ (Outcome.matches_rfl _)

theorem computePosteriorLight_matches (hsearch : SearchesMatch R faiss env x
    flags.excludeNearest flags.tieBreakNeighbors) (h : R m m') :
    Matches R Eq (computePosteriorLight faiss env x params flags) m
      (computePosteriorLight faiss env x params flags) m' := by
  have hr := hreads m m' h
  have hempty := hr.emptyInternals_eq x.nrows
  apply Call.matches_get_bind
  rw [← hr.numDim_eq, ← hr.numObs_eq, ← hr.neighborSearchK_eq, ← hempty]
  apply Call.matches_ite Iff.rfl
  · intro
    exact Call.matches_ofOutcome h rfl
  · intro
    apply Call.matches_ite Iff.rfl
    · intro
      exact Call.matches_pure h rfl
    · intro
      cases hk : m.neighborSearchK params flags.excludeNearest with
      | error e => exact ⟨rfl, h⟩
      | ok searchK =>
        have hle := neighborSearchK_eq_ok hk
        apply Call.matches_ok_bind
        apply Call.matches_ite Iff.rfl
        · intro
          exact Call.matches_pure h rfl
        · intro h0
          have hpos := Nat.pos_of_ne_zero h0
          apply (hsearch m m' searchK h hpos hle (by omega)).bind
          intro hits hits' s₁ t₁ hup hR₁
          have hr₁ := hreads s₁ t₁ hR₁
          have hupk := hup.mono (availableK_le searchK params _)
          apply Call.matches_ite Iff.rfl
          · intro
            exact Call.matches_pure hR₁ rfl
          · intro
            apply Call.matches_get_bind
            rw [mapM_neighborRow_eq hr₁ hupk]
            apply Call.matches_ofOutcome_bind hR₁ (Outcome.matches_rfl _)
            rintro rows _ rfl
            rw [hr₁.numMetrics_eq, hr₁.yScale_eq]
            apply Call.matches_ofOutcome_bind hR₁ (Outcome.matches_rfl _)
            rintro entries _ rfl
            exact Call.matches_pure hR₁ (congrArg _ (takeIds_eq hupk))

/-- Two models that agree on searches and reads have the same posterior. -/
theorem posterior_matches (hsearch : SearchesMatch R faiss env x flags.excludeNearest
    flags.tieBreakNeighbors) (h : R m m') :
    Matches R Eq (posterior faiss env x params flags) m (posterior faiss env x params flags) m' := by
  apply Call.matches_get_bind
  rw [← (hreads m m' h).hasYvar_eq]
  apply Call.matches_ofOutcome_bind h (Outcome.matches_rfl _)
  rintro light _ rfl
  have hafter : ∀ (normal normal' : ENNNormal D) s₁ t₁, normal = normal' → R s₁ t₁ →
      Matches R Eq (do
        let m ← Call.get
        return { normal with entries := m.naturalized normal.entries }) s₁ (do
        let m ← Call.get
        return { normal' with entries := m.naturalized normal'.entries }) t₁ := by
    rintro normal _ s₁ t₁ rfl hR₁
    apply Call.matches_get_bind
    rw [(hreads s₁ t₁ hR₁).naturalized_eq]
    exact Call.matches_pure hR₁ rfl
  apply Call.matches_ite Iff.rfl
  · intro
    exact (computePosteriorLight_matches hreads hsearch h).bind hafter
  · intro
    simp only [← bind_pure_comp, bind_assoc, pure_bind]
    apply (computePosteriorInternals_matches hreads hsearch h).bind
    rintro internals _ s₁ t₁ rfl hR₁
    exact hafter _ _ s₁ t₁ rfl hR₁

theorem computeBatchWithSharedNeighbors_matches {first : ENNParams D}
    {paramss : List (ENNParams D)} (hsearch : SearchesMatch R faiss env x flags.excludeNearest
    flags.tieBreakNeighbors) (h : R m m') :
    Matches R Eq (computeBatchWithSharedNeighbors faiss env x first paramss flags) m
      (computeBatchWithSharedNeighbors faiss env x first paramss flags) m' := by
  apply (getNeighborData_matches hreads hsearch h).bind
  rintro data _ s₁ t₁ rfl hR₁
  have hr₁ := hreads s₁ t₁ hR₁
  apply Call.matches_get_bind
  cases data with
  | none =>
    dsimp only
    rw [hr₁.emptyInternals_eq]
    exact Call.matches_pure hR₁ rfl
  | some data =>
    dsimp only
    rw [hr₁.computeWeightedPosterior_eq]
    exact Call.matches_ofOutcome hR₁ (Outcome.matches_rfl _)

theorem batchPosterior_matches {paramss : List (ENNParams D)} (hsearch : SearchesMatch R faiss env
    x flags.excludeNearest flags.tieBreakNeighbors) (h : R m m') :
    Matches R Eq (batchPosterior faiss env x paramss flags) m
      (batchPosterior faiss env x paramss flags) m' := by
  apply Call.matches_get_bind
  rw [← (hreads m m' h).numObs_eq]
  cases paramss with
  | nil => exact Call.matches_ofOutcome h rfl
  | cons first rest =>
    dsimp only
    have hafter : ∀ (internals internals' : List (DrawInternals D)) s₁ t₁, internals = internals' →
        R s₁ t₁ → Matches R Eq (do
          let m ← Call.get
          return internals.map fun i => m.naturalized (i.stats.mapCols fun _ s => s.normal)) s₁ (do
          let m ← Call.get
          return internals'.map fun i => m.naturalized (i.stats.mapCols fun _ s => s.normal))
          t₁ := by
      rintro internals _ s₁ t₁ rfl hR₁
      apply Call.matches_get_bind
      rw [(hreads s₁ t₁ hR₁).naturalized_eq]
      exact Call.matches_pure hR₁ rfl
    apply Call.matches_ite Iff.rfl
    · intro
      exact (computeBatchWithSharedNeighbors_matches hreads hsearch h).bind hafter
    · intro
      have hmap : Matches R (List.Forall₂ Eq)
          (computeBatchSeparateNeighbors faiss env x (first :: rest) flags) m
          (computeBatchSeparateNeighbors faiss env x (first :: rest) flags) m' := by
        apply Call.matches_mapM (List.forall₂_same.mpr fun _ _ => rfl) h
        rintro params _ s₁ t₁ rfl hR₁
        exact computePosteriorInternals_matches hreads hsearch hR₁
      rw [List.forall₂_eq_eq_eq] at hmap
      exact Matches.bind hmap hafter

theorem posteriorFunctionDraw_matches {seeds : List ℤ} (hsearch : SearchesMatch R faiss env x
    flags.excludeNearest flags.tieBreakNeighbors) (h : R m m') :
    Matches R Eq (posteriorFunctionDraw faiss env x params seeds flags) m
      (posteriorFunctionDraw faiss env x params seeds flags) m' := by
  apply (computePosteriorInternals_matches hreads hsearch h).bind
  rintro internals _ s₁ t₁ rfl hR₁
  have hr₁ := hreads s₁ t₁ hR₁
  apply Call.matches_get_bind
  rw [hr₁.drawFromInternals_eq, hr₁.bounded_eq, hr₁.yBounds_eq, hr₁.numMetrics_eq]
  apply Call.matches_ofOutcome_bind hR₁ (Outcome.matches_rfl _)
  rintro draws _ rfl
  apply Call.matches_ofOutcome_bind hR₁ (Outcome.matches_rfl _)
  rintro natural _ rfl
  exact Call.matches_pure hR₁ rfl

end Queries

end EpistemicNearestNeighbors

/-- What can be asked of a model. -/
inductive Query (D : Type) where
  | neighbors (x : Array2 D) (k : ℤ) (excludeNearest : Bool)
  | posterior (x : Array2 D) (params : ENNParams D) (flags : PosteriorFlags)
  | batchPosterior (x : Array2 D) (paramss : List (ENNParams D)) (flags : PosteriorFlags)
  | functionDraw (x : Array2 D) (params : ENNParams D) (functionSeeds : List ℤ)
      (flags : PosteriorFlags)

inductive Answer (D : Type) where
  | neighbors (ids : Array2 ℕ)
  | posterior (normal : ENNNormal D)
  | batchPosterior (entries : List (Array2 (NormalEntry D)))
  | functionDraw (draws : List (Array2 D)) (idx : List (List ℕ))

/-- Ask a model. -/
def Query.ask (faiss : Faiss F) (env : Env F) :
    Query D → Call (EpistemicNearestNeighbors D F) (Answer D)
  | .neighbors x k excludeNearest =>
    Answer.neighbors <$> EpistemicNearestNeighbors.neighbors faiss env x k excludeNearest
  | .posterior x params flags =>
    Answer.posterior <$> EpistemicNearestNeighbors.posterior faiss env x params flags
  | .batchPosterior x paramss flags =>
    Answer.batchPosterior <$> EpistemicNearestNeighbors.batchPosterior faiss env x paramss flags
  | .functionDraw x params seeds flags =>
    (fun p => Answer.functionDraw p.1 p.2) <$>
      EpistemicNearestNeighbors.posteriorFunctionDraw faiss env x params seeds flags

namespace EpistemicNearestNeighbors

open Call (Matches)

variable {R : EpistemicNearestNeighbors D F → EpistemicNearestNeighbors D F → Prop} {faiss : Faiss F}
  {env : Env F} {m m' : EpistemicNearestNeighbors D F}

theorem ask_matches (hreads : ∀ m m', R m m' → SameReads m m')
    (hsearch : ∀ x excludeNearest tieBreakNeighbors,
      SearchesMatch R faiss env x excludeNearest tieBreakNeighbors)
    (hneighbors : ∀ m m' x k excludeNearest, R m m' →
      Matches R Eq (neighbors faiss env x k excludeNearest) m
        (neighbors faiss env x k excludeNearest) m') (h : R m m') (q : Query D) :
    Matches R Eq (q.ask faiss env) m (q.ask faiss env) m' := by
  have hmap : ∀ {α β : Type} {c : Call (EpistemicNearestNeighbors D F) α} (f : α → β),
      Matches R Eq c m c m' → Matches R Eq (f <$> c) m (f <$> c) m' := by
    intro α β c f hc
    rw [← bind_pure_comp]
    apply hc.bind
    rintro a _ s₁ t₁ rfl hR₁
    exact Call.matches_pure hR₁ rfl
  cases q with
  | neighbors x k excludeNearest => exact hmap _ (hneighbors m m' x k excludeNearest h)
  | posterior x params flags => exact hmap _ (posterior_matches hreads (hsearch _ _ _) h)
  | batchPosterior x paramss flags =>
    exact hmap _ (batchPosterior_matches hreads (hsearch _ _ _) h)
  | functionDraw x params seeds flags =>
    exact hmap _ (posteriorFunctionDraw_matches hreads (hsearch _ _ _) h)

def BothEmpty (m m' : EpistemicNearestNeighbors D F) : Prop := SameReads m m' ∧ m.numObs = 0

variable (faiss env) in
theorem BothEmpty.ask_matches (h : BothEmpty m m') (q : Query D) :
    Matches BothEmpty Eq (q.ask faiss env) m (q.ask faiss env) m' := by
  apply EpistemicNearestNeighbors.ask_matches (fun _ _ h => h.1) _ _ h
  · intro x excludeNearest tieBreakNeighbors m m' searchK h _ _ hpos
    exact absurd h.2 hpos.ne'
  · intro m m' x k excludeNearest h
    apply Call.matches_get_bind
    rw [← h.1.numDim_eq, ← h.1.numObs_eq]
    apply Call.matches_ite Iff.rfl (fun _ => Call.matches_throw h)
    intro
    apply Call.matches_ite Iff.rfl (fun _ => Call.matches_throw h)
    intro
    rw [if_pos h.2, if_pos h.2]
    exact Call.matches_pure h rfl

end EpistemicNearestNeighbors

end Ennbo
