import Ennbo.Model.Batches

/-! # Models in use

A model is constructed and then changed by adds and flushes; queries in between
only touch its backend. In every state that is reached so, a model with rows has
one scale for each of its outputs.
-/

namespace Ennbo

variable {D F : Type} [Floating D] [Floating F] [FloatCast D F]

namespace EpistemicNearestNeighbors

def BackendFree (P : EpistemicNearestNeighbors D F → Prop) : Prop :=
  ∀ m backend, P m → P { m with backend := backend }

namespace BackendFree

variable {P : EpistemicNearestNeighbors D F → Prop} {faiss : Faiss F} {env : Env F}
  {x : Array2 D} {k : ℕ} {excludeNearest tieBreakNeighbors : Bool}

omit [Floating D] [Floating F] [FloatCast D F] in
theorem onBackend (hP : BackendFree P) {α : Type} (c : Call (EnnBackend D F) α) :
    Call.Keeps P (onBackend c) := fun m hm => hP m _ hm

theorem syncForSearch (hP : BackendFree P) : Call.Keeps P (syncForSearch env) := by
  refine Call.keeps_get.bind fun m => ?_
  refine Call.Keeps.ite ?_ ?_
  · refine Call.keeps_get.bind fun m => ?_
    exact hP.onBackend _
  · exact Call.keeps_pure _

theorem backendSearch (hP : BackendFree P) :
    Call.Keeps P (backendSearch faiss env x k excludeNearest) :=
  hP.syncForSearch.bind fun _ => hP.onBackend _

variable [Analysis D] {params : ENNParams D} {flags : PosteriorFlags}

theorem indexSearch (hP : BackendFree P) :
    Call.Keeps P (indexSearch faiss env x k excludeNearest tieBreakNeighbors) := by
  refine hP.syncForSearch.bind fun _ => ?_
  refine Call.keeps_get.bind fun m => ?_
  refine Call.Keeps.ite ?_ ?_
  · refine Call.keeps_get.bind fun m => ?_
    refine Call.Keeps.ite (Call.keeps_pure _) ?_
    refine hP.backendSearch.bind fun hits => ?_
    refine Call.keeps_get.bind fun m => ?_
    refine (Call.keeps_ofOutcome _).bind fun pools => ?_
    refine (Call.keeps_ofOutcome _).bind fun rows => ?_
    exact Call.keeps_pure _
  · refine hP.backendSearch.bind fun hits => ?_
    refine Call.keeps_get.bind fun m => ?_
    exact Call.keeps_ofOutcome _

theorem getNeighborData (hP : BackendFree P) :
    Call.Keeps P (getNeighborData faiss env x params excludeNearest tieBreakNeighbors) := by
  refine Call.keeps_get.bind fun m => ?_
  refine (Call.keeps_ofOutcome _).bind fun searchK => ?_
  refine Call.Keeps.ite (Call.keeps_pure _) ?_
  refine hP.indexSearch.bind fun hits => ?_
  refine Call.Keeps.ite (Call.keeps_pure _) ?_
  refine Call.keeps_get.bind fun m => ?_
  refine (Call.keeps_ofOutcome _).bind fun rows => ?_
  exact Call.keeps_pure _

theorem computePosteriorInternals (hP : BackendFree P) :
    Call.Keeps P (computePosteriorInternals faiss env x params flags) := by
  refine Call.keeps_get.bind fun m => ?_
  refine Call.Keeps.ite (Call.keeps_ofOutcome _) ?_
  refine Call.Keeps.ite (Call.keeps_pure _) ?_
  refine hP.getNeighborData.bind fun data => ?_
  refine Call.keeps_get.bind fun m => ?_
  cases data with
  | none => exact Call.keeps_pure _
  | some data => exact Call.keeps_ofOutcome _

theorem computePosteriorLight (hP : BackendFree P) :
    Call.Keeps P (computePosteriorLight faiss env x params flags) := by
  refine Call.keeps_get.bind fun m => ?_
  refine Call.Keeps.ite (Call.keeps_ofOutcome _) ?_
  refine Call.Keeps.ite (Call.keeps_pure _) ?_
  refine (Call.keeps_ofOutcome _).bind fun searchK => ?_
  refine Call.Keeps.ite (Call.keeps_pure _) ?_
  refine hP.indexSearch.bind fun hits => ?_
  refine Call.Keeps.ite (Call.keeps_pure _) ?_
  refine Call.keeps_get.bind fun m => ?_
  refine (Call.keeps_ofOutcome _).bind fun rows => ?_
  refine (Call.keeps_ofOutcome _).bind fun entries => ?_
  exact Call.keeps_pure _

theorem posterior (hP : BackendFree P) : Call.Keeps P (posterior faiss env x params flags) := by
  have hafter : ∀ normal : ENNNormal D, Call.Keeps P (do
      let m ← Call.get
      return { normal with entries := m.naturalized normal.entries }) := fun normal =>
    Call.keeps_get.bind fun _ => Call.keeps_pure _
  refine Call.keeps_get.bind fun m => ?_
  refine (Call.keeps_ofOutcome _).bind fun light => ?_
  refine Call.Keeps.ite ?_ ?_
  · exact hP.computePosteriorLight.bind hafter
  · exact (hP.computePosteriorInternals.map _).bind hafter

theorem batchPosterior (hP : BackendFree P) (paramss : List (ENNParams D)) :
    Call.Keeps P (batchPosterior faiss env x paramss flags) := by
  refine Call.keeps_get.bind fun m => ?_
  cases paramss with
  | nil => exact Call.keeps_ofOutcome _
  | cons first rest =>
    have hafter : ∀ internals : List (DrawInternals D), Call.Keeps P (do
        let m ← Call.get
        return internals.map fun i => m.naturalized (i.stats.mapCols fun _ s => s.normal)) :=
      fun internals => Call.keeps_get.bind fun _ => Call.keeps_pure _
    refine Call.Keeps.ite ?_ ?_
    · refine Call.Keeps.bind ?_ hafter
      refine hP.getNeighborData.bind fun data => ?_
      refine Call.keeps_get.bind fun m => ?_
      cases data with
      | none => exact Call.keeps_pure _
      | some data => exact Call.keeps_ofOutcome _
    · exact (Call.keeps_mapM (fun _ => hP.computePosteriorInternals) _).bind hafter

theorem posteriorFunctionDraw (hP : BackendFree P) (seeds : List ℤ) :
    Call.Keeps P (posteriorFunctionDraw faiss env x params seeds flags) := by
  refine hP.computePosteriorInternals.bind fun internals => ?_
  refine Call.keeps_get.bind fun m => ?_
  refine (Call.keeps_ofOutcome _).bind fun draws => ?_
  refine (Call.keeps_ofOutcome _).bind fun draws => ?_
  exact Call.keeps_pure _

omit [Analysis D] in
theorem neighbors (hP : BackendFree P) (k : ℤ) :
    Call.Keeps P (neighbors faiss env x k excludeNearest) := by
  refine Call.keeps_get.bind fun m => ?_
  refine Call.Keeps.ite (Call.keeps_ofOutcome _) ?_
  refine Call.Keeps.ite (Call.keeps_ofOutcome _) ?_
  refine Call.Keeps.ite (Call.keeps_pure _) ?_
  refine Call.Keeps.ite (Call.keeps_ofOutcome _) ?_
  refine Call.Keeps.ite (Call.keeps_pure _) ?_
  exact hP.backendSearch.bind fun _ => Call.keeps_pure _

theorem ask (hP : BackendFree P) (q : Query D) : Call.Keeps P (q.ask faiss env) := by
  cases q with
  | neighbors x k excludeNearest => exact (hP.neighbors k).map _
  | posterior x params flags => exact hP.posterior.map _
  | batchPosterior x paramss flags => exact (hP.batchPosterior paramss).map _
  | functionDraw x params seeds flags => exact (hP.posteriorFunctionDraw seeds).map _

end BackendFree

section Scales

variable [Analysis D] {env : Env F} {m : EpistemicNearestNeighbors D F}

def Scaled (m : EpistemicNearestNeighbors D F) : Prop := m.yScale.length = m.numMetrics

def ScaledRows (m : EpistemicNearestNeighbors D F) : Prop := 0 < m.numObs → m.Scaled

omit [Floating D] [Floating F] [FloatCast D F] [Analysis D] in
theorem backendFree_scaled : BackendFree (Scaled (D := D) (F := F)) := fun _ _ h => h

omit [Floating D] [Floating F] [FloatCast D F] [Analysis D] in
theorem backendFree_scaledRows : BackendFree (ScaledRows (D := D) (F := F)) := fun _ _ h => h

omit [Floating F] [FloatCast D F] in
theorem scaled_noteY (m : EpistemicNearestNeighbors D F) (y : Array2 D) : (m.noteY y).Scaled :=
  length_scaleFromMoments _ _ _ _ _

/-- However an add ends, a model with rows keeps one scale for each output. -/
theorem keeps_scaledRows_add (x y : Array2 D) (yvar : Option (Array2 D)) :
    Call.Keeps ScaledRows (add env x y yvar) := by
  have hfree := backendFree_scaled (D := D) (F := F)
  have hrows := backendFree_scaledRows (D := D) (F := F)
  refine Call.keeps_get.bind fun m => ?_
  refine (Call.keeps_ofOutcome _).bind fun _ => ?_
  refine Call.Keeps.ite ?_ (Call.keeps_pure _)
  refine (hrows.onBackend _).bind fun _ => ?_
  refine (Call.keeps_ofOutcome _).bind fun stored => ?_
  refine (hrows.onBackend _).bind fun _ => ?_
  refine (Call.keeps_ofOutcome _).bind fun _ => ?_
  -- from here on every state has the scales of its outputs
  intro m₁ _ _
  rw [Call.modify_bind_apply]
  refine Call.Keeps.ite (P := Scaled) ?_ ?_ (m₁.noteY stored.1) (scaled_noteY _ _)
  · refine (Call.keeps_ofOutcome _).bind fun _ => ?_
    refine (Call.keeps_modify (f := noteX x) fun _ h => h).bind fun _ => ?_
    refine (hfree.onBackend _).bind fun _ => ?_
    exact Call.keeps_modify fun _ h => h
  · exact Call.keeps_modify fun _ h => h

omit [Floating D] [Floating F] [FloatCast D F] [Analysis D] in
theorem scaledRows_persistYBoundsMetadata (hm : m.ScaledRows) :
    m.persistYBoundsMetadata.ScaledRows := by
  unfold persistYBoundsMetadata modifyDir
  cases m.backend <;> exact hm

/-- Statistics that are taken from the backend have a scale for each output. -/
theorem scaledRows_sync {m' : EpistemicNearestNeighbors D F}
    (h : (syncObsStatsFromBackend env).Returns m () m') : m'.ScaledRows := by
  have hfree := backendFree_scaled (D := D) (F := F)
  obtain ⟨_, m₁, hm₁, h⟩ := Call.returns_bind.mp h
  obtain rfl := Call.returns_modify.mp hm₁
  obtain ⟨_, _, hget, h⟩ := Call.returns_bind.mp h
  obtain ⟨rfl, rfl⟩ := Call.returns_get.mp hget
  rw [Call.returns_ite] at h
  split at h
  next h0 =>
    obtain ⟨-, rfl⟩ := Call.returns_pure.mp h
    intro hpos
    exact absurd h0 hpos.ne'
  next =>
    intro
    obtain ⟨rows, _, hrows, h⟩ := Call.returns_bind.mp h
    obtain ⟨-, rfl⟩ := Call.returns_ofOutcome.mp hrows
    obtain ⟨xs, _, hx, h⟩ := Call.returns_bind.mp h
    obtain ⟨-, rfl⟩ := Call.returns_ofOutcome.mp hx
    obtain ⟨ys, _, hy, h⟩ := Call.returns_bind.mp h
    obtain ⟨-, rfl⟩ := Call.returns_ofOutcome.mp hy
    obtain ⟨_, m₂, hm₂, h⟩ := Call.returns_bind.mp h
    obtain rfl := Call.returns_modify.mp hm₂
    have hlast : Call.Keeps Scaled (do
        let m ← Call.get
        onBackend (EnnBackend.ensureIndexSync env m.scaleX m.xScale)) :=
      Call.keeps_get.bind fun _ => hfree.onBackend _
    refine Call.Keeps.of_returns (Call.Keeps.ite (P := Scaled) ?_ ?_) ?_ h
    · exact (Call.keeps_modify fun _ h => h).bind fun _ => hlast
    · exact hlast
    · exact length_scaleFromMoments _ _ _ _ _

theorem scaledRows_newWithOptions {x y : Array2 D} {yvar : Option (Array2 D)}
    {options : ModelOptions D F} (h : newWithOptions env x y yvar options = .ok m) :
    m.ScaledRows := by
  obtain ⟨bounds, warpedY, warpedYvar, backend, m₁, hc, rfl⟩ := newWithOptions_eq_ok h
  apply scaledRows_persistYBoundsMetadata
  by_cases hsync : Resyncs options x warpedY (assemble backend options bounds x warpedY)
  · exact scaledRows_sync (hc.synced hsync)
  · rw [hc.unsynced hsync]
    intro
    exact length_scaleFromMoments _ _ _ _ _

theorem scaledRows_newEmpty {numDim numMetrics : ℕ} {driver : IndexDriver} {storage : EnnStorage}
    {workDir : Option (WorkDir D F)} {threshold : Option ℕ}
    (h : newEmpty env numDim numMetrics driver storage workDir threshold = .ok m) :
    m.ScaledRows := by
  obtain ⟨backend, -, h⟩ := Outcome.bind_eq_ok.mp h
  obtain rfl := Outcome.pure_eq_ok.mp h
  intro
  exact List.length_replicate

variable [DecidableEq F]

/-- The states of a model that is constructed, changed and asked in any way. -/
inductive Reached : EpistemicNearestNeighbors D F → Prop where
  | newWithOptions {m : EpistemicNearestNeighbors D F} (env : Env F) (x y : Array2 D)
      (yvar : Option (Array2 D)) (options : ModelOptions D F) :
      EpistemicNearestNeighbors.newWithOptions env x y yvar options = .ok m → Reached m
  | newEmpty {m : EpistemicNearestNeighbors D F} (env : Env F) (numDim numMetrics : ℕ)
      (driver : IndexDriver) (storage : EnnStorage) (workDir : Option (WorkDir D F))
      (threshold : Option ℕ) :
      EpistemicNearestNeighbors.newEmpty env numDim numMetrics driver storage workDir threshold =
        .ok m → Reached m
  | run {m : EpistemicNearestNeighbors D F} (env : Env F) (op : Operation D) :
      Reached m → Reached (op.run env m).2
  | ask {m : EpistemicNearestNeighbors D F} (faiss : Faiss F) (env : Env F) (q : Query D) :
      Reached m → Reached (q.ask faiss env m).2

theorem Reached.scaledRows (h : Reached m) : m.ScaledRows := by
  induction h with
  | newWithOptions env x y yvar options h => exact scaledRows_newWithOptions h
  | newEmpty env numDim numMetrics driver storage workDir threshold h =>
    exact scaledRows_newEmpty h
  | run env op _ ih =>
    cases op with
    | add x y yvar => exact keeps_scaledRows_add x y yvar _ ih
    | scheduleBackgroundFlush => exact backendFree_scaledRows.onBackend _ _ ih
    | persistIndexToDisk =>
      refine Call.Keeps.bind (backendFree_scaledRows.onBackend _) (fun _ => ?_) _ ih
      exact Call.keeps_modify fun _ => scaledRows_persistYBoundsMetadata
  | ask faiss env q _ ih => exact backendFree_scaledRows.ask q _ ih

end Scales

end EpistemicNearestNeighbors

end Ennbo
