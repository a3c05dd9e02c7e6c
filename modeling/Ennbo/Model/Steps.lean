import Ennbo.Model.Basic

/-! # What the calls of a model do

One lemma for each call: how it ends, and the states it can leave.
-/

namespace Ennbo

variable {D F : Type} [Floating D] [Floating F] [FloatCast D F] [Analysis D]

namespace EnnBackend

variable {α : Type} {memory : Call (InMemoryEnnBackend D F) α} {disk : Call (DiskBackendHandle D F) α}
  {a : α} {b' : EnnBackend D F}

omit [Floating D] [Floating F] [FloatCast D F] [Analysis D] in
theorem returns_dispatch_disk {h : DiskBackendHandle D F}
    (hr : (dispatch memory disk).Returns (.disk h) a b') :
    ∃ h', disk.Returns h a h' ∧ b' = .disk h' := by
  obtain ⟨hv, hs⟩ := Prod.mk.inj hr
  exact ⟨(disk h).2, Prod.ext hv rfl, hs.symm⟩

omit [Floating D] [Floating F] [FloatCast D F] [Analysis D] in
theorem returns_dispatch_inMemory {b : InMemoryEnnBackend D F}
    (hr : (dispatch memory disk).Returns (.inMemory b) a b') :
    ∃ b₁, memory.Returns b a b₁ ∧ b' = .inMemory b₁ := by
  obtain ⟨hv, hs⟩ := Prod.mk.inj hr
  exact ⟨(memory b).2, Prod.ext hv rfl, hs.symm⟩

end EnnBackend

namespace EpistemicNearestNeighbors

variable {env : Env F} {m m' : EpistemicNearestNeighbors D F} {x y : Array2 D}
  {yvar : Option (Array2 D)}

/-- The model once the backend holds the new rows. -/
def afterAdd (m : EpistemicNearestNeighbors D F) (backend : EnnBackend D F) (x storedY : Array2 D) :
    EpistemicNearestNeighbors D F :=
  let m₁ := noteY storedY { m with backend := backend }
  let m₂ :=
    if m.scaleX then { noteX x m₁ with backend := (EnnBackend.markIndexStale backend).2 } else m₁
  { m₂ with numObs := m₂.backend.len }

/-- The calls of an add that returns after storing rows. -/
structure Added (env : Env F) (m : EpistemicNearestNeighbors D F) (x y : Array2 D)
    (yvar : Option (Array2 D)) (storedY : Array2 D) (storedYvar : Option (Array2 D))
    (waited backend : EnnBackend D F) : Prop where
  nrows_pos : 0 < x.nrows
  valid : m.validateAdd x y yvar = .ok ()
  wait : EnnBackend.waitForFlush.Returns m.backend () waited
  warp : m.warpAdded y yvar = .ok (storedY, storedYvar)
  append : (EnnBackend.appendRows env x storedY storedYvar).Returns waited () backend
  fits_y : fitsColumns m.ySum storedY = .ok ()
  fits_x : m.scaleX = true → fitsColumns m.xSum x = .ok ()

omit [Floating F] [Analysis D] [Floating D] [FloatCast D F] in
theorem returns_markIndexStale (b : EnnBackend D F) :
    EnnBackend.markIndexStale.Returns b () (EnnBackend.markIndexStale b).2 := by
  cases b <;> rfl

omit [Floating F] [Analysis D] [Floating D] [FloatCast D F] in
theorem onBackend_markIndexStale (m : EpistemicNearestNeighbors D F) :
    onBackend EnnBackend.markIndexStale m =
      (.ok (), { m with backend := (EnnBackend.markIndexStale m.backend).2 }) := by
  have h : EnnBackend.markIndexStale m.backend = (.ok (), _) := returns_markIndexStale m.backend
  unfold onBackend Call.on
  rw [h]

theorem returns_add (h : (add env x y yvar).Returns m () m') :
    (x.nrows = 0 ∧ m' = m) ∨ ∃ storedY storedYvar waited backend,
      Added env m x y yvar storedY storedYvar waited backend ∧
        m' = m.afterAdd backend x storedY := by
  simp only [add, Call.returns_bind, Call.returns_get, Call.returns_ofOutcome] at h
  obtain ⟨_, _, ⟨rfl, rfl⟩, _, _, ⟨hvalid, rfl⟩, h⟩ := h
  split at h
  next hpos =>
    simp only [onBackend, Call.returns_bind, Call.returns_on, Call.returns_ofOutcome,
      Call.returns_modify] at h
    obtain ⟨_, _, ⟨waited, hwait, rfl⟩, ⟨storedY, storedYvar⟩, _, ⟨hwarp, rfl⟩, _, _,
      ⟨backend, happend, rfl⟩, _, _, ⟨hfits, rfl⟩, _, _, rfl, h⟩ := h
    refine .inr ⟨storedY, storedYvar, waited, backend, ?_⟩
    split at h
    next hscale =>
      simp only [Call.returns_bind, Call.returns_on, Call.returns_ofOutcome,
        Call.returns_modify] at h
      obtain ⟨_, _, ⟨hfits', rfl⟩, _, _, rfl, _, _, ⟨b, hb, rfl⟩, rfl⟩ := h
      refine ⟨⟨hpos, hvalid, hwait, hwarp, happend, hfits, fun _ => hfits'⟩, ?_⟩
      have hb' : (EnnBackend.markIndexStale backend).2 = b := congrArg Prod.snd hb
      simp only [afterAdd, hscale, if_true, hb']
    next hscale =>
      obtain rfl := Call.returns_modify.mp h
      refine ⟨⟨hpos, hvalid, hwait, hwarp, happend, hfits, fun hs => absurd hs hscale⟩, ?_⟩
      simp only [afterAdd, hscale]
      rfl
  next hpos => exact .inl ⟨by omega, (Call.returns_pure.mp h).2.symm⟩

section Open

variable {options : ModelOptions D F}

/-- Whether the constructor takes the statistics from the backend that it opened. -/
def Resyncs (options : ModelOptions D F) (x y : Array2 D) (m : EpistemicNearestNeighbors D F) :
    Prop :=
  diskReopen options x y = true ∨ m.numObs ≠ m.backend.len

/-- The calls of a constructor that returns. -/
structure Constructed (env : Env F) (x y : Array2 D) (yvar : Option (Array2 D))
    (options : ModelOptions D F) (bounds warpedY : Array2 D) (warpedYvar : Option (Array2 D))
    (backend : EnnBackend D F) (m₁ : EpistemicNearestNeighbors D F) : Prop where
  shapes : validateShapes x y yvar = .ok ()
  bounds_eq : chooseBounds options.yBounds (persistedBounds options.workDir y.ncols) y.ncols =
    .ok bounds
  valid : YBounds.validateBounds bounds y.ncols = .ok ()
  warp_eq : warp bounds y yvar = .ok (warpedY, warpedYvar)
  scale : (options.scaleX && isDiskIndexDriver options.driver) = false
  backend_eq : openBackend env options x warpedY warpedYvar (initialXScale options.scaleX x) =
    .ok backend
  synced : Resyncs options x warpedY (assemble backend options bounds x warpedY) →
    (syncObsStatsFromBackend env).Returns (assemble backend options bounds x warpedY) () m₁
  unsynced : ¬ Resyncs options x warpedY (assemble backend options bounds x warpedY) →
    m₁ = assemble backend options bounds x warpedY

theorem newWithOptions_eq_ok (h : newWithOptions env x y yvar options = .ok m) :
    ∃ bounds warpedY warpedYvar backend m₁,
      Constructed env x y yvar options bounds warpedY warpedYvar backend m₁ ∧
        m = m₁.persistYBoundsMetadata := by
  simp only [newWithOptions, Outcome.bind_eq_ok] at h
  obtain ⟨_, hshapes, bounds, hbounds, _, hvalid, ⟨warpedY, warpedYvar⟩, hwarp, h⟩ := h
  split at h
  · simp at h
  next hscale =>
    simp only [Outcome.bind_eq_ok] at h
    obtain ⟨backend, hopen, h⟩ := h
    rw [Bool.not_eq_true] at hscale
    split at h
    next hsync =>
      simp only [Outcome.bind_eq_ok, Outcome.pure_eq_ok, Call.exec_eq_ok] at h
      obtain ⟨m₁, hm₁, rfl⟩ := h
      exact ⟨bounds, warpedY, warpedYvar, backend, m₁, ⟨hshapes, hbounds, hvalid, hwarp, hscale,
        hopen, fun _ => hm₁, fun hne => absurd hsync hne⟩, rfl⟩
    next hsync =>
      simp only [Outcome.bind_eq_ok, Outcome.pure_eq_ok] at h
      obtain ⟨m₁, hm₁, rfl⟩ := h
      exact ⟨bounds, warpedY, warpedYvar, backend, m₁, ⟨hshapes, hbounds, hvalid, hwarp, hscale,
        hopen, fun he => absurd he hsync, fun _ => hm₁.symm⟩, rfl⟩

omit [Analysis D] in
theorem openBackend_disk {x y : Array2 D} {yvar : Option (Array2 D)} {xScale : List D}
    {backend : EnnBackend D F} (hs : options.storage = .disk)
    (h : openBackend env options x y yvar xScale = .ok backend) :
    ∃ dir b₀, options.workDir = some dir ∧ options.driver = .bpAnnDisk ∧
      DiskBpannEnnBackend.new env dir x y yvar options.scaleX xScale options.driver = .ok b₀ ∧
      backend = .disk (.new b₀) := by
  simp only [openBackend, hs] at h
  split at h
  · simp at h
  next hdriver =>
    split at h
    · simp at h
    next dir hdir =>
      unfold EnnBackend.newDisk at h
      split at h
      · simp at h
      · simp only [Outcome.bind_eq_ok, Outcome.pure_eq_ok] at h
        obtain ⟨b₀, hb₀, rfl⟩ := h
        refine ⟨dir, b₀, hdir, ?_, hb₀, rfl⟩
        simpa [isDiskIndexDriver] using hdriver

/-- A model that is opened empty. -/
def emptyModel (backend : EnnBackend D F) (numDim numMetrics : ℕ) (workDir : Option (WorkDir D F)) :
    EpistemicNearestNeighbors D F where
  backend := backend
  numObs := 0
  numDim := numDim
  numMetrics := numMetrics
  scaleX := false
  xScale := List.replicate numDim 1
  yScale := List.replicate numMetrics 1
  yBounds := YBounds.unboundedBounds numMetrics
  boundedOutputs := false
  ySum := List.replicate numMetrics 0
  ySumsq := List.replicate numMetrics 0
  xSum := List.replicate numDim 0
  xSumsq := List.replicate numDim 0
  workDir := workDir

/-- A backend with other thresholds. -/
def Tuned (inner b : BpannBackend D F) : Prop :=
  ∃ soft hard defer, b =
    { inner with
      pendingFlushThreshold := soft
      pendingHardFlushThreshold := hard
      deferAppendIndexing := defer }

theorem newEmpty_disk {numDim numMetrics : ℕ} {driver : IndexDriver}
    {workDir : Option (WorkDir D F)} {threshold : Option ℕ}
    (h : newEmpty env numDim numMetrics driver .disk workDir threshold = .ok m) :
    ∃ dir inner b, workDir = some dir ∧
      BpannBackend.newEmpty env dir numDim numMetrics = .ok inner ∧ Tuned inner b ∧
      m = emptyModel (.disk (.new b)) numDim numMetrics none := by
  simp only [newEmpty, EnnBackend.newEmpty, Outcome.bind_eq_ok, Outcome.pure_eq_ok] at h
  obtain ⟨backend, hb, rfl⟩ := h
  split at hb
  next hbad => cases hbad
  next => simp at hb
  next dir hdir =>
    split at hb
    · simp at hb
    · split at hb
      · simp only [DiskBpannEnnBackend.newEmptyWithFlushThreshold,
          DiskBpannEnnBackend.newEmptyWithFlushThresholds, Outcome.bind_eq_ok,
          Outcome.pure_eq_ok] at hb
        obtain ⟨b, hb, rfl⟩ := hb
        split at hb
        · simp at hb
        · split at hb
          · simp at hb
          · split at hb
            · simp at hb
            · simp only [Outcome.bind_eq_ok, Outcome.pure_eq_ok] at hb
              obtain ⟨inner, hnew, rfl⟩ := hb
              exact ⟨dir, inner, _, rfl, hnew, ⟨_, _, _, rfl⟩, rfl⟩
      · simp only [DiskBpannEnnBackend.newEmpty, Outcome.bind_eq_ok, Outcome.pure_eq_ok] at hb
        obtain ⟨_, ⟨inner, hnew, rfl⟩, rfl⟩ := hb
        exact ⟨dir, inner, _, rfl, hnew, ⟨_, _, _, rfl⟩, rfl⟩

end Open

end EpistemicNearestNeighbors

end Ennbo
