import Ennbo.Backend.Files
import Ennbo.Model.Steps

/-! # Sessions of a disk model

A model is opened over a directory, used, dropped, and opened again without
rows. Its rows survive. Its variances are not looked for, and its bounds survive
unless the drop writes the metadata again.
-/

namespace Ennbo

variable {D F : Type} [Floating D] [Floating F] [FloatCast D F]

open BpannBackend (SameStores SidecarFree)

namespace DiskBackendHandle

variable {env : Env F} {h h' : DiskBackendHandle D F} {P : WorkDir D F → Prop}
  {R : BpannBackend D F → Prop}

section Keeps

omit [Floating D] [Floating F] [FloatCast D F]

/-- Waiting changes no data. -/
theorem keeps_waitForFlush : Call.Keeps (fun h : DiskBackendHandle D F => R h.data)
    waitForFlush := by
  have hfail : ∀ message, Call.Keeps (fun h : DiskBackendHandle D F => R h.data)
      (failWith message : Call _ Unit) := by
    intro message
    apply Call.Keeps.bind
    · exact Call.keeps_modify fun _ hR => hR
    · exact fun _ => Call.keeps_ofOutcome _
  have htake : Call.Keeps (fun h : DiskBackendHandle D F => R h.data) takeLastError := by
    refine Call.keeps_get.bind fun h => ?_
    cases h.lastError with
    | none => exact Call.keeps_pure _
    | some message =>
      apply Call.Keeps.bind
      · exact Call.keeps_modify fun _ hR => hR
      · exact fun _ => Call.keeps_ofOutcome _
  refine Call.keeps_get.bind fun h => Call.Keeps.bind ?_ fun _ => ?_
  · exact Call.keeps_modify fun _ hR => hR
  split
  · exact hfail _
  · exact hfail _
  · exact Call.keeps_ofOutcome _
  · exact htake
  · exact htake

end Keeps

theorem keeps_softSync (hP : SidecarFree P) (b₀ : BpannBackend D F) (env : Env F) :
    Call.Keeps (SameStores P b₀) (softSync env) := by
  intro b hb
  by_cases h0 : b₀.len = 0
  · have h : (softSync env).Returns b () b :=
      Call.returns_bind.mpr ⟨none, b, BpannBackend.softSyncBuild_of_empty (hb.len_eq.trans h0),
        Call.returns_pure.mpr ⟨rfl, rfl⟩⟩
    rwa [show softSync env b = _ from h]
  · refine (BpannBackend.keeps_softSyncBuild hP b₀ env).bind (fun built => ?_) b hb
    cases built with
    | none => exact Call.keeps_pure _
    | some built =>
      exact Call.keeps_modify fun c hc =>
        { hc with bare := fun hlen => absurd (hc.len_eq.symm.trans hlen) h0 }

theorem keeps_scheduleBackgroundFlush (hsync : Call.Keeps R (softSync env)) :
    Call.Keeps (fun h : DiskBackendHandle D F => R h.data) (scheduleBackgroundFlush env) := by
  have hdata : Call.Keeps (fun h : DiskBackendHandle D F => R h.data) (onData (softSync env)) :=
    Call.keeps_on hsync (fun _ h => h) fun _ _ _ h => h
  refine Call.keeps_get.bind fun h => ?_
  split
  · exact Call.keeps_ofOutcome _
  · refine Call.Keeps.ite ?_ (Call.Keeps.ite (Call.keeps_pure _) (Call.Keeps.ite ?_
      (Call.keeps_pure _)))
    · refine keeps_waitForFlush.bind fun _ => Call.keeps_get.bind fun h => ?_
      exact Call.Keeps.ite hdata (Call.keeps_pure _)
    · exact Call.keeps_modify fun h hR => hsync _ hR

section Persist

variable [DecidableEq F]

theorem persistIndexToDisk_cases (env : Env F) (h : DiskBackendHandle D F) :
    ((waitForFlush h).1 ≠ .ok () ∧ (persistIndexToDisk env h).1 ≠ .ok () ∧
        (persistIndexToDisk env h).2.data = h.data) ∨
      ((waitForFlush h).1 = .ok () ∧
        (persistIndexToDisk env h).1 = (BpannBackend.persistIndexToDisk env h.data).1 ∧
        (persistIndexToDisk env h).2.data = (BpannBackend.persistIndexToDisk env h.data).2) := by
  have hdata : (waitForFlush h).2.data = h.data :=
    keeps_waitForFlush (R := fun b => b = h.data) h rfl
  simp only [persistIndexToDisk, Bind.bind]
  rcases hw : waitForFlush h with ⟨e | a, h₁⟩
  · rw [hw] at hdata
    exact .inl ⟨by simp, by simp, hdata⟩
  · rw [hw] at hdata
    refine .inr ⟨rfl, ?_, ?_⟩
    · simp only [onData, Call.on]
      rw [hdata]
    · simp only [onData, Call.on]
      rw [hdata]

end Persist

end DiskBackendHandle

namespace EnnBackend

def OnDisk (R : BpannBackend D F → Prop) (b : EnnBackend D F) : Prop :=
  ∃ h, b = .disk h ∧ R h.data

variable {R : BpannBackend D F → Prop}

omit [Floating D] [Floating F] [FloatCast D F] in
theorem keeps_dispatch {α : Type} {memory : Call (InMemoryEnnBackend D F) α}
    {disk : Call (DiskBackendHandle D F) α}
    (hc : Call.Keeps (fun h : DiskBackendHandle D F => R h.data) disk) :
    Call.Keeps (OnDisk R) (dispatch memory disk) := by
  rintro b ⟨h, rfl, hR⟩
  exact ⟨_, rfl, hc h hR⟩

theorem keeps_ensureIndexSync {P : WorkDir D F → Prop} (hP : SidecarFree P)
    (b₀ : BpannBackend D F) (env : Env F) (scaleX : Bool) (xScale : List D) :
    Call.Keeps (OnDisk (SameStores P b₀)) (ensureIndexSync env scaleX xScale) := by
  refine (keeps_dispatch DiskBackendHandle.keeps_waitForFlush).bind fun _ => keeps_dispatch ?_
  exact Call.keeps_on (BpannBackend.keeps_ensureIndexSyncWithScale hP b₀ env scaleX xScale)
    (fun _ h => h) fun _ _ _ h => h

end EnnBackend

namespace DiskBpannEnnBackend

variable {env : Env F} {dir : WorkDir D F} {x y : Array2 D} {yvar : Option (Array2 D)}
  {scaleX : Bool} {xScale : List D} {driver : IndexDriver} {b : BpannBackend D F}

def Reopens (dir : WorkDir D F) (x y : Array2 D) : Prop :=
  x.nrows = 0 ∧ y.nrows = 0 ∧ dir.metadata.isSome

theorem new_eq_ok (h : new env dir x y yvar scaleX xScale driver = .ok b) :
    ∃ inner, b = applyConfigFlushThreshold env inner ∧
      ((Reopens dir x y ∧ BpannBackend.reopen env dir = .ok inner) ∨
        (¬ Reopens dir x y ∧ BpannBackend.new env dir x y yvar scaleX xScale = .ok inner)) := by
  unfold new at h
  split at h
  · simp at h
  · split at h
    next hre =>
      simp only [Outcome.bind_eq_ok, Outcome.pure_eq_ok] at h
      obtain ⟨inner, hinner, rfl⟩ := h
      exact ⟨inner, rfl, .inl ⟨hre, hinner⟩⟩
    next hre =>
      simp only [Outcome.bind_eq_ok, Outcome.pure_eq_ok] at h
      obtain ⟨inner, hinner, rfl⟩ := h
      exact ⟨inner, rfl, .inr ⟨hre, hinner⟩⟩

theorem filed_new (hrows : x.nrows = y.nrows)
    (h : new env dir x y yvar scaleX xScale driver = .ok b) : b.Filed := by
  obtain ⟨inner, rfl, ⟨-, hre⟩ | ⟨-, hnew⟩⟩ := new_eq_ok h
  · unfold BpannBackend.reopen at hre
    split at hre
    · simp at hre
    next md _ =>
      have hempty : (Array2.empty md.numDim : Array2 D).nrows =
        (Array2.empty md.numMetrics).nrows := rfl
      have hfiled := BpannBackend.filed_new hempty hre
      exact { hfiled with bare := hfiled.bare }
  · have hfiled := BpannBackend.filed_new hrows hnew
    exact { hfiled with bare := hfiled.bare }

end DiskBpannEnnBackend

namespace EpistemicNearestNeighbors

variable {env : Env F} {m m' : EpistemicNearestNeighbors D F}

omit [Floating D] [Floating F] [FloatCast D F] in
theorem keeps_onBackend {α : Type} {R : BpannBackend D F → Prop} {c : Call (EnnBackend D F) α}
    (hc : Call.Keeps (EnnBackend.OnDisk R) c) :
    Call.Keeps (fun m => m.backend.OnDisk R) (onBackend c) :=
  Call.keeps_on hc (fun _ h => h) fun _ _ _ h => h

section Open

variable [Analysis D] {b₀ : BpannBackend D F} {bounds : Array2 D}

/-- A disk model over these stores and bounds. -/
structure Opened (b₀ : BpannBackend D F) (bounds : Array2 D) (m : EpistemicNearestNeighbors D F) :
    Prop where
  backend : m.backend.OnDisk (SameStores b₀.Records b₀)
  numObs_eq : m.numObs = b₀.len
  numMetrics_eq : m.numMetrics = b₀.numMetrics
  yBounds_eq : m.yBounds = bounds
  bounded_eq : m.boundedOutputs = !YBounds.isIdentityBounds bounds

/-- Taking the statistics from the backend takes its counts. -/
theorem opened_syncObsStatsFromBackend {h₀ : DiskBackendHandle D F} (hb : m.backend = .disk h₀)
    (hfiled : h₀.data.Filed) (hbounds : m.yBounds = bounds)
    (hflag : m.boundedOutputs = !YBounds.isIdentityBounds bounds)
    (h : (syncObsStatsFromBackend env).Returns m () m') : Opened h₀.data bounds m' := by
  obtain ⟨_, _, hm, h⟩ := Call.returns_bind.mp h
  obtain rfl := Call.returns_modify.mp hm
  refine Call.Keeps.of_returns (P := Opened h₀.data bounds) ?_ ?_ h
  · refine Call.keeps_get.bind fun c => Call.Keeps.ite (Call.keeps_pure _) ?_
    refine (Call.keeps_ofOutcome _).bind fun rows => (Call.keeps_ofOutcome _).bind fun x => ?_
    refine (Call.keeps_ofOutcome _).bind fun y => Call.Keeps.bind ?_ fun _ => ?_
    · exact Call.keeps_modify fun c hc => { hc with }
    have hsync : ∀ scaleX xScale, Call.Keeps (Opened h₀.data bounds)
        (onBackend (EnnBackend.ensureIndexSync env scaleX xScale)) := fun scaleX xScale =>
      Call.keeps_on
        (EnnBackend.keeps_ensureIndexSync (BpannBackend.sidecarFree_records _) _ env _ _)
        (fun c hc => hc.backend) fun c b hc hb => { hc with backend := hb }
    refine Call.Keeps.ite (Call.Keeps.bind ?_ fun _ => ?_) ?_
    · exact Call.keeps_modify fun c hc => { hc with }
    · exact Call.keeps_get.bind fun c => hsync _ _
    · exact Call.keeps_get.bind fun c => hsync _ _
  · refine ⟨⟨h₀, hb, hfiled.sameStores⟩, ?_, ?_, hbounds, hflag⟩
    · change m.backend.len = _
      rw [hb]
      rfl
    · change m.backend.numMetrics = _
      rw [hb]
      rfl

theorem warp_shape {y : Array2 D} {yvar : Option (Array2 D)} {out : Array2 D × Option (Array2 D)}
    (h : warp bounds y yvar = .ok out) : out.1.nrows = y.nrows ∧ out.1.ncols = y.ncols := by
  unfold warp at h
  split at h
  · obtain rfl := Outcome.pure_eq_ok.mp h
    exact ⟨rfl, rfl⟩
  · simp only [Outcome.bind_eq_ok] at h
    obtain ⟨warped, hwarped, h⟩ := h
    have hshape : warped.nrows = y.nrows ∧ warped.ncols = y.ncols := by
      rw [YBounds.warpY_eq_ok hwarped]
      exact ⟨Array2.nrows_mapCols _ _, rfl⟩
    split at h
    · simp only [Outcome.bind_eq_ok, Outcome.pure_eq_ok] at h
      obtain ⟨_, -, rfl⟩ := h
      exact hshape
    · obtain rfl := Outcome.pure_eq_ok.mp h
      exact hshape

/-- The files hold the bounds of the model. -/
structure Spliced (bounds : Array2 D) (numMetrics : ℕ) (b : BpannBackend D F) : Prop where
  metadata : ∃ md, b.dir.metadata = some md ∧ md.yBounds = some bounds ∧
    md.numMetrics = numMetrics
  numMetrics_eq : b.numMetrics = numMetrics
  bare : b.Bare

omit [Floating F] [FloatCast D F] in
theorem Opened.persistYBoundsMetadata (hm : Opened b₀ bounds m) :
    Opened b₀ bounds m.persistYBoundsMetadata ∧
      m.persistYBoundsMetadata.backend.OnDisk (Spliced bounds b₀.numMetrics) := by
  obtain ⟨h, hb, hs⟩ := hm.backend
  obtain ⟨md, hmd, hle, hdim, hmetrics⟩ := hs.dir.metadata
  have hp : m.persistYBoundsMetadata =
      { m with
        backend := .disk
          { h with
            data :=
              { h.data with dir := YBounds.persistBoundsMetadata m.yBounds h.data.dir } } } := by
    unfold EpistemicNearestNeighbors.persistYBoundsMetadata modifyDir
    rw [hb]
  have hmd' : (YBounds.persistBoundsMetadata m.yBounds h.data.dir).metadata =
      some { md with yBounds := some m.yBounds } := by
    unfold YBounds.persistBoundsMetadata
    rw [hmd]
    rfl
  rw [hp]
  constructor
  · refine { hm with backend := ⟨_, rfl, { hs with dir := ?_, bare := hs.bare }⟩ }
    exact ⟨hs.dir.numObs, _, hmd', hle, hdim, hmetrics⟩
  · refine ⟨_, rfl, ⟨_, hmd', ?_, hmetrics⟩, hs.numMetrics_eq, hs.bare⟩
    rw [hm.yBounds_eq]

variable {x y : Array2 D} {yvar : Option (Array2 D)} {options : ModelOptions D F}

/-- What the constructor of a disk model opens. -/
structure DiskOpening (env : Env F) (x y : Array2 D) (options : ModelOptions D F)
    (b₀ : BpannBackend D F) (bounds : Array2 D) : Prop where
  nrows_eq : x.nrows = y.nrows
  bounds_eq : chooseBounds options.yBounds (persistedBounds options.workDir y.ncols) y.ncols =
    .ok bounds
  valid : YBounds.validateBounds bounds y.ncols = .ok ()
  opened : ∃ dir warpedY warpedYvar xScale, options.workDir = some dir ∧
    warpedY.nrows = y.nrows ∧
    DiskBpannEnnBackend.new env dir x warpedY warpedYvar options.scaleX xScale options.driver =
      .ok b₀
  filed : b₀.Filed

omit [Floating D] [Analysis D] in
theorem validateShapes_eq_ok (h : validateShapes x y yvar = .ok ()) : x.nrows = y.nrows := by
  unfold validateShapes at h
  split at h
  · simp at h
  next hrows => exact not_not.mp hrows

theorem newWithOptions_disk (hs : options.storage = .disk)
    (h : newWithOptions env x y yvar options = .ok m) :
    ∃ b₀ bounds, DiskOpening env x y options b₀ bounds ∧ Opened b₀ bounds m ∧
      m.backend.OnDisk (Spliced bounds b₀.numMetrics) := by
  obtain ⟨bounds, warpedY, warpedYvar, backend, m₁, hc, rfl⟩ := newWithOptions_eq_ok h
  obtain ⟨dir, b₀, hdir, -, hb₀, rfl⟩ := openBackend_disk hs hc.backend_eq
  have hrows := (warp_shape hc.warp_eq).1
  have hnrows := validateShapes_eq_ok hc.shapes
  have hfiled := DiskBpannEnnBackend.filed_new (hnrows.trans hrows.symm) hb₀
  have hopened : Opened b₀ bounds m₁ := by
    by_cases hsync : Resyncs options x warpedY
        (assemble (.disk (.new b₀)) options bounds x warpedY)
    · exact opened_syncObsStatsFromBackend rfl hfiled rfl rfl (hc.synced hsync)
    · rw [hc.unsynced hsync]
      unfold Resyncs at hsync
      push Not at hsync
      refine ⟨⟨_, rfl, hfiled.sameStores⟩, hsync.2, ?_, rfl, rfl⟩
      obtain ⟨inner, rfl, ⟨hre, -⟩ | ⟨-, hnew⟩⟩ := DiskBpannEnnBackend.new_eq_ok hb₀
      · refine absurd ?_ hsync.1
        unfold diskReopen
        simp [hs, hre.1, hre.2.1, hdir, hre.2.2]
      · exact (BpannBackend.widths_new hnew).2.symm
  obtain ⟨hopened', hspliced⟩ := hopened.persistYBoundsMetadata
  exact ⟨b₀, bounds, ⟨hnrows, hc.bounds_eq, hc.valid, ⟨dir, warpedY, warpedYvar, _, hdir, hrows,
    hb₀⟩, hfiled⟩, hopened', hspliced⟩

end Open

section Runs

variable [Analysis D] [DecidableEq F]

/-- The calls of a session. -/
inductive Operation (D : Type) where
  | add (x y : Array2 D) (yvar : Option (Array2 D))
  | scheduleBackgroundFlush
  | persistIndexToDisk

def Operation.run (env : Env F) : Operation D → Call (EpistemicNearestNeighbors D F) Unit
  | .add x y yvar => EpistemicNearestNeighbors.add env x y yvar
  | .scheduleBackgroundFlush => EpistemicNearestNeighbors.scheduleBackgroundFlush env
  | .persistIndexToDisk => EpistemicNearestNeighbors.persistIndexToDisk env

/-- The states of a model under calls that end as allowed. -/
inductive Session (start : EpistemicNearestNeighbors D F → Prop)
    (ok : Operation D → Outcome Unit → Prop) : EpistemicNearestNeighbors D F → Prop where
  | start {m : EpistemicNearestNeighbors D F} : start m → Session start ok m
  | step {m : EpistemicNearestNeighbors D F} (env : Env F) (op : Operation D) :
      Session start ok m → ok op (op.run env m).1 → Session start ok (op.run env m).2

/-- A disk model by either constructor, over any directory. -/
def OpensDisk (m : EpistemicNearestNeighbors D F) : Prop :=
  (∃ (env : Env F) (x y : Array2 D) (yvar : Option (Array2 D)) (options : ModelOptions D F),
    options.storage = .disk ∧ newWithOptions env x y yvar options = .ok m) ∨
  ∃ (env : Env F) (numDim numMetrics : ℕ) (dir : WorkDir D F) (threshold : Option ℕ),
    newEmpty env numDim numMetrics .bpAnnDisk .disk (some dir) threshold = .ok m

/-- Adds return; other calls may end in any way. -/
def AddsReturn (op : Operation D) (o : Outcome Unit) : Prop :=
  match op with
  | .add _ _ _ => o = .ok ()
  | _ => True

section Filed

open BpannBackend (Filed)

omit [Analysis D] [DecidableEq F] [Floating D] [Floating F] [FloatCast D F] in
theorem keeps_filed {c : Call (BpannBackend D F) Unit}
    (h : ∀ b : BpannBackend D F, Call.Keeps (SameStores b.Records b) c) : Call.Keeps Filed c :=
  fun b hb => (h b b hb.sameStores).filed hb

omit [DecidableEq F] in
theorem filed_newEmpty {numDim numMetrics : ℕ} {dir : WorkDir D F} {threshold : Option ℕ}
    (h : newEmpty env numDim numMetrics .bpAnnDisk .disk (some dir) threshold = .ok m) :
    m.backend.OnDisk Filed := by
  obtain ⟨dir', inner, b, hdir, hnew, ⟨soft, hard, defer, rfl⟩, rfl⟩ := newEmpty_disk h
  have hempty : (Array2.empty numDim : Array2 D).nrows = (Array2.empty numMetrics).nrows := rfl
  have hfiled := BpannBackend.filed_new hempty hnew
  exact ⟨_, rfl, { hfiled with bare := hfiled.bare }⟩

omit [DecidableEq F] in
theorem filed_opensDisk (h : OpensDisk m) : m.backend.OnDisk Filed := by
  rcases h with ⟨env, x, y, yvar, options, hs, h⟩ | ⟨env, numDim, numMetrics, dir, threshold, h⟩
  · obtain ⟨b₀, bounds, hopening, hopened, -⟩ := newWithOptions_disk hs h
    obtain ⟨handle, hb, hsame⟩ := hopened.backend
    exact ⟨handle, hb, hsame.filed hopening.filed⟩
  · exact filed_newEmpty h

omit [DecidableEq F] in
theorem filed_add {x y : Array2 D} {yvar : Option (Array2 D)} (hm : m.backend.OnDisk Filed)
    (h : (add env x y yvar).Returns m () m') : m'.backend.OnDisk Filed := by
  rcases returns_add h with ⟨-, rfl⟩ | ⟨storedY, storedYvar, waited, backend, hadd, rfl⟩
  · exact hm
  · have hwaited : waited.OnDisk Filed :=
      (EnnBackend.keeps_dispatch DiskBackendHandle.keeps_waitForFlush).of_returns hm hadd.wait
    obtain ⟨handle, rfl, hf⟩ := hwaited
    obtain ⟨handle', happend, rfl⟩ := EnnBackend.returns_dispatch_disk hadd.append
    obtain ⟨data, hrows, rfl⟩ := Call.returns_on.mp happend
    have hdata := BpannBackend.filed_appendRows hf hrows
    unfold afterAdd
    dsimp only
    split
    · exact ⟨_, rfl, { hdata with bare := fun _ => ⟨rfl, rfl⟩ }⟩
    · exact ⟨_, rfl, hdata⟩

omit [Floating D] [Floating F] [FloatCast D F] [Analysis D] [DecidableEq F] in
theorem filed_persistYBoundsMetadata (hm : m.backend.OnDisk Filed) :
    m.persistYBoundsMetadata.backend.OnDisk Filed := by
  obtain ⟨h, hb, hf⟩ := hm
  obtain ⟨md, hmd, hdims⟩ := hf.dir.metadata
  unfold persistYBoundsMetadata modifyDir
  rw [hb]
  have hdir : (YBounds.persistBoundsMetadata m.yBounds h.data.dir).metadata =
      some { md with yBounds := some m.yBounds } := by
    unfold YBounds.persistBoundsMetadata
    rw [hmd]
    rfl
  exact ⟨_, rfl, { hf with dir := ⟨hf.dir.numObs, _, hdir, hdims⟩, bare := hf.bare }⟩

theorem filed_of_session (h : Session OpensDisk AddsReturn m) : m.backend.OnDisk Filed := by
  induction h with
  | start h => exact filed_opensDisk h
  | @step m env op _ hok ih =>
    cases op with
    | add x y yvar => exact filed_add ih (Prod.ext hok rfl)
    | scheduleBackgroundFlush =>
      refine keeps_onBackend
        (EnnBackend.keeps_dispatch (DiskBackendHandle.keeps_scheduleBackgroundFlush ?_)) m ih
      exact keeps_filed fun b => DiskBackendHandle.keeps_softSync
        (BpannBackend.sidecarFree_records b) b env
    | persistIndexToDisk =>
      have hpersist : Call.Keeps (EnnBackend.OnDisk (Filed : BpannBackend D F → Prop))
          (EnnBackend.persistIndex env) := by
        refine EnnBackend.keeps_dispatch (DiskBackendHandle.keeps_waitForFlush.bind fun _ => ?_)
        exact Call.keeps_on (keeps_filed fun b => BpannBackend.filed_persistIndexToDisk b env)
          (fun _ h => h) fun _ _ _ h => h
      exact ((keeps_onBackend hpersist).bind fun _ =>
        Call.keeps_modify fun _ h => filed_persistYBoundsMetadata h) m ih

end Filed

section Reopen

variable {env' : Env F} {x y : Array2 D} {yvar : Option (Array2 D)} {options : ModelOptions D F}
  {dir : WorkDir D F}

omit [Analysis D] in
theorem drop_eq_some {h₀ : DiskBackendHandle D F} (hb : m.backend = .disk h₀)
    (hf : h₀.data.Filed) (hdir : m.drop env = some dir) :
    ∃ b, SameStores h₀.data.Records h₀.data b ∧ dir = b.workDir := by
  have hkeeps : Call.Keeps (EnnBackend.OnDisk (SameStores h₀.data.Records h₀.data))
      (EnnBackend.persistIndex env) := by
    refine EnnBackend.keeps_dispatch (DiskBackendHandle.keeps_waitForFlush.bind fun _ => ?_)
    exact Call.keeps_on (BpannBackend.filed_persistIndexToDisk h₀.data env)
      (fun _ h => h) fun _ _ _ h => h
  obtain ⟨h, hh, hs⟩ := hkeeps _ ⟨h₀, hb, hf.sameStores⟩
  simp only [drop, hh] at hdir
  exact ⟨h.data, hs, (Option.some.inj hdir).symm⟩

/-- The model that is opened without rows where another one was dropped. -/
structure Reopened (b : BpannBackend D F) (m' : EpistemicNearestNeighbors D F) : Prop where
  rows : m'.backend.OnDisk fun b' =>
    b'.trainX.rows = b.trainX.rows ∧ b'.trainY.rows = b.trainY.rows ∧ b'.trainYvar = none
  numObs_eq : m'.numObs = b.len
  numMetrics_eq : m'.numMetrics = b.numMetrics

theorem reopened_of_drop {h₀ : DiskBackendHandle D F} (hb : m.backend = .disk h₀)
    (hf : h₀.data.Filed) (hdir : m.drop env = some dir) (hs : options.storage = .disk)
    (hwork : options.workDir = some dir) (hx : x.nrows = 0)
    (h : newWithOptions env' x y yvar options = .ok m') : Reopened h₀.data m' := by
  obtain ⟨b, hsame, rfl⟩ := drop_eq_some hb hf hdir
  have hbf := hsame.filed hf
  obtain ⟨b₀, bounds, hopening, hopened, -⟩ := newWithOptions_disk hs h
  obtain ⟨_, warpedY, warpedYvar, xScale, hwork', hrows, hnew⟩ := hopening.opened
  obtain rfl := Option.some.inj (hwork.symm.trans hwork')
  obtain ⟨inner, rfl, ⟨-, hre⟩ | ⟨hno, -⟩⟩ := DiskBpannEnnBackend.new_eq_ok hnew
  · obtain ⟨hif, hX, hY, hV⟩ := BpannBackend.reopen_rows hbf hre
    obtain ⟨handle, hback, hstores⟩ := hopened.backend
    refine ⟨⟨handle, hback, ?_, ?_, ?_⟩, ?_, ?_⟩
    · rw [hstores.trainX_eq, ← hsame.trainX_eq]
      exact hX
    · rw [hstores.trainY_eq, ← hsame.trainY_eq]
      exact hY
    · rw [hstores.trainYvar_eq]
      exact hV
    · rw [hopened.numObs_eq, ← hsame.len_eq]
      change inner.trainX.nrows = b.trainX.nrows
      rw [inner.trainX.nrows_eq_length_rows, b.trainX.nrows_eq_length_rows, hX]
    · obtain ⟨md, hmd, -, -, hmetrics⟩ := hbf.dir.metadata
      unfold BpannBackend.reopen at hre
      rw [show b.workDir.metadata = some md from hmd] at hre
      rw [hopened.numMetrics_eq, ← hsame.numMetrics_eq, ← hmetrics]
      exact (BpannBackend.widths_new hre).2
  · obtain ⟨md, hmd, -⟩ := hbf.dir.metadata
    refine absurd ⟨hx, ?_, ?_⟩ hno
    · rw [hrows, ← hopening.nrows_eq, hx]
    · rw [show b.workDir.metadata = some md from hmd]
      rfl

/-- The same number of observations, and the same rows. -/
def SameObservations (m m' : EpistemicNearestNeighbors D F) : Prop :=
  m'.numObs = m.numObs ∧ ∀ i < m.numObs,
    m'.backend.rowX i = m.backend.rowX i ∧ m'.backend.rowY i = m.backend.rowY i ∧
      m'.backend.rowYvar i = m.backend.rowYvar i

def storesYvar : EnnBackend D F → Bool :=
  EnnBackend.read (fun b => b.trainYvarRows.isSome) fun b => b.trainYvar.isSome

omit [Floating D] [Analysis D] in
theorem mmapRowSlice_congr {s t : MmapColumnStore D} (h : s.rows = t.rows) {i : ℕ}
    (hi : i < t.nrows) : s.mmapRowSlice i = t.mmapRowSlice i := by
  have hn : s.nrows = t.nrows := by rw [s.nrows_eq_length_rows, h, ← t.nrows_eq_length_rows]
  rw [MmapColumnStore.mmapRowSlice_eq (hn.symm ▸ hi), MmapColumnStore.mmapRowSlice_eq hi, h]

omit [Floating F] [FloatCast D F] [DecidableEq F] [Floating D] [Analysis D] in
/-- Without a store for variances every stored row is read the same way. -/
theorem Reopened.sameObservations {h₀ : DiskBackendHandle D F} (hr : Reopened h₀.data m')
    (hb : m.backend = .disk h₀) (hf : h₀.data.Filed) (hn : m.numObs = m.backend.len)
    (hv : m.numObs = 0 ∨ storesYvar m.backend = false) : SameObservations m m' := by
  have hlen : m.backend.len = h₀.data.len := by rw [hb]; rfl
  refine ⟨by rw [hr.numObs_eq, hn, hlen], fun i hi => ?_⟩
  obtain ⟨h', hb', hX, hY, hV⟩ := hr.rows
  have hv₀ : h₀.data.trainYvar = none := by
    rcases hv with h0 | hv
    · omega
    · rw [hb] at hv
      exact Option.isSome_eq_false_iff.mp hv |> Option.isNone_iff_eq_none.mp
  have hi : i < h₀.data.len := by omega
  have hslice := mmapRowSlice_congr hY (hf.nrows_y.symm ▸ hi : i < h₀.data.trainY.nrows)
  rw [hb, hb']
  refine ⟨mmapRowSlice_congr hX hi, ?_, ?_⟩
  · change DiskBpannEnnBackend.rowY _ _ = DiskBpannEnnBackend.rowY _ _
    unfold DiskBpannEnnBackend.rowY
    rw [hV, hv₀, hslice]
  · change DiskBpannEnnBackend.rowYvar _ _ = DiskBpannEnnBackend.rowYvar _ _
    unfold DiskBpannEnnBackend.rowYvar
    rw [hV, hv₀, hslice]

omit [Floating F] [FloatCast D F] [DecidableEq F] [Floating D] [Analysis D] in
/-- With one, no stored row has variances any more. -/
theorem Reopened.not_sameObservations {h₀ : DiskBackendHandle D F} (hr : Reopened h₀.data m')
    (hb : m.backend = .disk h₀) (hf : h₀.data.Filed) (hn : m.numObs = m.backend.len)
    (hpos : 0 < m.numObs) (hv : storesYvar m.backend = true) : ¬ SameObservations m m' := by
  rintro ⟨-, hrows⟩
  have hlen : m.backend.len = h₀.data.len := by rw [hb]; rfl
  have hi : 0 < h₀.data.trainY.nrows := by rw [hf.nrows_y]; omega
  have hyvar := (hrows 0 hpos).2.2
  obtain ⟨h', hb', -, hY, hV⟩ := hr.rows
  rw [hb] at hv hyvar
  obtain ⟨store, hstore⟩ := Option.isSome_iff_exists.mp hv
  have hleft : DiskBpannEnnBackend.rowYvar h'.data 0 = .ok none := by
    unfold DiskBpannEnnBackend.rowYvar
    rw [hV, mmapRowSlice_congr hY hi, MmapColumnStore.mmapRowSlice_eq hi]
    rfl
  have hright : DiskBpannEnnBackend.rowYvar h₀.data 0 ≠ .ok none := by
    unfold DiskBpannEnnBackend.rowYvar
    rw [hstore]
    intro h
    obtain ⟨_, -, h⟩ := Outcome.bind_eq_ok.mp h
    obtain ⟨_, -, h⟩ := Outcome.map_eq_ok.mp h
    cases h
  rw [hb'] at hyvar
  exact hright (hyvar.symm.trans hleft)

/--
A dropped model that is reopened has its observations exactly when it knew of all its rows and
none of them had variances.
-/
theorem sameObservations_iff (hm : Session OpensDisk AddsReturn m) (hdir : m.drop env = some dir)
    (hs : options.storage = .disk) (hwork : options.workDir = some dir) (hx : x.nrows = 0)
    (h : newWithOptions env' x y yvar options = .ok m') :
    SameObservations m m' ↔
      m.numObs = m.backend.len ∧ (m.numObs = 0 ∨ storesYvar m.backend = false) := by
  obtain ⟨h₀, hb, hf⟩ := filed_of_session hm
  have hr := reopened_of_drop hb hf hdir hs hwork hx h
  have hlen : m.backend.len = h₀.data.len := by rw [hb]; rfl
  constructor
  · intro hsame
    have hn : m.numObs = m.backend.len := by rw [hlen, ← hr.numObs_eq, hsame.1]
    refine ⟨hn, or_iff_not_imp_left.mpr fun h0 => Bool.eq_false_iff.mpr fun hv => ?_⟩
    exact hr.not_sameObservations hb hf hn (Nat.pos_of_ne_zero h0) hv hsame
  · rintro ⟨hn, hv⟩
    exact hr.sameObservations hb hf hn hv

/-- The options of a disk model over a directory. -/
def diskOptions (dir : WorkDir D F) : ModelOptions D F where
  driver := .bpAnnDisk
  storage := .disk
  workDir := some dir

theorem sameObservations_one_row :
    ∃ (m m' : EpistemicNearestNeighbors ℚ ℚ) (dir : WorkDir ℚ ℚ),
      newWithOptions defaultEnv (.column [1]) (.column [2]) none (diskOptions {}) = .ok m ∧
        m.drop defaultEnv = some dir ∧
        newWithOptions defaultEnv (.empty 1) (.empty 1) none (diskOptions dir) = .ok m' ∧
        SameObservations m m' := by
  have key : ∀ {m m' : EpistemicNearestNeighbors ℚ ℚ} {dir : WorkDir ℚ ℚ},
      newWithOptions defaultEnv (.column [1]) (.column [2]) none (diskOptions {}) = .ok m →
      m.drop defaultEnv = some dir →
      newWithOptions defaultEnv (.empty 1) (.empty 1) none (diskOptions dir) = .ok m' →
      m.numObs = m.backend.len → storesYvar m.backend = false → SameObservations m m' :=
    fun h hdir h' hn hv => (sameObservations_iff
      (.start (.inl ⟨defaultEnv, .column [1], .column [2], none, diskOptions {}, rfl, h⟩))
      hdir rfl rfl rfl h').mpr ⟨hn, .inr hv⟩
  exact ⟨_, _, _, rfl, rfl, rfl, key rfl rfl rfl rfl rfl⟩

/-- A row is stored with its variance; after a reopen it has none. -/
theorem not_sameObservations_yvar :
    ∃ (m m' : EpistemicNearestNeighbors ℚ ℚ) (dir : WorkDir ℚ ℚ),
      newWithOptions defaultEnv (.column [1]) (.column [2]) (some (.column [3]))
          (diskOptions {}) = .ok m ∧
        m.drop defaultEnv = some dir ∧
        newWithOptions defaultEnv (.empty 1) (.empty 1) none (diskOptions dir) = .ok m' ∧
        m.backend.rowYvar 0 = .ok (some [3]) ∧ m'.backend.rowYvar 0 = .ok none ∧
        ¬ SameObservations m m' := by
  refine ⟨_, _, _, rfl, rfl, rfl, rfl, rfl, ?_⟩
  rintro ⟨-, h⟩
  have h := (h 0 (by decide)).2.2
  cases h

end Reopen

end Runs

end EpistemicNearestNeighbors

end Ennbo
