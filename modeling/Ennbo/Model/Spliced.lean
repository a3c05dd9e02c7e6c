import Ennbo.Model.Sessions

/-! # Bounds in the metadata

The model splices its bounds into the metadata when it is created and after each
of its persists. Adds and flushes leave the metadata alone, but the persist of a
drop writes it again, without the bounds.
-/

namespace Ennbo

variable {D F : Type} [Floating D] [Floating F] [FloatCast D F] [Analysis D]

open BpannBackend (SameStores)

namespace EpistemicNearestNeighbors

variable {bounds : Array2 D} {n : ℕ} {env : Env F} {m m' : EpistemicNearestNeighbors D F}

section Backend

variable {b b' : BpannBackend D F}

omit [Floating D] [Floating F] [FloatCast D F] [Analysis D] in
theorem Spliced.of_sameStores (hb : Spliced bounds n b)
    (hs : SameStores (fun dir => dir.metadata = b.dir.metadata) b b') : Spliced bounds n b' where
  metadata := by
    rw [hs.dir]
    exact hb.metadata
  numMetrics_eq := hs.numMetrics_eq.trans hb.numMetrics_eq
  bare := hs.bare

omit [Analysis D] [Floating D] [Floating F] [FloatCast D F] in
theorem keeps_spliced {c : Call (BpannBackend D F) Unit}
    (h : ∀ b : BpannBackend D F,
      Call.Keeps (SameStores (fun dir => dir.metadata = b.dir.metadata) b) c) :
    Call.Keeps (Spliced bounds n) c :=
  fun b hb => hb.of_sameStores (h b b (.refl rfl hb.bare))

omit [Analysis D] in
theorem spliced_softSync (env : Env F) :
    Call.Keeps (Spliced (F := F) bounds n) (DiskBackendHandle.softSync env) :=
  keeps_spliced fun b => DiskBackendHandle.keeps_softSync (fun _ _ h => h) b env

omit [Analysis D] in
/-- However an append ends, it does not write the metadata. -/
theorem spliced_appendRows (env : Env F) (x y : Array2 D) (yvar : Option (Array2 D)) :
    Call.Keeps (Spliced (F := F) bounds n) (BpannBackend.appendRows env x y yvar) := by
  refine Call.keeps_get.bind fun b => ?_
  by_cases hx : x.nrows = 0
  · rw [if_pos hx]
    exact Call.keeps_pure _
  rw [if_neg hx]
  refine Call.Keeps.ite (Call.keeps_ofOutcome _) ?_
  refine Call.Keeps.ofOutcome_bind fun _ _ => Call.Keeps.ofOutcome_bind fun trainX hX => ?_
  have hrows : trainX.nrows ≠ 0 := by
    have := MmapColumnStore.nrows_of_rows (MmapColumnStore.rows_of_mmapAppend hX).2
    unfold Array2.nrows at hx
    omega
  refine Call.Keeps.bind (Call.keeps_modify fun c hc => ?_) fun _ => ?_
  · exact ⟨hc.metadata, hc.numMetrics_eq, fun h0 => absurd h0 hrows⟩
  refine Call.Keeps.ofOutcome_bind fun trainY _ => ?_
  refine Call.Keeps.bind (Call.keeps_modify fun c hc => ?_) fun _ => ?_
  · exact ⟨hc.metadata, hc.numMetrics_eq, hc.bare⟩
  refine Call.Keeps.ofOutcome_bind fun trainYvar _ => ?_
  refine Call.Keeps.bind (Call.keeps_modify fun c hc => ?_) fun _ => ?_
  · exact ⟨hc.metadata, hc.numMetrics_eq, hc.bare⟩
  refine Call.Keeps.bind (Call.keeps_modify fun c hc => ?_) fun _ => ?_
  · have hnote := c.index.sameFragments_notePendingRows x c.scaleX c.xScale
    refine ⟨hc.metadata, hc.numMetrics_eq, fun h0 => ?_⟩
    obtain ⟨hr, hi⟩ := hc.bare h0
    exact ⟨hnote.2.trans hr, hnote.1.trans hi⟩
  refine Call.keeps_get.bind fun c => Call.Keeps.ite ?_ (Call.keeps_pure _)
  exact keeps_spliced fun b => BpannBackend.keeps_ensureIndexSync (fun _ _ h => h) b env

section Persist

variable [DecidableEq F]

omit [Analysis D] in
theorem keepsFailing_spliced_persist (env : Env F) :
    Call.KeepsFailing (Spliced (D := D) bounds n) (BpannBackend.persistIndexToDisk env) := by
  intro b hb hfail
  have hsame := BpannBackend.keeps_persistIndexToDisk b (P := fun _ => True)
    (fun _ _ h => h) (fun _ _ h => h) (fun _ _ _ h => h) env b (.refl trivial hb.bare)
  refine hb.of_sameStores { hsame with dir := ?_, bare := hsame.bare }
  exact BpannBackend.metadata_of_not_rewrites hb.bare fun h => hfail () h.1

/-- Metadata of the model's width. -/
structure Described (n : ℕ) (b : BpannBackend D F) : Prop where
  metadata : ∃ md, b.dir.metadata = some md ∧ md.numMetrics = n
  numMetrics_eq : b.numMetrics = n
  bare : b.Bare

omit [Floating D] [Floating F] [FloatCast D F] [Analysis D] [DecidableEq F] in
theorem Spliced.described (hb : Spliced bounds n b) : Described n b := by
  obtain ⟨md, hmd, -, hn⟩ := hb.metadata
  exact ⟨⟨md, hmd, hn⟩, hb.numMetrics_eq, hb.bare⟩

omit [Analysis D] in
theorem keeps_described_persist (env : Env F) :
    Call.Keeps (Described (D := D) n) (BpannBackend.persistIndexToDisk env) := by
  intro b hb
  have hsame := BpannBackend.keeps_persistIndexToDisk b
    (P := fun dir => ∃ md, dir.metadata = some md ∧ md.numMetrics = n)
    (fun _ _ h => h) (fun _ _ h => h) (fun _ _ _ _ => ⟨_, rfl, hb.numMetrics_eq⟩) env b
    (.refl hb.metadata hb.bare)
  exact ⟨hsame.dir, hsame.numMetrics_eq.trans hb.numMetrics_eq, hsame.bare⟩

end Persist

end Backend

section Runs

variable [DecidableEq F]

/-- A model with these bounds, in memory and in its metadata. -/
structure BoundedBy (bounds : Array2 D) (n : ℕ) (m : EpistemicNearestNeighbors D F) : Prop where
  backend : m.backend.OnDisk (Spliced bounds n)
  numMetrics_eq : m.numMetrics = n
  yBounds_eq : m.yBounds = bounds
  bounded_eq : m.boundedOutputs = !YBounds.isIdentityBounds bounds

omit [Floating F] [FloatCast D F] [DecidableEq F] in
theorem boundedBy_onBackend {α : Type} {c : Call (EnnBackend D F) α}
    (hc : Call.Keeps (EnnBackend.OnDisk (Spliced bounds n)) c) :
    Call.Keeps (BoundedBy bounds n) (onBackend c) :=
  Call.keeps_on hc (fun _ h => h.backend) fun _ _ h hb => { h with backend := hb }

omit [Analysis D] [DecidableEq F] [Floating D] [Floating F] [FloatCast D F] in
theorem keeps_waitForFlush : Call.Keeps (EnnBackend.OnDisk (Spliced (F := F) bounds n))
    EnnBackend.waitForFlush :=
  EnnBackend.keeps_dispatch DiskBackendHandle.keeps_waitForFlush

omit [DecidableEq F] in
theorem boundedBy_add (env : Env F) (x y : Array2 D) (yvar : Option (Array2 D)) :
    Call.Keeps (BoundedBy bounds n) (add env x y yvar) := by
  refine Call.keeps_get.bind fun m => (Call.keeps_ofOutcome _).bind fun _ => ?_
  refine Call.Keeps.ite ?_ (Call.keeps_pure _)
  refine (boundedBy_onBackend keeps_waitForFlush).bind fun _ => ?_
  refine (Call.keeps_ofOutcome _).bind fun stored => Call.Keeps.bind ?_ fun _ => ?_
  · refine boundedBy_onBackend (EnnBackend.keeps_dispatch ?_)
    exact Call.keeps_on (spliced_appendRows env _ _ _) (fun _ h => h) fun _ _ _ h => h
  refine (Call.keeps_ofOutcome _).bind fun _ => Call.Keeps.bind ?_ fun _ => ?_
  · exact Call.keeps_modify fun c hc => { hc with }
  have hcount : Call.Keeps (BoundedBy (F := F) bounds n)
      (Call.modify fun m => { m with numObs := m.backend.len }) :=
    Call.keeps_modify fun c hc => { hc with }
  refine Call.Keeps.ite ((Call.keeps_ofOutcome _).bind fun _ => Call.Keeps.bind ?_ fun _ => ?_)
    hcount
  · exact Call.keeps_modify fun c hc => { hc with }
  · refine (boundedBy_onBackend (EnnBackend.keeps_dispatch ?_)).bind fun _ => hcount
    refine Call.keeps_on (Q := Spliced bounds n) (Call.keeps_modify fun b hb => ?_)
      (fun _ h => h) fun _ _ _ h => h
    exact ⟨hb.metadata, hb.numMetrics_eq, fun _ => ⟨rfl, rfl⟩⟩

omit [Floating F] [FloatCast D F] [DecidableEq F] in
theorem persistYBoundsMetadata_described (hm : m.backend.OnDisk (Described n))
    (hn : m.numMetrics = n) (hb : m.yBounds = bounds)
    (hf : m.boundedOutputs = !YBounds.isIdentityBounds bounds) :
    BoundedBy bounds n m.persistYBoundsMetadata := by
  obtain ⟨h, hback, hd⟩ := hm
  obtain ⟨md, hmd, hwidth⟩ := hd.metadata
  have hp : m.persistYBoundsMetadata =
      { m with
        backend := .disk
          { h with
            data :=
              { h.data with dir := YBounds.persistBoundsMetadata m.yBounds h.data.dir } } } := by
    unfold EpistemicNearestNeighbors.persistYBoundsMetadata modifyDir
    rw [hback]
  have hmd' : (YBounds.persistBoundsMetadata m.yBounds h.data.dir).metadata =
      some { md with yBounds := some m.yBounds } := by
    unfold YBounds.persistBoundsMetadata
    rw [hmd]
    rfl
  rw [hp]
  refine ⟨⟨_, rfl, ⟨_, hmd', ?_, hwidth⟩, hd.numMetrics_eq, hd.bare⟩, hn, hb, hf⟩
  rw [hb]

/-- A persist of the model splices the bounds again when it has written the metadata. -/
theorem boundedBy_persistIndexToDisk (env : Env F) :
    Call.Keeps (BoundedBy bounds n) (persistIndexToDisk env) := by
  refine Call.KeepsFailing.bind_keeps
    (Q := fun m => m.backend.OnDisk (Described n) ∧ m.numMetrics = n ∧ m.yBounds = bounds ∧
      m.boundedOutputs = !YBounds.isIdentityBounds bounds) ?_ ?_ ?_
  · refine Call.keepsFailing_on (Q := EnnBackend.OnDisk (Spliced bounds n)) ?_
      (fun _ h => h.backend) fun _ _ h hb => { h with backend := hb }
    rintro b ⟨h, rfl, hs⟩ hfail
    refine ⟨_, rfl, ?_⟩
    refine (DiskBackendHandle.keeps_waitForFlush (R := Spliced bounds n)).bind_failing
      (fun _ => ?_) h hs hfail
    exact Call.keepsFailing_on (keepsFailing_spliced_persist env) (fun _ h => h) fun _ _ _ h => h
  · rintro m ⟨⟨h, hback, hs⟩, hn, hb, hf⟩
    have hkeeps : Call.Keeps (EnnBackend.OnDisk (Described (D := D) n))
        (EnnBackend.persistIndex env) := by
      refine EnnBackend.keeps_dispatch (DiskBackendHandle.keeps_waitForFlush.bind fun _ => ?_)
      exact Call.keeps_on (keeps_described_persist env) (fun _ h => h) fun _ _ _ h => h
    exact ⟨hkeeps _ ⟨h, hback, hs.described⟩, hn, hb, hf⟩
  · rintro _ m ⟨hm, hn, hb, hf⟩
    exact persistYBoundsMetadata_described hm hn hb hf

/-- A disk model created with these bounds. -/
def CreatedWith (bounds : Array2 D) (m : EpistemicNearestNeighbors D F) : Prop :=
  ∃ (env : Env F) (x y : Array2 D) (yvar : Option (Array2 D)) (options : ModelOptions D F),
    options.storage = .disk ∧ options.yBounds = some bounds ∧
      newWithOptions env x y yvar options = .ok m

theorem chooseBounds_requested {stored : Option (Array2 D)} {b : Array2 D}
    (h : chooseBounds (some bounds) stored n = .ok b) : b = bounds := by
  unfold chooseBounds at h
  cases stored with
  | none => exact (Outcome.pure_eq_ok.mp h).symm
  | some stored =>
    dsimp only at h
    split at h
    · simp at h
    · exact (Outcome.pure_eq_ok.mp h).symm

theorem boundedBy_of_session {ok : Operation D → Outcome Unit → Prop}
    (h : Session (CreatedWith bounds) ok m) :
    YBounds.validateBounds bounds bounds.nrows = .ok () ∧ ∃ n, BoundedBy bounds n m := by
  induction h with
  | start h =>
    obtain ⟨env, x, y, yvar, options, hs, hreq, h⟩ := h
    obtain ⟨b₀, bounds', hopening, hopened, hspliced⟩ := newWithOptions_disk hs h
    have hbounds := hopening.bounds_eq
    rw [hreq] at hbounds
    obtain rfl := chooseBounds_requested hbounds
    have hvalid := hopening.valid
    rw [← (YBounds.validateBounds_eq_ok.mp hvalid).1] at hvalid
    exact ⟨hvalid, b₀.numMetrics, hspliced, hopened.numMetrics_eq, hopened.yBounds_eq,
      hopened.bounded_eq⟩
  | @step m env op _ _ ih =>
    obtain ⟨hvalid, n, hm⟩ := ih
    refine ⟨hvalid, n, ?_⟩
    cases op with
    | add x y yvar => exact boundedBy_add env x y yvar m hm
    | scheduleBackgroundFlush =>
      refine boundedBy_onBackend (EnnBackend.keeps_dispatch ?_) m hm
      exact DiskBackendHandle.keeps_scheduleBackgroundFlush (spliced_softSync env)
    | persistIndexToDisk => exact boundedBy_persistIndexToDisk env m hm

section Reopen

variable {env' : Env F} {x y : Array2 D} {yvar : Option (Array2 D)} {options : ModelOptions D F}
  {dir : WorkDir D F}

def DropRewrites (env : Env F) (m : EpistemicNearestNeighbors D F) : Prop :=
  ∃ h, m.backend = .disk h ∧ (DiskBackendHandle.waitForFlush h).1 = .ok () ∧ h.data.Rewrites env

theorem metadata_drop (hm : BoundedBy bounds n m) (hdir : m.drop env = some dir) :
    ∃ md, dir.metadata = some md ∧ md.numMetrics = n ∧
      (m.DropRewrites env → md.yBounds = none) ∧
      (¬ m.DropRewrites env → md.yBounds = some bounds) := by
  obtain ⟨h, hb, hs⟩ := hm.backend
  have hdata : dir.metadata = (DiskBackendHandle.persistIndexToDisk env h).2.data.dir.metadata := by
    simp only [drop, hb, EnnBackend.persistIndex, EnnBackend.dispatch] at hdir
    rw [← Option.some.inj hdir]
    rfl
  rcases DiskBackendHandle.persistIndexToDisk_cases env h with ⟨hw, -, hd⟩ | ⟨hw, -, hd⟩
  · have hno : ¬ m.DropRewrites env := by
      rintro ⟨h', hb', hw', -⟩
      obtain rfl := EnnBackend.disk.inj (hb.symm.trans hb')
      exact hw hw'
    obtain ⟨md, hmd, hbounds, hn⟩ := hs.metadata
    rw [hdata, hd]
    exact ⟨md, hmd, hn, fun h => absurd h hno, fun _ => hbounds⟩
  · rw [hdata, hd]
    by_cases hr : h.data.Rewrites env
    · obtain ⟨md, hmd, hn⟩ := (keeps_described_persist env _ hs.described).metadata
      have hnone := BpannBackend.storedBounds_of_rewrites hr
      unfold WorkDir.storedBounds at hnone
      rw [hmd] at hnone
      exact ⟨md, hmd, hn, fun _ => hnone, fun h' => absurd ⟨h, hb, hw, hr⟩ h'⟩
    · have hno : ¬ m.DropRewrites env := by
        rintro ⟨h', hb', -, hr'⟩
        obtain rfl := EnnBackend.disk.inj (hb.symm.trans hb')
        exact hr hr'
      obtain ⟨md, hmd, hbounds, hn⟩ := hs.metadata
      rw [BpannBackend.metadata_of_not_rewrites hs.bare hr]
      exact ⟨md, hmd, hn, fun h => absurd h hno, fun _ => hbounds⟩

/-- Equal bounds, so that rows are read on the scale of the first model. -/
def BoundsSurvive (m m' : EpistemicNearestNeighbors D F) : Prop :=
  matrixEq m.yBounds m'.yBounds = true ∧
    ∀ indices, m'.naturalRows indices = { m with backend := m'.backend }.naturalRows indices

omit [DecidableEq F] in
/-- A model opened without rows takes the metadata's width and the bounds it can read there. -/
theorem newWithOptions_reopen {md : Metadata D} (hs : options.storage = .disk)
    (hwork : options.workDir = some dir) (hreq : options.yBounds = none) (hx : x.nrows = 0)
    (hmd : dir.metadata = some md) (h : newWithOptions env' x y yvar options = .ok m') :
    m'.numMetrics = md.numMetrics ∧
      m'.yBounds = ((persistedBounds (some dir) y.ncols).getD (YBounds.unboundedBounds y.ncols)) ∧
      m'.boundedOutputs = !YBounds.isIdentityBounds m'.yBounds := by
  obtain ⟨b₀, bounds, hopening, hopened, -⟩ := newWithOptions_disk hs h
  refine ⟨?_, ?_, ?_⟩
  · obtain ⟨_, warpedY, warpedYvar, xScale, hwork', hrows, hnew⟩ := hopening.opened
    obtain rfl := Option.some.inj (hwork.symm.trans hwork')
    rw [hopened.numMetrics_eq]
    obtain ⟨inner, rfl, ⟨-, hre⟩ | ⟨hno, -⟩⟩ := DiskBpannEnnBackend.new_eq_ok hnew
    · unfold BpannBackend.reopen at hre
      rw [hmd] at hre
      exact (BpannBackend.widths_new hre).2
    · refine absurd ⟨hx, ?_, ?_⟩ hno
      · rw [hrows, ← hopening.nrows_eq, hx]
      · rw [hmd]
        rfl
  · rw [hopened.yBounds_eq]
    have hbounds := hopening.bounds_eq
    rw [hreq, hwork] at hbounds
    unfold chooseBounds at hbounds
    cases hp : persistedBounds (some dir) y.ncols with
    | none =>
      rw [hp] at hbounds
      exact (Outcome.pure_eq_ok.mp hbounds).symm
    | some stored =>
      rw [hp] at hbounds
      exact (Outcome.pure_eq_ok.mp hbounds).symm
  · rw [hopened.bounded_eq, hopened.yBounds_eq]

variable [YBounds.LawfulBounds D]

omit [Floating F] [FloatCast D F] [DecidableEq F] in
theorem naturalRows_readBound (hm : BoundedBy bounds n m)
    (hvalid : YBounds.validateBounds bounds bounds.nrows = .ok ()) (hn : m'.numMetrics = n)
    (hb : m'.yBounds = YBounds.readBound bounds)
    (hf : m'.boundedOutputs = !YBounds.isIdentityBounds m'.yBounds) (indices : List ℕ) :
    m'.naturalRows indices = { m with backend := m'.backend }.naturalRows indices := by
  have hflag : m'.boundedOutputs = m.boundedOutputs := by
    rw [hf, hb, YBounds.isIdentityBounds_readBound hvalid, hm.bounded_eq]
  unfold naturalRows naturalizeRows
  simp only [hflag, hn, hb, hm.numMetrics_eq, hm.yBounds_eq, YBounds.invY_readBound,
    YBounds.naturalizeYvar_readBound]

omit [Floating F] [FloatCast D F] [DecidableEq F] [YBounds.LawfulBounds D] in
theorem naturalRows_unbounded (h : m.boundedOutputs = false) (h' : m'.boundedOutputs = false)
    (indices : List ℕ) :
    m'.naturalRows indices = { m with backend := m'.backend }.naturalRows indices := by
  unfold naturalRows
  simp only [h, h', Bool.not_false, if_true]

/--
The bounds of a dropped model survive exactly when they confine nothing or the drop does not
write the metadata.
-/
theorem boundsSurvive_iff {ok : Operation D → Outcome Unit → Prop}
    (hm : Session (CreatedWith bounds) ok m) (hdir : m.drop env = some dir)
    (hs : options.storage = .disk) (hwork : options.workDir = some dir)
    (hreq : options.yBounds = none) (hx : x.nrows = 0) (hy : y.ncols = bounds.nrows)
    (h : newWithOptions env' x y yvar options = .ok m') :
    BoundsSurvive m m' ↔ YBounds.isIdentityBounds bounds = true ∨ ¬ m.DropRewrites env := by
  obtain ⟨hvalid, n, hb⟩ := boundedBy_of_session hm
  obtain ⟨-, hcols, -⟩ := YBounds.validateBounds_eq_ok.mp hvalid
  obtain ⟨md, hmd, hn, hlost, hkept⟩ := metadata_drop hb hdir
  obtain ⟨hmetrics, hbounds, hflag⟩ := newWithOptions_reopen hs hwork hreq hx hmd h
  rw [hy] at hbounds
  by_cases hr : m.DropRewrites env
  · have hp : persistedBounds (some dir) bounds.nrows = none := by
      simp [persistedBounds, YBounds.loadBoundsMetadata, hmd, hlost hr, pure, Except.pure]
    rw [hp, Option.getD_none] at hbounds
    have hsame : matrixEq m.yBounds m'.yBounds = YBounds.isIdentityBounds bounds := by
      rw [hb.yBounds_eq, hbounds, YBounds.matrixEq_unboundedBounds hcols]
    constructor
    · rintro ⟨heq, -⟩
      exact .inl (hsame ▸ heq)
    · rintro (hid | hno)
      · refine ⟨hsame.trans hid, naturalRows_unbounded ?_ ?_⟩
        · rw [hb.bounded_eq, hid]
          rfl
        · rw [hflag, hbounds, YBounds.isIdentityBounds_unboundedBounds]
          rfl
      · exact absurd hr hno
  · have hp : persistedBounds (some dir) bounds.nrows = some (YBounds.readBound bounds) := by
      simp only [persistedBounds, Option.bind_some]
      rw [YBounds.loadBoundsMetadata_eq_ok hmd (hkept hr) hvalid]
    rw [hp, Option.getD_some] at hbounds
    refine ⟨fun _ => .inr hr, fun _ => ⟨?_, ?_⟩⟩
    · rw [hb.yBounds_eq, hbounds]
      exact YBounds.matrixEq_readBound hvalid
    · exact naturalRows_readBound hb hvalid (hmetrics.trans hn) hbounds hflag

def unitBounds : Array2 ℚ := ⟨2, [[0, 1]], by simp⟩

/-- One row under these bounds. -/
def boundedModel : Outcome (EpistemicNearestNeighbors ℚ ℚ) :=
  newWithOptions defaultEnv (.column [1]) (.column [1 / 2]) none
    { diskOptions {} with yBounds := some unitBounds }

def reopenedModel (dir : Option (WorkDir ℚ ℚ)) : Outcome (EpistemicNearestNeighbors ℚ ℚ) :=
  newWithOptions defaultEnv (.empty 1) (.empty 1) none (diskOptions (dir.getD {}))

theorem returns_boundedModel : boundedModel.returns = true := by decide +kernel

def persistedModel : EpistemicNearestNeighbors ℚ ℚ :=
  (Operation.persistIndexToDisk.run defaultEnv (boundedModel.value returns_boundedModel)).2

theorem returns_reopenedModel :
    (reopenedModel ((boundedModel.value returns_boundedModel).drop defaultEnv)).returns = true := by
  decide +kernel

theorem returns_reopenedModel_persisted :
    (reopenedModel (persistedModel.drop defaultEnv)).returns = true := by
  decide +kernel

/-- After a persist with one fragment in memory the drop has nothing to write. -/
theorem boundsSurvive_persisted :
    ∃ m' : EpistemicNearestNeighbors ℚ ℚ, reopenedModel (persistedModel.drop defaultEnv) = .ok m' ∧
      BoundsSurvive persistedModel m' := by
  have hdir : (persistedModel.drop defaultEnv).isSome = true := by decide +kernel
  obtain ⟨dir, hdir⟩ := Option.isSome_iff_exists.mp hdir
  have h := Outcome.eq_ok_value returns_reopenedModel_persisted
  refine ⟨_, h, ?_⟩
  have hm : Session (CreatedWith unitBounds) (fun _ _ => True) persistedModel :=
    .step defaultEnv .persistIndexToDisk (.start ⟨defaultEnv, _, _, _, _, rfl, rfl,
      Outcome.eq_ok_value returns_boundedModel⟩) trivial
  have hclean : persistedModel.backend.read (fun _ => false) (fun b => b.needsDiskRewrite) =
      false := by
    decide +kernel
  refine (boundsSurvive_iff hm hdir rfl ?_ rfl rfl rfl h).mpr (.inr ?_)
  · rw [hdir]
    rfl
  · rintro ⟨handle, hb, -, -, hneeds, -⟩
    rw [hb] at hclean
    change handle.data.needsDiskRewrite = false at hclean
    rw [hneeds] at hclean
    cases hclean

/-- The drop writes the metadata for the first time after the bounds were spliced. -/
theorem not_boundsSurvive_one_row :
    ∃ m m' : EpistemicNearestNeighbors ℚ ℚ, boundedModel = .ok m ∧ CreatedWith unitBounds m ∧
      reopenedModel (m.drop defaultEnv) = .ok m' ∧ ¬ BoundsSurvive m m' := by
  refine ⟨_, _, Outcome.eq_ok_value returns_boundedModel,
    ⟨defaultEnv, _, _, _, _, rfl, rfl, Outcome.eq_ok_value returns_boundedModel⟩,
    Outcome.eq_ok_value returns_reopenedModel, ?_⟩
  rintro ⟨heq, -⟩
  revert heq
  decide +kernel

end Reopen

end Runs

end EpistemicNearestNeighbors

end Ennbo
