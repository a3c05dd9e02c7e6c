import Ennbo.Backend.Search
import Ennbo.Backend.Steps

/-! # Appends that are refused

An append checks the shapes of x and y before it stores anything, but that of
the variances last. A refused append changes nothing when the variances fit
their store, and rows keep their own variances when there is one for each.
-/

namespace Ennbo.BpannBackend

variable {D F : Type} [Floating D] [Floating F] [FloatCast D F]
variable {b b' : BpannBackend D F} {env : Env F}
variable {x y : Array2 D} {yvar : Option (Array2 D)}

section Refused

/-- The stores are as wide as the backend says. -/
structure StoreWidths (b : BpannBackend D F) : Prop where
  ncols_x : b.trainX.ncols = b.numDim
  ncols_y : b.trainY.ncols = b.numMetrics

/-- The store of the variances, opened when it is not. -/
def yvarStore (trainYvar : Option (MmapColumnStore D)) (file : Option (List D)) (numMetrics : ℕ)
    (knownNrows : Option ℕ) : Outcome (MmapColumnStore D) :=
  match trainYvar with
  | some store => pure store
  | none => MmapColumnStore.mmapOpenOrCreate file numMetrics knownNrows

def openYvar (b : BpannBackend D F) : Outcome (MmapColumnStore D) :=
  yvarStore b.trainYvar b.dir.trainYvar b.numMetrics b.dir.loadNumObs

/-- The variances have the width of their store. -/
def YvarFits (b : BpannBackend D F) : Option (Array2 D) → Prop
  | none => True
  | some yv => ∃ store, b.openYvar = .ok store ∧ (yv.nrows = 0 ∨ yv.ncols = store.ncols)

/-- The arguments have rows, but not all stores can take them. -/
def Refused (b : BpannBackend D F) (x y : Array2 D) (yvar : Option (Array2 D)) : Prop :=
  0 < x.nrows ∧
    ∀ trainX trainY trainYvar, ¬ Appended b x y yvar trainX trainY trainYvar

/-- What can be read from a backend has not changed. -/
structure SameData (b b' : BpannBackend D F) : Prop where
  len : b'.len = b.len
  rows_x : b'.trainX.rows = b.trainX.rows
  rows_y : b'.trainY.rows = b.trainY.rows
  rows_yvar : b'.trainYvar.map MmapColumnStore.rows = b.trainYvar.map MmapColumnStore.rows
  pendingRows : b'.pendingRows = b.pendingRows
  indexedRows : b'.indexedRows = b.indexedRows
  search : ∀ t queries searchK excludeNearest,
    (search t queries searchK excludeNearest b').1 = (search t queries searchK excludeNearest b).1

theorem SameData.refl (b : BpannBackend D F) : b.SameData b :=
  ⟨rfl, rfl, rfl, rfl, rfl, rfl, fun _ _ _ _ => rfl⟩

omit [Floating F] [FloatCast D F] in
theorem bpannAppendYvarOnAdd_some (b : BpannBackend D F) (yv : Array2 D) :
    bpannAppendYvarOnAdd b.dir b.numMetrics b.trainYvar (some yv) =
      b.openYvar >>= fun store => some <$> store.mmapAppend yv := by
  unfold bpannAppendYvarOnAdd openYvar yvarStore
  cases b.trainYvar <;> rfl

theorem exists_mmapAppend_iff {store : MmapColumnStore D} {a : Array2 D} :
    (∃ store', store.mmapAppend a = .ok store') ↔ a.nrows = 0 ∨ a.ncols = store.ncols := by
  unfold MmapColumnStore.mmapAppend
  split
  next h0 => simp [h0]
  next h0 =>
    split
    next hcols => simp [hcols]
    next hcols => simp [h0, hcols]

omit [Floating F] [FloatCast D F] in
theorem yvarFits_iff :
    b.YvarFits yvar ↔
      ∃ trainYvar, bpannAppendYvarOnAdd b.dir b.numMetrics b.trainYvar yvar = .ok trainYvar := by
  cases yvar with
  | none =>
    unfold YvarFits bpannAppendYvarOnAdd
    cases b.trainYvar <;> simp
  | some yv =>
    rw [bpannAppendYvarOnAdd_some]
    constructor
    · rintro ⟨store, hopen, hfits⟩
      obtain ⟨store', happend⟩ := exists_mmapAppend_iff.mpr hfits
      exact ⟨some store', by rw [hopen]; simp [Bind.bind, Except.bind, happend]⟩
    · rintro ⟨trainYvar, h⟩
      obtain ⟨store, hopen, h⟩ := Outcome.bind_eq_ok.mp h
      refine ⟨store, hopen, exists_mmapAppend_iff.mp ?_⟩
      cases happend : store.mmapAppend yv with
      | ok store' => exact ⟨store', rfl⟩
      | error e => rw [happend] at h; cases h

omit [Floating F] [FloatCast D F] in
theorem exists_appended_iff (hw : b.StoreWidths) (hpos : 0 < x.nrows) (hok : b.Accepted x y) :
    (∃ trainX trainY trainYvar, Appended b x y yvar trainX trainY trainYvar) ↔
      b.YvarFits yvar := by
  rw [yvarFits_iff]
  constructor
  · rintro ⟨_, _, trainYvar, h⟩
    exact ⟨trainYvar, h.trainYvar_eq⟩
  · rintro ⟨trainYvar, hv⟩
    obtain ⟨trainX, hx⟩ := exists_mmapAppend_iff.mpr (.inr (hok.ncols_x.trans hw.ncols_x.symm))
    obtain ⟨trainY, hy⟩ := exists_mmapAppend_iff.mpr (.inr (hok.ncols_y.trans hw.ncols_y.symm))
    exact ⟨trainX, trainY, trainYvar,
      ⟨hpos, hok.ncols_x, hok.ncols_y, hok.nrows_y, hok.limit, hx, hy, hv⟩⟩

/-- A refused append reports an error. -/
theorem Refused.error (h : b.Refused x y yvar) (env : Env F) :
    ∃ e, (appendRows env x y yvar b).1 = .error e := by
  have hends := appendRows_ends env b x y yvar
  generalize BpannBackend.appendRows env x y yvar b = r at hends
  cases hends with
  | noRows h0 => exact absurd h.1 (by omega)
  | refused => exact ⟨_, rfl⟩
  | badX => exact ⟨_, rfl⟩
  | badY => exact ⟨_, rfl⟩
  | badYvar => exact ⟨_, rfl⟩
  | stored ha => exact absurd ha (h.2 _ _ _)

/-- A refused append changes nothing, except when only the variances do not fit. -/
theorem sameData_of_refused_iff (hw : b.StoreWidths) (env : Env F) :
    (b.Refused x y yvar → b.SameData (appendRows env x y yvar b).2) ↔
      (0 < x.nrows → b.Accepted x y → b.YvarFits yvar) := by
  have hends := appendRows_ends env b x y yvar
  generalize BpannBackend.appendRows env x y yvar b = r at hends
  constructor
  · intro hsame hpos hok
    by_contra hfits
    have hrefused : b.Refused x y yvar := ⟨hpos, fun trainX trainY trainYvar ha =>
      hfits ((exists_appended_iff hw hpos hok).mp ⟨trainX, trainY, trainYvar, ha⟩)⟩
    have hlen := (hsame hrefused).len
    cases hends with
    | noRows h0 => omega
    | refused _ hbad => exact hbad hok
    | badX _ _ hx =>
      obtain ⟨_, hx'⟩ := exists_mmapAppend_iff.mpr (.inr (hok.ncols_x.trans hw.ncols_x.symm))
      rw [hx'] at hx
      cases hx
    | badY _ _ _ hy =>
      obtain ⟨_, hy'⟩ := exists_mmapAppend_iff.mpr (.inr (hok.ncols_y.trans hw.ncols_y.symm))
      rw [hy'] at hy
      cases hy
    | badYvar _ _ hx =>
      have hrows := MmapColumnStore.nrows_of_rows (MmapColumnStore.rows_of_mmapAppend hx).2
      change _ = b.trainX.nrows at hlen
      simp only [BpannBackend.len] at hlen
      rw [hrows] at hlen
      exact absurd hlen (by simp only [Array2.nrows] at hpos; omega)
    | stored ha => exact hrefused.2 _ _ _ ha
  · intro hfits hrefused
    cases hends with
    | noRows => exact .refl b
    | refused => exact .refl b
    | badX => exact .refl b
    | badY hpos hok =>
      obtain ⟨_, _, _, ha⟩ := (exists_appended_iff hw hpos hok).mpr (hfits hpos hok)
      exact absurd ha (hrefused.2 _ _ _)
    | badYvar hpos hok =>
      obtain ⟨_, _, _, ha⟩ := (exists_appended_iff hw hpos hok).mpr (hfits hpos hok)
      exact absurd ha (hrefused.2 _ _ _)
    | stored ha => exact absurd ha (hrefused.2 _ _ _)

end Refused

section Recorded

variable {log : List (List D × List D)}

/-- The stores hold the logged rows, and the logged variances are ready for the next append. -/
structure Recorded (b : BpannBackend D F) (log : List (List D × List D)) : Prop where
  widths : b.StoreWidths
  rows_x : b.trainX.rows = log.map Prod.fst
  numObs : b.dir.numObs = some b.len
  metadata : ∀ m, b.dir.metadata = some m →
    m.numObs ≤ b.len ∧ m.numDim = b.numDim ∧ m.numMetrics = b.numMetrics
  yvar : ∃ store, b.openYvar = .ok store ∧ store.ncols = b.numMetrics ∧
    store.rows = log.map Prod.snd

/-- Variances are stored for all rows, each with its own row. -/
def YvarAligned (b : BpannBackend D F) (log : List (List D × List D)) : Prop :=
  b.trainX.rows = log.map Prod.fst ∧
    ∃ store, b.trainYvar = some store ∧ store.nrows = b.len ∧ store.rows = log.map Prod.snd

omit [Floating D] [Floating F] [FloatCast D F] in
theorem Recorded.loadNumObs (h : b.Recorded log) : b.dir.loadNumObs = some b.len := by
  rw [WorkDir.loadNumObs, h.numObs]
  cases hm : b.dir.metadata with
  | none => rfl
  | some m =>
    have hle := (h.metadata m hm).1
    simp [hle]

/-- The stores and what the files say about them are the same. -/
structure SameColumns (b b' : BpannBackend D F) : Prop where
  trainX : b'.trainX = b.trainX
  trainY : b'.trainY = b.trainY
  trainYvar : b'.trainYvar = b.trainYvar
  numDim : b'.numDim = b.numDim
  numMetrics : b'.numMetrics = b.numMetrics
  numObs : b'.dir.numObs = b.dir.numObs
  yvarFile : b'.dir.trainYvar = b.dir.trainYvar
  metadata : b'.dir.metadata = b.dir.metadata ∨ ∃ m, b'.dir.metadata = some m ∧
    m.numObs = b.len ∧ m.numDim = b.numDim ∧ m.numMetrics = b.numMetrics

omit [Floating D] [Floating F] [FloatCast D F] in
theorem Recorded.congr (h : b.Recorded log) (hsame : b.SameColumns b') : b'.Recorded log := by
  have hlen : b'.len = b.len := congrArg MmapColumnStore.nrows hsame.trainX
  have hnumObs : b'.dir.numObs = some b'.len := by rw [hsame.numObs, hlen, h.numObs]
  have hmetadata : ∀ m, b'.dir.metadata = some m →
      m.numObs ≤ b'.len ∧ m.numDim = b'.numDim ∧ m.numMetrics = b'.numMetrics := by
    intro m hm
    rw [hlen, hsame.numDim, hsame.numMetrics]
    obtain hmeta | ⟨m', hm', hobs, hdim, hmetrics⟩ := hsame.metadata
    · exact h.metadata m (hmeta ▸ hm)
    · obtain rfl := Option.some.inj (hm.symm.trans hm')
      exact ⟨hobs.le, hdim, hmetrics⟩
  have hload : b'.dir.loadNumObs = b.dir.loadNumObs := by
    rw [h.loadNumObs, WorkDir.loadNumObs, hnumObs, hlen]
    cases hm : b'.dir.metadata with
    | none => rfl
    | some m =>
      have hle := (hmetadata m hm).1
      rw [hlen] at hle
      simp [hle]
  constructor
  · constructor
    · rw [hsame.trainX, hsame.numDim, h.widths.ncols_x]
    · rw [hsame.trainY, hsame.numMetrics, h.widths.ncols_y]
  · rw [hsame.trainX, h.rows_x]
  · exact hnumObs
  · exact hmetadata
  · have hopen : b'.openYvar = b.openYvar := by
      rw [openYvar, openYvar, hsame.trainYvar, hsame.yvarFile, hsame.numMetrics, hload]
    rw [hopen, hsame.numMetrics]
    exact h.yvar

omit [Floating F] [FloatCast D F] in
theorem Recorded.openYvar_append (h : b.Recorded log) {yv : Array2 D}
    {trainX trainY : MmapColumnStore D} {trainYvar : Option (MmapColumnStore D)}
    (ha : Appended b x y (some yv) trainX trainY trainYvar) :
    ∃ store, trainYvar = some store ∧ store.ncols = b.numMetrics ∧
      store.rows = log.map Prod.snd ++ yv.rows := by
  obtain ⟨store, hopen, hcols, hrows⟩ := h.yvar
  have hv := ha.trainYvar_eq
  rw [bpannAppendYvarOnAdd_some, hopen] at hv
  cases happend : store.mmapAppend yv with
  | error e => simp [Bind.bind, Except.bind, happend] at hv
  | ok store' =>
    obtain ⟨hcols', hrows'⟩ := MmapColumnStore.rows_of_mmapAppend happend
    refine ⟨store', ?_, hcols'.trans hcols, by rw [hrows', hrows]⟩
    simpa [Bind.bind, Except.bind, happend, eq_comm] using hv

def logged (log : List (List D × List D)) (x yv : Array2 D) : List (List D × List D) :=
  log ++ x.rows.zip yv.rows

omit [Floating D] in
theorem map_fst_logged {yv : Array2 D} (hn : yv.nrows = x.nrows) :
    (logged log x yv).map Prod.fst = log.map Prod.fst ++ x.rows := by
  rw [logged, List.map_append, List.map_fst_zip (by exact hn.ge)]

omit [Floating D] in
theorem map_snd_logged {yv : Array2 D} (hn : yv.nrows = x.nrows) :
    (logged log x yv).map Prod.snd = log.map Prod.snd ++ yv.rows := by
  rw [logged, List.map_append, List.map_snd_zip (by exact hn.le)]

section After

variable {yv : Array2 D} {trainX trainY : MmapColumnStore D}
  {trainYvar : Option (MmapColumnStore D)}

omit [Floating F] [FloatCast D F] in
theorem Recorded.afterAppend (h : b.Recorded log)
    (ha : Appended b x y (some yv) trainX trainY trainYvar) (hn : yv.nrows = x.nrows) :
    (b.afterAppend x trainX trainY trainYvar).Recorded (logged log x yv) := by
  obtain ⟨hcolsX, hrowsX⟩ := MmapColumnStore.rows_of_mmapAppend ha.trainX_eq
  obtain ⟨hcolsY, -⟩ := MmapColumnStore.rows_of_mmapAppend ha.trainY_eq
  obtain ⟨store, rfl, hcols, hrows⟩ := h.openYvar_append ha
  have hlen : (b.afterAppend x trainX trainY (some store)).len = b.len + x.nrows :=
    MmapColumnStore.nrows_of_rows hrowsX
  constructor
  · exact ⟨hcolsX.trans h.widths.ncols_x, hcolsY.trans h.widths.ncols_y⟩
  · rw [map_fst_logged hn, ← h.rows_x]
    exact hrowsX
  · rfl
  · intro m hm
    obtain ⟨hobs, hdim, hmetrics⟩ := h.metadata m hm
    exact ⟨by omega, hdim, hmetrics⟩
  · exact ⟨store, rfl, hcols, by rw [map_snd_logged hn, hrows]⟩

omit [Floating F] [FloatCast D F] in
/-- Rows keep their own variances exactly when there is one row of variances for each. -/
theorem Recorded.yvarAligned_iff (h : b.Recorded log)
    (ha : Appended b x y (some yv) trainX trainY trainYvar) :
    (b.afterAppend x trainX trainY trainYvar).YvarAligned (logged log x yv) ↔
      yv.nrows = x.nrows := by
  obtain ⟨-, hrowsX⟩ := MmapColumnStore.rows_of_mmapAppend ha.trainX_eq
  obtain ⟨store, rfl, -, hrows⟩ := h.openYvar_append ha
  have hlen : (b.afterAppend x trainX trainY (some store)).len = log.length + x.nrows := by
    have hlog := congrArg List.length h.rows_x
    rw [b.trainX.length_rows, List.length_map] at hlog
    have hsum : trainX.nrows = b.trainX.nrows + x.nrows := MmapColumnStore.nrows_of_rows hrowsX
    exact hsum.trans (by rw [hlog])
  have hnrows : store.nrows = log.length + yv.nrows := by
    rw [← store.length_rows, hrows, List.length_append, List.length_map, Array2.nrows]
  constructor
  · rintro ⟨-, store', hstore, hlen', -⟩
    obtain rfl : store = store' := Option.some.inj hstore
    omega
  · intro hn
    refine ⟨?_, store, rfl, by omega, by rw [map_snd_logged hn, hrows]⟩
    rw [map_fst_logged hn, ← h.rows_x]
    exact hrowsX

end After

section Calls

omit [Floating D] [Floating F] [FloatCast D F] in
theorem SameColumns.refl (b : BpannBackend D F) : b.SameColumns b :=
  ⟨rfl, rfl, rfl, rfl, rfl, rfl, rfl, .inl rfl⟩

/-- Files that a synchronisation leaves alone. -/
structure SameFiles (dir dir' : WorkDir D F) : Prop where
  numObs : dir'.numObs = dir.numObs
  trainYvar : dir'.trainYvar = dir.trainYvar
  metadata : dir'.metadata = dir.metadata

theorem sameFiles_ensureSync (env : Env F) (ctx : IndexBuildContext D) (stop : ℕ)
    (s : IndexState D F) : SameFiles s.dir (IndexState.ensureSync env ctx stop s).2.dir := by
  rw [IndexState.ensureSync, Call.get_bind_apply, Call.ite_apply]
  split
  · exact ⟨rfl, rfl, rfl⟩
  · apply Call.Keeps.after (P := fun s' : IndexState D F => SameFiles s.dir s'.dir)
    · exact ⟨rfl, rfl, rfl⟩
    · exact fun _ => Call.keeps_modify fun _ h => ⟨h.numObs, h.trainYvar, h.metadata⟩

theorem sameFiles_of_returns {ctx : IndexBuildContext D} {stop : ℕ} {s s' : IndexState D F}
    (h : (IndexState.ensureSync env ctx stop).Returns s () s') : SameFiles s.dir s'.dir := by
  have hfiles := sameFiles_ensureSync env ctx stop s
  rwa [show IndexState.ensureSync env ctx stop s = (.ok (), s') from h] at hfiles

theorem sameColumns_ensureIndexSync (env : Env F) (b : BpannBackend D F) :
    b.SameColumns (ensureIndexSync env b).2 := by
  obtain ⟨s, pending, heq, hs⟩ := ensureIndexSync_state env b
  have hfiles : SameFiles b.dir s.dir := by
    obtain ⟨-, rfl⟩ | ⟨-, rfl⟩ := hs
    · exact ⟨rfl, rfl, rfl⟩
    · exact sameFiles_ensureSync env b.context b.len ⟨b.index, b.dir⟩
  rw [heq]
  exact ⟨rfl, rfl, rfl, rfl, rfl, hfiles.numObs, hfiles.trainYvar, .inl hfiles.metadata⟩

omit [Floating D] [Floating F] [FloatCast D F] in
theorem sameColumns_resetIndex (b : BpannBackend D F) : b.SameColumns b.resetIndex :=
  ⟨rfl, rfl, rfl, rfl, rfl, rfl, rfl, .inl rfl⟩

omit [Floating F] [FloatCast D F] in
theorem sameColumns_setScale (b : BpannBackend D F) (scaleX : Bool) (xScale : List D) :
    b.SameColumns (b.setScale scaleX xScale) := by
  rw [setScale]
  split
  · exact ⟨rfl, rfl, rfl, rfl, rfl, rfl, rfl, .inl rfl⟩
  · exact .refl b

theorem sameColumns_softSync {built : IncrementalIndex D F}
    (h : (softSyncBuild env).Returns b (some built) b') :
    b.SameColumns (b'.softSyncPublish built) := by
  obtain ⟨-, ho, -⟩ | ⟨-, s, hs, -, rfl⟩ := returns_softSyncBuild h
  · cases ho
  · have hfiles := sameFiles_of_returns hs
    exact ⟨rfl, rfl, rfl, rfl, rfl, hfiles.numObs, hfiles.trainYvar, .inl hfiles.metadata⟩

theorem sameColumns_persistIndexToDisk [DecidableEq F]
    (h : (persistIndexToDisk env).Returns b () b') : b.SameColumns b' := by
  obtain ⟨-, rfl⟩ | ⟨-, s, hs, rfl⟩ := returns_persistIndexToDisk h
  · exact ⟨rfl, rfl, rfl, rfl, rfl, rfl, rfl, .inl rfl⟩
  · obtain ⟨s₁, hsync, hs⟩ := IndexState.returns_persistToDisk hs
    have hfiles := sameFiles_of_returns hsync
    have hwritten : ∀ stored, b.SameColumns
        ((b.withIndex (IndexState.persisted b.context stored s₁)).markPersisted) := fun stored =>
      ⟨rfl, rfl, rfl, rfl, rfl, hfiles.numObs, hfiles.trainYvar, .inr ⟨_, rfl, rfl, rfl, rfl⟩⟩
    obtain ⟨-, -, rfl⟩ | ⟨-, -, rfl⟩ | ⟨merged, -, -, rfl⟩ := hs
    · exact ⟨rfl, rfl, rfl, rfl, rfl, hfiles.numObs, hfiles.trainYvar, .inl hfiles.metadata⟩
    · exact hwritten _
    · exact hwritten _

omit [Floating D] [Floating F] [FloatCast D F] in
theorem SameColumns.yvarAligned_iff (h : b.SameColumns b') :
    b'.YvarAligned log ↔ b.YvarAligned log := by
  unfold YvarAligned len
  rw [h.trainX, h.trainYvar]

end Calls

section Open

variable {dir : WorkDir D F} {trainX trainY : MmapColumnStore D}
  {trainYvar : Option (MmapColumnStore D)} {scaleX : Bool} {xScale : List D}

theorem recorded_openIndexed (hx : trainX.rows = log.map Prod.fst)
    (hyvar : ∃ store,
      yvarStore trainYvar dir.trainYvar trainY.ncols (some trainX.nrows) = .ok store ∧
        store.ncols = trainY.ncols ∧ store.rows = log.map Prod.snd)
    (h : openIndexed env dir trainX trainY trainYvar scaleX xScale = .ok b) :
    b.Recorded log := by
  obtain ⟨s, hs, rfl⟩ := openIndexed_eq_ok h
  have hfile : s.dir.trainYvar = dir.trainYvar := by
    obtain ⟨-, rfl⟩ | ⟨-, hsync⟩ := hs
    · rfl
    · exact (sameFiles_of_returns hsync).trainYvar
  constructor
  · exact ⟨rfl, rfl⟩
  · exact hx
  · rfl
  · rintro m ⟨⟩
    exact ⟨le_rfl, rfl, rfl⟩
  · obtain ⟨store, hopen, hcols, hrows⟩ := hyvar
    refine ⟨store, ?_, hcols, hrows⟩
    rw [← hopen]
    cases trainYvar with
    | some store => rfl
    | none =>
      simp only [openYvar, finishOpen, withIndex, opened, WorkDir.loadNumObs, WorkDir.writeMetadata,
        WorkDir.setNumObs, hfile, len]
      simp

/-- The arguments of a constructor that stores rows with their variances, or none at all. -/
inductive OpensLog (x : Array2 D) : Option (Array2 D) → List (List D × List D) → Prop where
  | empty : x.nrows = 0 → OpensLog x none []
  | rows {yv : Array2 D} : yv.nrows = x.nrows → OpensLog x (some yv) (x.rows.zip yv.rows)

/-- A backend over an empty directory. -/
theorem recorded_new (hlog : OpensLog x yvar log)
    (h : new env {} x y yvar scaleX xScale = .ok b) : b.Recorded log := by
  obtain ⟨trainX, trainY, trainYvar, hopen, hyvar, ho⟩ := new_eq_ok h
  obtain ⟨storeX, -, hX, -, hrX, -⟩ := hopen.rows
  have hempty : storeX.nrows = 0 := (MmapColumnStore.mmapOpenOrCreate_eq_ok hX).2.1
  have hstored : storeX.rows = [] :=
    List.eq_nil_of_length_eq_zero (by rw [storeX.length_rows, hempty])
  have hrows : trainX.rows = x.rows := by
    rw [hrX, hstored, List.nil_append]
    split
    · rfl
    next hzero =>
      have h0 : x.rows.length = 0 := by
        by_contra hne
        exact hzero ⟨hempty, Nat.pos_of_ne_zero hne⟩
      exact (List.eq_nil_of_length_eq_zero h0).symm
  cases hlog with
  | empty h0 =>
    have hnil : x.rows = [] := List.eq_nil_of_length_eq_zero h0
    obtain rfl := Outcome.pure_eq_ok.mp hyvar
    have hlen : trainX.nrows = 0 := by rw [← trainX.length_rows, hrows, hnil, List.length_nil]
    apply recorded_openIndexed _ _ ho
    · rw [hrows, hnil, List.map_nil]
    · refine ⟨⟨trainY.ncols, 0, [], by simp⟩, ?_, rfl, rfl⟩
      simp [yvarStore, MmapColumnStore.mmapOpenOrCreate, hlen, WorkDir.openNumObsCounter]
  | @rows yv hn =>
    obtain ⟨store, hstore, hfill⟩ := Outcome.bind_eq_ok.mp hyvar
    obtain ⟨hcols, hnrows, -⟩ := MmapColumnStore.mmapOpenOrCreate_eq_ok hstore
    have hnrows : store.nrows = 0 := hnrows
    have hnil : store.rows = [] :=
      List.eq_nil_of_length_eq_zero (by rw [store.length_rows, hnrows])
    rw [if_pos hnrows] at hfill
    cases happend : store.mmapAppend yv with
    | error e => simp [happend] at hfill
    | ok filled =>
      obtain rfl : some filled = trainYvar := by simpa [happend] using hfill
      obtain ⟨hcols', hrows'⟩ := MmapColumnStore.rows_of_mmapAppend happend
      apply recorded_openIndexed _ _ ho
      · rw [hrows, List.map_fst_zip (by exact hn.ge)]
      · refine ⟨filled, rfl, ?_, ?_⟩
        · rw [hcols', hcols, hopen.ncols_y]
        · rw [hrows', hnil, List.nil_append, List.map_snd_zip (by exact hn.le)]

/-- Reopening the directory of a backend. -/
theorem recorded_reopen (hb : b.Recorded log) (h : reopen env b.workDir = .ok b') :
    b'.Recorded log := by
  rw [reopen] at h
  split at h
  · cases h
  next m hm =>
    obtain ⟨-, hdim, hmetrics⟩ := hb.metadata m hm
    obtain ⟨trainX, trainY, trainYvar, hopen, hyvar, ho⟩ := new_eq_ok h
    obtain ⟨storeX, -, hX, -, hrX, -⟩ := hopen.rows
    have hdir : b.workDir.openNumObsCounter = b.workDir := by
      simp [WorkDir.openNumObsCounter, workDir, hb.numObs]
    have hload : b.workDir.loadNumObs = some b.len := hb.loadNumObs
    rw [hdir] at hX ho
    rw [hload] at hX
    have hstore : storeX = b.trainX := by
      have hsame := b.trainX.mmapOpenOrCreate_mmap
      rw [hb.widths.ncols_x, ← hdim] at hsame
      exact Except.ok.inj (hX.symm.trans hsame)
    have hrows : trainX.rows = b.trainX.rows := by
      rw [hrX, hstore]
      simp [Array2.empty, Array2.nrows]
    have hlen : trainX.nrows = b.len := by
      rw [← trainX.length_rows, hrows, b.trainX.length_rows, len]
    obtain rfl := Outcome.pure_eq_ok.mp hyvar
    obtain ⟨store, hopened, hcols, hlog⟩ := hb.yvar
    have hcolsY : trainY.ncols = b.numMetrics := hopen.ncols_y.trans hmetrics
    apply recorded_openIndexed _ _ ho
    · rw [hrows, hb.rows_x]
    · refine ⟨store, ?_, hcols.trans hcolsY.symm, hlog⟩
      have hnrows : store.nrows = b.len := by
        rw [← store.length_rows, hlog, List.length_map, ← List.length_map Prod.fst, ← hb.rows_x,
          b.trainX.length_rows, len]
      unfold openYvar yvarStore at hopened
      unfold yvarStore
      rw [hcolsY, hlen]
      cases hyvar : b.trainYvar with
      | none =>
        rw [hyvar, hb.loadNumObs] at hopened
        simpa [workDir, hyvar] using hopened
      | some s =>
        rw [hyvar] at hopened
        obtain rfl : s = store := Except.ok.inj hopened
        have hsame := s.mmapOpenOrCreate_mmap
        rw [hcols, hnrows] at hsame
        simpa [workDir, hyvar] using hsame

end Open

section Runs

variable [DecidableEq F]

/--
A run over an empty directory in which every append brings one row of variances for each row, and
the rows that it has stored with their variances. Appends may fail after they stored their rows.
-/
inductive Logged : BpannBackend D F → List (List D × List D) → Prop where
  | new {b : BpannBackend D F} {x y : Array2 D} {yvar : Option (Array2 D)}
      {log : List (List D × List D)} (env : Env F) (scaleX : Bool) (xScale : List D) :
      OpensLog x yvar log → BpannBackend.new env {} x y yvar scaleX xScale = .ok b → Logged b log
  | appendRows {b : BpannBackend D F} {log : List (List D × List D)} {x y yv : Array2 D}
      {trainX trainY : MmapColumnStore D} {trainYvar : Option (MmapColumnStore D)} (env : Env F) :
      Logged b log → Appended b x y (some yv) trainX trainY trainYvar → yv.nrows = x.nrows →
      Logged (BpannBackend.appendRows env x y (some yv) b).2 (logged log x yv)
  | ensureIndexSync {b : BpannBackend D F} {log : List (List D × List D)} (env : Env F) :
      Logged b log → Logged (BpannBackend.ensureIndexSync env b).2 log
  | markIndexStale {b : BpannBackend D F} {log : List (List D × List D)} :
      Logged b log → Logged b.markIndexStale log
  | ensureIndexSyncWithScale {b : BpannBackend D F} {log : List (List D × List D)} (env : Env F)
      (scaleX : Bool) (xScale : List D) : Logged b log →
      Logged (BpannBackend.ensureIndexSyncWithScale env scaleX xScale b).2 log
  | persistIndexToDisk {b b' : BpannBackend D F} {log : List (List D × List D)} (env : Env F) :
      Logged b log → (BpannBackend.persistIndexToDisk env).Returns b () b' → Logged b' log
  | softSync {b b' : BpannBackend D F} {log : List (List D × List D)}
      {built : IncrementalIndex D F} (env : Env F) : Logged b log →
      (softSyncBuild env).Returns b (some built) b' → Logged (b'.softSyncPublish built) log
  | reopen {b b' : BpannBackend D F} {log : List (List D × List D)} (env : Env F) :
      Logged b log → BpannBackend.reopen env b.workDir = .ok b' → Logged b' log

omit [DecidableEq F] in
theorem sameColumns_appendRows {yv : Array2 D} {trainX trainY : MmapColumnStore D}
    {trainYvar : Option (MmapColumnStore D)} (env : Env F)
    (ha : Appended b x y (some yv) trainX trainY trainYvar) :
    (b.afterAppend x trainX trainY trainYvar).SameColumns
      (appendRows env x y (some yv) b).2 := by
  rw [appendRows_of_appended env ha]
  split
  · exact sameColumns_ensureIndexSync env _
  · exact .refl _

theorem Logged.recorded (h : Logged b log) : b.Recorded log := by
  induction h with
  | new env scaleX xScale hlog h => exact recorded_new hlog h
  | appendRows env _ ha hn ih => exact (ih.afterAppend ha hn).congr (sameColumns_appendRows env ha)
  | ensureIndexSync env _ ih => exact ih.congr (sameColumns_ensureIndexSync env _)
  | markIndexStale _ ih => exact ih.congr (sameColumns_resetIndex _)
  | ensureIndexSyncWithScale env scaleX xScale _ ih =>
    exact (ih.congr (sameColumns_setScale _ scaleX xScale)).congr
      (sameColumns_ensureIndexSync env _)
  | persistIndexToDisk env _ h ih => exact ih.congr (sameColumns_persistIndexToDisk h)
  | softSync env _ h ih => exact ih.congr (sameColumns_softSync h)
  | reopen env _ h ih => exact recorded_reopen ih h

/--
A refused append changes nothing unless only its variances do not fit, and rows keep their own
variances exactly when every append brings one row of them for each row.
-/
theorem append_allOrNothing :
    (∀ (env : Env F) (b : BpannBackend D F) (x y : Array2 D) (yvar : Option (Array2 D)),
      b.StoreWidths →
        ((b.Refused x y yvar → b.SameData (appendRows env x y yvar b).2) ↔
          (0 < x.nrows → b.Accepted x y → b.YvarFits yvar))) ∧
    (∀ (env : Env F) (b b' : BpannBackend D F) (log : List (List D × List D)) (x y yv : Array2 D),
      Logged b log → 0 < x.nrows → (appendRows env x y (some yv)).Returns b () b' →
        (b'.YvarAligned (logged log x yv) ↔ yv.nrows = x.nrows)) := by
  constructor
  · exact fun env b x y yvar hw => sameData_of_refused_iff hw env
  · intro env b b' log x y yv hb hpos h
    obtain ⟨h0, -⟩ | ⟨trainX, trainY, trainYvar, ha, -⟩ := returns_appendRows h
    · omega
    · have hsame := sameColumns_appendRows env ha
      rw [show appendRows env x y (some yv) b = (.ok (), b') from h] at hsame
      rw [hsame.yvarAligned_iff, hb.recorded.yvarAligned_iff ha]

/-- A backend without rows refuses two values for one row, and stores a row with its variance. -/
theorem append_allOrNothing_one :
    ∃ b b' : BpannBackend ℚ ℚ,
      new defaultEnv {} (Array2.empty 1) (Array2.empty 1) none false [1] = .ok b ∧
        (b.Refused (.column [0]) (.column [0, 1]) none →
          b.SameData (appendRows defaultEnv (.column [0]) (.column [0, 1]) none b).2) ∧
        (appendRows defaultEnv (.column [0]) (.column [0]) (some (.column [1]))).Returns b () b' ∧
        b'.YvarAligned (logged [] (.column [0]) (.column [1])) := by
  have hall := append_allOrNothing (D := ℚ) (F := ℚ)
  refine ⟨_, _, rfl, ?_, rfl, ?_⟩
  · exact (hall.1 defaultEnv _ _ _ none ⟨rfl, rfl⟩).mpr fun _ _ => trivial
  · exact (hall.2 defaultEnv _ _ [] (.column [0]) (.column [0]) (.column [1])
      (.new (x := Array2.empty 1) (y := Array2.empty 1) defaultEnv false [1] (.empty rfl) rfl)
      (by decide) rfl).mpr rfl

/-- Two variances for one metric are refused when the row is already stored. -/
theorem not_sameData_refused :
    ∃ b : BpannBackend ℚ ℚ,
      new defaultEnv {} (Array2.empty 1) (Array2.empty 1) none false [1] = .ok b ∧
        b.Refused (.column [0]) (.column [0]) (some ⟨2, [[1, 1]], by simp⟩) ∧
        ¬ b.SameData
          (appendRows defaultEnv (.column [0]) (.column [0])
            (some ⟨2, [[1, 1]], by simp⟩) b).2 := by
  refine ⟨_, rfl, ⟨by decide, ?_⟩, ?_⟩
  · intro trainX trainY trainYvar ha
    have hv := ha.trainYvar_eq
    cases hv
  · intro h
    exact absurd h.len (by decide)

end Runs

end Recorded

end Ennbo.BpannBackend
