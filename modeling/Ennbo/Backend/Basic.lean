import Ennbo.Index.Sync

/-! # The backend

A backend owns the column stores, the incremental index, the counters and the
resident cache of a work directory. Opening a directory reads what an earlier
backend left there. Touching fresh pages and remapping files change nothing a
reader can see and are left out.
-/

namespace Ennbo

def DEFAULT_PENDING_FLUSH_THRESHOLD : ℕ := 250
def DEFAULT_PENDING_HARD_FLUSH_THRESHOLD : ℕ := 3000

structure BpannBackend (D F : Type) where
  dir : WorkDir D F
  trainX : MmapColumnStore D
  trainY : MmapColumnStore D
  trainYvar : Option (MmapColumnStore D)
  numDim : ℕ
  numMetrics : ℕ
  scaleX : Bool
  xScale : List D
  index : IncrementalIndex D F
  pendingFlushThreshold : ℕ
  pendingHardFlushThreshold : ℕ
  deferAppendIndexing : Bool
  pendingUnindexed : ℕ
  indexDirty : Bool
  smallNXCache : Option (ℕ × List F)

namespace BpannBackend

variable {D F : Type}

def len (b : BpannBackend D F) : ℕ := b.trainX.nrows

def pendingRows (b : BpannBackend D F) : ℕ := b.pendingUnindexed

def indexedRows (b : BpannBackend D F) : ℕ := b.index.indexedRows

/-- The files as another process would find them: the mapped files hold what was written. -/
def workDir (b : BpannBackend D F) : WorkDir D F :=
  { b.dir with
    trainX := some b.trainX.mmap
    trainY := some b.trainY.mmap
    trainYvar :=
      match b.trainYvar with
      | some store => some store.mmap
      | none => b.dir.trainYvar }

/-- What the index builders read. -/
def context (b : BpannBackend D F) : IndexBuildContext D where
  trainX := b.trainX
  numDim := b.numDim
  scaleX := b.scaleX
  xScale := b.xScale
  numMetrics := b.numMetrics

def onIndex {α : Type} (c : Call (IndexState D F) α) : Call (BpannBackend D F) α :=
  c.on (fun b => ⟨b.index, b.dir⟩) fun b s => { b with index := s.index, dir := s.dir }

variable [Floating D] [Floating F] [FloatCast D F]

/-- `a == b` on floats. -/
def eqB (a b : D) : Bool := partialCmp a b == some .eq

/-- `a == b` on one-dimensional arrays. -/
def arrayEq (a b : List D) : Bool :=
  a.length == b.length && (a.zip b).all fun p => eqB p.1 p.2

def openIndex (env : Env F) (stored : BpannIndex F) : BpannIndex F :=
  { stored with skipEdges := env.order stored.skipEdges }

def openedRows (dir : WorkDir D F) (n : ℕ) : ℕ := min (dir.loadIndexedRows.getD 0) n

/-- The fragments that opening finds. -/
def openedIndices (env : Env F) (dir : WorkDir D F) (indexedRows : ℕ) : List (BpannIndex F) :=
  match dir.index with
  | some stored => if 0 < indexedRows then [openIndex env stored] else []
  | none => []

def persistedRows (indices : List (BpannIndex F)) : ℕ :=
  (indices.head?.map fun idx => idx.header.indexedRows).getD 0

/-- The backend before the index catches up with the recorded row count. -/
def opened (env : Env F) (dir : WorkDir D F) (trainX trainY : MmapColumnStore D)
    (trainYvar : Option (MmapColumnStore D)) (scaleX : Bool) (xScale : List D) :
    BpannBackend D F :=
  let indexedRows := openedRows dir trainX.nrows
  let indices := openedIndices env dir indexedRows
  { dir := dir
    trainX := trainX
    trainY := trainY
    trainYvar := trainYvar
    numDim := trainX.ncols
    numMetrics := trainY.ncols
    scaleX := scaleX
    xScale := xScale
    index := { indices := indices, indexedRows := min (persistedRows indices) indexedRows }
    pendingFlushThreshold := DEFAULT_PENDING_FLUSH_THRESHOLD
    pendingHardFlushThreshold := DEFAULT_PENDING_HARD_FLUSH_THRESHOLD
    deferAppendIndexing := true
    pendingUnindexed := trainX.nrows - indexedRows
    indexDirty := indexedRows < trainX.nrows
    smallNXCache := none }

/-- What opening records last. -/
def finishOpen (indexedRows : ℕ) (b : BpannBackend D F) : BpannBackend D F :=
  { b with
    pendingUnindexed := b.len - indexedRows
    index := { b.index with indexedRows := indexedRows }
    dir :=
      (b.dir.writeMetadata b.len b.numDim b.numMetrics b.scaleX indexedRows).setNumObs b.len }

/-- The rest of the constructor, once the stores are open. -/
def openIndexed (env : Env F) (dir : WorkDir D F) (trainX trainY : MmapColumnStore D)
    (trainYvar : Option (MmapColumnStore D)) (scaleX : Bool) (xScale : List D) :
    Outcome (BpannBackend D F) := do
  let indexedRows := openedRows dir trainX.nrows
  let b := opened env dir trainX trainY trainYvar scaleX xScale
  let b ←
    if persistedRows b.index.indices < indexedRows then
      (onIndex (IndexState.ensureSync env b.context indexedRows)).exec b
    else pure b
  return finishOpen indexedRows b

/-- Put the rows of the constructor into a store. -/
def fillStore (fill : Bool) (s : MmapColumnStore D) (a : Array2 D) :
    Outcome (MmapColumnStore D) :=
  if fill then s.mmapAppend a else pure s

def growFresh (fresh : Bool) (s : MmapColumnStore D) : MmapColumnStore D :=
  if fresh then s.ensureCapacity MMAP_GROW_ROWS else s

def new (env : Env F) (dir : WorkDir D F) (trainX trainY : Array2 D)
    (trainYvar : Option (Array2 D)) (scaleX : Bool) (xScale : List D) :
    Outcome (BpannBackend D F) := do
  bpannValidateDimLimits trainX.ncols
  dir.validateIndexBackend INDEX_BACKEND
  let dir := dir.openNumObsCounter
  let knownNrows := dir.loadNumObs
  let storeX ← MmapColumnStore.mmapOpenOrCreate dir.trainX trainX.ncols knownNrows
  let storeY ← MmapColumnStore.mmapOpenOrCreate dir.trainY trainY.ncols knownNrows
  let fill := storeX.nrows = 0 && 0 < trainX.nrows
  let storeX' ← fillStore fill storeX trainX
  let storeY' ← fillStore fill storeY trainY
  let fresh := storeX'.nrows = 0
  let storeYvar ← bpannOpenOrAppendYvar dir trainY.ncols trainYvar
  openIndexed env dir (growFresh fresh storeX') (growFresh fresh storeY') storeYvar scaleX xScale

def newEmpty (env : Env F) (dir : WorkDir D F) (numDim numMetrics : ℕ) :
    Outcome (BpannBackend D F) :=
  new env dir (Array2.empty numDim) (Array2.empty numMetrics) none false
    (List.replicate numDim 1)

def reopen (env : Env F) (dir : WorkDir D F) : Outcome (BpannBackend D F) :=
  match dir.metadata with
  | none => throw (.error (.invalidParameter "No such file or directory (os error 2)"))
  | some m =>
    new env dir (Array2.empty m.numDim) (Array2.empty m.numMetrics) none m.scaleX
      (List.replicate m.numDim 1)

section Thresholds

omit [Floating D] [Floating F] [FloatCast D F]

def withDeferAppendIndexing (b : BpannBackend D F) (defer : Bool) : BpannBackend D F :=
  { b with deferAppendIndexing := defer }

def withPendingFlushThreshold (b : BpannBackend D F) (threshold : ℕ) : BpannBackend D F :=
  { b with
    pendingFlushThreshold := threshold
    pendingHardFlushThreshold :=
      if b.pendingHardFlushThreshold < threshold then threshold
      else b.pendingHardFlushThreshold }

def withPendingHardFlushThreshold (b : BpannBackend D F) (threshold : ℕ) : BpannBackend D F :=
  { b with pendingHardFlushThreshold := max threshold b.pendingFlushThreshold }

def reconfigureFlushThresholds (b : BpannBackend D F) (soft hard : ℕ) : BpannBackend D F :=
  { b with
    pendingFlushThreshold := max soft 1
    pendingHardFlushThreshold := max hard (max soft 1) }

end Thresholds

def resetIndex (b : BpannBackend D F) : BpannBackend D F :=
  { b with index := b.index.reset, pendingUnindexed := b.len, indexDirty := true }

def markIndexStale (b : BpannBackend D F) : BpannBackend D F := b.resetIndex

def clearPending (b : BpannBackend D F) : BpannBackend D F := { b with pendingUnindexed := 0 }

def ensureIndexSync (env : Env F) : Call (BpannBackend D F) Unit := do
  let b ← Call.get
  if b.len ≤ b.index.indexedRows then Call.modify clearPending
  else
    onIndex (IndexState.ensureSync env b.context b.len)
    Call.modify clearPending

/-- The first half of `ensure_index_sync_with_scale`: take over a scale that differs. -/
def setScale (b : BpannBackend D F) (scaleX : Bool) (xScale : List D) : BpannBackend D F :=
  if b.scaleX ≠ scaleX ∨ !arrayEq b.xScale xScale then
    resetIndex { b with scaleX := scaleX, xScale := xScale }
  else b

def ensureIndexSyncWithScale (env : Env F) (scaleX : Bool) (xScale : List D) :
    Call (BpannBackend D F) Unit := do
  Call.modify fun b => b.setScale scaleX xScale
  ensureIndexSync env

/-- What an append records once the stores hold the rows. -/
def noteAppended (b : BpannBackend D F) (x : Array2 D) : BpannBackend D F :=
  { b with
    index := b.index.notePendingRows x b.scaleX b.xScale
    pendingUnindexed := b.pendingUnindexed + x.nrows
    indexDirty := true
    smallNXCache := none
    dir := b.dir.setNumObs b.len }

/-- The index is brought up to date at the hard threshold, or at the soft one without deferral. -/
def flushDue (b : BpannBackend D F) : Bool :=
  b.pendingHardFlushThreshold ≤ b.pendingRows ||
    (!b.deferAppendIndexing && b.pendingFlushThreshold ≤ b.pendingRows)

def appendRows (env : Env F) (x y : Array2 D) (yvar : Option (Array2 D)) :
    Call (BpannBackend D F) Unit := do
  let b ← Call.get
  if x.nrows = 0 then return ()
  else if x.ncols ≠ b.numDim ∨ y.ncols ≠ b.numMetrics ∨ x.nrows ≠ y.nrows then
    Call.ofOutcome (throw (.error (.invalidShape [x.nrows, b.numDim] [x.nrows, x.ncols])))
  else
    Call.ofOutcome (bpannCheckAppendRowLimit (b.len + x.nrows))
    let trainX ← Call.ofOutcome (b.trainX.mmapAppend x)
    Call.modify fun b => { b with trainX := trainX }
    let trainY ← Call.ofOutcome (b.trainY.mmapAppend y)
    Call.modify fun b => { b with trainY := trainY }
    let trainYvar ←
      Call.ofOutcome (bpannAppendYvarOnAdd b.dir b.numMetrics b.trainYvar yvar)
    Call.modify fun b => { b with trainYvar := trainYvar }
    Call.modify fun b => b.noteAppended x
    let b ← Call.get
    if b.flushDue then ensureIndexSync env else return ()

section Persist

variable [DecidableEq F]

def markPersisted (b : BpannBackend D F) : BpannBackend D F :=
  { b with pendingUnindexed := 0, indexDirty := false }

def needsDiskRewrite (b : BpannBackend D F) : Bool :=
  IndexState.needsDiskRewrite ⟨b.index, b.dir⟩ b.indexDirty b.trainX.nrows

def persistIndexToDisk (env : Env F) : Call (BpannBackend D F) Unit := do
  let b ← Call.get
  if b.needsDiskRewrite then
    onIndex (IndexState.persistToDisk env b.context)
    Call.modify markPersisted
  else Call.modify markPersisted

end Persist

/-- Build on a copy of the index; only the files change. -/
def softSyncBuild (env : Env F) : Call (BpannBackend D F) (Option (IncrementalIndex D F)) := do
  let b ← Call.get
  if b.len ≤ b.index.indexedRows then return none
  else
    (do
      IndexState.ensureSync env b.context b.len
      let s ← Call.get
      return some s.index : Call (IndexState D F) _).on
        (fun b => ⟨b.index, b.dir⟩) fun b s => { b with dir := s.dir }

def softSyncPublish (b : BpannBackend D F) (built : IncrementalIndex D F) : BpannBackend D F :=
  { b with index := built, pendingUnindexed := 0 }

def trainRowsAt (b : BpannBackend D F) (indices : List ℕ) : Outcome (TrainRowsAt D) :=
  bpannTrainRowsAt b.len b.trainX b.trainY b.trainYvar indices

end BpannBackend

end Ennbo
