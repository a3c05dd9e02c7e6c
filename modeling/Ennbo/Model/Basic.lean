import Ennbo.Model.InMemory

/-! # The model

A model keeps its rows in memory or in a work directory, with the sums of their
columns and the scales that follow from them. The files of a disk model are
those of its backend. One thread uses the model, so a background flush is done
when it is scheduled, and its result is read by the call that waits for it.
-/

namespace Ennbo

variable {D F : Type}

def BpannError.toString : BpannError → String
  | .invalidShape expected got => s!"Invalid shape: expected {expected}, got {got}"
  | .invalidParameter message => s!"Invalid parameter: {message}"

section Disk

/-- A disk backend with the result of a flush that nobody has waited for. -/
structure DiskBackendHandle (D F : Type) where
  data : BpannBackend D F
  job : Option (Outcome Unit)
  lastError : Option String

namespace DiskBackendHandle

def new (inner : BpannBackend D F) : DiskBackendHandle D F := ⟨inner, none, none⟩

def onData {α : Type} (c : Call (BpannBackend D F) α) : Call (DiskBackendHandle D F) α :=
  c.on DiskBackendHandle.data fun h data => { h with data := data }

/-- Record the message and report it. -/
def failWith {α : Type} (message : String) : Call (DiskBackendHandle D F) α := do
  Call.modify fun h => { h with lastError := some message }
  Call.ofOutcome (throw (.error (.invalidParameter message)))

/-- An error that was left behind is reported once. -/
def takeLastError : Call (DiskBackendHandle D F) Unit := do
  let h ← Call.get
  match h.lastError with
  | none => return ()
  | some message => do
    Call.modify fun h => { h with lastError := none }
    Call.ofOutcome (throw (.error (.invalidParameter message)))

def waitForFlush : Call (DiskBackendHandle D F) Unit := do
  let h ← Call.get
  Call.modify fun h => { h with job := none }
  match h.job with
  | some (.error (.error e)) => failWith e.toString
  | some (.error .panic) => failWith "background soft sync panicked"
  | some (.error .diverge) => Call.ofOutcome (throw .diverge)
  | some (.ok ()) | none => takeLastError

variable [Floating D] [Floating F] [FloatCast D F]

/-- Build the missing part of the index and publish it. -/
def softSync (env : Env F) : Call (BpannBackend D F) Unit := do
  match ← BpannBackend.softSyncBuild env with
  | some built => Call.modify fun b => b.softSyncPublish built
  | none => return ()

def runJob (env : Env F) (h : DiskBackendHandle D F) : DiskBackendHandle D F :=
  { h with data := (softSync env h.data).2, job := some (softSync env h.data).1 }

def scheduleBackgroundFlush (env : Env F) : Call (DiskBackendHandle D F) Unit := do
  let h ← Call.get
  match h.lastError with
  | some message => Call.ofOutcome (throw (.error (.invalidParameter message)))
  | none =>
    if h.data.deferAppendIndexing ∧ h.data.pendingHardFlushThreshold ≤ h.data.pendingRows then do
      waitForFlush
      let h ← Call.get
      if h.data.pendingHardFlushThreshold ≤ h.data.pendingRows then onData (softSync env)
      else return ()
    else if h.job.isSome then return ()
    else if h.data.deferAppendIndexing ∧ h.data.pendingFlushThreshold ≤ h.data.pendingRows then
      Call.modify (runJob env)
    else return ()

def persistIndexToDisk [DecidableEq F] (env : Env F) : Call (DiskBackendHandle D F) Unit := do
  waitForFlush
  onData (BpannBackend.persistIndexToDisk env)

end DiskBackendHandle

namespace DiskBpannEnnBackend

variable [Floating D] [Floating F] [FloatCast D F]

def applyConfigFlushThreshold (env : Env F) (inner : BpannBackend D F) : BpannBackend D F :=
  (inner.withPendingFlushThreshold env.tuning.1.pendingFlushThreshold).withPendingHardFlushThreshold
    env.tuning.1.pendingHardFlushThreshold

def new (env : Env F) (workDir : WorkDir D F) (trainX trainY : Array2 D)
    (trainYvar : Option (Array2 D)) (scaleX : Bool) (xScale : List D) (driver : IndexDriver) :
    Outcome (BpannBackend D F) :=
  if driver ≠ .bpAnnDisk then
    throw (.error (.invalidParameter
      "DiskBpannEnnBackend requires IndexDriver::BpAnnDisk"))
  else do
    let inner ←
      if trainX.nrows = 0 ∧ trainY.nrows = 0 ∧ workDir.metadata.isSome then
        BpannBackend.reopen env workDir
      else BpannBackend.new env workDir trainX trainY trainYvar scaleX xScale
    return applyConfigFlushThreshold env inner

def newEmpty (env : Env F) (workDir : WorkDir D F) (numDim numMetrics : ℕ) :
    Outcome (BpannBackend D F) := do
  let inner ← BpannBackend.newEmpty env workDir numDim numMetrics
  return applyConfigFlushThreshold env inner

def newEmptyWithFlushThresholds (env : Env F) (workDir : WorkDir D F) (numDim numMetrics : ℕ)
    (soft hard : ℕ) : Outcome (BpannBackend D F) :=
  if soft = 0 then
    throw (.error (.invalidParameter "pending_flush_threshold must be >= 1"))
  else if hard = 0 then
    throw (.error (.invalidParameter "pending_hard_flush_threshold must be >= 1"))
  else if hard < soft then
    throw (.error (.invalidParameter
      "pending_hard_flush_threshold must be >= pending_flush_threshold"))
  else do
    let inner ← BpannBackend.newEmpty env workDir numDim numMetrics
    return ((inner.withPendingFlushThreshold soft).withPendingHardFlushThreshold
      hard).withDeferAppendIndexing true

def newEmptyWithFlushThreshold (env : Env F) (workDir : WorkDir D F) (numDim numMetrics : ℕ)
    (threshold : ℕ) : Outcome (BpannBackend D F) :=
  newEmptyWithFlushThresholds env workDir numDim numMetrics threshold
    (max env.tuning.1.pendingHardFlushThreshold threshold)

omit [Floating D] [Floating F] [FloatCast D F] in
def rowY (b : BpannBackend D F) (i : ℕ) : Outcome (List D) := do
  let y ← b.trainY.mmapRowSlice i
  match b.trainYvar with
  | none => return y
  | some store => do
    let _ ← store.mmapRowSlice i
    return y

omit [Floating D] [Floating F] [FloatCast D F] in
def rowYvar (b : BpannBackend D F) (i : ℕ) : Outcome (Option (List D)) := do
  let _ ← b.trainY.mmapRowSlice i
  match b.trainYvar with
  | none => return none
  | some store => some <$> store.mmapRowSlice i

end DiskBpannEnnBackend

end Disk

inductive EnnStorage where
  | inMemory
  | disk
  deriving DecidableEq, Repr

inductive EnnBackend (D F : Type) where
  | inMemory (b : InMemoryEnnBackend D F)
  | disk (handle : DiskBackendHandle D F)

namespace EnnBackend

/-- Run the call of the storage that is in use. -/
def dispatch {α : Type} (memory : Call (InMemoryEnnBackend D F) α)
    (disk : Call (DiskBackendHandle D F) α) : Call (EnnBackend D F) α
  | .inMemory b => ((memory b).1, .inMemory (memory b).2)
  | .disk h => ((disk h).1, .disk (disk h).2)

/-- Read from the storage that is in use. -/
def read {α : Type} (memory : InMemoryEnnBackend D F → α) (disk : BpannBackend D F → α) :
    EnnBackend D F → α
  | .inMemory b => memory b
  | .disk h => disk h.data

def len : EnnBackend D F → ℕ := read InMemoryEnnBackend.len BpannBackend.len

def numDim : EnnBackend D F → ℕ := read InMemoryEnnBackend.numDim BpannBackend.numDim

def numMetrics : EnnBackend D F → ℕ :=
  read InMemoryEnnBackend.numMetrics BpannBackend.numMetrics

def driver : EnnBackend D F → IndexDriver := read (fun b => b.index.driver) fun _ => .bpAnnDisk

def waitForFlush : Call (EnnBackend D F) Unit := dispatch (pure ()) DiskBackendHandle.waitForFlush

def deferIndexSyncForSearch : EnnBackend D F → Bool := read (fun _ => false) fun _ => true

def trainRowsAt (indices : List ℕ) : EnnBackend D F → Outcome (TrainRowsAt D) :=
  read (fun b => b.trainRowsAt indices) fun b => b.trainRowsAt indices

def rowX (i : ℕ) : EnnBackend D F → Outcome (List D) :=
  read (fun b => b.rowX i) fun b => b.trainX.mmapRowSlice i

def rowY (i : ℕ) : EnnBackend D F → Outcome (List D) :=
  read (fun b => b.rowY i) fun b => DiskBpannEnnBackend.rowY b i

def rowYvar (i : ℕ) : EnnBackend D F → Outcome (Option (List D)) :=
  read (fun b => b.rowYvar i) fun b => DiskBpannEnnBackend.rowYvar b i

variable [Floating D] [FloatCast D F]

def newInMemory (trainX trainY : Array2 D) (trainYvar : Option (Array2 D)) (scaleX : Bool)
    (xScale : List D) (driver : IndexDriver) : Outcome (EnnBackend D F) :=
  .inMemory <$> InMemoryEnnBackend.new trainX trainY trainYvar scaleX xScale driver

variable [Floating F]

def newDisk (env : Env F) (workDir : WorkDir D F) (trainX trainY : Array2 D)
    (trainYvar : Option (Array2 D)) (scaleX : Bool) (xScale : List D) (driver : IndexDriver) :
    Outcome (EnnBackend D F) :=
  if driver ≠ .bpAnnDisk then
    throw (.error (.invalidParameter "Disk storage requires IndexDriver::BpAnnDisk"))
  else do
    let inner ←
      DiskBpannEnnBackend.new env workDir trainX trainY trainYvar scaleX xScale driver
    return .disk (.new inner)

def newEmpty (env : Env F) (numDim numMetrics : ℕ) (driver : IndexDriver) (storage : EnnStorage)
    (workDir : Option (WorkDir D F)) (pendingFlushThreshold : Option ℕ) :
    Outcome (EnnBackend D F) :=
  match storage, workDir with
  | .inMemory, _ => .inMemory <$> InMemoryEnnBackend.newEmpty numDim numMetrics driver
  | .disk, none =>
    throw (.error (.invalidParameter "Disk storage requires work_dir or ENNX_WORK_DIR"))
  | .disk, some dir =>
    if driver ≠ .bpAnnDisk then
      throw (.error (.invalidParameter "Disk storage requires IndexDriver::BpAnnDisk"))
    else do
      let inner ←
        match pendingFlushThreshold with
        | some threshold =>
          DiskBpannEnnBackend.newEmptyWithFlushThreshold env dir numDim numMetrics threshold
        | none => DiskBpannEnnBackend.newEmpty env dir numDim numMetrics
      return .disk (.new inner)

def scheduleBackgroundFlush (env : Env F) : Call (EnnBackend D F) Unit :=
  dispatch (pure ()) (DiskBackendHandle.scheduleBackgroundFlush env)

def markIndexStale : Call (EnnBackend D F) Unit :=
  dispatch (Call.modify InMemoryEnnBackend.markIndexStale)
    (DiskBackendHandle.onData (Call.modify BpannBackend.markIndexStale))

def appendRows (env : Env F) (x y : Array2 D) (yvar : Option (Array2 D)) :
    Call (EnnBackend D F) Unit :=
  dispatch (InMemoryEnnBackend.appendRows x y yvar)
    (DiskBackendHandle.onData (BpannBackend.appendRows env x y yvar))

def ensureIndexSync (env : Env F) (scaleX : Bool) (xScale : List D) :
    Call (EnnBackend D F) Unit := do
  waitForFlush
  dispatch (InMemoryEnnBackend.ensureIndexSync scaleX xScale)
    (DiskBackendHandle.onData (BpannBackend.ensureIndexSyncWithScale env scaleX xScale))

/-- `persist_enn_backend_index`, which is also what dropping a backend does. -/
def persistIndex [DecidableEq F] (env : Env F) : Call (EnnBackend D F) Unit :=
  dispatch (pure ()) (DiskBackendHandle.persistIndexToDisk env)

end EnnBackend

structure EpistemicNearestNeighbors (D F : Type) where
  backend : EnnBackend D F
  numObs : ℕ
  numDim : ℕ
  numMetrics : ℕ
  scaleX : Bool
  xScale : List D
  yScale : List D
  yBounds : Array2 D
  boundedOutputs : Bool
  ySum : List D
  ySumsq : List D
  xSum : List D
  xSumsq : List D
  /-- The directory of a model in memory. -/
  workDir : Option (WorkDir D F)

/-- The work directory is the one that is given or, without one, that of the environment. -/
structure ModelOptions (D F : Type) where
  scaleX : Bool := false
  driver : IndexDriver := .exact
  storage : EnnStorage := .inMemory
  workDir : Option (WorkDir D F) := none
  yBounds : Option (Array2 D) := none

section Moments

variable [Floating D]

def addRow (sums : List D × List D) (row : List D) : List D × List D :=
  (addInto sums.1 row, addInto sums.2 (row.map fun v => v * v))

def accumulateColumns (sum sumsq : List D) (extra : Array2 D) : List D × List D :=
  extra.rows.foldl addRow (sum, sumsq)

/-- Indexing the sums behind their last column panics. -/
def fitsColumns (sum : List D) (extra : Array2 D) : Outcome Unit :=
  if sum.length < extra.ncols then throw .panic else pure ()

def columnSumsAndSumsq (a : Array2 D) : List D × List D :=
  accumulateColumns (List.replicate a.ncols 0) (List.replicate a.ncols 0) a

theorem accumulateColumns_append (sum sumsq : List D) {a b c : Array2 D}
    (h : c.rows = a.rows ++ b.rows) :
    accumulateColumns sum sumsq c =
      accumulateColumns (accumulateColumns sum sumsq a).1 (accumulateColumns sum sumsq a).2 b := by
  unfold accumulateColumns
  rw [h, List.foldl_append]

variable [Analysis D]

def scaleFromMoments (n ncol : ℕ) (sum sumsq : List D) (minStd : D) : List D :=
  if n < 2 then List.replicate ncol 1
  else
    (List.range ncol).map fun j =>
      let mean := sum.getD j 0 / (n : D)
      let var := max (sumsq.getD j 0 / (n : D) - mean * mean) 0
      let std := sqrt var
      if isFinite std && ltB minStd std then std else 1

@[simp] theorem length_scaleFromMoments (n ncol : ℕ) (sum sumsq : List D) (minStd : D) :
    (scaleFromMoments n ncol sum sumsq minStd).length = ncol := by
  unfold scaleFromMoments
  split <;> simp

end Moments

namespace EpistemicNearestNeighbors

/-- Run a call on the backend. -/
def onBackend {α : Type} (c : Call (EnnBackend D F) α) :
    Call (EpistemicNearestNeighbors D F) α :=
  c.on EpistemicNearestNeighbors.backend fun m backend => { m with backend := backend }

/-- Change the files of the work directory, when there is one. -/
def modifyDir (f : WorkDir D F → WorkDir D F) (m : EpistemicNearestNeighbors D F) :
    EpistemicNearestNeighbors D F :=
  match m.backend with
  | .inMemory _ => { m with workDir := m.workDir.map f }
  | .disk h => { m with backend := .disk { h with data := { h.data with dir := f h.data.dir } } }

def persistYBoundsMetadata (m : EpistemicNearestNeighbors D F) : EpistemicNearestNeighbors D F :=
  m.modifyDir (YBounds.persistBoundsMetadata m.yBounds)

/-- `row_yvar(0).ok().flatten()` -/
def firstYvar (m : EpistemicNearestNeighbors D F) : Outcome (Option (List D)) :=
  match m.backend.rowYvar 0 with
  | .error (.error _) => pure none
  | o => o

def hasYvar (m : EpistemicNearestNeighbors D F) : Outcome Bool :=
  if 0 < m.numObs then Option.isSome <$> m.firstYvar else pure false

def len (m : EpistemicNearestNeighbors D F) : ℕ := m.numObs

def validateShapes (trainX trainY : Array2 D) (trainYvar : Option (Array2 D)) : Outcome Unit :=
  if trainX.nrows ≠ trainY.nrows then
    throw (.error (.invalidShape [trainY.nrows, trainX.ncols] trainX.shape))
  else
    match trainYvar with
    | some yvar =>
      if yvar.shape ≠ trainY.shape then throw (.error (.invalidShape trainY.shape yvar.shape))
      else pure ()
    | none => pure ()

def validateAdd (m : EpistemicNearestNeighbors D F) (x y : Array2 D) (yvar : Option (Array2 D)) :
    Outcome Unit := do
  if x.nrows ≠ y.nrows ∨ x.ncols ≠ m.numDim ∨ y.ncols ≠ m.numMetrics then
    throw (.error (.invalidShape [y.nrows, m.numMetrics] x.shape))
  else
    let stored ← Option.isSome <$> m.firstYvar
    match yvar with
    | some yv =>
      if yv.shape ≠ y.shape then throw (.error (.invalidShape y.shape yv.shape))
      else if !stored ∧ 0 < m.numObs then
        throw (.error (.invalidParameter "yvar provided but model has no existing yvar"))
      else pure ()
    | none =>
      if stored ∧ 0 < m.numObs then
        throw (.error (.invalidParameter "yvar must be provided if model has existing yvar"))
      else pure ()

variable [Floating D] [Analysis D]

def X_MIN_STD : D := literal 1 12

/-- The fields that the constructor takes from its rows. -/
def initStats (m : EpistemicNearestNeighbors D F) (trainX trainY : Array2 D) :
    EpistemicNearestNeighbors D F :=
  let ySums := columnSumsAndSumsq trainY
  let xSums :=
    if m.scaleX then columnSumsAndSumsq trainX
    else (List.replicate trainX.ncols 0, List.replicate trainX.ncols 0)
  { m with
    yScale := scaleFromMoments trainX.nrows trainY.ncols ySums.1 ySums.2 0
    ySum := ySums.1
    ySumsq := ySums.2
    xScale :=
      if m.scaleX then scaleFromMoments trainX.nrows trainX.ncols xSums.1 xSums.2 X_MIN_STD
      else List.replicate trainX.ncols 1
    xSum := xSums.1
    xSumsq := xSums.2 }

/-- The bounds in force: what is requested, what is stored, or none. -/
def chooseBounds (requested stored : Option (Array2 D)) (metrics : ℕ) : Outcome (Array2 D) :=
  match requested, stored with
  | some requested, some stored =>
    if !matrixEq requested stored then
      throw (.error (.invalidParameter "requested y_bounds do not match persisted y_bounds"))
    else pure requested
  | some requested, none => pure requested
  | none, some stored => pure stored
  | none, none => pure (YBounds.unboundedBounds metrics)

/-- `load_bounds_metadata(..).ok().flatten()` -/
def persistedBounds (workDir : Option (WorkDir D F)) (metrics : ℕ) : Option (Array2 D) :=
  workDir.bind fun dir =>
    match YBounds.loadBoundsMetadata dir metrics with
    | .ok stored => stored
    | .error _ => none

/-- Outputs and variances as they are stored. -/
def warp (bounds y : Array2 D) (yvar : Option (Array2 D)) :
    Outcome (Array2 D × Option (Array2 D)) :=
  if YBounds.isIdentityBounds bounds then pure (y, yvar)
  else do
    let warpedY ← YBounds.warpY y bounds
    match yvar with
    | some yv => return (warpedY, some (← YBounds.warpYvar y yv bounds))
    | none => return (warpedY, none)

def rowsMatrix (ncols : ℕ) (rows : List (List D)) : Outcome (Array2 D) :=
  if h : ∀ row ∈ rows, row.length = ncols then pure ⟨ncols, rows, h⟩ else throw .panic

/-- Stored variances on the scale of the outputs. -/
def naturalizeRows (bounds y : Array2 D) (yvar : Option (List (List D))) :
    Outcome (Option (List (List D))) :=
  match yvar with
  | none => pure none
  | some rows => do
    let zvar ← rowsMatrix y.ncols rows
    if h : y.ncols = zvar.ncols then
      return some (YBounds.naturalizeYvar y zvar bounds h).rows
    else throw .panic

/-- The rows at these indices, with the outputs on their own scale. -/
def naturalRows (m : EpistemicNearestNeighbors D F) (indices : List ℕ) : Outcome (TrainRowsAt D) := do
  let rows ← m.backend.trainRowsAt indices
  if !m.boundedOutputs then return rows
  else
    let z ← rowsMatrix m.numMetrics rows.y
    let yvar ← naturalizeRows m.yBounds z rows.yvar
    return { rows with y := (YBounds.invY z m.yBounds).rows, yvar := yvar }

variable [Floating F] [FloatCast D F]

/-- Take the statistics from the rows that the backend holds. -/
def syncObsStatsFromBackend (env : Env F) : Call (EpistemicNearestNeighbors D F) Unit := do
  Call.modify fun m =>
    { m with
      numDim := m.backend.numDim
      numMetrics := m.backend.numMetrics
      numObs := m.backend.len }
  let m ← Call.get
  if m.numObs = 0 then return ()
  else
    let rows ← Call.ofOutcome (m.backend.trainRowsAt (List.range m.numObs))
    let x ← Call.ofOutcome (rowsMatrix m.numDim rows.x)
    let y ← Call.ofOutcome (rowsMatrix m.numMetrics rows.y)
    Call.modify fun m =>
      let ySums := columnSumsAndSumsq y
      { m with
        ySum := ySums.1
        ySumsq := ySums.2
        yScale := scaleFromMoments m.numObs m.numMetrics ySums.1 ySums.2 0 }
    if m.scaleX then
      Call.modify fun m =>
        let xSums := columnSumsAndSumsq x
        { m with
          xSum := xSums.1
          xSumsq := xSums.2
          xScale := scaleFromMoments m.numObs m.numDim xSums.1 xSums.2 X_MIN_STD }
    else pure ()
    let m ← Call.get
    onBackend (EnnBackend.ensureIndexSync env m.scaleX m.xScale)

/-- The backend of a new model. -/
def openBackend (env : Env F) (options : ModelOptions D F) (trainX trainY : Array2 D)
    (trainYvar : Option (Array2 D)) (xScale : List D) : Outcome (EnnBackend D F) :=
  match options.storage with
  | .inMemory =>
    EnnBackend.newInMemory trainX trainY trainYvar options.scaleX xScale options.driver
  | .disk =>
    if !isDiskIndexDriver options.driver then
      throw (.error (.invalidParameter "Disk storage requires IndexDriver::BpAnnDisk"))
    else
      match options.workDir with
      | none =>
        throw (.error (.invalidParameter "Disk storage requires work_dir or ENNX_WORK_DIR"))
      | some dir =>
        EnnBackend.newDisk env dir trainX trainY trainYvar options.scaleX xScale options.driver

/-- The model as it is put together, before its statistics are compared with the backend. -/
def assemble (backend : EnnBackend D F) (options : ModelOptions D F) (bounds trainX trainY : Array2 D) :
    EpistemicNearestNeighbors D F :=
  initStats
    { backend := backend
      numObs := trainX.nrows
      numDim := trainX.ncols
      numMetrics := trainY.ncols
      scaleX := options.scaleX
      xScale := []
      yScale := []
      yBounds := bounds
      boundedOutputs := !YBounds.isIdentityBounds bounds
      ySum := []
      ySumsq := []
      xSum := []
      xSumsq := []
      workDir := if options.storage = .inMemory then options.workDir else none }
    trainX trainY

/-- The scale that the constructor gives to its backend. -/
def initialXScale (scaleX : Bool) (trainX : Array2 D) : List D :=
  if scaleX then
    let xSums := columnSumsAndSumsq trainX
    scaleFromMoments trainX.nrows trainX.ncols xSums.1 xSums.2 X_MIN_STD
  else List.replicate trainX.ncols 1

/-- Whether the constructor opens what an earlier session stored. -/
def diskReopen (options : ModelOptions D F) (trainX trainY : Array2 D) : Bool :=
  options.storage = .disk && trainX.nrows = 0 && trainY.nrows = 0 &&
    (options.workDir.any fun dir => dir.metadata.isSome)

def newWithOptions (env : Env F) (trainX trainY : Array2 D) (trainYvar : Option (Array2 D))
    (options : ModelOptions D F) : Outcome (EpistemicNearestNeighbors D F) := do
  validateShapes trainX trainY trainYvar
  let bounds ←
    chooseBounds options.yBounds (persistedBounds options.workDir trainY.ncols) trainY.ncols
  YBounds.validateBounds bounds trainY.ncols
  let (warpedY, warpedYvar) ← warp bounds trainY trainYvar
  if options.scaleX && isDiskIndexDriver options.driver then
    throw (.error (.invalidParameter "scale_x=True is not compatible with BPANN_DISK"))
  else
    let backend ←
      openBackend env options trainX warpedY warpedYvar (initialXScale options.scaleX trainX)
    let m := assemble backend options bounds trainX warpedY
    let m ←
      if diskReopen options trainX warpedY ∨ m.numObs ≠ m.backend.len then
        (syncObsStatsFromBackend env).exec m
      else pure m
    return m.persistYBoundsMetadata

def newEmpty (env : Env F) (numDim numMetrics : ℕ) (driver : IndexDriver) (storage : EnnStorage)
    (workDir : Option (WorkDir D F)) (pendingFlushThreshold : Option ℕ) :
    Outcome (EpistemicNearestNeighbors D F) := do
  let backend ←
    EnnBackend.newEmpty env numDim numMetrics driver storage workDir pendingFlushThreshold
  return {
    backend := backend
    numObs := 0
    numDim := numDim
    numMetrics := numMetrics
    scaleX := false
    xScale := List.replicate numDim 1
    yScale := List.replicate numMetrics 1
    yBounds := YBounds.unboundedBounds numMetrics
    boundedOutputs := false
    ySum := List.replicate numMetrics 0
    ySumsq := List.replicate numMetrics 0
    xSum := List.replicate numDim 0
    xSumsq := List.replicate numDim 0
    workDir := if storage = .inMemory then workDir else none }

omit [Floating F] [FloatCast D F] in
/-- What an add records once the backend holds the rows. -/
def noteY (y : Array2 D) (m : EpistemicNearestNeighbors D F) : EpistemicNearestNeighbors D F :=
  let ySums := accumulateColumns m.ySum m.ySumsq y
  { m with
    ySum := ySums.1
    ySumsq := ySums.2
    yScale := scaleFromMoments m.backend.len m.numMetrics ySums.1 ySums.2 0 }

omit [Floating F] [FloatCast D F] in
def noteX (x : Array2 D) (m : EpistemicNearestNeighbors D F) : EpistemicNearestNeighbors D F :=
  let xSums := accumulateColumns m.xSum m.xSumsq x
  { m with
    xSum := xSums.1
    xSumsq := xSums.2
    xScale := scaleFromMoments m.backend.len m.numDim xSums.1 xSums.2 X_MIN_STD }

/-- Outputs as `add` stores them; the flag of the model decides whether they are warped. -/
def warpAdded (m : EpistemicNearestNeighbors D F) (y : Array2 D) (yvar : Option (Array2 D)) :
    Outcome (Array2 D × Option (Array2 D)) :=
  if !m.boundedOutputs then pure (y, yvar)
  else do
    let warpedY ← YBounds.warpY y m.yBounds
    match yvar with
    | some yv => return (warpedY, some (← YBounds.warpYvar y yv m.yBounds))
    | none => return (warpedY, none)

def add (env : Env F) (x y : Array2 D) (yvar : Option (Array2 D)) :
    Call (EpistemicNearestNeighbors D F) Unit := do
  let m ← Call.get
  Call.ofOutcome (m.validateAdd x y yvar)
  if 0 < x.nrows then
    onBackend EnnBackend.waitForFlush
    let (storedY, storedYvar) ← Call.ofOutcome (m.warpAdded y yvar)
    onBackend (EnnBackend.appendRows env x storedY storedYvar)
    Call.ofOutcome (fitsColumns m.ySum storedY)
    Call.modify (noteY storedY)
    if m.scaleX then
      Call.ofOutcome (fitsColumns m.xSum x)
      Call.modify (noteX x)
      onBackend EnnBackend.markIndexStale
    else pure ()
    Call.modify fun m => { m with numObs := m.backend.len }
  else return ()

def scheduleBackgroundFlush (env : Env F) : Call (EpistemicNearestNeighbors D F) Unit :=
  onBackend (EnnBackend.scheduleBackgroundFlush env)

section Persist

variable [DecidableEq F]

def persistIndexToDisk (env : Env F) : Call (EpistemicNearestNeighbors D F) Unit := do
  onBackend (EnnBackend.persistIndex env)
  Call.modify persistYBoundsMetadata

/-- What dropping the model leaves in its directory; a failed persist is only printed. -/
def drop (env : Env F) (m : EpistemicNearestNeighbors D F) : Option (WorkDir D F) :=
  match (EnnBackend.persistIndex env m.backend).2 with
  | .inMemory _ => m.workDir
  | .disk h => some h.data.workDir

end Persist

end EpistemicNearestNeighbors

end Ennbo
