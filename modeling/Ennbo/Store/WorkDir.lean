import Ennbo.Call
import Ennbo.Index.Build
import Ennbo.Store.Mmap

/-! # The work directory

The files that a backend leaves behind: metadata, two sidecar counters, three
column files and the index. Each file is given by what its readers parse out of
it, so a counter is a number and the metadata is a record.
-/

namespace Ennbo

def MAX_NUM_DIM : ℕ := 100000
def MAX_RECORD_STRIDE : ℕ := 8 * 1024 * 1024
def INDEX_BACKEND : String := "bpann_disk"
def U32_MAX : ℕ := 2 ^ 32 - 1

/-- The fields of `metadata.json`. The output bounds are spliced in by the model layer. -/
structure Metadata (D : Type) where
  numObs : ℕ
  numDim : ℕ
  numMetrics : ℕ
  scaleX : Bool
  indexBackend : String
  indexedRows : ℕ
  yBounds : Option (Array2 D)
  deriving DecidableEq

structure WorkDir (D F : Type) where
  metadata : Option (Metadata D) := none
  numObs : Option ℕ := none
  indexedRows : Option ℕ := none
  trainX : Option (List D) := none
  trainY : Option (List D) := none
  trainYvar : Option (List D) := none
  index : Option (BpannIndex F) := none
  deriving DecidableEq

def bpannValidateDimLimits (numDim : ℕ) : Outcome Unit :=
  if MAX_NUM_DIM < numDim then
    throw (.error (.invalidParameter s!"num_dim {numDim} exceeds maximum {MAX_NUM_DIM}"))
  else if MAX_RECORD_STRIDE < numDim * 8 then
    throw (.error (.invalidParameter
      s!"record_stride {numDim * 8} exceeds maximum {MAX_RECORD_STRIDE}"))
  else pure ()

def bpannCheckAppendRowLimit (newN : ℕ) : Outcome Unit :=
  if U32_MAX ≤ newN then throw (.error (.invalidParameter "row count exceeds u32::MAX"))
  else pure ()

@[simp] theorem bpannCheckAppendRowLimit_eq_ok {n : ℕ} :
    bpannCheckAppendRowLimit n = .ok () ↔ n < U32_MAX := by
  rw [bpannCheckAppendRowLimit]
  split <;> simp_all

variable {D F : Type}

namespace WorkDir

def validateIndexBackend (dir : WorkDir D F) (expected : String) : Outcome Unit :=
  match dir.metadata with
  | none => pure ()
  | some m =>
    if m.indexBackend ≠ expected then
      throw (.error (.invalidParameter
        s!"work_dir index_backend is {m.indexBackend}, expected {expected}"))
    else pure ()

/-- The larger of the counter and the metadata field. -/
def loadNumObs (dir : WorkDir D F) : Option ℕ :=
  match dir.numObs, dir.metadata with
  | some sidecar, some m => some (max sidecar m.numObs)
  | some sidecar, none => some sidecar
  | none, some m => some m.numObs
  | none, none => none

/-- `NumObsCounter::open` creates the counter when it is missing. -/
def openNumObsCounter (dir : WorkDir D F) : WorkDir D F :=
  { dir with numObs := some (dir.numObs.getD 0) }

def setNumObs (dir : WorkDir D F) (n : ℕ) : WorkDir D F := { dir with numObs := some n }

def loadIndexedRows (dir : WorkDir D F) : Option ℕ :=
  match dir.indexedRows with
  | some n => some n
  | none => dir.metadata.map Metadata.indexedRows

def writeIndexedRows (dir : WorkDir D F) (n : ℕ) : WorkDir D F := { dir with indexedRows := some n }

/-- Replace the whole file; bounds that were in it are gone. -/
def writeMetadata (dir : WorkDir D F) (numObs numDim numMetrics : ℕ) (scaleX : Bool)
    (indexedRows : ℕ) : WorkDir D F :=
  { dir with
    metadata := some
      { numObs := numObs
        numDim := numDim
        numMetrics := numMetrics
        scaleX := scaleX
        indexBackend := INDEX_BACKEND
        indexedRows := indexedRows
        yBounds := none } }

end WorkDir

section Yvar

variable [Zero D]

def bpannOpenOrAppendYvar (dir : WorkDir D F) (numMetrics : ℕ) (trainYvar : Option (Array2 D)) :
    Outcome (Option (MmapColumnStore D)) :=
  match trainYvar with
  | none => pure none
  | some yv => do
    let store ← MmapColumnStore.mmapOpenOrCreate dir.trainYvar numMetrics dir.loadNumObs
    if store.nrows = 0 then some <$> store.mmapAppend yv
    else pure (some store)

def bpannAppendYvarOnAdd (dir : WorkDir D F) (numMetrics : ℕ)
    (trainYvar : Option (MmapColumnStore D)) (yvar : Option (Array2 D)) :
    Outcome (Option (MmapColumnStore D)) :=
  match trainYvar, yvar with
  | some store, some yv => some <$> store.mmapAppend yv
  | none, some yv => do
    let store ← MmapColumnStore.mmapOpenOrCreate dir.trainYvar numMetrics dir.loadNumObs
    some <$> store.mmapAppend yv
  | store, none => pure store

end Yvar

/-- The rows at the given indices: x, y and the variances when they are stored. -/
structure TrainRowsAt (D : Type) where
  x : List (List D)
  y : List (List D)
  yvar : Option (List (List D))
  deriving DecidableEq

def bpannTrainRowsAt (n : ℕ) (trainX trainY : MmapColumnStore D)
    (trainYvar : Option (MmapColumnStore D)) (indices : List ℕ) : Outcome (TrainRowsAt D) :=
  match indices.find? (n ≤ ·) with
  | some i =>
    throw (.error (.invalidParameter s!"bpann_train_rows_at index {i} out of range [0, {n})"))
  | none => do
    let x ← trainX.mmapGather indices
    let y ← trainY.mmapGather indices
    match trainYvar with
    | none => return ⟨x, y, none⟩
    | some store => return ⟨x, y, some (← store.mmapGather indices)⟩

end Ennbo
