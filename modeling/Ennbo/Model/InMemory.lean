import Ennbo.Model.Bounds

/-! # The in-memory backend

Rows are kept in memory, and a flat Faiss index holds a scaled copy of them. The
calls that search bring the index up to date first. Faiss itself is a parameter:
what it answers over the rows that were added since its last reset.
-/

namespace Ennbo

inductive IndexDriver where
  | exact
  | auto
  | agx
  | uSearch
  | bpAnnDisk
  | metal
  | openCl
  deriving DecidableEq, Repr

def isDiskIndexDriver (driver : IndexDriver) : Bool := driver = .bpAnnDisk

/-- The errors of an index. -/
inductive IndexError where
  | invalidShape (expected got : ℕ)
  | invalidParameter (message : String)

namespace IndexError

def toString : IndexError → String
  | invalidShape expected got => s!"Invalid shape: expected {expected} dims, got {got}"
  | invalidParameter message => s!"Invalid search parameter: {message}"

/-- The error of the crate that reports an index error by its text. -/
def failure (e : IndexError) : Failure := .error (.invalidParameter e.toString)

end IndexError

/-- A flat index: the distance and the label at each of `k` places for the rows it holds. -/
structure Faiss (F : Type) where
  search : List (List F) → List F → ℕ → ℕ → F × ℤ

section Exact

variable {K : Type} [ExactArith K]

open Ranking

/-- The index that compares all rows: the nearest ones first, ties to the lower id. -/
def Faiss.flat : Faiss K where
  search rows query k j :=
    ((topK ScoredLe k (scoredRows (fun i => sqDist query (rows.getD i [])) rows.length)).map
      fun hit => (hit.2, (hit.1 : ℤ))).getD j (0, -1)

end Exact

abbrev Hits (D : Type) : Type := Array2 (D × ℤ)

/-- One row of `k` entries for each query. -/
def Array2.ofRows {D E : Type} (k : ℕ) (f : List D → ℕ → E) (queries : Array2 D) : Array2 E where
  ncols := k
  rows := queries.rows.map fun q => (List.range k).map (f q)
  width := by
    simp only [List.mem_map, forall_exists_index, and_imp]
    rintro _ q - rfl
    rw [List.length_map, List.length_range]

@[simp] theorem Array2.nrows_ofRows {D E : Type} (k : ℕ) (f : List D → ℕ → E)
    (queries : Array2 D) : (Array2.ofRows k f queries).nrows = queries.nrows := by
  simp [ofRows, nrows]

@[simp] theorem Array2.ncols_ofRows {D E : Type} (k : ℕ) (f : List D → ℕ → E)
    (queries : Array2 D) : (Array2.ofRows k f queries).ncols = k := rfl

variable {D F : Type}

/-- The rows added since the last reset. -/
structure FaissBackend (F : Type) where
  rows : List (List F)
  numDim : ℕ
  deriving DecidableEq

namespace FaissBackend

variable [FloatCast D F]

def len (b : FaissBackend F) : ℕ := b.rows.length

def checkDims (numDim : ℕ) (rows : Array2 D) : Outcome Unit :=
  if rows.ncols ≠ numDim then throw (IndexError.invalidShape numDim rows.ncols).failure
  else pure ()

def arr2RowsToF32 (rows : Array2 D) : List (List F) := rows.rows.map fun row => row.map toF32

def add (b : FaissBackend F) (rowsScaled : Array2 D) : Outcome (FaissBackend F) := do
  checkDims b.numDim rowsScaled
  return { b with rows := b.rows ++ arr2RowsToF32 rowsScaled }

def addNonEmpty (b : FaissBackend F) (rowsScaled : Array2 D) : Outcome (FaissBackend F) :=
  if rowsScaled.nrows = 0 ∨ rowsScaled.ncols = 0 then pure b else b.add rowsScaled

def new (numDim : ℕ) (trainScaled : Array2 D) : Outcome (FaissBackend F) := do
  checkDims numDim trainScaled
  addNonEmpty ⟨[], numDim⟩ trainScaled

def rebuild (b : FaissBackend F) (trainScaled : Array2 D) : Outcome (FaissBackend F) := do
  checkDims b.numDim trainScaled
  addNonEmpty { b with rows := [] } trainScaled

section Search

variable [Floating D] (faiss : Faiss F) (b : FaissBackend F)

/-- The `j`-th of `searchK` places when the index was asked for `kEff`. -/
def paddedHit (query : List F) (kEff j : ℕ) : D × ℤ :=
  if j < kEff then
    let hit := faiss.search b.rows query kEff j
    (toF64 hit.1, hit.2)
  else if kEff = 0 then (infinity, 0)
  else (infinity, (faiss.search b.rows query kEff (kEff - 1)).2)

def search (queriesScaled : Array2 D) (kEff searchK : ℕ) : Outcome (Hits D) := do
  checkDims b.numDim queriesScaled
  return Array2.ofRows (max kEff searchK)
    (fun query j => paddedHit faiss b (query.map toF32) kEff j) queriesScaled

end Search

end FaissBackend

/-- The message of `KnnBackend::new` for a driver that the CPU build does not have. -/
def unavailable : IndexDriver → Option String
  | .exact | .auto => none
  | .agx => some "AGX index is unavailable; build on macOS with the metal feature"
  | .uSearch =>
    some "USearch index is unavailable; build with the usearch or usearch-native feature"
  | .metal => some "Metal index is unavailable; build on macOS with the metal feature"
  | .openCl => some "OpenCL index is unavailable; build with the opencl feature"
  | .bpAnnDisk => some "IndexDriver::BpAnnDisk is disk-only; use DiskBpannEnnBackend"

structure ENNIndex (D F : Type) where
  inner : FaissBackend F
  numDim : ℕ
  xScale : List D
  scaleX : Bool
  driver : IndexDriver
  deriving DecidableEq

namespace ENNIndex

variable [Floating D] [FloatCast D F]

/-- `x / &x_scale` -/
def divideCols (x : Array2 D) (xScale : List D) : Array2 D :=
  x.mapCols fun j v => v / xScale.getD j 0

def new (trainXScaled : Array2 D) (numDim : ℕ) (xScale : List D) (scaleX : Bool)
    (driver : IndexDriver) : Outcome (ENNIndex D F) :=
  match unavailable driver with
  | some message => throw (IndexError.invalidParameter message).failure
  | none => do
    let inner ← FaissBackend.new numDim trainXScaled
    return ⟨inner, numDim, xScale, scaleX, driver⟩

def len (index : ENNIndex D F) : ℕ := index.inner.len

def rebuildFromScaled (trainXScaled : Array2 D) (xScale : List D) : Call (ENNIndex D F) Unit := do
  let index ← Call.get
  let inner ← Call.ofOutcome (index.inner.rebuild trainXScaled)
  Call.modify fun index => { index with inner := inner, xScale := xScale }

def scaled (index : ENNIndex D F) (x : Array2 D) : Array2 D :=
  if index.scaleX then divideCols x index.xScale else x

def add (x : Array2 D) : Call (ENNIndex D F) Unit := do
  let index ← Call.get
  if x.ncols ≠ index.numDim then
    Call.ofOutcome (throw (IndexError.invalidShape index.numDim x.ncols).failure)
  else
    let inner ← Call.ofOutcome (index.inner.add (index.scaled x))
    Call.modify fun index => { index with inner := inner }

/-- Drop the first column; one column or none leaves none. -/
def dropNearest {E : Type} (hits : Array2 E) : Array2 E where
  ncols := hits.ncols - 1
  rows := hits.rows.map fun row => row.drop 1
  width := by
    simp only [List.mem_map, forall_exists_index, and_imp]
    rintro _ row h rfl
    rw [List.length_drop, hits.width row h]

def search (faiss : Faiss F) (index : ENNIndex D F) (x : Array2 D) (searchK : ℕ)
    (excludeNearest : Bool) : Outcome (Hits D) :=
  if searchK = 0 then
    throw (IndexError.invalidParameter s!"search_k must be > 0, got {searchK}").failure
  else if x.ncols ≠ index.numDim then
    throw (IndexError.invalidShape index.numDim x.ncols).failure
  else do
    let hits ←
      if index.len = 0 then pure (Array2.ofRows searchK (fun _ _ => (infinity, 0)) x)
      else index.inner.search faiss (index.scaled x) (min searchK index.len) searchK
    return if excludeNearest then dropNearest hits else hits

end ENNIndex

abbrev RowStorage (D : Type) : Type := Array2 D

namespace RowStorage

def pushRows (rows extra : RowStorage D) : Outcome (RowStorage D) :=
  if h : extra.ncols = rows.ncols then
    pure
      { ncols := rows.ncols
        rows := rows.rows ++ extra.rows
        width := by
          intro row hrow
          rcases List.mem_append.mp hrow with hrow | hrow
          · exact rows.width row hrow
          · exact (extra.width row hrow).trans h }
  else throw (.error (.invalidShape rows.shape extra.shape))

/-- Reading behind the last row panics. -/
def rowVec (rows : RowStorage D) (i : ℕ) : Outcome (List D) :=
  Outcome.ofOption .panic rows.rows[i]?

def gatherRows (rows : RowStorage D) (indices : List ℕ) : Outcome (List (List D)) :=
  indices.mapM (rowVec rows)

end RowStorage

structure InMemoryEnnBackend (D F : Type) where
  trainXRows : RowStorage D
  trainYRows : RowStorage D
  trainYvarRows : Option (RowStorage D)
  numDim : ℕ
  numMetrics : ℕ
  index : ENNIndex D F
  indexStale : Bool
  indexSyncedObs : ℕ
  deriving DecidableEq

namespace InMemoryEnnBackend

variable [Floating D] [FloatCast D F]

def len (b : InMemoryEnnBackend D F) : ℕ := b.trainXRows.nrows

def new (trainX trainY : Array2 D) (trainYvar : Option (Array2 D)) (scaleX : Bool)
    (xScale : List D) (driver : IndexDriver) : Outcome (InMemoryEnnBackend D F) := do
  let trainXScaled := if scaleX then ENNIndex.divideCols trainX xScale else trainX
  let index ← ENNIndex.new trainXScaled trainX.ncols xScale scaleX driver
  return {
    trainXRows := trainX
    trainYRows := trainY
    trainYvarRows := trainYvar
    numDim := trainX.ncols
    numMetrics := trainY.ncols
    index := index
    indexStale := false
    indexSyncedObs := min index.len trainX.nrows }

def newEmpty (numDim numMetrics : ℕ) (driver : IndexDriver) : Outcome (InMemoryEnnBackend D F) :=
  new (Array2.empty numDim) (Array2.empty numMetrics) none false (List.replicate numDim 1) driver

def appendRows (x y : Array2 D) (yvar : Option (Array2 D)) :
    Call (InMemoryEnnBackend D F) Unit := do
  let b ← Call.get
  if x.nrows = 0 then return ()
  else
    let trainX ← Call.ofOutcome (RowStorage.pushRows b.trainXRows x)
    Call.modify fun b => { b with trainXRows := trainX }
    let trainY ← Call.ofOutcome (RowStorage.pushRows b.trainYRows y)
    Call.modify fun b => { b with trainYRows := trainY }
    match b.trainYvarRows, yvar with
    | some rows, some yv => do
      let trainYvar ← Call.ofOutcome (RowStorage.pushRows rows yv)
      Call.modify fun b => { b with trainYvarRows := some trainYvar }
    | none, some yv => Call.modify fun b => { b with trainYvarRows := some yv }
    | _, none => return ()

def markIndexStale (b : InMemoryEnnBackend D F) : InMemoryEnnBackend D F :=
  { b with indexStale := true }

def onIndex {α : Type} (c : Call (ENNIndex D F) α) : Call (InMemoryEnnBackend D F) α :=
  c.on InMemoryEnnBackend.index fun b index => { b with index := index }

/-- The rows from position `n` on. -/
def rowsFrom (rows : RowStorage D) (n : ℕ) : Array2 D where
  ncols := rows.ncols
  rows := rows.rows.drop n
  width row h := rows.width row (List.mem_of_mem_drop h)

def ensureIndexSync (scaleX : Bool) (xScale : List D) : Call (InMemoryEnnBackend D F) Unit := do
  let b ← Call.get
  if scaleX then
    if b.indexStale then
      onIndex (ENNIndex.rebuildFromScaled (ENNIndex.divideCols b.trainXRows xScale) xScale)
      Call.modify fun b => { b with indexStale := false, indexSyncedObs := b.len }
    else return ()
  else
    let numObs := b.len
    let synced := min b.indexSyncedObs b.index.len
    Call.modify fun b => { b with indexSyncedObs := synced }
    if 0 < numObs ∧ (b.index.len ≠ numObs ∨ (synced = 0 ∧ b.index.len ≠ 0)) then
      onIndex (ENNIndex.rebuildFromScaled b.trainXRows xScale)
      Call.modify fun b => { b with indexSyncedObs := numObs }
    else if numObs ≤ synced ∧ numObs ≤ b.index.len then return ()
    else
      let pending := rowsFrom b.trainXRows synced
      if 0 < pending.nrows then onIndex (ENNIndex.add pending) else return ()
      Call.modify fun b => { b with indexSyncedObs := numObs }

/-- Reading behind the last observation is an error. -/
def checkIndex (b : InMemoryEnnBackend D F) (name : String) (i : ℕ) : Outcome Unit :=
  if b.len ≤ i then
    throw (.error (.invalidParameter s!"{name} index {i} out of range [0, {b.len})"))
  else pure ()

def trainRowsAt (b : InMemoryEnnBackend D F) (indices : List ℕ) : Outcome (TrainRowsAt D) := do
  indices.forM (checkIndex b "train_rows_at")
  let x ← RowStorage.gatherRows b.trainXRows indices
  let y ← RowStorage.gatherRows b.trainYRows indices
  match b.trainYvarRows with
  | none => return ⟨x, y, none⟩
  | some rows => return ⟨x, y, some (← RowStorage.gatherRows rows indices)⟩

def rowX (b : InMemoryEnnBackend D F) (i : ℕ) : Outcome (List D) := do
  checkIndex b "row_x" i
  RowStorage.rowVec b.trainXRows i

def rowY (b : InMemoryEnnBackend D F) (i : ℕ) : Outcome (List D) := do
  checkIndex b "row_y" i
  RowStorage.rowVec b.trainYRows i

def rowYvar (b : InMemoryEnnBackend D F) (i : ℕ) : Outcome (Option (List D)) := do
  checkIndex b "row_yvar" i
  match b.trainYvarRows with
  | none => return none
  | some rows => some <$> RowStorage.rowVec rows i

def search (faiss : Faiss F) (b : InMemoryEnnBackend D F) (x : Array2 D) (searchK : ℕ)
    (excludeNearest : Bool) : Outcome (Hits D) :=
  b.index.search faiss x searchK excludeNearest

end InMemoryEnnBackend

end Ennbo
