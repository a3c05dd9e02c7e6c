import Ennbo.Index.Forest
import Ennbo.Index.Reload
import Ennbo.Store.WorkDir

/-! # The incremental index

New rows become a fragment: a leaf of row ids, a k-means tree or a leaf forest,
by the number of rows. When there are too many fragments, neighbouring ones are
merged. Persisting writes one merged index.
-/

namespace Ennbo

def INDEX_COMPACT_THRESHOLD_MIN : ℕ := 3
def MID_BAND_SHALLOW_MAX : ℕ := 10000
def MID_BAND_LEAF_CAPACITY : ℕ := 256
def USIZE_MAX : ℕ := 2 ^ 64 - 1

/-- What a call reads from its process; `order` is how a map read from a file is iterated. -/
structure Env (F : Type) where
  tuning : Tuning
  rngOf : ℕ → Rng F
  depth : ℕ
  order : SkipEdges → SkipEdges
  order_perm : ∀ edges, (order edges).Perm edges

/-- The default tuning, constant draws and maps iterated in file order. -/
def defaultEnv : Env ℚ where
  tuning := ⟨{}, default_tuning_valid⟩
  rngOf _ := constRng
  depth := 3
  order := id
  order_perm _ := .refl _

def indexCompactThreshold (t : Tuning) (indexedRows : ℕ) : ℕ :=
  if indexedRows ≤ 1000 then 1
  else
    min (max (indexedRows / t.1.indexCompactRowsPerFragment) INDEX_COMPACT_THRESHOLD_MIN)
      t.1.indexCompactFragmentMax

structure IncrementalIndex (D F : Type) where
  indices : List (BpannIndex F) := []
  indexedRows : ℕ := 0
  pendingCentroidSum : List D := []
  pendingRowCount : ℕ := 0
  deriving DecidableEq

/-- The index together with the files its calls write. -/
structure IndexState (D F : Type) where
  index : IncrementalIndex D F
  dir : WorkDir D F

variable {D F : Type} [Floating D] [Floating F] [FloatCast D F]

namespace IncrementalIndex

def notePendingRows (s : IncrementalIndex D F) (x : Array2 D) (scaleX : Bool) (xScale : List D) :
    IncrementalIndex D F :=
  if x.nrows = 0 then s
  else
    let sum :=
      if s.pendingCentroidSum.length ≠ x.ncols then List.replicate x.ncols 0
      else s.pendingCentroidSum
    let colSums := x.rows.foldl addInto (List.replicate x.ncols 0)
    { s with
      pendingCentroidSum := addInto sum (scaledRow colSums scaleX xScale)
      pendingRowCount := s.pendingRowCount + x.nrows }

def takePendingCentroid (numDim : ℕ) : Call (IncrementalIndex D F) (Option (List F)) := do
  let s ← Call.get
  if s.pendingRowCount = 0 then return none
  else if s.pendingCentroidSum.length ≠ numDim then return none
  else
    Call.modify fun s =>
      { s with
        pendingCentroidSum := List.replicate s.pendingCentroidSum.length 0
        pendingRowCount := 0 }
    return some (s.pendingCentroidSum.map fun v => toF32 (v / (s.pendingRowCount : D)))

def reset (_ : IncrementalIndex D F) : IncrementalIndex D F := {}

/-- Add a fragment that covers the rows up to `stop`. -/
def push (idx : BpannIndex F) (stop : ℕ) (s : IncrementalIndex D F) : IncrementalIndex D F :=
  { s with indices := s.indices ++ [idx], indexedRows := stop }

def buildEmptyLeafForest (ctx : IndexBuildContext D) (start stop leafRows : ℕ) :
    Call (IncrementalIndex D F) Unit :=
  if stop ≤ start then pure ()
  else do
    let index ← Call.ofOutcome (buildEmptyLeafForestIndex ctx start stop leafRows)
    Call.modify (push index stop)

def buildVectorLeafForest (ctx : IndexBuildContext D) (start stop leafRows : ℕ) :
    Call (IncrementalIndex D F) Unit :=
  if stop ≤ start then pure ()
  else do
    let index ← Call.ofOutcome (buildVectorLeafForestIndex ctx start stop leafRows)
    Call.modify (push index stop)

/-- `.expect(..)`: an error panics. -/
def expect {α : Type} : Outcome α → Outcome α
  | .error (.error _) => .error .panic
  | o => o

@[simp] theorem expect_eq_ok {α : Type} {o : Outcome α} {a : α} :
    expect o = .ok a ↔ o = .ok a := by
  rcases o with (_ | _ | _) | _ <;> simp [expect]

def buildBatch (env : Env F) (ctx : IndexBuildContext D) (start stop : ℕ) :
    Call (IncrementalIndex D F) Unit :=
  if stop ≤ start then pure ()
  else do
    let t := env.tuning
    let seed := t.1.buildSeed.getD start
    let rowIds := spanIds start stop
    let pending ← takePendingCentroid ctx.numDim
    let index ← Call.ofOutcome (
      if stop - start ≤ t.1.structuredBuildRowLimit then do
        let centroid ←
          match pending with
          | some centroid => pure centroid
          | none => expect (centroidFromMmapRows ctx start stop)
        return BpannIndex.buildRowIdsLeaf rowIds centroid ctx.numDim
      else do
        let vectors ← loadVectorsFromMmap ctx start stop
        BpannIndex.buildFromRowsWithPersist t rowIds vectors ctx.numDim DEFAULT_LEAF_CAPACITY
          (env.rngOf seed) env.depth)
    Call.modify (push index stop)

section Compact

/-- The rows of a run, far behind every run of small fragments when one is not small. -/
def runRank (smallLimit : ℕ) (run : List (BpannIndex F)) : ℕ :=
  let rows := (run.map fun idx => idx.header.indexedRows).sum
  let allSmall := (run.zip run.tail).all fun pair =>
    pair.1.header.indexedRows ≤ smallLimit && pair.2.header.indexedRows ≤ smallLimit
  if allSmall then rows else rows + USIZE_MAX / 2

/-- The start of the first run of `mergeN` fragments of least rank. -/
def bestRun (smallLimit mergeN : ℕ) (indices : List (BpannIndex F)) : ℕ :=
  ((List.range (indices.length - mergeN + 1)).foldl (fun best i =>
    let rank := runRank smallLimit ((indices.drop i).take mergeN)
    if rank < best.2 then (i, rank) else best) (0, USIZE_MAX)).1

def amalgamateSmallestRun (t : Tuning) (mergeN : ℕ) : Call (IncrementalIndex D F) Unit := do
  let s ← Call.get
  if s.indices.length < 2 then return ()
  else
    let mergeN := min mergeN s.indices.length
    let i := bestRun t.1.smallFragmentMergeRows mergeN s.indices
    Call.modify fun s => { s with indices := s.indices.take i ++ s.indices.drop (i + mergeN) }
    let merged ← Call.ofOutcome (BpannIndex.concatMerge ((s.indices.drop i).take mergeN))
    Call.modify fun s => { s with indices := s.indices.take i ++ merged :: s.indices.drop i }

/-- The loop of `compact`; the number of fragments bounds the number of rounds. -/
def compactLoop (t : Tuning) (maxFragments : ℕ) : ℕ → Call (IncrementalIndex D F) Unit
  | 0 => pure ()
  | n + 1 => do
    let s ← Call.get
    if maxFragments < s.indices.length then
      let excess := s.indices.length - maxFragments
      amalgamateSmallestRun t (min (min (max excess 2) 4) s.indices.length)
      compactLoop t maxFragments n
    else return ()

def compact (t : Tuning) : Call (IncrementalIndex D F) Unit := do
  let s ← Call.get
  if s.indexedRows = 0 then Call.modify fun s => { s with indices := [] }
  else compactLoop t (indexCompactThreshold t s.indexedRows) s.indices.length

def maybeCompact (t : Tuning) : Call (IncrementalIndex D F) Unit := do
  let s ← Call.get
  let maxFragments := indexCompactThreshold t s.indexedRows
  let compactLimit := max (maxFragments * 2) (maxFragments + 1)
  if compactLimit < s.indices.length then compact t
  else return ()

end Compact

/-- The part of `ensure_sync` that changes the index only. -/
def indexSpan (env : Env F) (ctx : IndexBuildContext D) (stop : ℕ) :
    Call (IncrementalIndex D F) Unit := do
  let s ← Call.get
  let limit := env.tuning.1.structuredBuildRowLimit
  let pending := stop - s.indexedRows
  let chunkLargeSpans := limit * 2 < pending
  if chunkLargeSpans ∧ MID_BAND_SHALLOW_MAX < pending then
    let _ ← takePendingCentroid (F := F) ctx.numDim
    buildEmptyLeafForest ctx s.indexedRows stop limit
    maybeCompact env.tuning
  else if chunkLargeSpans then
    let _ ← takePendingCentroid (F := F) ctx.numDim
    buildVectorLeafForest ctx s.indexedRows stop MID_BAND_LEAF_CAPACITY
    maybeCompact env.tuning
  else
    buildBatch env ctx s.indexedRows stop
    maybeCompact env.tuning

/-- The test over the rows on disk, none when they cannot be read, and the comparison of an
index with the files. -/
def needsDiskRewrite (s : IncrementalIndex D F) (onDiskRows : Option ℕ)
    (onDiskIndexMatches : BpannIndex F → Bool) (indexDirty : Bool) (nrows : ℕ) : Bool :=
  if 1 < s.indices.length then true
  else if indexDirty then true
  else
    match onDiskRows with
    | none => true
    | some onDisk =>
      if onDisk ≠ nrows then true
      else
        match s.indices.head? with
        | some index => !onDiskIndexMatches index
        | none => onDisk ≠ 0 || nrows ≠ 0

omit [Floating D] [Floating F] [FloatCast D F] in
theorem needsDiskRewrite_of_dirty (s : IncrementalIndex D F) (onDiskRows : Option ℕ)
    (onDiskIndexMatches : BpannIndex F → Bool) (nrows : ℕ) :
    s.needsDiskRewrite onDiskRows onDiskIndexMatches true nrows = true := by
  unfold needsDiskRewrite
  split <;> simp

end IncrementalIndex

namespace IndexState

def onIndex {α : Type} (c : Call (IncrementalIndex D F) α) : Call (IndexState D F) α :=
  c.on IndexState.index fun s index => { s with index := index }

def ensureSync (env : Env F) (ctx : IndexBuildContext D) (stop : ℕ) :
    Call (IndexState D F) Unit := do
  let s ← Call.get
  if stop ≤ s.index.indexedRows then return ()
  else
    onIndex (IncrementalIndex.indexSpan env ctx stop)
    Call.modify fun s => { s with dir := s.dir.writeIndexedRows s.index.indexedRows }

def persistIndex (idx : BpannIndex F) (s : IndexState D F) : IndexState D F :=
  { s with dir := { s.dir with index := some idx.reload } }

def persistToDisk (env : Env F) (ctx : IndexBuildContext D) : Call (IndexState D F) Unit := do
  ensureSync env ctx ctx.trainX.nrows
  let s ← Call.get
  if s.index.indices.isEmpty ∧ s.index.indexedRows = 0 then return ()
  else
    match s.index.indices with
    | [] => pure ()
    | [single] => Call.modify (persistIndex single)
    | indices => do
      let merged ← Call.ofOutcome (BpannIndex.concatMerge indices)
      Call.modify (persistIndex merged)
    Call.modify fun s =>
      { s with
        dir := (s.dir.writeMetadata ctx.trainX.nrows ctx.numDim ctx.numMetrics ctx.scaleX
          s.index.indexedRows).writeIndexedRows s.index.indexedRows }

section Rewrite

variable [DecidableEq F]

def onDiskIndexedRows (dir : WorkDir D F) : ℕ :=
  match dir.index with
  | none => 0
  | some stored => stored.header.indexedRows

/-- The bytes of the pages and of the skip edges agree; a missing file counts as a mismatch. -/
def onDiskIndexMatches (dir : WorkDir D F) (idx : BpannIndex F) : Bool :=
  match dir.index with
  | none => false
  | some stored => idx.reload.pages = stored.pages && idx.skipEdges = stored.skipEdges

def needsDiskRewrite (s : IndexState D F) (indexDirty : Bool) (nrows : ℕ) : Bool :=
  s.index.needsDiskRewrite (some (onDiskIndexedRows s.dir)) (onDiskIndexMatches s.dir) indexDirty
    nrows

end Rewrite

end IndexState

end Ennbo
