import Ennbo.Index.Build
import Ennbo.Store.Mmap

/-! # Leaf forests

A long span of rows is cut into chunks of one size. Every chunk becomes a leaf,
and one internal root lists the leaves. The leaves either keep a row range only
or the rows and their vectors.
-/

namespace Ennbo

/-- What the builders read from the backend. -/
structure IndexBuildContext (D : Type) where
  trainX : MmapColumnStore D
  numDim : ℕ
  scaleX : Bool
  xScale : List D
  numMetrics : ℕ

/-- `i as u32`. -/
def toU32 (i : ℕ) : ℕ := i % 2 ^ 32

theorem toU32_of_lt {i : ℕ} (h : i < 2 ^ 32) : toU32 i = i := Nat.mod_eq_of_lt h

/-- `(start..stop).map(|i| i as u32)`. -/
def spanIds (start stop : ℕ) : List ℕ := (List.range' start (stop - start)).map toU32

theorem spanIds_of_le {start stop : ℕ} (h : stop ≤ 2 ^ 32) :
    spanIds start stop = List.range' start (stop - start) := by
  refine (List.map_congr_left fun i hi => ?_).trans (List.map_id _)
  have := List.mem_range'_1.mp hi
  exact toU32_of_lt (by omega)

theorem length_spanIds (start stop : ℕ) : (spanIds start stop).length = stop - start := by
  simp [spanIds]

/--
The chunks of at most `leafRows` rows from `cur` to `stop`. Each takes at least one row, so the
number of rows bounds the number of chunks.
-/
def chunkSpans (leafRows : ℕ) : ℕ → ℕ → ℕ → List (ℕ × ℕ)
  | 0, _, _ => []
  | n + 1, cur, stop =>
    if cur < stop then
      let chunkEnd := min (cur + leafRows) stop
      (cur, chunkEnd) :: chunkSpans leafRows n chunkEnd stop
    else []

section Spans

theorem chunkSpans_bounds {leafRows n cur stop : ℕ} (hl : 0 < leafRows) :
    ∀ span ∈ chunkSpans leafRows n cur stop,
      cur ≤ span.1 ∧ span.1 < span.2 ∧ span.2 ≤ stop ∧ span.2 ≤ span.1 + leafRows := by
  induction n generalizing cur with
  | zero => simp [chunkSpans]
  | succ n ih =>
    simp only [chunkSpans]
    split
    next h =>
      rintro span (_ | ⟨_, hs⟩)
      · dsimp only
        omega
      · have := ih span hs
        omega
    next => simp

theorem chunkSpans_flatMap {leafRows n cur stop : ℕ} (hl : 0 < leafRows) (hn : stop - cur ≤ n) :
    (chunkSpans leafRows n cur stop).flatMap (fun s => List.range' s.1 (s.2 - s.1)) =
      List.range' cur (stop - cur) := by
  induction n generalizing cur with
  | zero => simp [chunkSpans, show stop - cur = 0 by omega]
  | succ n ih =>
    simp only [chunkSpans]
    split
    next h =>
      obtain ⟨m, hm⟩ : ∃ m, min (cur + leafRows) stop = cur + m :=
        ⟨min (cur + leafRows) stop - cur, by omega⟩
      rw [List.flatMap_cons, ih (by omega), hm]
      dsimp only
      rw [Nat.add_sub_cancel_left, List.range'_append_1]
      congr 1
      omega
    next h => simp [show stop - cur = 0 by omega]

end Spans

variable {D F : Type} [Floating D] [Floating F] [FloatCast D F]

def firstRowCentroidFromMmap (ctx : IndexBuildContext D) (row : ℕ) : Outcome (List F) := do
  return bpannRowToF32 (← ctx.trainX.mmapRowSlice row) ctx.scaleX ctx.xScale

def meanCentroidF32 (vectors : List (List F)) : List F := meanVector vectors

def loadVectorsFromMmap (ctx : IndexBuildContext D) (start stop : ℕ) :
    Outcome (List (List F)) :=
  (List.range' start (stop - start)).mapM fun i => do
    return bpannRowToF32 (← ctx.trainX.mmapRowSlice i) ctx.scaleX ctx.xScale

def scaledRow (row : List D) (scaleX : Bool) (xScale : List D) : List D :=
  if scaleX then List.zipWith (· / ·) row xScale else row

def centroidFromMmapRows (ctx : IndexBuildContext D) (start stop : ℕ) : Outcome (List F) :=
  if stop - start = 0 then pure []
  else do
    let acc ← (List.range' start (stop - start)).foldlM (fun acc i => do
      return addInto acc (scaledRow (← ctx.trainX.mmapRowSlice i) ctx.scaleX ctx.xScale))
      (List.replicate ctx.numDim 0)
    return acc.map fun s => toF32 (s / ((stop - start : ℕ) : D))

/-- The leaves of consecutive chunks, numbered from `nextId`. -/
def forestLeaves (leaf : ℕ → ℕ → ℕ → Outcome (Page F)) :
    List (ℕ × ℕ) → ℕ → Outcome (List (Page F))
  | [], _ => pure []
  | (cur, chunkEnd) :: rest, nextId => do
    let page ← leaf nextId cur chunkEnd
    let pages ← forestLeaves leaf rest (nextId + 1)
    return page :: pages

def forestPages (leaves : List (Page F)) : List (Page F) :=
  leaves ++ [.internal 0 (leaves.map Page.centroid) (leaves.map Page.pageId)]

/-- One leaf per chunk of `leafRows` rows; the two forests differ in the leaf. -/
def buildLeafForestIndex (leaf : ℕ → ℕ → ℕ → Outcome (Page F)) (numDim start stop leafRows : ℕ) :
    Outcome (BpannIndex F) := do
  let leafRows := max leafRows 1
  let leaves ← forestLeaves leaf (chunkSpans leafRows (stop - start) start stop) 1
  BpannIndex.fromPagesUnpersisted numDim (stop - start) leafRows (forestPages leaves)

omit [Floating D] [FloatCast D F] in
theorem buildLeafForestIndex_eq_ok {leaf : ℕ → ℕ → ℕ → Outcome (Page F)}
    {numDim start stop leafRows : ℕ} {idx : BpannIndex F} :
    buildLeafForestIndex leaf numDim start stop leafRows = .ok idx ↔
      ∃ leaves,
        forestLeaves leaf (chunkSpans (max leafRows 1) (stop - start) start stop) 1 =
          .ok leaves ∧
        idx =
          { header :=
              { numDim := numDim
                indexedRows := stop - start
                rootPageId := 0
                leafCapacity := max (max leafRows 1) 1
                skipNeighbors := DEFAULT_SKIP_NEIGHBORS }
            pages := forestPages leaves
            skipEdges := [] } := by
  have hne : ∀ leaves : List (Page F), (forestPages leaves).isEmpty = false := by
    simp [forestPages]
  simp only [buildLeafForestIndex, BpannIndex.fromPagesUnpersisted, hne, Bool.false_eq_true,
    if_false, Outcome.bind_eq_ok, Outcome.pure_eq_ok, eq_comm (b := idx)]

def emptyLeaf (ctx : IndexBuildContext D) (pageId cur chunkEnd : ℕ) : Outcome (Page F) := do
  let centroid ← firstRowCentroidFromMmap ctx cur
  return .emptyRangeLeaf pageId (toU32 cur) (toU32 chunkEnd) centroid

def vectorLeaf (ctx : IndexBuildContext D) (pageId cur chunkEnd : ℕ) : Outcome (Page F) := do
  let vectors ← loadVectorsFromMmap ctx cur chunkEnd
  return .leaf pageId (spanIds cur chunkEnd) none vectors (some (meanCentroidF32 vectors))

def buildEmptyLeafForestIndex (ctx : IndexBuildContext D) (start stop leafRows : ℕ) :
    Outcome (BpannIndex F) :=
  buildLeafForestIndex (emptyLeaf ctx) ctx.numDim start stop leafRows

def buildVectorLeafForestIndex (ctx : IndexBuildContext D) (start stop leafRows : ℕ) :
    Outcome (BpannIndex F) :=
  buildLeafForestIndex (vectorLeaf ctx) ctx.numDim start stop leafRows

end Ennbo
