import Ennbo.Index.Sync
import Ennbo.Search.Merge

/-! # Search over the index

A fragment is searched by scoring all its leaves, or by descending from its root
to the nearest children and, for middle sizes, following skip edges. The leaves
to score are kept in the order in which they were reached; the set of visited
leaves holds the same ids. The fragments to search are limited by a budget.
-/

namespace Ennbo

variable {D F : Type} [Floating D] [Floating F] [FloatCast D F]

/-- The stored rows and the scale under which they are scored. -/
structure MmapSearchStore (D : Type) where
  trainX : MmapColumnStore D
  scaleX : Bool
  xScale : List D

section Leaves

def scoreRow (store : MmapSearchStore D) (query : List F) (rowId : ℕ) : Outcome (ℕ × F) := do
  let row ← store.trainX.mmapRowSlice rowId
  return (rowId, l2SqF32 query (bpannRowToF32 row store.scaleX store.xScale))

def scoreLeafRows (store : Option (MmapSearchStore D)) (query : List F) (rowIds : List ℕ)
    (vectors : List (List F)) : Outcome (List (ℕ × F)) :=
  if !vectors.isEmpty then pure (rowIds.zip (batchedSqL2F32 query vectors))
  else
    match store with
    | none => pure []
    | some store => rowIds.mapM (scoreRow store query)

def scoreLeafRange (store : Option (MmapSearchStore D)) (query : List F) (start stop : ℕ) :
    Outcome (List (ℕ × F)) :=
  if stop < start then throw .panic
  else
    match store with
    | none => pure []
    | some store => (List.range' start (stop - start)).mapM (scoreRow store query)

/-- Only leaves are scored. -/
def scoreLeafPage (store : Option (MmapSearchStore D)) (query : List F) :
    Page F → Outcome (List (ℕ × F))
  | .internal .. => pure []
  | .leaf _ _ (some (start, stop)) _ _ => scoreLeafRange store query start stop
  | .leaf _ rowIds none vectors _ => scoreLeafRows store query rowIds vectors

/-- The nearest rows of some pages. -/
def scorePages (store : Option (MmapSearchStore D)) (query : List F) (pages : List (Page F))
    (k : ℕ) : Outcome (List (ℕ × F)) := do
  let scored ← pages.mapM (scoreLeafPage store query)
  return (scored.flatten.insertionSort ScoredLe).take k

def searchExhaustiveLeavesWithStore (index : BpannIndex F) (query : List F) (k : ℕ)
    (store : Option (MmapSearchStore D)) : Outcome (List (ℕ × F)) :=
  scorePages store query index.pages k

end Leaves

section Candidates

def MAX_CANDIDATE_LEAVES : ℕ := 384

def visit (leaves : List ℕ) (id : ℕ) : List ℕ := if id ∈ leaves then leaves else leaves ++ [id]

/-- Descend to the nearest children; `depth` bounds the recursion. -/
def collectCandidateLeaves (index : BpannIndex F) (query : List F) (beamWidth : ℕ) :
    ℕ → Page F → List ℕ → Outcome (List ℕ)
  | 0, _, _ => throw .diverge
  | _ + 1, .leaf pageId _ _ _ _, leaves => pure (visit leaves pageId)
  | depth + 1, .internal _ centroids childPageIds, leaves =>
    let ranked := (centroids.zipIdx.map fun c => (c.2, l2SqF32 query c.1)).insertionSort
      fun a b => cmpOrEqual a.2 b.2 ≠ .gt
    (ranked.take (max beamWidth 1)).foldlM (fun leaves (i, _) => do
      let childId ← Outcome.ofOption .panic childPageIds[i]?
      match index.pageById childId with
      | some child => collectCandidateLeaves index query beamWidth depth child leaves
      | none => return leaves) leaves

/-- Add the neighbours of the leaves reached so far, up to the limit. -/
def followSkipEdges (edges : SkipEdges) (initial : List ℕ) : List ℕ :=
  initial.foldl (fun leaves leafId =>
    if MAX_CANDIDATE_LEAVES ≤ leaves.length then leaves
    else
      match edges.get leafId with
      | none => leaves
      | some tos =>
        tos.foldl (fun leaves next =>
          if MAX_CANDIDATE_LEAVES ≤ leaves.length then leaves else visit leaves next) leaves)
    initial

/-- Keep the leaves with the nearest centroids. -/
def truncateCandidateLeaves (index : BpannIndex F) (query : List F) (leaves : List ℕ)
    (limit : ℕ) : List ℕ :=
  if leaves.length ≤ limit then leaves
  else
    let ranked := leaves.filterMap fun leafId =>
      (index.pageById leafId).map fun page => (leafId, l2SqF32 query page.centroid)
    ((ranked.insertionSort fun a b => cmpOrEqual a.2 b.2 ≠ .gt).take limit).map Prod.fst

/-- The leaves that the descent from the root reaches. -/
def descend (index : BpannIndex F) (query : List F) (beamWidth : ℕ) : Outcome (List ℕ) :=
  match index.pageById index.header.rootPageId with
  | some root => collectCandidateLeaves index query beamWidth index.pages.length root []
  | none => pure []

/-- The leaves that `search_index` scores. -/
def candidateLeaves (index : BpannIndex F) (query : List F) (beamWidth : ℕ)
    (useSkipEdges : Bool) : Outcome (List ℕ) := do
  let leaves ← descend index query beamWidth
  let leaves := if useSkipEdges then followSkipEdges index.skipEdges leaves else leaves
  return truncateCandidateLeaves index query leaves MAX_CANDIDATE_LEAVES

def searchIndex (index : BpannIndex F) (query : List F) (k beamWidth : ℕ) (useSkipEdges : Bool)
    (store : Option (MmapSearchStore D)) : Outcome (List (ℕ × F)) :=
  if index.pages.isEmpty ∨ k = 0 then pure []
  else do
    let leaves ← candidateLeaves index query beamWidth useSkipEdges
    scorePages store query (leaves.filterMap index.pageById) k

end Candidates

section Fragments

def searchBeamWidth (t : Tuning) : ℕ := t.1.searchBeamWidth

def searchFragmentBudget (t : Tuning) (fragmentCount indexedRows : ℕ) : ℕ :=
  if fragmentCount ≤ 2 then fragmentCount
  else
    min (min (max (indexedRows / t.1.searchRowsPerFragment) 2) fragmentCount)
      t.1.searchFragmentBudgetMax

def searchIndexCandidates (t : Tuning) (index : BpannIndex F) (query : List F) (k : ℕ)
    (store : Option (MmapSearchStore D)) : Outcome (List (ℕ × F)) :=
  let rows := index.header.indexedRows
  if t.1.useExhaustiveSearch rows then searchExhaustiveLeavesWithStore index query k store
  else searchIndex index query k (searchBeamWidth t) (t.1.useSkipRefinementSearch rows) store

namespace IncrementalIndex

/-- All fragments within the budget, else those with the nearest root centroids. -/
def indicesToSearch (t : Tuning) (s : IncrementalIndex D F) (query : List F) :
    List (BpannIndex F) :=
  let budget := searchFragmentBudget t s.indices.length s.indexedRows
  if s.indices.length ≤ budget then s.indices
  else
    let ranked := s.indices.map fun index =>
      let centroid := index.rootCentroid
      (if centroid.isEmpty then infinity else l2SqF32 query centroid, index)
    ((ranked.insertionSort fun a b => cmpOrEqual a.1 b.1 ≠ .gt).take budget).map Prod.snd

def perFragmentK (k fragments searched : ℕ) : ℕ :=
  max ((min (k * fragments) USIZE_MAX + (max searched 1 - 1)) / max searched 1) k

def searchCandidates (t : Tuning) (s : IncrementalIndex D F) (query : List F) (k : ℕ)
    (store : Option (MmapSearchStore D)) : Outcome (List (ℕ × F)) := do
  let indices := s.indicesToSearch t query
  let merged ← indices.mapM fun index =>
    searchIndexCandidates t index query (perFragmentK k s.indices.length indices.length) store
  return (merged.flatten.insertionSort ScoredLe).take k

end IncrementalIndex

end Fragments

end Ennbo
