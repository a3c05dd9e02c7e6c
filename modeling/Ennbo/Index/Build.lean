import Ennbo.Index.KMeans
import Ennbo.Outcome
import Ennbo.Tuning
import Mathlib.Data.List.Destutter
import Mathlib.Data.List.Sort

/-! # Building and merging indexes

An index is a header, a list of pages and the skip edges between leaves. The
builders number pages from `0`; merging renumbers the pages of every part and
puts a new root above them. A `HashMap` is a list of its entries in iteration
order, and the page map is read off the pages.
-/

namespace Ennbo

def DEFAULT_LEAF_CAPACITY : ℕ := 32
def DEFAULT_SKIP_NEIGHBORS : ℕ := 3

structure IndexHeader where
  numDim : ℕ
  indexedRows : ℕ
  rootPageId : ℕ
  leafCapacity : ℕ
  skipNeighbors : ℕ
  deriving DecidableEq, Repr

/-- The entries of a `HashMap<u32, Vec<u32>>`, in iteration order. -/
abbrev SkipEdges : Type := List (ℕ × List ℕ)

namespace SkipEdges

def get (edges : SkipEdges) (id : ℕ) : Option (List ℕ) := edges.lookup id

def insert (edges : SkipEdges) (id : ℕ) (tos : List ℕ) : SkipEdges :=
  edges.filter (fun e => e.1 != id) ++ [(id, tos)]

end SkipEdges

structure BpannIndex (F : Type) where
  header : IndexHeader
  pages : List (Page F)
  skipEdges : SkipEdges
  deriving DecidableEq, Repr

/-- The last position of `id` in a list, as a map collected from an enumeration finds it. -/
def lastIdx (id : ℕ) : List ℕ → Option ℕ
  | [] => none
  | x :: xs =>
    match lastIdx id xs with
    | some i => some (i + 1)
    | none => if x = id then some 0 else none

theorem lastIdx_eq_some {id i : ℕ} {ids : List ℕ} (h : lastIdx id ids = some i) :
    ids[i]? = some id := by
  induction ids generalizing i with
  | nil => simp [lastIdx] at h
  | cons x xs ih =>
    rw [lastIdx] at h
    split at h
    next j hj =>
      obtain rfl := Option.some.inj h
      simpa using ih hj
    next =>
      split at h
      next hx =>
        obtain rfl := Option.some.inj h
        simp [hx]
      next => simp at h

theorem lastIdx_eq_none {id : ℕ} {ids : List ℕ} : lastIdx id ids = none ↔ id ∉ ids := by
  induction ids with
  | nil => simp [lastIdx]
  | cons x xs ih =>
    rw [lastIdx, List.mem_cons, not_or, ← ih]
    split
    next j hj => simp [hj]
    next hn => simp [hn, eq_comm]

theorem exists_lastIdx {id : ℕ} {ids : List ℕ} (h : id ∈ ids) : ∃ i, lastIdx id ids = some i := by
  cases hi : lastIdx id ids with
  | none => exact absurd h (lastIdx_eq_none.mp hi)
  | some i => exact ⟨i, rfl⟩

variable {F : Type}

namespace BpannIndex

def pageIds (idx : BpannIndex F) : List ℕ := idx.pages.map Page.pageId

/-- The page that `build_page_map` records for an id. -/
def pageById (idx : BpannIndex F) (id : ℕ) : Option (Page F) :=
  (lastIdx id idx.pageIds).bind fun i => idx.pages[i]?

def rootCentroid [Floating F] (idx : BpannIndex F) : List F :=
  ((idx.pageById idx.header.rootPageId).map Page.centroid).getD []

def leafRows (idx : BpannIndex F) : List ℕ := idx.pages.flatMap Page.leafRows

def leafRowIds (idx : BpannIndex F) : List ℕ :=
  (idx.leafRows.insertionSort (· ≤ ·)).destutter (· ≠ ·)

theorem pageById_eq_some {idx : BpannIndex F} {id : ℕ} {p : Page F}
    (h : idx.pageById id = some p) : p ∈ idx.pages ∧ p.pageId = id := by
  obtain ⟨i, hi, hp⟩ := Option.bind_eq_some_iff.mp h
  have hid := lastIdx_eq_some hi
  rw [pageIds, List.getElem?_map, hp] at hid
  exact ⟨List.mem_of_getElem? hp, by simpa using hid⟩

/-- The index whose only page is the given leaf, with page id `0`. -/
def ofLeaf (numDim rows : ℕ) (page : Page F) : BpannIndex F where
  header :=
    { numDim := numDim
      indexedRows := rows
      rootPageId := 0
      leafCapacity := max rows 1
      skipNeighbors := DEFAULT_SKIP_NEIGHBORS }
  pages := [page]
  skipEdges := []

def buildSingleLeafFromRows (rowIds : List ℕ) (vectors : List (List F)) (numDim : ℕ) :
    BpannIndex F :=
  ofLeaf numDim rowIds.length (.leaf 0 rowIds none vectors none)

def buildRowIdsLeaf (rowIds : List ℕ) (centroid : List F) (numDim : ℕ) : BpannIndex F :=
  ofLeaf numDim rowIds.length (.leaf 0 rowIds none [] (some centroid))

def fromPagesUnpersisted (numDim indexedRows leafCapacity : ℕ) (pages : List (Page F)) :
    Outcome (BpannIndex F) :=
  if pages.isEmpty then
    throw (.error (.invalidParameter "from_pages_unpersisted requires pages"))
  else
    pure
      { header :=
          { numDim := numDim
            indexedRows := indexedRows
            rootPageId := 0
            leafCapacity := max leafCapacity 1
            skipNeighbors := DEFAULT_SKIP_NEIGHBORS }
        pages := pages
        skipEdges := [] }

end BpannIndex

section Merge

/-- The ids the pages of a part get when numbering continues at `nextId`. -/
def idMap (ids : List ℕ) (nextId : ℕ) (id : ℕ) : Option ℕ := (lastIdx id ids).map (nextId + ·)

/-- Rename the page and its children; indexing the map panics on an unknown id. -/
def remapPage (map : ℕ → Option ℕ) : Page F → Option (Page F)
  | .internal pageId centroids childPageIds => do
    return .internal (← map pageId) centroids (← childPageIds.mapM map)
  | .leaf pageId rowIds rowRange vectors storedCentroid => do
    return .leaf (← map pageId) rowIds rowRange vectors storedCentroid

/-- The edges of a part under the new ids; edges to unknown pages are dropped. -/
def remapEdges (map : ℕ → Option ℕ) (edges acc : SkipEdges) : SkipEdges :=
  edges.foldl (fun acc (from_, tos) =>
    match map from_ with
    | none => acc
    | some newFrom =>
      let newTos := tos.filterMap map
      if newTos.isEmpty then acc else acc.insert newFrom newTos) acc

/-- What `concat_merge` has collected from the parts read so far. -/
structure Merged (F : Type) where
  pages : List (Page F) := []
  childPageIds : List ℕ := []
  childCentroids : List (List F) := []
  skipEdges : SkipEdges := []
  totalRows : ℕ := 0
  nextId : ℕ := 1

def Merged.addPart [Floating F] (acc : Merged F) (part : BpannIndex F) : Option (Merged F) := do
  let map := idMap part.pageIds acc.nextId
  let root ← map part.header.rootPageId
  let pages ← part.pages.mapM (remapPage map)
  return {
    pages := acc.pages ++ pages
    childPageIds := acc.childPageIds ++ [root]
    childCentroids := acc.childCentroids ++ [part.rootCentroid]
    skipEdges := remapEdges map part.skipEdges acc.skipEdges
    totalRows := acc.totalRows + part.header.indexedRows
    nextId := acc.nextId + part.pages.length }

def BpannIndex.concatMerge [Floating F] : List (BpannIndex F) → Outcome (BpannIndex F)
  | [] => throw (.error (.invalidParameter "concat_merge requires at least one index"))
  | [single] => pure single
  | first :: rest => do
    let m ← Outcome.ofOption .panic ((first :: rest).foldlM Merged.addPart {})
    return {
      header :=
        { numDim := first.header.numDim
          indexedRows := m.totalRows
          rootPageId := 0
          leafCapacity := first.header.leafCapacity
          skipNeighbors := first.header.skipNeighbors }
      pages := m.pages ++ [.internal 0 m.childCentroids m.childPageIds]
      skipEdges := m.skipEdges }

end Merge

section Partition

/-- What the loop over the children of a node collects. -/
structure ChildPages (F : Type) where
  ids : List ℕ
  centroids : List (List F)
  pages : List (Page F)
  lastId : ℕ

variable [Floating F]

mutual

/--
The pages of a subtree, numbered from `nextId`, and an id: its own for a leaf,
the last one used for an internal node.
-/
def partitionToPagesId : PartitionNode F → ℕ → List (Page F) × ℕ
  | .leaf entries _, nextId =>
    ([.leaf nextId (entries.map Prod.fst) none (entries.map Prod.snd) none], nextId)
  | .internal _ children, nextId =>
    let c := childPages children (nextId + 1) nextId
    (.internal nextId c.centroids c.ids :: c.pages, max c.lastId nextId)

/-- The loop over the children, from the id `curId` on. -/
def childPages : List (PartitionNode F) → ℕ → ℕ → ChildPages F
  | [], _, lastId => ⟨[], [], [], lastId⟩
  | child :: rest, curId, lastId =>
    let (pages, subtreeLast) := partitionToPagesId child curId
    let c := childPages rest (subtreeLast + 1) (max lastId subtreeLast)
    match pages with
    | [] => ⟨c.ids, c.centroids, c.pages, c.lastId⟩
    | first :: _ =>
      ⟨first.pageId :: c.ids, first.centroid :: c.centroids, pages ++ c.pages, c.lastId⟩

end

def partitionToPages (node : PartitionNode F) : List (Page F) × ℕ := partitionToPagesId node 0

/-- Connect every leaf to the `k` leaves with the nearest centroids. -/
def buildSkipEdges (pages : List (Page F)) (k : ℕ) : SkipEdges :=
  let leaves := (pages.filter Page.isLeaf).map fun p => (p.pageId, p.centroid)
  leaves.zipIdx.foldl (fun edges ((idA, ca), i) =>
    let dists := (leaves.zipIdx.filter fun b => b.2 != i).map fun b => (b.1.1, l2SqF32 ca b.1.2)
    let ranked := dists.insertionSort fun a b => cmpOrEqual a.2 b.2 ≠ .gt
    edges.insert idA ((ranked.take k).map Prod.fst)) []

/--
Build an index over the given rows: one leaf when they fit, else the pages of a
k-means partition. Persisting the result only writes files.
-/
def BpannIndex.buildFromRowsWithPersist (t : Tuning) (rowIds : List ℕ)
    (vectors : List (List F)) (numDim leafCapacity : ℕ) (rng : Rng F) (depth : ℕ) :
    Outcome (BpannIndex F) :=
  if rowIds.length ≤ leafCapacity then
    pure (buildSingleLeafFromRows rowIds vectors numDim)
  else do
    let partition ←
      Outcome.ofOption .diverge (PartitionTree.build rowIds vectors leafCapacity rng depth)
    let (pages, rootPageId) := partitionToPages partition.root
    return {
      header :=
        { numDim := numDim
          indexedRows := rowIds.length
          rootPageId := rootPageId
          leafCapacity := leafCapacity
          skipNeighbors := DEFAULT_SKIP_NEIGHBORS }
      pages := pages
      skipEdges :=
        if t.1.rowsNeedSkipEdges rowIds.length then buildSkipEdges pages DEFAULT_SKIP_NEIGHBORS
        else [] }

end Partition

end Ennbo
