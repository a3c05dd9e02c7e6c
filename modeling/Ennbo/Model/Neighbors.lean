import Ennbo.Model.Basic

/-! # Neighbours of a model

A model answers queries from the search of its backend. For the exact driver a
posterior computes the distances of the candidates again from the stored rows,
and ties at the last place that is wanted go to the lower row.
-/

namespace Ennbo

variable {D F : Type}

/-- `i as usize` -/
def asUsize (i : ℤ) : ℕ := (i % 2 ^ 64).toNat

section Search

variable [Floating D] [Floating F] [FloatCast D F]

/-- Rows of ids and distances as a matrix of `k` columns. -/
def hitsMatrix (k : ℕ) (rows : List (List (ℕ × D))) : Outcome (Hits D) :=
  if h : ∀ row ∈ rows, row.length = k then
    pure
      { ncols := k
        rows := rows.map fun row => row.map fun hit => (hit.2, (hit.1 : ℤ))
        width := by
          simp only [List.mem_map, forall_exists_index, and_imp]
          rintro _ row hrow rfl
          rw [List.length_map, h row hrow] }
  else throw .panic

/-- The search of a disk backend with its results as matrices. -/
def DiskBpannEnnBackend.search (t : Tuning) (x : Array2 D) (searchK : ℕ) (excludeNearest : Bool) :
    Call (BpannBackend D F) (Hits D) := do
  let b ← Call.get
  let rows ← BpannBackend.search t x searchK excludeNearest
  Call.ofOutcome (hitsMatrix (b.searchWidth searchK) rows)

def EnnBackend.search (faiss : Faiss F) (t : Tuning) (x : Array2 D) (searchK : ℕ)
    (excludeNearest : Bool) : Call (EnnBackend D F) (Hits D) :=
  dispatch (fun b => (b.search faiss x searchK excludeNearest, b))
    (DiskBackendHandle.onData (DiskBpannEnnBackend.search t x searchK excludeNearest))

end Search

namespace EpistemicNearestNeighbors

section Neighbors

variable [Floating D] [Floating F] [FloatCast D F]

def ensureIndexSync (env : Env F) : Call (EpistemicNearestNeighbors D F) Unit := do
  let m ← Call.get
  onBackend (EnnBackend.ensureIndexSync env m.scaleX m.xScale)

/-- A backend that defers it is searched as it is. -/
def syncForSearch (env : Env F) : Call (EpistemicNearestNeighbors D F) Unit := do
  let m ← Call.get
  if !m.backend.deferIndexSyncForSearch then ensureIndexSync env else return ()

def backendSearch (faiss : Faiss F) (env : Env F) (x : Array2 D) (searchK : ℕ)
    (excludeNearest : Bool) : Call (EpistemicNearestNeighbors D F) (Hits D) := do
  syncForSearch env
  onBackend (EnnBackend.search faiss env.tuning x searchK excludeNearest)

/-- The ids in the first `k` columns. -/
def idsOf (k : ℕ) (hits : Hits D) : Array2 ℕ where
  ncols := min k hits.ncols
  rows := hits.rows.map fun row => (row.take k).map fun hit => asUsize hit.2
  width := by
    simp only [List.mem_map, forall_exists_index, and_imp]
    rintro _ row hrow rfl
    rw [List.length_map, List.length_take, hits.width row hrow]

/-- One row without entries for each query. -/
def noColumns {E : Type} (x : Array2 D) : Array2 E where
  ncols := 0
  rows := x.rows.map fun _ => []
  width := by simp +contextual

/-- How many rows a search has to return so that `k` are left. -/
def searchCount (m : EpistemicNearestNeighbors D F) (k : ℕ) (excludeNearest : Bool) : ℕ :=
  if excludeNearest then min (k + 1) m.numObs else min k m.numObs

def neighbors (faiss : Faiss F) (env : Env F) (x : Array2 D) (k : ℤ) (excludeNearest : Bool) :
    Call (EpistemicNearestNeighbors D F) (Array2 ℕ) := do
  let m ← Call.get
  if x.ncols ≠ m.numDim then
    Call.ofOutcome (throw (.error (.invalidShape [x.nrows, m.numDim] [x.nrows, x.ncols])))
  else if k < 0 then
    Call.ofOutcome (throw (.error (.invalidParameter s!"k must be non-negative, got {k}")))
  else if m.numObs = 0 then return noColumns x
  else if excludeNearest ∧ m.numObs ≤ 1 then
    Call.ofOutcome (throw (.error (.invalidParameter
      s!"exclude_nearest=true requires at least 2 observations, got {m.numObs}")))
  else
    let searchK := m.searchCount k.toNat excludeNearest
    if searchK = 0 then return noColumns x
    else
      let hits ← backendSearch faiss env x searchK excludeNearest
      return idsOf k.toNat hits

end Neighbors

section Candidates

variable [Floating D]

/-- A row that is missing here panics. -/
def orPanic {α : Type} : Outcome α → Outcome α
  | .error (.error _) => .error .panic
  | o => o

def posteriorRowSqL2 (x y : List D) (scaleX : Bool) (xScale : List D) : D :=
  rowSqL2 x y scaleX xScale

/-- The distance to the row behind an id; a negative id has no row. -/
def dist2ForId (m : EpistemicNearestNeighbors D F) (xRow : List D) (ni : ℤ) : Outcome D :=
  if ni < 0 then pure infinity
  else do
    let row ← orPanic (m.backend.rowX (asUsize ni))
    return posteriorRowSqL2 xRow row m.scaleX m.xScale

/-- The hits with the distances of the stored rows. -/
def dist2sForNeighborIndices (m : EpistemicNearestNeighbors D F) (x : Array2 D)
    (hits : List (List (D × ℤ))) : Outcome (List (List (D × ℤ))) :=
  (x.rows.zip hits).mapM fun q =>
    q.2.mapM fun hit => do return (← m.dist2ForId q.1 hit.2, hit.2)

def rowDist2sForQuery (m : EpistemicNearestNeighbors D F) (xRow : List D) : Outcome (List D) :=
  (List.range m.numObs).mapM fun j => do
    let row ← orPanic (m.backend.rowX j)
    return posteriorRowSqL2 xRow row m.scaleX m.xScale

end Candidates

end EpistemicNearestNeighbors

namespace TieBreak

variable [Floating D] [Analysis D]

def PairLe {I : Type} [Ord I] (a b : D × I) : Prop :=
  (totalCmp a.1 b.1).then (compare a.2 b.2) ≠ .gt

instance {I : Type} [Ord I] : DecidableRel (PairLe (D := D) (I := I)) :=
  fun _ _ => inferInstanceAs (Decidable (_ ≠ _))

def faissPairsFromRow (row : List (D × ℤ)) : List (D × ℤ) :=
  (row.filter fun p => 0 ≤ p.2).insertionSort PairLe

/-- The distance at place `i`. -/
def distAt (pairs : List (D × ℤ)) (i : ℕ) : D := (pairs.map Prod.fst).getD i 0

/-- Where the pairs at the distance of the last of `k` places begin. -/
def tieStart (pairs : List (D × ℤ)) (k : ℕ) : ℕ :=
  ((pairs.take k).takeWhile fun p => ltB p.1 (distAt pairs (k - 1))).length

def faissPoolNeedsTieResolution (pairs : List (D × ℤ)) (k : ℕ) : Bool :=
  if k < 2 ∨ pairs.length < k then false else tieStart pairs k < k - 1

/-- The `k`-th smallest distance of a row. -/
def cutoff (row : List D) (k : ℕ) : D :=
  (row.insertionSort fun a b => totalCmp a b ≠ .gt).getD (k - 1) 0

def faissPoolNeedsFullRowScanFromRow (row : List D) (k : ℕ) : Bool :=
  if k = 0 ∨ row.length ≤ k then false
  else k < (row.filter fun d => totalCmp d (cutoff row k) ≠ .gt).length

/-- The nearest rows, as they are picked when ties are broken by index. -/
def topkIndicesFromRowDists (row : List D) (k : ℕ) : List (D × ℕ) :=
  if k = 0 then []
  else
    ((row.zipIdx.filter fun p => totalCmp p.1 (cutoff row k) ≠ .gt).insertionSort PairLe).take k

def applyIndexTieBreakAtCutoff (pairs : List (D × ℤ)) (k : ℕ) : List (D × ℤ) :=
  if k = 0 then pairs
  else
    let start := tieStart pairs k
    pairs.take start ++ ((pairs.take k).drop start).insertionSort (fun a b => a.2 ≤ b.2) ++
      pairs.drop k

def resolvePoolTieBreakAtCutoff (pairs : List (D × ℤ)) (k : ℕ) : List (D × ℤ) :=
  if faissPoolNeedsTieResolution pairs k then
    (applyIndexTieBreakAtCutoff pairs k).insertionSort PairLe
  else pairs

/-- Whether the places `k - 1` and `k` are at one distance. -/
def tiedAtCutoff (pairs : List (D × ℤ)) (k : ℕ) : Bool :=
  k < pairs.length && totalCmp (distAt pairs (k - 1)) (distAt pairs k) == .eq

/-- The first `k` of a pool that goes on at the distance of the last place. -/
def tryResolveBoundaryTieInPool (pairs : List (D × ℤ)) (k : ℕ) : Option (List (D × ℤ)) :=
  if k = 0 ∨ !tiedAtCutoff pairs k then none
  else
    let dCut := distAt pairs (k - 1)
    let below := pairs.filter fun p => totalCmp p.1 dCut == .lt
    let atCut := pairs.filter fun p => totalCmp p.1 dCut == .eq
    if below.length + atCut.length ≤ k then none
    else
      some ((below ++ (atCut.insertionSort fun a b => a.2 ≤ b.2).take
        (k - below.length)).insertionSort PairLe)

/-- The first `k` of a pool, or nothing when the whole row has to be scanned. -/
def finalizeFaissPoolTopk (rowDists : Outcome (List D)) (pairs : List (D × ℤ)) (k : ℕ)
    (tieBreakNeighbors : Bool) : Outcome (Option (List (D × ℤ))) :=
  if !tieBreakNeighbors then pure (some (pairs.take k))
  else if tiedAtCutoff pairs k then
    match tryResolveBoundaryTieInPool pairs k with
    | some pairs => pure (some pairs)
    | none => do
      let row ← rowDists
      if faissPoolNeedsFullRowScanFromRow row k then return none
      else return some (resolvePoolTieBreakAtCutoff (pairs.take k) k)
  else if faissPoolNeedsTieResolution (pairs.take k) k then do
    let row ← rowDists
    if faissPoolNeedsFullRowScanFromRow row k then return none
    else return some (resolvePoolTieBreakAtCutoff (pairs.take k) k)
  else pure (some (pairs.take k))

/-- The first `k` of the pool of one query. -/
def topkRow (rowDists : Outcome (List D)) (hits : List (D × ℤ)) (k : ℕ)
    (tieBreakNeighbors : Bool) : Outcome (List (D × ℤ)) := do
  match ← finalizeFaissPoolTopk rowDists (faissPairsFromRow hits) k tieBreakNeighbors with
  | some pairs => return pairs
  | none => do
    let row ← rowDists
    return (topkIndicesFromRowDists row k).map fun p => (p.1, (p.2 : ℤ))

/-- Rows of `searchK` places; those that are not filled have no id. -/
def placed (searchK : ℕ) (rows : List (List (D × ℤ))) : Hits D where
  ncols := searchK
  rows := rows.map fun row => (List.range searchK).map fun j => row.getD j (infinity, -1)
  width := by
    simp only [List.mem_map, forall_exists_index, and_imp]
    rintro _ row - rfl
    rw [List.length_map, List.length_range]

def applyExcludeNearest (hits : Hits D) (excludeNearest : Bool) : Hits D :=
  if excludeNearest then ENNIndex.dropNearest hits else hits

end TieBreak

namespace EpistemicNearestNeighbors

variable [Floating D] [Floating F] [FloatCast D F] [Analysis D]

open TieBreak

/-- How many candidates the index is asked for. -/
def faissSearchK (m : EpistemicNearestNeighbors D F) (searchK : ℕ) (tieBreakNeighbors : Bool) : ℕ :=
  let k := min searchK m.numObs
  if tieBreakNeighbors ∧ k < m.numObs then min (max searchK (k + 1)) m.numObs else searchK

def exactF64BatchTopk (faiss : Faiss F) (env : Env F) (x : Array2 D) (searchK : ℕ)
    (excludeNearest tieBreakNeighbors : Bool) :
    Call (EpistemicNearestNeighbors D F) (Hits D) := do
  let m ← Call.get
  let k := min searchK m.numObs
  if k = 0 then
    return applyExcludeNearest (placed searchK (x.rows.map fun _ => [])) excludeNearest
  else
    let hits ← backendSearch faiss env x (m.faissSearchK searchK tieBreakNeighbors) false
    let m ← Call.get
    let pools ← Call.ofOutcome
      (if tieBreakNeighbors then m.dist2sForNeighborIndices x hits.rows else pure hits.rows)
    let rows ← Call.ofOutcome ((x.rows.zip pools).mapM fun q =>
      topkRow (m.rowDist2sForQuery q.1) q.2 k tieBreakNeighbors)
    return applyExcludeNearest (placed searchK rows) excludeNearest

/-- The hits of another driver, with the distances of the stored rows. -/
def rescored (m : EpistemicNearestNeighbors D F) (x : Array2 D) (hits : Hits D) :
    Outcome (Hits D) := do
  let rows ← m.dist2sForNeighborIndices x hits.rows
  if h : ∀ row ∈ rows, row.length = hits.ncols then return ⟨hits.ncols, rows, h⟩
  else throw .panic

def indexSearch (faiss : Faiss F) (env : Env F) (x : Array2 D) (searchK : ℕ)
    (excludeNearest tieBreakNeighbors : Bool) :
    Call (EpistemicNearestNeighbors D F) (Hits D) := do
  syncForSearch env
  let m ← Call.get
  if m.backend.driver = .exact then
    exactF64BatchTopk faiss env x searchK excludeNearest tieBreakNeighbors
  else
    let hits ← backendSearch faiss env x searchK excludeNearest
    let m ← Call.get
    Call.ofOutcome (m.rescored x hits)

end EpistemicNearestNeighbors

end Ennbo
