import Ennbo.Backend.Basic
import Ennbo.Search.Candidates

/-! # Search over fragments and pending rows

A large set of rows is searched in two legs. The fragments give candidates, the
pending rows are scanned, and the two legs are merged. Queries are answered
independently of one another.
-/

namespace Ennbo

open Ranking

variable {D F : Type} [Floating D] [Floating F] [FloatCast D F]

section Pending

/-- The distance to a converted row, summed from left to right; missing columns panic. -/
def pendingDistance (query : List D) (scaleX : Bool) (xScale : List D) (vec : List F) :
    Outcome F :=
  if scaleX then
    (List.range query.length).foldlM (fun acc j => do
      let sc ← Outcome.ofOption .panic xScale[j]?
      let q ← Outcome.ofOption .panic query[j]?
      let r ← Outcome.ofOption .panic vec[j]?
      let d := toF32 q / toF32 sc - r
      return acc + d * d) 0
  else
    pure ((query.zip vec).foldl (fun acc qr =>
      let d := toF32 qr.1 - qr.2
      acc + d * d) 0)

def bpannBruteForceTopkMmap (trainX : MmapColumnStore D) (start stop : ℕ) (query : List D)
    (k : ℕ) (scaleX : Bool) (xScale : List D) : Outcome (List (ℕ × F)) := do
  let scored ← (List.range' start (stop - start)).mapM fun i => do
    let row ← trainX.mmapRowSlice i
    let dist ← pendingDistance query scaleX xScale (bpannRowToF32 row scaleX xScale)
    return (toU32 i, dist)
  return (scored.insertionSort ScoredLe).take k

end Pending

structure SearchPendingArgs (D : Type) where
  total : ℕ
  kEff : ℕ
  poolK : ℕ
  excludeNearest : Bool
  scaleX : Bool
  xScale : List D

namespace SearchPendingArgs

def indexK (args : SearchPendingArgs D) : ℕ :=
  if args.excludeNearest then max args.poolK (args.kEff * 2) else args.kEff

omit [Floating D] in
theorem le_indexK (args : SearchPendingArgs D) (hk : 1 ≤ args.kEff) :
    args.excludeNearest.toNat + args.kEff ≤ args.indexK := by
  unfold indexK
  split
  next h =>
    rw [h, Bool.toNat_true]
    omega
  next h =>
    rw [Bool.not_eq_true] at h
    rw [h, Bool.toNat_false]
    omega

end SearchPendingArgs

namespace BpannBackend

/-- The rows of a backend under the scale of a search. -/
def searchStore (b : BpannBackend D F) (args : SearchPendingArgs D) : MmapSearchStore D where
  trainX := b.trainX
  scaleX := args.scaleX
  xScale := args.xScale

/-- The candidates from the fragments. -/
def fragmentLeg (t : Tuning) (b : BpannBackend D F) (args : SearchPendingArgs D)
    (query : List D) : Outcome (List (ℕ × F)) :=
  if 0 < b.index.indexedRows ∧ b.index.indices ≠ [] then
    IncrementalIndex.expect (b.index.searchCandidates t
      (bpannRowToF32 query args.scaleX args.xScale) (max args.indexK 1)
      (some (b.searchStore args)))
  else pure []

/-- The candidates from the pending rows. -/
def pendingLeg (b : BpannBackend D F) (args : SearchPendingArgs D) (query : List D) :
    Outcome (List (ℕ × F)) :=
  if b.index.indexedRows < args.total then
    IncrementalIndex.expect (bpannBruteForceTopkMmap b.trainX b.index.indexedRows args.total
      query args.poolK args.scaleX args.xScale)
  else pure []

/-- Only the merge of scaled rows reads the stored rows again. -/
def mergeLegs (b : BpannBackend D F) (args : SearchPendingArgs D) (query : List D)
    (legA legB : List (ℕ × F)) : Outcome (List (ℕ × D)) :=
  if args.scaleX then
    IncrementalIndex.expect (bpannMergeTopkCandidates b.trainX query legA legB args.kEff
      args.poolK args.excludeNearest args.scaleX args.xScale)
  else mergeTopkPrecomputedDist legA legB args.kEff args.poolK args.excludeNearest

def searchIndexedAndPending (t : Tuning) (b : BpannBackend D F) (queryRows : List (List D))
    (args : SearchPendingArgs D) : Outcome (List (List (ℕ × D))) :=
  queryRows.mapM fun query => do
    let legA ← b.fragmentLeg t args query
    let legB ← b.pendingLeg args query
    let merged ← b.mergeLegs args query legA legB
    return resultRow args.kEff merged

end BpannBackend

section Exact

variable {K : Type} [ExactArith K]

theorem foldl_zip_squares (a b : List K) :
    (a.zip b).foldl (fun (acc : K) (xy : K × K) => acc + (xy.1 - xy.2) * (xy.1 - xy.2)) 0 =
      sqDist a b := by
  rw [← List.foldl_map (f := fun xy : K × K => xy.1 - xy.2) (g := fun (acc d : K) => acc + d * d),
    foldl_squares, zero_add, List.map_map, sqDist, ← List.map_uncurry_zip_eq_zipWith]
  rfl

theorem foldl_range_squares (n : ℕ) (d : ℕ → K) :
    (List.range n).foldl (fun acc j => acc + d j * d j) 0 =
      ((List.range n).map fun j => d j * d j).sum := by
  rw [← List.foldl_map (f := d) (g := fun (acc d : K) => acc + d * d), foldl_squares, zero_add,
    List.map_map]
  rfl

/-- In exact arithmetic the running sum is the squared distance of the scaled rows. -/
theorem pendingDistance_eq {query row xScale : List K} {scaleX : Bool}
    (h : query.length = row.length) (hs : xScale.length = row.length) :
    pendingDistance query scaleX xScale (bpannRowToF32 row scaleX xScale : List K) =
      .ok (sqDist (bpannRowToF32 query scaleX xScale) (bpannRowToF32 row scaleX xScale)) := by
  unfold pendingDistance
  cases scaleX with
  | false =>
    have hid : ∀ row : List K, (bpannRowToF32 row false xScale : List K) = row := List.map_id
    rw [hid, hid]
    exact congrArg Except.ok (foldl_zip_squares query row)
  | true =>
    have hlen := length_bpannRowToF32 true hs
    have hqlen := length_bpannRowToF32 true (hs.trans h.symm)
    rw [if_pos rfl, Outcome.foldlM_eq_ok (g := fun acc j =>
      acc + (query.getD j 0 / xScale.getD j 0 - (bpannRowToF32 row true xScale).getD j 0) *
        (query.getD j 0 / xScale.getD j 0 - (bpannRowToF32 row true xScale).getD j 0)),
      foldl_range_squares]
    · congr 2
      apply List.ext_getElem
      · simp [hlen, hqlen, h]
      · intro j hj _
        have hj : j < query.length := by simpa using hj
        simp [bpannRowToF32, show j < row.length by omega, show j < xScale.length by omega, hj]
    · intro j hj acc
      have hj := List.mem_range.mp hj
      have hjs : j < xScale.length := by omega
      have hjr : j < (bpannRowToF32 row true xScale : List K).length := by omega
      rw [List.getElem?_eq_getElem hj, List.getElem?_eq_getElem hjs,
        List.getElem?_eq_getElem hjr, List.getD_eq_getElem _ _ hj, List.getD_eq_getElem _ _ hjs,
        List.getD_eq_getElem _ _ hjr]
      rfl

namespace BpannBackend

variable {b : BpannBackend K K} {args : SearchPendingArgs K} {query : List K} {t : Tuning}

def searchDist (b : BpannBackend K K) (args : SearchPendingArgs K) (query : List K) : ℕ → K :=
  (b.searchStore args).dist (bpannRowToF32 query args.scaleX args.xScale)

/-- The query and the scale have one entry for each column. -/
structure Widths (b : BpannBackend K K) (args : SearchPendingArgs K) (query : List K) : Prop where
  query_eq : query.length = b.trainX.ncols
  xScale_eq : args.xScale.length = b.trainX.ncols
  total_le : args.total ≤ b.trainX.nrows
  total_u32 : args.total ≤ 2 ^ 32

theorem Widths.fits (hw : b.Widths args query) :
    (b.searchStore args).Fits (bpannRowToF32 query args.scaleX args.xScale) := by
  intro i hi
  have hrow := b.trainX.length_getD_rows hi
  unfold MmapSearchStore.data rowData
  rw [length_bpannRowToF32 _ (hw.xScale_eq.trans hw.query_eq.symm), hw.query_eq]
  exact ((length_bpannRowToF32 _ (hw.xScale_eq.trans hrow.symm)).trans hrow).symm

/-- The scan ranks all pending rows. -/
theorem pendingLeg_eq (hw : b.Widths args query) :
    b.pendingLeg args query = .ok (topK ScoredLe args.poolK (scored (b.searchDist args query)
      (List.range' b.index.indexedRows (args.total - b.index.indexedRows)))) := by
  unfold pendingLeg
  split
  next hlt =>
    rw [IncrementalIndex.expect_eq_ok]
    unfold bpannBruteForceTopkMmap
    rw [Outcome.bind_eq_ok]
    refine ⟨_, ?_, rfl⟩
    rw [mapM_ok_iff, scored, List.forall₂_map_right_iff, List.forall₂_same]
    intro i hi
    have hi := List.mem_range'_1.mp hi
    have htotal := hw.total_le
    have h32 := hw.total_u32
    have hin : i < b.trainX.nrows := by omega
    have hrow := b.trainX.length_getD_rows hin
    rw [MmapColumnStore.mmapRowSlice_eq hin]
    simp only [Outcome.bind_eq_ok]
    refine ⟨_, rfl, _, pendingDistance_eq (hw.query_eq.trans hrow.symm)
      (hw.xScale_eq.trans hrow.symm), ?_⟩
    rw [toU32_of_lt (by omega)]
    rfl
  next hge =>
    rw [Nat.sub_eq_zero_of_le (not_lt.mp hge)]
    rw [List.range'_zero, scored, List.map_nil, topK_nil]
    rfl

def fragmentRows (t : Tuning) (b : BpannBackend K K) (queryF32 : List K) : List ℕ :=
  if 0 < b.index.indexedRows ∧ b.index.indices ≠ [] then b.index.reachedRows t queryF32 else []

/-- The fragments can be searched and list stored rows. -/
structure Scannable (t : Tuning) (b : BpannBackend K K) : Prop where
  scannable : ∀ idx ∈ b.index.indices, idx.Scannable t
  rows_lt : ∀ idx ∈ b.index.indices, ∀ i ∈ idx.leafRows, i < b.trainX.nrows

theorem fragmentLeg_eq (hw : b.Widths args query) (hs : b.Scannable t) :
    ∃ hits, b.fragmentLeg t args query = .ok (topK ScoredLe (max args.indexK 1) hits) ∧
      hits.map Prod.fst = b.fragmentRows t (bpannRowToF32 query args.scaleX args.xScale) ∧
      ((∀ idx ∈ b.index.indices, ∀ p ∈ idx.pages, p.Holds (b.searchStore args).data) →
        hits = scored (b.searchDist args query)
          (b.fragmentRows t (bpannRowToF32 query args.scaleX args.xScale))) := by
  unfold fragmentLeg fragmentRows
  split
  · simp only [IncrementalIndex.expect_eq_ok]
    exact IncrementalIndex.searchCandidates_eq hw.fits hs.scannable hs.rows_lt _
  · refine ⟨[], ?_, rfl, fun _ => rfl⟩
    rw [topK_nil]
    rfl

theorem range_append_range' {m n : ℕ} (h : m ≤ n) :
    List.range m ++ List.range' m (n - m) = List.range n := by
  have hsplit := List.range'_append_1 (s := 0) (m := m) (n := n - m)
  rw [Nat.zero_add, Nat.add_sub_cancel' h] at hsplit
  rw [List.range_eq_range', List.range_eq_range', hsplit]

theorem ids_legs_subperm (m p : ℕ) (hitsA hitsB : List (ℕ × K)) :
    ((topK ScoredLe m hitsA ++ topK ScoredLe p hitsB).map Prod.fst).Subperm
      (hitsA.map Prod.fst ++ hitsB.map Prod.fst) := by
  obtain ⟨l, hperm, hsub⟩ :=
    List.Subperm.append (subperm_topK ScoredLe m hitsA) (subperm_topK ScoredLe p hitsB)
  rw [← List.map_append]
  exact ⟨l.map Prod.fst, hperm.map _, hsub.map _⟩

/-- Merging keeps all candidates; scaled distances are taken from the stored rows. -/
theorem mergeLegs_eq (hw : b.Widths args query) {legA legB : List (ℕ × K)}
    (hids : ((legA ++ legB).map Prod.fst).Nodup)
    (hrows : ∀ i ∈ (legA ++ legB).map Prod.fst, i < b.trainX.nrows) :
    b.mergeLegs args query legA legB =
      .ok (rankMerged args.kEff args.poolK args.excludeNearest
        (if args.scaleX then scored (b.searchDist args query) ((legA ++ legB).map Prod.fst)
          else legA ++ legB)) := by
  unfold mergeLegs
  split
  next hscale =>
    rw [IncrementalIndex.expect_eq_ok]
    unfold bpannMergeTopkCandidates
    rw [Outcome.bind_eq_ok]
    refine ⟨_, firstSeen_of_nodup (f := fun hit => b.searchDist args query hit.1) hids ?_, ?_⟩
    · intro hit hmem
      have hlt := hrows hit.1 (List.mem_map_of_mem hmem)
      have hrow := b.trainX.length_getD_rows hlt
      rw [MmapColumnStore.mmapRowSlice_eq hlt]
      refine congrArg Except.ok (rowSqL2_eq (hw.query_eq.trans hrow.symm) ?_)
      exact hw.xScale_eq.trans hw.query_eq.symm
    · rw [scored, List.map_map]
      rfl
  next => exact mergeTopkPrecomputedDist_eq hids _ _ _

end BpannBackend

end Exact

end Ennbo
