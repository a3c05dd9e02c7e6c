import Ennbo.Model.Exact
import Ennbo.Model.Maintained
import Ennbo.Model.Ties
import Ennbo.Ranking.Pool

/-! # The nearest rows of a model in memory

The index is asked for one row more than is wanted, and which of the rows at one
distance it returns is open. The first rows by distance and then by id come out
exactly when the rows up to the last distance that is wanted fit into what was
asked for.
-/

namespace Ennbo

open Ranking TieBreak

variable {K : Type} [ExactArith K]

/-- `k` distinct rows are found, and no row that is left out is nearer. -/
def Faiss.Nearest (faiss : Faiss K) : Prop :=
  ∀ rows query k, k ≤ rows.length →
    Pool Prod.fst (rowPairs (rows.map (sqDist query))) ((List.range k).map
      (faiss.search rows query k))

namespace Faiss

def picking (pick : ℕ → List (K × ℤ) → List (K × ℤ)) : Faiss K where
  search rows query k j := (pick k (rowPairs (rows.map (sqDist query)))).getD j (0, -1)

variable {pick : ℕ → List (K × ℤ) → List (K × ℤ)}

theorem map_search_picking (hlen : ∀ k l, k ≤ l.length → (pick k l).length = k)
    (rows : List (List K)) (query : List K) {k : ℕ} (hk : k ≤ rows.length) :
    (List.range k).map ((picking pick).search rows query k) =
      pick k (rowPairs (rows.map (sqDist query))) := by
  have hpick := hlen k (rowPairs (rows.map (sqDist query))) (by simpa using hk)
  apply List.ext_getElem
  · simp [hpick]
  · intro j hj₁ hj₂
    simp [picking, hj₂]

theorem nearest_picking (hlen : ∀ k l, k ≤ l.length → (pick k l).length = k)
    (hpool : ∀ k dists, Pool Prod.fst (rowPairs dists) (pick k (rowPairs dists))) :
    (picking pick).Nearest := by
  intro rows query k hk
  rw [map_search_picking hlen rows query hk]
  exact hpool k _

section Adversaries

variable [Analysis K]

def backwards : Faiss K := picking fun k l => (topK PairLe k l).reverse

def highest : Faiss K := picking (topK HighLe)

omit [ExactArith K] in
theorem length_reverse_topK (k : ℕ) (l : List (K × ℤ)) (hk : k ≤ l.length) :
    (topK PairLe k l).reverse.length = k := by
  rw [List.length_reverse, length_topK, min_eq_left hk]

omit [ExactArith K] in
theorem length_topK_highLe (k : ℕ) (l : List (K × ℤ)) (hk : k ≤ l.length) :
    (topK HighLe k l).length = k := by
  rw [length_topK, min_eq_left hk]

variable [ExactOrder K]

theorem nearest_backwards : (backwards : Faiss K).Nearest :=
  nearest_picking length_reverse_topK fun k dists =>
    (pool_topK PairLe (nodup_rowPairs dists) (fun _ _ => fst_le_of_pairLe) k).perm
      (List.reverse_perm _)

theorem nearest_highest : (highest : Faiss K).Nearest :=
  nearest_picking length_topK_highLe fun k dists =>
    pool_topK HighLe (nodup_rowPairs dists) (fun _ _ => fst_le_of_pairLe) k

end Adversaries

end Faiss

section Distances

def indexRow (scaleX : Bool) (xScale : List K) (row : List K) : List K :=
  if scaleX then row.mapIdx fun j v => v / xScale.getD j 0 else row

theorem sqDist_cons (a b : K) (as bs : List K) :
    sqDist (a :: as) (b :: bs) = (a - b) * (a - b) + sqDist as bs := by
  rw [sqDist, List.zipWith_cons_cons, List.sum_cons, sqDist]

/-- Columns without a scale are divided by zero and add nothing. -/
theorem rowSqL2_eq_indexRow (x y xScale : List K) (scaleX : Bool) :
    rowSqL2 x y scaleX xScale = sqDist (indexRow scaleX xScale x) (indexRow scaleX xScale y) := by
  unfold rowSqL2 indexRow
  dsimp only
  rw [foldl_squares, zero_add]
  cases scaleX with
  | false =>
    simp only [Bool.false_eq_true, if_false, map_sub_squares]
    exact max_eq_left (sqDist_nonneg x y)
  | true =>
    simp only [if_true]
    have hsum : ((List.zipWith (fun xy sc => xy.1 / sc - xy.2 / sc) (x.zip y) xScale).map
        fun d => d * d).sum = sqDist (x.mapIdx fun j v => v / xScale.getD j 0)
          (y.mapIdx fun j v => v / xScale.getD j 0) := by
      induction x generalizing y xScale with
      | nil => rfl
      | cons a x ih =>
        cases y with
        | nil => simp [sqDist]
        | cons b y =>
          cases xScale with
          | nil =>
            have hnil := ih y []
            simp only [List.zipWith_nil_right, List.map_nil, List.sum_nil, List.getD_nil] at hnil
            simp only [List.mapIdx_cons, sqDist_cons, List.zipWith_nil_right, List.map_nil,
              List.sum_nil, List.getD_nil, div_zero, sub_self, mul_zero, zero_add]
            simpa only [div_zero] using hnil
          | cons s xScale =>
            simp only [List.mapIdx_cons, sqDist_cons, List.zip_cons_cons, List.zipWith_cons_cons,
              List.map_cons, List.sum_cons, List.getD_cons_zero, List.getD_cons_succ, ih]
    rw [hsum]
    exact max_eq_left (sqDist_nonneg _ _)

namespace InMemoryEnnBackend

def distances (b : InMemoryEnnBackend K K) (scaleX : Bool) (xScale q : List K) : List K :=
  b.trainXRows.rows.map fun row => sqDist (indexRow scaleX xScale q) (indexRow scaleX xScale row)

variable (b : InMemoryEnnBackend K K) (scaleX : Bool) (xScale q : List K)

@[simp] theorem length_distances : (b.distances scaleX xScale q).length = b.len := List.length_map _

theorem map_sqDist_indexRows (hcols : b.trainXRows.ncols ≠ 0) :
    (b.indexRows scaleX xScale).map (sqDist (indexRow scaleX xScale q)) =
      b.distances scaleX xScale q := by
  have hid : ∀ row : List K, row.map (toF32 : K → K) = row := List.map_id
  unfold indexRows distances FaissBackend.arr2RowsToF32 indexRow
  rw [if_neg hcols]
  cases scaleX with
  | true =>
    rw [if_pos rfl]
    unfold ENNIndex.divideCols Array2.mapCols
    simp [hid]
  | false => simp [hid]

variable [Analysis K]

/-- The first `k` rows by distance and then by id. -/
def nearestRows (k : ℕ) : List (K × ℤ) := topK PairLe k (rowPairs (b.distances scaleX xScale q))

variable {b scaleX xScale q} {faiss : Faiss K} {p : ℕ}

omit [Analysis K] in
theorem length_syncedIndex :
    (b.syncedIndex scaleX xScale : ENNIndex K K).len =
      if b.trainXRows.ncols = 0 then 0 else b.len := b.length_indexRows scaleX xScale

variable (scaleX xScale q) in
omit [Analysis K] in
theorem hit_mem_rowPairs (hf : faiss.Nearest) (hcols : b.trainXRows.ncols ≠ 0) {n j : ℕ}
    (hn : n ≤ b.len) (hj : j < n) :
    faiss.search (b.indexRows scaleX xScale) (indexRow scaleX xScale q) n j ∈
      rowPairs (b.distances scaleX xScale q) := by
  have hlen : n ≤ (b.indexRows scaleX xScale).length := by rwa [length_indexRows, if_neg hcols]
  have hpool := hf _ (indexRow scaleX xScale q) n hlen
  rw [map_sqDist_indexRows b scaleX xScale q hcols] at hpool
  exact hpool.subset (List.mem_map_of_mem (List.mem_range.mpr hj))

/-- What is found for one place; behind the rows the last id is repeated. -/
def placeHit (faiss : Faiss K) (b : InMemoryEnnBackend K K) (scaleX : Bool) (xScale : List K)
    (p : ℕ) (q : List K) (j : ℕ) : K × ℤ :=
  let search := faiss.search (b.indexRows scaleX xScale) (indexRow scaleX xScale q) (min p b.len)
  if j < min p b.len then search j else (infinity, (search (min p b.len - 1)).2)

omit [Analysis K] in
theorem searchRow_eq (hcols : b.trainXRows.ncols ≠ 0) (hpos : 0 < b.len) :
    (b.syncedIndex scaleX xScale).searchRow faiss p q =
      (List.range p).map (b.placeHit faiss scaleX xScale p q) := by
  apply List.map_congr_left
  intro j hj
  have hj := List.mem_range.mp hj
  have hrow : (if scaleX then q.mapIdx fun j v => v / xScale.getD j 0 else q).map
      (toF32 : K → K) = indexRow scaleX xScale q := List.map_id _
  rw [length_syncedIndex, if_neg hcols, if_neg hpos.ne']
  unfold FaissBackend.paddedHit placeHit
  rw [if_neg (show min p b.len ≠ 0 by omega)]
  rw [← hrow]
  rfl

omit [Analysis K] in
theorem placeHit_mem_rowPairs (hf : faiss.Nearest) (hcols : b.trainXRows.ncols ≠ 0) {j : ℕ}
    (hj : j < min p b.len) :
    b.placeHit faiss scaleX xScale p q j ∈ rowPairs (b.distances scaleX xScale q) := by
  unfold placeHit
  rw [if_pos hj]
  exact hit_mem_rowPairs scaleX xScale q hf hcols (min_le_right p b.len) hj

omit [Analysis K] in
/-- Every place has the id of a row. -/
theorem exists_id_of_mem_searchRow (hf : faiss.Nearest) (hpos : 0 < b.len) {hit : K × ℤ}
    (hmem : hit ∈ (b.syncedIndex scaleX xScale).searchRow faiss p q) :
    ∃ i : Fin b.len, hit.2 = (i : ℤ) := by
  by_cases hcols : b.trainXRows.ncols = 0
  · obtain ⟨j, -, rfl⟩ := List.mem_map.mp hmem
    rw [length_syncedIndex, if_pos hcols, if_pos rfl]
    exact ⟨⟨0, hpos⟩, rfl⟩
  · rw [searchRow_eq hcols hpos] at hmem
    obtain ⟨j, hj, rfl⟩ := List.mem_map.mp hmem
    have hj := List.mem_range.mp hj
    have hid : ∀ j < min p b.len, ∃ i : Fin b.len,
        (faiss.search (b.indexRows scaleX xScale) (indexRow scaleX xScale q) (min p b.len) j).2 =
          (i : ℤ) := by
      intro j hj
      obtain ⟨i, hi⟩ := mem_rowPairs.mp
        (hit_mem_rowPairs scaleX xScale q hf hcols (min_le_right p b.len) hj)
      exact ⟨i.cast (length_distances ..), (congrArg Prod.snd hi).symm⟩
    unfold placeHit
    dsimp only
    split
    next hlt => exact hid j hlt
    next => exact hid _ (by omega)

/-- The candidates of a query with the distances of the stored rows. -/
def pool (faiss : Faiss K) (b : InMemoryEnnBackend K K) (scaleX : Bool) (xScale : List K) (p : ℕ)
    (q : List K) : List (K × ℤ) :=
  ((b.syncedIndex scaleX xScale).searchRow faiss p q).map fun hit =>
    ((b.distances scaleX xScale q).getD hit.2.toNat 0, hit.2)

omit [Analysis K] in
@[simp] theorem length_pool : (pool faiss b scaleX xScale p q).length = p := by
  unfold pool ENNIndex.searchRow
  rw [List.length_map, List.length_map, List.length_range]

omit [Analysis K] in
theorem rescored_eq {dists : List K} {hit : K × ℤ} (h : hit ∈ rowPairs dists) :
    (dists.getD hit.2.toNat 0, hit.2) = hit := by
  obtain ⟨i, rfl⟩ := mem_rowPairs.mp h
  simp

omit [Analysis K] in
theorem pool_subset (hf : faiss.Nearest) (hpos : 0 < b.len) :
    pool faiss b scaleX xScale p q ⊆ rowPairs (b.distances scaleX xScale q) := by
  intro a ha
  obtain ⟨hit, hmem, rfl⟩ := List.mem_map.mp ha
  obtain ⟨i, hi⟩ := exists_id_of_mem_searchRow hf hpos hmem
  have hlen : i.val < (b.distances scaleX xScale q).length := by
    rw [length_distances]
    exact i.isLt
  rw [mem_rowPairs]
  refine ⟨⟨i, hlen⟩, ?_⟩
  rw [hi, Int.toNat_natCast, List.getD_eq_getElem _ _ hlen]
  rfl

omit [Analysis K] in
theorem pool_eq (hf : faiss.Nearest) (hcols : b.trainXRows.ncols ≠ 0) (hp : p ≤ b.len) :
    pool faiss b scaleX xScale p q = (List.range p).map
      (faiss.search (b.indexRows scaleX xScale) (indexRow scaleX xScale q) p) := by
  rcases Nat.eq_zero_or_pos p with rfl | hpos
  · rfl
  · unfold pool
    rw [searchRow_eq hcols (hpos.trans_le hp), List.map_map]
    apply List.map_congr_left
    intro j hj
    have hj := List.mem_range.mp hj
    rw [Function.comp_apply, rescored_eq (placeHit_mem_rowPairs hf hcols (by omega))]
    unfold placeHit
    dsimp only
    rw [min_eq_left hp, if_pos hj]

omit [Analysis K] in
theorem pool_pool (hf : faiss.Nearest) (hcols : b.trainXRows.ncols ≠ 0) (hp : p ≤ b.len) :
    Pool Prod.fst (rowPairs (b.distances scaleX xScale q)) (pool faiss b scaleX xScale p q) := by
  rw [pool_eq hf hcols hp, ← map_sqDist_indexRows b scaleX xScale q hcols]
  apply hf
  rwa [length_indexRows, if_neg hcols]

omit [Analysis K] in
theorem distances_of_no_columns (hcols : b.trainXRows.ncols = 0) :
    b.distances scaleX xScale q = List.replicate b.len 0 := by
  rw [List.eq_replicate_iff, length_distances, and_iff_right rfl]
  intro d hd
  obtain ⟨row, hrow, rfl⟩ := List.mem_map.mp hd
  have hnil : row = [] := List.eq_nil_of_length_eq_zero ((b.trainXRows.width row hrow).trans hcols)
  rw [hnil]
  unfold indexRow sqDist
  simp

omit [Analysis K] in
theorem pool_of_no_columns (hcols : b.trainXRows.ncols = 0) (hpos : 0 < b.len) :
    pool faiss b scaleX xScale p q = List.replicate p (0, 0) := by
  unfold pool ENNIndex.searchRow
  rw [List.map_map, List.eq_replicate_iff, List.length_map, List.length_range, and_iff_right rfl]
  intro a ha
  obtain ⟨j, -, rfl⟩ := List.mem_map.mp ha
  rw [Function.comp_apply, length_syncedIndex, if_pos hcols, if_pos rfl,
    distances_of_no_columns hcols]
  obtain ⟨n, hn⟩ : ∃ n, b.len = n + 1 := ⟨b.len - 1, by omega⟩
  rw [hn]
  rfl

variable [ExactOrder K]

theorem pool_highest (hcols : b.trainXRows.ncols ≠ 0) (hp : p ≤ b.len) :
    b.pool .highest scaleX xScale p q =
      topK HighLe p (rowPairs (b.distances scaleX xScale q)) := by
  have hlen : p ≤ (b.indexRows scaleX xScale : List (List K)).length := by
    rwa [length_indexRows, if_neg hcols]
  rw [pool_eq Faiss.nearest_highest hcols hp, Faiss.highest,
    Faiss.map_search_picking Faiss.length_topK_highLe _ _ hlen,
    map_sqDist_indexRows b scaleX xScale q hcols]

/-- The label of the last place is repeated behind it. -/
theorem exists_pool_perm (hcols : b.trainXRows.ncols ≠ 0) (hpos : 0 < b.len) (hp : b.len < p) :
    ∃ a rest, a ∈ rowPairs (b.distances scaleX xScale q) ∧
      (∀ c ∈ rowPairs (b.distances scaleX xScale q), PairLe a c) ∧
      (b.pool .backwards scaleX xScale p q).Perm (a :: a :: rest) := by
  have hlen : b.len = (rowPairs (b.distances scaleX xScale q)).length := by simp
  have hperm := List.perm_insertionSort PairLe (rowPairs (b.distances scaleX xScale q))
  have hsorted := List.pairwise_insertionSort PairLe (rowPairs (b.distances scaleX xScale q))
  have hall := topK_of_length_le PairLe hlen.ge
  cases hs : (rowPairs (b.distances scaleX xScale q)).insertionSort PairLe with
  | nil =>
    rw [hs] at hperm
    have := hperm.length_eq
    rw [List.length_nil] at this
    omega
  | cons a s =>
    rw [hs] at hperm hsorted hall
    have hmem : a ∈ rowPairs (b.distances scaleX xScale q) := hperm.subset List.mem_cons_self
    have hleast : ∀ c ∈ rowPairs (b.distances scaleX xScale q), PairLe a c := by
      intro c hc
      rcases List.mem_cons.mp (hperm.symm.subset hc) with rfl | hc
      · exact (Std.Total.total c c).elim id id
      · exact (List.pairwise_cons.mp hsorted).1 c hc
    -- the index lists the nearest row last
    have hlast : Faiss.backwards.search (b.indexRows scaleX xScale) (indexRow scaleX xScale q) b.len
        (b.len - 1) = a := by
      change (topK PairLe b.len (rowPairs ((b.indexRows scaleX xScale).map
        (sqDist (indexRow scaleX xScale q))))).reverse.getD _ _ = a
      rw [map_sqDist_indexRows b scaleX xScale q hcols, hall, List.reverse_cons,
        List.getD_eq_getElem?_getD, List.getElem?_append_right]
      · have hlen := hperm.length_eq
        simp only [List.length_cons, length_rowPairs, length_distances] at hlen
        simp [← hlen]
      · have hlen := hperm.length_eq
        simp only [List.length_cons, length_rowPairs, length_distances] at hlen
        rw [List.length_reverse]
        omega
    have hplaces : ∀ j < p, b.len - 1 ≤ j → (b.pool .backwards scaleX xScale p q)[j]? = some a := by
      intro j hj hlen
      unfold pool
      rw [searchRow_eq hcols hpos, List.map_map, List.getElem?_map, List.getElem?_range hj,
        Option.map_some, Function.comp_apply]
      have hid : (b.placeHit .backwards scaleX xScale p q j).2 = a.2 := by
        unfold placeHit
        rw [min_eq_right hp.le]
        dsimp only
        split
        next hlt => rw [show j = b.len - 1 by omega, hlast]
        next => rw [hlast]
      rw [hid, rescored_eq hmem]
    obtain ⟨rest, hrest⟩ := exists_perm_of_getElem? (show b.len - 1 < b.len by omega)
      (hplaces _ (by omega) le_rfl) (hplaces _ hp (by omega))
    exact ⟨a, rest, hmem, hleast, hrest⟩

end InMemoryEnnBackend

end Distances

namespace EpistemicNearestNeighbors

variable [Analysis K] {m : EpistemicNearestNeighbors K K} {b : InMemoryEnnBackend K K}
  {faiss : Faiss K} {q : List K} {searchK : ℕ}

section Row

variable (h : Indexed m b)

include h

omit [Analysis K] in
theorem rowX_inMemory {i : ℕ} (hi : i < b.trainXRows.rows.length) :
    orPanic (m.backend.rowX i) = .ok b.trainXRows.rows[i] := by
  rw [h.backend_eq]
  change orPanic (b.rowX i) = _
  unfold InMemoryEnnBackend.rowX InMemoryEnnBackend.checkIndex
  rw [if_neg (show ¬ b.len ≤ i from not_le.mpr hi)]
  change orPanic (RowStorage.rowVec b.trainXRows i) = _
  unfold RowStorage.rowVec
  rw [List.getElem?_eq_getElem hi]
  rfl

omit [Analysis K] in
theorem posteriorRowSqL2_eq {i : ℕ} (hi : i < b.len) :
    (do
      let row ← orPanic (m.backend.rowX i)
      return posteriorRowSqL2 q row m.scaleX m.xScale : Outcome K) =
        .ok ((b.distances m.scaleX m.xScale q).getD i 0) := by
  have hi : i < b.trainXRows.rows.length := hi
  unfold posteriorRowSqL2 InMemoryEnnBackend.distances
  rw [rowX_inMemory h hi, List.getD_eq_getElem _ _ (by rwa [List.length_map]), List.getElem_map,
    ← rowSqL2_eq_indexRow]
  rfl

omit [Analysis K] in
theorem rowDist2sForQuery_inMemory :
    m.rowDist2sForQuery q = .ok (b.distances m.scaleX m.xScale q) := by
  unfold rowDist2sForQuery
  rw [mapM_ok_iff, h.numObs_eq, List.forall₂_iff_get]
  constructor
  · rw [List.length_range, InMemoryEnnBackend.length_distances]
  · intro i hi₁ hi₂
    have hi : i < b.len := by rwa [List.length_range] at hi₁
    have hrow := posteriorRowSqL2_eq (q := q) h hi
    rw [List.getD_eq_getElem _ _ hi₂] at hrow
    simpa using hrow

omit [Analysis K] in
theorem candidateRow_inMemory (hf : faiss.Nearest) (hpos : 0 < b.len) (hlen : b.len ≤ 2 ^ 64)
    (p : ℕ) :
    m.candidateRow true q ((b.syncedIndex m.scaleX m.xScale).searchRow faiss p q) =
      .ok (b.pool faiss m.scaleX m.xScale p q) := by
  unfold candidateRow InMemoryEnnBackend.pool
  rw [if_pos rfl, mapM_ok_iff, List.forall₂_map_right_iff, List.forall₂_same]
  intro hit hhit
  obtain ⟨i, hi⟩ := InMemoryEnnBackend.exists_id_of_mem_searchRow hf hpos hhit
  have hid : asUsize hit.2 = i := by
    unfold asUsize
    rw [hi]
    omega
  unfold dist2ForId
  rw [if_neg (by omega), hid, posteriorRowSqL2_eq h i.isLt, hi]
  rfl

end Row

omit [Analysis K] in
theorem getD_of_handOut_eq {excludeNearest : Bool} {row row' : List (K × ℤ)}
    (h : handOut searchK excludeNearest row = handOut searchK excludeNearest row') {j : ℕ}
    (hj : j < searchK) (h1 : excludeNearest = true → 1 ≤ j) :
    row.getD j (infinity, -1) = row'.getD j (infinity, -1) := by
  unfold handOut at h
  cases excludeNearest with
  | false =>
    have hget := congrArg (fun l => l[j]?) h
    simpa [hj] using hget
  | true =>
    obtain ⟨i, rfl⟩ : ∃ i, j = i + 1 := ⟨j - 1, by have := h1 rfl; omega⟩
    have hget := congrArg (fun l => l[i]?) h
    simpa [hj, Nat.add_comm 1 i] using hget

/-- Whether the rows up to the last distance that is wanted fit into what the index is asked for. -/
def TiesFit (m : EpistemicNearestNeighbors K K) (b : InMemoryEnnBackend K K) (searchK : ℕ)
    (excludeNearest : Bool) (q : List K) : Prop :=
  let k := min searchK m.numObs
  let dists := b.distances m.scaleX m.xScale q
  k = 0 ∨ (excludeNearest = true ∧ searchK ≤ 1) ∨
    if m.numDim = 0 ∨ m.numObs < searchK then k ≤ 1
    else (dists.filter fun d => d ≤ cutoff dists k).length ≤ k + 1

section Fits

variable [ExactOrder K] (h : Indexed m b) (hf : faiss.Nearest)

include h hf

omit [ExactOrder K] in
theorem exactRow_inMemory (hpos : 0 < b.len) (hlen : b.len ≤ 2 ^ 64) :
    exactRow faiss m b searchK true q = topkRow (.ok (b.distances m.scaleX m.xScale q))
      (b.pool faiss m.scaleX m.xScale (m.faissSearchK searchK true) q) (min searchK m.numObs)
      true := by
  unfold exactRow
  dsimp only
  rw [candidateRow_inMemory h hf hpos hlen, rowDist2sForQuery_inMemory h]
  rfl

theorem exactRow_eq (hpos : 0 < min searchK m.numObs) (hlen : b.len ≤ 2 ^ 64) :
    exactRow faiss m b searchK true q = .ok (topK PairLe (min searchK m.numObs)
        (b.pool faiss m.scaleX m.xScale (m.faissSearchK searchK true) q)) ∨
      min searchK m.numObs < m.numObs ∧ exactRow faiss m b searchK true q =
        .ok (b.nearestRows m.scaleX m.xScale q (min searchK m.numObs)) := by
  have hobs := h.numObs_eq
  have hids : ∀ a ∈ b.pool faiss m.scaleX m.xScale (m.faissSearchK searchK true) q, 0 ≤ a.2 :=
    fun a ha => snd_nonneg_of_mem_rowPairs
      (InMemoryEnnBackend.pool_subset hf (by omega) ha)
  have hle : min searchK m.numObs ≤ (b.distances m.scaleX m.xScale q).length := by
    rw [InMemoryEnnBackend.length_distances]
    omega
  rw [exactRow_inMemory h hf (by omega) hlen]
  rcases topkRow_eq hids hpos hle with hrow | ⟨hlt, hrow⟩
  · exact .inl hrow
  · rw [InMemoryEnnBackend.length_distances, ← hobs] at hlt
    exact .inr ⟨hlt, hrow⟩

/-- When the ties fit, the first rows of the pool are those of all rows. -/
theorem topK_pool_eq (hpos : 0 < min searchK m.numObs)
    (hfit : if m.numDim = 0 ∨ m.numObs < searchK then min searchK m.numObs ≤ 1
      else ((b.distances m.scaleX m.xScale q).filter fun d =>
        d ≤ cutoff (b.distances m.scaleX m.xScale q) (min searchK m.numObs)).length ≤
          min searchK m.numObs + 1) :
    topK PairLe (min searchK m.numObs)
        (b.pool faiss m.scaleX m.xScale (m.faissSearchK searchK true) q) =
      b.nearestRows m.scaleX m.xScale q (min searchK m.numObs) := by
  have hobs := h.numObs_eq
  have hp : 0 < m.faissSearchK searchK true := faissSearchK_pos hpos
  unfold InMemoryEnnBackend.nearestRows
  split at hfit
  next hone =>
    obtain hk : min searchK m.numObs = 1 := by omega
    rw [hk]
    have hsub : b.pool faiss m.scaleX m.xScale (m.faissSearchK searchK true) q ⊆
        rowPairs (b.distances m.scaleX m.xScale q) := InMemoryEnnBackend.pool_subset hf (by omega)
    -- there is one place, and all distances are equal
    obtain ⟨d, hd, hmem⟩ : ∃ d, b.distances m.scaleX m.xScale q = List.replicate b.len d ∧
        (d, (0 : ℤ)) ∈ b.pool faiss m.scaleX m.xScale (m.faissSearchK searchK true) q := by
      by_cases hcols : b.trainXRows.ncols = 0
      · refine ⟨0, InMemoryEnnBackend.distances_of_no_columns hcols, ?_⟩
        rw [InMemoryEnnBackend.pool_of_no_columns hcols (by omega)]
        exact List.mem_replicate.mpr ⟨hp.ne', rfl⟩
      · have hlen : b.len = 1 := by
          have := h.numDim_eq
          omega
        obtain ⟨d, hd⟩ := List.length_eq_one_iff.mp
          ((InMemoryEnnBackend.length_distances b m.scaleX m.xScale q).trans hlen)
        refine ⟨d, by rw [hd, hlen]; rfl, ?_⟩
        have hplaces : (b.pool faiss m.scaleX m.xScale (m.faissSearchK searchK true) q).length =
            m.faissSearchK searchK true := InMemoryEnnBackend.length_pool
        obtain ⟨a, ha⟩ := List.exists_mem_of_length_pos (hp.trans_eq hplaces.symm)
        have hrow := hsub ha
        rw [hd] at hrow
        have hrow : a = (d, 0) := List.mem_singleton.mp hrow
        rwa [← hrow]
    have hleast := least_rowPairs b.len d
    have hfirst : (d, (0 : ℤ)) ∈ rowPairs (List.replicate b.len d) :=
      mem_rowPairs.mpr ⟨⟨0, by rw [List.length_replicate]; omega⟩, by simp⟩
    rw [hd] at hsub ⊢
    rw [topK_one PairLe hmem fun a ha => hleast a (hsub ha), topK_one PairLe hfirst hleast]
  next hmany =>
    obtain ⟨hcols, hle⟩ := not_or.mp hmany
    have hcols : b.trainXRows.ncols ≠ 0 := fun h0 => hcols (h.numDim_eq.trans h0)
    have hk : min searchK m.numObs ≤ (b.distances m.scaleX m.xScale q).length := by
      rw [InMemoryEnnBackend.length_distances]
      omega
    have hplaces : m.faissSearchK searchK true = min (min searchK m.numObs + 1) m.numObs := by
      unfold faissSearchK
      dsimp only
      by_cases hlt : min searchK m.numObs < m.numObs
      · rw [if_pos ⟨rfl, hlt⟩]
        omega
      · rw [if_neg fun h => hlt h.2]
        omega
    have hpool : Pool Prod.fst (rowPairs (b.distances m.scaleX m.xScale q))
        (b.pool faiss m.scaleX m.xScale (m.faissSearchK searchK true) q) :=
      InMemoryEnnBackend.pool_pool hf hcols (by omega)
    have hcount := length_filter_rowPairs (b.distances m.scaleX m.xScale q) fun d =>
      d ≤ cutoff (b.distances m.scaleX m.xScale q) (min searchK m.numObs)
    apply hpool.topK_eq PairLe (nodup_rowPairs _) (fun a b => fst_le_of_pairLe)
    · rw [hcount]
      exact le_length_filter_cutoff hpos hk
    · rw [hcount, InMemoryEnnBackend.length_pool, hplaces]
      have hall := List.length_filter_le (fun d => decide (d ≤ cutoff
        (b.distances m.scaleX m.xScale q) (min searchK m.numObs)))
        (b.distances m.scaleX m.xScale q)
      rw [InMemoryEnnBackend.length_distances] at hall
      omega

/-- A row that is at two places of the pool is found twice. -/
theorem exactRow_of_perm (hpos : 2 ≤ min searchK m.numObs) (hlen : b.len ≤ 2 ^ 64)
    {a : K × ℤ} {rest : List (K × ℤ)}
    (hleast : ∀ c ∈ rowPairs (b.distances m.scaleX m.xScale q), PairLe a c)
    (hperm : (b.pool faiss m.scaleX m.xScale (m.faissSearchK searchK true) q).Perm (a :: a :: rest))
    (htied : min searchK m.numObs < m.numObs → m.numDim = 0) :
    ∃ rest, exactRow faiss m b searchK true q = .ok (a :: a :: rest) := by
  have hobs := h.numObs_eq
  have hsub : b.pool faiss m.scaleX m.xScale (m.faissSearchK searchK true) q ⊆
      rowPairs (b.distances m.scaleX m.xScale q) := InMemoryEnnBackend.pool_subset hf (by omega)
  obtain ⟨rest', hrest⟩ := topK_cons_cons PairLe hperm (fun c hc => hleast c (hsub
    (hperm.symm.subset (List.mem_cons_of_mem _ (List.mem_cons_of_mem _ hc))))) hpos
  refine ⟨rest', ?_⟩
  rw [← hrest]
  have hpos' : 0 < min searchK m.numObs := by omega
  rcases exactRow_eq h hf hpos' hlen with hrow | ⟨hlt, -⟩
  · exact hrow
  · have hcols : b.trainXRows.ncols = 0 := h.numDim_eq.symm.trans (htied hlt)
    have hplaces : min searchK m.numObs < m.faissSearchK searchK true := by
      unfold faissSearchK
      dsimp only
      rw [if_pos ⟨rfl, hlt⟩]
      omega
    rw [exactRow_inMemory h hf (by omega) hlen]
    apply topkRow_of_tied (fun a ha => snd_nonneg_of_mem_rowPairs (hsub ha)) (by omega)
    -- the places are all at one distance
    have hzero : ∀ a ∈ (b.pool faiss m.scaleX m.xScale (m.faissSearchK searchK true)
        q).insertionSort PairLe, a.1 = 0 := by
      intro a ha
      rw [List.mem_insertionSort,
        InMemoryEnnBackend.pool_of_no_columns hcols (by omega)] at ha
      rw [List.eq_of_mem_replicate ha]
    apply tiedAtCutoff_of_le (List.pairwise_insertionSort PairLe _) (by omega)
      (c := 0)
    · exact fun a ha => (hzero a ha).le
    · rw [List.filter_eq_nil_iff.mpr]
      · rw [List.length_nil]
        omega
      · intro a ha
        rw [hzero a ha]
        simp
    · rwa [List.length_insertionSort, InMemoryEnnBackend.length_pool]

end Fits

section Unfit

variable [ExactOrder K] (h : Indexed m b)

include h

/-- Beyond the rows, or without columns, a row is found twice. -/
theorem exists_doubled (hk : 2 ≤ min searchK m.numObs) (hlen : b.len ≤ 2 ^ 64)
    (hunfit : m.numDim = 0 ∨ m.numObs < searchK) :
    ∃ faiss : Faiss K, faiss.Nearest ∧ ∃ a rest rest',
      exactRow faiss m b searchK true q = .ok (a :: a :: rest) ∧
      b.nearestRows m.scaleX m.xScale q (min searchK m.numObs) = a :: rest' := by
  have hobs := h.numObs_eq
  have hp : min searchK m.numObs ≤ m.faissSearchK searchK true := by
    unfold faissSearchK
    dsimp only
    split <;> omega
  obtain ⟨a, rest, ha, hleast, hperm⟩ : ∃ a rest, a ∈ rowPairs (b.distances m.scaleX m.xScale q) ∧
      (∀ c ∈ rowPairs (b.distances m.scaleX m.xScale q), PairLe a c) ∧
      (b.pool .backwards m.scaleX m.xScale (m.faissSearchK searchK true) q).Perm
        (a :: a :: rest) := by
    by_cases hcols : b.trainXRows.ncols = 0
    · obtain ⟨n, hn⟩ : ∃ n, m.faissSearchK searchK true = n + 2 := ⟨m.faissSearchK searchK true - 2,
        by omega⟩
      refine ⟨(0, 0), List.replicate n (0, 0), ?_, ?_, ?_⟩
      · rw [InMemoryEnnBackend.distances_of_no_columns hcols, mem_rowPairs]
        exact ⟨⟨0, by rw [List.length_replicate]; omega⟩, by simp⟩
      · rw [InMemoryEnnBackend.distances_of_no_columns hcols]
        exact least_rowPairs _ _
      · rw [InMemoryEnnBackend.pool_of_no_columns hcols (by omega), hn]
        rfl
    · have hmany : m.numObs < searchK := hunfit.resolve_left (h.numDim_eq ▸ hcols)
      apply InMemoryEnnBackend.exists_pool_perm hcols (by omega)
      unfold faissSearchK
      dsimp only
      rw [if_neg (by omega)]
      omega
  obtain ⟨rest, hrow⟩ := exactRow_of_perm h Faiss.nearest_backwards hk hlen hleast hperm
    fun hlt => hunfit.resolve_right (by omega)
  have hfirst := topK_one PairLe ha hleast
  rw [← take_topK PairLe (show 1 ≤ min searchK m.numObs by omega)] at hfirst
  obtain ⟨rest', hrest'⟩ : ∃ rest', b.nearestRows m.scaleX m.xScale q (min searchK m.numObs) =
      a :: rest' := by
    unfold InMemoryEnnBackend.nearestRows
    cases htop : topK PairLe (min searchK m.numObs)
        (rowPairs (b.distances m.scaleX m.xScale q)) with
    | nil => simp [htop] at hfirst
    | cons c rest' =>
      rw [htop] at hfirst
      obtain rfl : c = a := by simpa using hfirst
      exact ⟨rest', rfl⟩
  exact ⟨_, Faiss.nearest_backwards, a, rest, rest', hrow, hrest'⟩

/-- When the ties do not fit, the lowest row at the last distance is not found. -/
theorem exists_missed (hk : 0 < min searchK m.numObs) (hlen : b.len ≤ 2 ^ 64)
    (hfit : ¬ (m.numDim = 0 ∨ m.numObs < searchK))
    (hmany : min searchK m.numObs + 1 < ((b.distances m.scaleX m.xScale q).filter fun d =>
      d ≤ cutoff (b.distances m.scaleX m.xScale q) (min searchK m.numObs)).length) :
    ∃ faiss : Faiss K, faiss.Nearest ∧ ∃ row, exactRow faiss m b searchK true q = .ok row ∧
      row ⊆ rowPairs (b.distances m.scaleX m.xScale q) ∧ row.Nodup ∧ row.Pairwise PairLe ∧
      row.length = min searchK m.numObs ∧
      row ≠ b.nearestRows m.scaleX m.xScale q (min searchK m.numObs) := by
  have hobs := h.numObs_eq
  obtain ⟨hdim, hle⟩ := not_or.mp hfit
  have hcols : b.trainXRows.ncols ≠ 0 := fun h0 => hdim (h.numDim_eq.trans h0)
  generalize hdists : b.distances m.scaleX m.xScale q = dists at hmany
  have hn : dists.length = m.numObs := by
    rw [← hdists, InMemoryEnnBackend.length_distances, hobs]
  generalize hkeq : min searchK m.numObs = k at hk hmany
  generalize hc : cutoff dists k = c at hmany
  have hkn : k ≤ dists.length := by omega
  have hfew := length_filter_cutoff_lt hk hkn
  rw [hc] at hfew
  have hlt : k + 1 < m.numObs := by
    have := List.length_filter_le (fun d => decide (d ≤ c)) dists
    omega
  have hplaces : m.faissSearchK searchK true = k + 1 := by
    unfold faissSearchK
    dsimp only
    rw [hkeq, if_pos ⟨rfl, by omega⟩]
    omega
  have hpool : b.pool .highest m.scaleX m.xScale (m.faissSearchK searchK true) q =
      topK HighLe (k + 1) (rowPairs dists) := by
    rw [InMemoryEnnBackend.pool_highest hcols (by omega), hplaces, hdists]
  rw [← length_filter_rowPairs dists fun d => d < c] at hfew
  rw [← length_filter_rowPairs dists fun d => d ≤ c] at hmany
  obtain ⟨e, he, hnot⟩ := exists_mem_not_mem hfew hmany
  have hf : (Faiss.highest : Faiss K).Nearest := Faiss.nearest_highest
  have hsub : topK HighLe (k + 1) (rowPairs dists) ⊆ rowPairs dists :=
    fun _ ha => mem_of_mem_topK HighLe ha
  have hperm := List.perm_insertionSort PairLe (topK HighLe (k + 1) (rowPairs dists))
  refine ⟨.highest, hf, topK PairLe k (topK HighLe (k + 1) (rowPairs dists)), ?_, ?_, ?_,
    pairwise_topK PairLe k _, ?_, ?_⟩
  · rw [exactRow_inMemory h hf (by omega) hlen, hpool, hkeq]
    exact topkRow_of_tied (fun a ha => snd_nonneg_of_mem_rowPairs (hsub ha)) hk
      (tiedAtCutoff_topK_highLe hk hfew hmany) _
  · exact fun a ha => hsub (mem_of_mem_topK PairLe ha)
  · apply List.Nodup.sublist (List.take_sublist k _)
    apply hperm.nodup_iff.mpr
    exact (pool_topK HighLe (nodup_rowPairs dists) (fun _ _ => fst_le_of_pairLe) (k + 1)).nodup
  · rw [length_topK, length_topK, length_rowPairs]
    omega
  · intro heq
    rw [InMemoryEnnBackend.nearestRows, hdists] at heq
    rw [← heq] at he
    exact hnot (mem_of_mem_topK PairLe he)

end Unfit

/-- Whatever nearest rows the index finds, the first ones by distance and then by id are returned,
without the first of all when the nearest row is left out. -/
def TiesToLowest (env : Env K) (m : EpistemicNearestNeighbors K K) (b : InMemoryEnnBackend K K)
    (x : Array2 K) (searchK : ℕ) (excludeNearest : Bool) : Prop :=
  ∀ faiss : Faiss K, faiss.Nearest →
    (exactF64BatchTopk faiss env x searchK excludeNearest true m).1 =
      .ok (applyExcludeNearest (placed searchK (x.rows.map fun q =>
        b.nearestRows m.scaleX m.xScale q (min searchK m.numObs))) excludeNearest)

variable [ExactOrder K] {excludeNearest : Bool}

omit [ExactOrder K] in
theorem length_nearestRows_min (h : Indexed m b) :
    (b.nearestRows m.scaleX m.xScale q (min searchK m.numObs)).length = min searchK m.numObs := by
  have hobs := h.numObs_eq
  rw [InMemoryEnnBackend.nearestRows, length_topK, length_rowPairs,
    InMemoryEnnBackend.length_distances]
  omega

/-- Where rows are handed out alike, they are alike: the first one follows from the others. -/
theorem eq_nearestRows_of_handOut (h : Indexed m b) {row : List (K × ℤ)}
    (hfirst : excludeNearest = true → 2 ≤ min searchK m.numObs)
    (hsub : row ⊆ rowPairs (b.distances m.scaleX m.xScale q)) (hnodup : row.Nodup)
    (hsorted : row.Pairwise PairLe) (hlen : row.length = min searchK m.numObs)
    (heq : handOut searchK excludeNearest row = handOut searchK excludeNearest
      (b.nearestRows m.scaleX m.xScale q (min searchK m.numObs))) :
    row = b.nearestRows m.scaleX m.xScale q (min searchK m.numObs) := by
  have hwidth : (b.nearestRows m.scaleX m.xScale q (min searchK m.numObs)).length =
      min searchK m.numObs := length_nearestRows_min h
  have hget : ∀ j, (excludeNearest = true → 1 ≤ j) →
      row[j]? = (b.nearestRows m.scaleX m.xScale q (min searchK m.numObs))[j]? := by
    intro j h1
    rcases Nat.lt_or_ge j (min searchK m.numObs) with hj | hj
    · have hget := getD_of_handOut_eq heq (hj.trans_le (min_le_left _ _)) h1
      rw [List.getD_eq_getElem _ _ (by omega), List.getD_eq_getElem _ _ (by omega)] at hget
      rw [List.getElem?_eq_getElem (by omega), List.getElem?_eq_getElem (by omega), hget]
    · rw [List.getElem?_eq_none (by omega), List.getElem?_eq_none (by omega)]
  cases excludeNearest with
  | false => exact List.ext_getElem? fun j => hget j nofun
  | true =>
    have hle : min searchK m.numObs ≤ (rowPairs (b.distances m.scaleX m.xScale q)).length := by
      have hobs := h.numObs_eq
      rw [length_rowPairs, InMemoryEnnBackend.length_distances]
      omega
    apply eq_topK_of_drop PairLe hsub hnodup hsorted (hfirst rfl) hle
    apply List.ext_getElem?
    intro j
    rw [List.getElem?_drop, List.getElem?_drop]
    exact hget (1 + j) fun _ => Nat.le_add_right 1 j

/-- A row that is found twice is not handed out like the nearest rows. -/
theorem handOut_doubled_ne (h : Indexed m b) (hmany : 2 ≤ min searchK m.numObs) {a : K × ℤ}
    {rest rest' : List (K × ℤ)}
    (hnearest : b.nearestRows m.scaleX m.xScale q (min searchK m.numObs) = a :: rest') :
    handOut searchK excludeNearest (a :: a :: rest) ≠ handOut searchK excludeNearest
      (b.nearestRows m.scaleX m.xScale q (min searchK m.numObs)) := by
  intro heq
  have hwidth : (b.nearestRows m.scaleX m.xScale q (min searchK m.numObs)).length =
      min searchK m.numObs := length_nearestRows_min h
  have hnodup := (pool_topK PairLe (nodup_rowPairs (b.distances m.scaleX m.xScale q))
    (fun _ _ => fst_le_of_pairLe) (min searchK m.numObs)).nodup
  have hget := getD_of_handOut_eq heq (show 1 < searchK by omega) fun _ => le_rfl
  change (b.nearestRows m.scaleX m.xScale q _).Nodup at hnodup
  rw [hnearest] at hget hwidth hnodup
  cases rest' with
  | nil =>
    rw [List.length_singleton] at hwidth
    omega
  | cons c rest' =>
    obtain rfl : a = c := hget
    exact (List.nodup_cons.mp hnodup).1 List.mem_cons_self

theorem TiesFit.handOut_eq (hfits : m.TiesFit b searchK excludeNearest q) (h : Indexed m b)
    (hlen : b.len ≤ 2 ^ 64) (hpos : 0 < min searchK m.numObs) {faiss : Faiss K}
    (hf : faiss.Nearest) : ∃ row, exactRow faiss m b searchK true q = .ok row ∧
      handOut searchK excludeNearest row = handOut searchK excludeNearest
        (b.nearestRows m.scaleX m.xScale q (min searchK m.numObs)) := by
  rcases hfits with h0 | ⟨he, hone⟩ | hfit
  · exact absurd h0 hpos.ne'
  · -- the one place is left out
    have hnil : ∀ row : List (K × ℤ), handOut searchK excludeNearest row = [] := by
      intro row
      unfold handOut
      rw [he, if_pos rfl, List.drop_eq_nil_of_le]
      rwa [List.length_map, List.length_range]
    rcases exactRow_eq (q := q) h hf hpos hlen with hrow | ⟨-, hrow⟩
    · exact ⟨_, hrow, by rw [hnil, hnil]⟩
    · exact ⟨_, hrow, rfl⟩
  · have htop := topK_pool_eq h hf hpos hfit
    rcases exactRow_eq (q := q) h hf hpos hlen with hrow | ⟨-, hrow⟩
    · exact ⟨_, hrow, by rw [htop]⟩
    · exact ⟨_, hrow, rfl⟩

/-- For one query the rows are found for every index exactly when the ties fit. -/
theorem tiesFit_iff (h : Indexed m b) (hlen : b.len ≤ 2 ^ 64) (hpos : 0 < min searchK m.numObs) :
    (∀ faiss : Faiss K, faiss.Nearest → ∃ row, exactRow faiss m b searchK true q = .ok row ∧
      handOut searchK excludeNearest row = handOut searchK excludeNearest
        (b.nearestRows m.scaleX m.xScale q (min searchK m.numObs))) ↔
      m.TiesFit b searchK excludeNearest q := by
  constructor
  · intro hall
    by_contra hunfit
    unfold TiesFit at hunfit
    dsimp only at hunfit
    obtain ⟨-, hwide, hunfit⟩ : _ ∧ _ ∧ _ := by simpa only [not_or] using hunfit
    -- what is left out is no more than the first place
    have hfirst : excludeNearest = true → 2 ≤ searchK := fun he => by
      by_contra hlt
      exact hwide ⟨he, by omega⟩
    split at hunfit
    next hmany =>
      obtain ⟨faiss, hf, a, rest, rest', hrow, hnearest⟩ :=
        exists_doubled (q := q) h (not_le.mp hunfit) hlen hmany
      obtain ⟨row, hrow', heq⟩ := hall faiss hf
      obtain rfl := Except.ok.inj (hrow.symm.trans hrow')
      exact handOut_doubled_ne h (not_le.mp hunfit) hnearest heq
    next hfit =>
      obtain ⟨faiss, hf, row, hrow, hsub, hnodup, hsorted, hlenRow, hne⟩ :=
        exists_missed h hpos hlen hfit (not_le.mp hunfit)
      obtain ⟨row', hrow', heq⟩ := hall faiss hf
      obtain rfl := Except.ok.inj (hrow.symm.trans hrow')
      have hmany : excludeNearest = true → 2 ≤ min searchK m.numObs := by
        intro he
        have htwo := hfirst he
        omega
      exact hne (eq_nearestRows_of_handOut h hmany hsub hnodup hsorted hlenRow heq)
  · exact fun hfits faiss hf => hfits.handOut_eq h hlen hpos hf

/-- Ties break to the lowest row exactly when, for every query, the rows up to the last distance
that is wanted are at most one more than the rows that are wanted. -/
theorem Maintained.tiesToLowest_iff [DecidableEq K] (hm : Maintained m)
    (hb : m.backend = .inMemory b) (hlen : m.numObs ≤ 2 ^ 64) (env : Env K) {x : Array2 K}
    (hx : x.ncols = m.numDim) (searchK : ℕ) (excludeNearest : Bool) :
    TiesToLowest env m b x searchK excludeNearest ↔
      ∀ q ∈ x.rows, m.TiesFit b searchK excludeNearest q := by
  obtain ⟨b', h⟩ := hm.indexed
  obtain rfl := EnnBackend.inMemory.inj (h.backend_eq.symm.trans hb)
  have hlen : b'.len ≤ 2 ^ 64 := h.numObs_eq ▸ hlen
  unfold TiesToLowest
  simp only [fst_exactF64BatchTopk h.backend_eq h.reindexed]
  rcases Nat.eq_zero_or_pos (min searchK m.numObs) with h0 | hpos
  · simp only [exactTopk_of_none h0, h0]
    exact ⟨fun _ q _ => .inl h0, fun _ _ _ => rfl⟩
  · have hdim : x.ncols = b'.numDim := hx.trans (h.numDim_eq.trans h.coherent.ncols_eq)
    simp only [exactTopk_eq_ok_iff hpos, and_iff_right hdim, ← tiesFit_iff h hlen hpos]
    constructor
    · intro hall q hq faiss hf
      obtain ⟨rows, hrows, heq⟩ := hall faiss hf
      have heq := congrArg Array2.rows heq
      rw [rows_applyExcludeNearest, rows_applyExcludeNearest, List.map_map] at heq
      obtain ⟨i, hi, rfl⟩ := List.getElem_of_mem hq
      obtain ⟨hlength, hget⟩ := List.forall₂_iff_get.mp hrows
      have hi' : i < rows.length := hlength ▸ hi
      have hplace := congrArg (fun l => l[i]?) heq
      refine ⟨rows[i], hget i hi hi', ?_⟩
      simpa [hi, hi'] using hplace
    · intro hall faiss hf
      obtain ⟨rows, hrows, hsame⟩ := Outcome.exists_mapM fun q hq => hall q hq faiss hf
      refine ⟨rows, mapM_ok_iff.mp hrows, ?_⟩
      apply Array2.eq_of_rows
      · rw [ncols_applyExcludeNearest, ncols_applyExcludeNearest]
      · rw [rows_applyExcludeNearest, rows_applyExcludeNearest, List.map_map,
          ← List.forall₂_eq_eq_eq, List.forall₂_map_left_iff, List.forall₂_map_right_iff]
        exact hsame.flip

section Example

def aroundModel : Outcome (EpistemicNearestNeighbors ℚ ℚ) :=
  newWithOptions defaultEnv (.column [1, -1, 1]) (.column [0, 0, 0]) none {}

theorem returns_aroundModel : aroundModel.returns = true := by decide +kernel

theorem maintained_aroundModel : Maintained (aroundModel.value returns_aroundModel) :=
  .new defaultEnv _ _ none {} rfl rfl (Outcome.eq_ok_value returns_aroundModel)

theorem rows_aroundModel {b : InMemoryEnnBackend ℚ ℚ}
    (h : (aroundModel.value returns_aroundModel).backend = .inMemory b) :
    b.trainXRows.rows = [[1], [-1], [1]] := by
  have hrows : (aroundModel.value returns_aroundModel).backend.read
      (fun b => b.trainXRows.rows) (fun _ => []) = [[1], [-1], [1]] := by decide +kernel
  rwa [h] at hrows

/-- Three rows at one distance fit when two of them are wanted. -/
theorem tiesToLowest_around :
    ∃ m b, aroundModel = .ok m ∧ m.backend = .inMemory b ∧
      TiesToLowest defaultEnv m b (.column [0]) 2 false := by
  obtain ⟨b, hb⟩ := maintained_aroundModel.indexed
  refine ⟨_, b, Outcome.eq_ok_value returns_aroundModel, hb.backend_eq,
    (maintained_aroundModel.tiesToLowest_iff hb.backend_eq (by decide +kernel) defaultEnv
      (by decide +kernel) 2 false).mpr ?_⟩
  intro q hq
  obtain rfl : q = [0] := List.mem_singleton.mp hq
  unfold TiesFit InMemoryEnnBackend.distances
  rw [rows_aroundModel hb.backend_eq]
  decide +kernel

/-- When one is wanted, the first one is not found. -/
theorem not_tiesToLowest :
    ∃ m b, aroundModel = .ok m ∧ m.backend = .inMemory b ∧
      ¬ TiesToLowest defaultEnv m b (.column [0]) 1 false := by
  obtain ⟨b, hb⟩ := maintained_aroundModel.indexed
  refine ⟨_, b, Outcome.eq_ok_value returns_aroundModel, hb.backend_eq, fun h => ?_⟩
  have hfound := h .highest Faiss.nearest_highest
  have hrow : ((exactF64BatchTopk .highest defaultEnv (.column [0]) 1 false true
      (aroundModel.value returns_aroundModel)).1.map Array2.rows) = .ok [[((1 : ℚ), (1 : ℤ))]] := by
    decide +kernel
  unfold InMemoryEnnBackend.nearestRows InMemoryEnnBackend.distances at hfound
  rw [hfound, rows_aroundModel hb.backend_eq] at hrow
  exact absurd hrow (by decide +kernel)

end Example

end EpistemicNearestNeighbors

end Ennbo
