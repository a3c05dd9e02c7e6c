import Ennbo.Index.Forest
import Ennbo.Search.Merge

/-! # Search over the flat matrix

A small set of rows is kept as one flat matrix in memory. A query scans it with
a bounded heap, given here by its entries in order: the greatest entry is the
last one.
-/

namespace Ennbo

open Ranking

def SMALL_N_INCORE_SEARCH_LIMIT : ℕ := 8192

variable {D F : Type} [Floating D] [Floating F] [FloatCast D F]

/-- `a < b` on floats. -/
def ltB (a b : F) : Bool := partialCmp a b == some .lt

/-- The nearest rows of a flat matrix of `n` rows of width `d`. -/
def topkFlatSqL2 (query flat : List F) (n d k : ℕ) : Outcome (List (ℕ × F)) :=
  if query.length ≠ d ∨ flat.length ≠ n * d then throw .panic
  else if k = 0 ∨ n = 0 then pure []
  else
    let heap := (List.range n).foldl (fun heap i =>
      let dist := l2SqF32 query ((flat.drop (i * d)).take d)
      select ScoredLe (fun x worst => ltB x.2 worst.2) (min k n) heap (toU32 i, dist)) []
    pure (heap.insertionSort ScoredLe)

/-- What a search over the flat matrix is given besides the queries. -/
structure ScoreQueriesFlat (D F : Type) where
  flat : List F
  total : ℕ
  numDim : ℕ
  scaleX : Bool
  xScale : List D
  kEff : ℕ
  poolK : ℕ
  excludeNearest : Bool

def scoreQueriesFlat (queryRows : List (List D)) (args : ScoreQueriesFlat D F) :
    Outcome (List (List (ℕ × D))) :=
  queryRows.mapM fun queryBuf => do
    let queryF32 := bpannRowToF32 queryBuf args.scaleX args.xScale
    let leg ← topkFlatSqL2 queryF32 args.flat args.total args.numDim args.poolK
    let merged ← mergeTopkPrecomputedDist leg [] args.kEff args.poolK args.excludeNearest
    return resultRow args.kEff merged

section Exact

variable {K : Type} [ExactArith K]

@[simp] theorem ltB_exact (a b : K) : ltB a b = decide (a < b) := by
  unfold ltB
  rw [ExactArith.partialCmp_eq, Bool.eq_iff_iff]
  simp [compare_lt_iff_lt]

theorem pairwise_scoredRows (dist : ℕ → K) (n : ℕ) :
    (scoredRows dist n).Pairwise fun y x => ltB x.2 y.2 = true ↔ ¬ ScoredLe y x := by
  unfold scoredRows scored
  rw [List.pairwise_map]
  refine List.pairwise_lt_range.imp fun {i j} hij => ?_
  rw [ltB_exact, decide_eq_true_iff, scoredLe_iff]
  dsimp only
  rw [not_or, not_lt, not_and]
  constructor
  · intro h
    exact ⟨h.le, fun he => absurd h (he ▸ lt_irrefl _)⟩
  · rintro ⟨hle, hne⟩
    exact lt_of_le_of_ne hle fun he => hne he.symm hij.le

/-- The scan finds the nearest rows of the matrix. -/
theorem topkFlatSqL2_eq {query : List K} {rows : List (List K)} {d k : ℕ}
    (hq : query.length = d) (hrows : ∀ row ∈ rows, row.length = d) (h32 : rows.length ≤ 2 ^ 32) :
    topkFlatSqL2 query rows.flatten rows.length d k =
      .ok (topK ScoredLe k (scoredRows (fun i => sqDist query (rows.getD i [])) rows.length)) := by
  have hflat : rows.flatten.length = rows.length * d := by
    rw [List.length_flatten, List.map_congr_left hrows, List.map_const', List.sum_replicate_nat]
  unfold topkFlatSqL2
  rw [if_neg (by rw [hflat]; simp [hq])]
  split
  next h0 =>
    rcases h0 with h0 | h0
    · simp [h0, topK, pure, Except.pure]
    · simp [h0, topK, scoredRows, scored, pure, Except.pure]
  next h0 =>
    have hscored : (List.range rows.length).map (fun i =>
        (toU32 i, l2SqF32 query ((rows.flatten.drop (i * d)).take d))) =
        scoredRows (fun i => sqDist query (rows.getD i [])) rows.length := by
      refine List.map_congr_left fun i hi => ?_
      have hi := List.mem_range.mp hi
      have hrow := MmapColumnStore.take_drop_flatten hrows hi
      have hlen := hrows _ (List.getElem_mem hi)
      dsimp only
      rw [toU32_of_lt (by omega), hrow, l2SqF32_eq (hq.trans hlen.symm),
        List.getD_eq_getElem _ _ hi]
    have hfold := foldl_select ScoredLe (k := min k rows.length) (by omega)
      (pairwise_scoredRows (fun i => sqDist query (rows.getD i [])) rows.length)
    rw [← hscored, List.foldl_map] at hfold
    dsimp only
    rw [hfold, hscored, insertionSort_of_pairwise ScoredLe (pairwise_topK _ _ _)]
    congr 1
    apply List.take_eq_take_iff.mpr
    simp [scoredRows, scored]

/-- Every query is ranked against the rows of the matrix. -/
theorem scoreQueriesFlat_eq {queryRows rows : List (List K)} (args : ScoreQueriesFlat K K)
    (hflat : args.flat = rows.flatten) (htotal : args.total = rows.length)
    (hrows : ∀ row ∈ rows, row.length = args.numDim) (h32 : rows.length ≤ 2 ^ 32)
    (hq : ∀ q ∈ queryRows, (bpannRowToF32 q args.scaleX args.xScale : List K).length = args.numDim) :
    scoreQueriesFlat queryRows args =
      .ok (queryRows.map fun q =>
        resultRow args.kEff (rankMerged args.kEff args.poolK args.excludeNearest
          (topK ScoredLe args.poolK (scoredRows
            (fun i => sqDist (bpannRowToF32 q args.scaleX args.xScale) (rows.getD i []))
            rows.length)))) := by
  unfold scoreQueriesFlat
  rw [mapM_ok_iff, List.forall₂_map_right_iff, List.forall₂_same]
  intro q hmem
  have hids := nodup_ids_topK (nodup_ids_scoredRows (fun i =>
    sqDist (bpannRowToF32 q args.scaleX args.xScale) (rows.getD i [])) rows.length) args.poolK
  dsimp only
  rw [hflat, htotal, topkFlatSqL2_eq (hq q hmem) hrows h32]
  simp only [Outcome.bind_eq_ok]
  refine ⟨_, rfl, _, mergeTopkPrecomputedDist_eq (by rwa [List.append_nil]) _ _ _, ?_⟩
  rw [List.append_nil]
  rfl

end Exact

end Ennbo
