import Ennbo.Backend.Coverage
import Ennbo.Search.LargeN

/-! # Search when nothing is pruned

When every fragment is searched and scanned, the two legs see all stored rows,
and their merge is the answer of a brute-force search. The vectors that leaves
store must be those of their rows under the scale of the search; an index that
was built under another scale ranks by other distances.
-/

namespace Ennbo.BpannBackend

open Ranking

variable {K : Type} [ExactArith K] {t : Tuning} {b : BpannBackend K K} {args : SearchPendingArgs K}

def StoresRows (b : BpannBackend K K) (args : SearchPendingArgs K) : Prop :=
  ∀ idx ∈ b.index.indices, ∀ p ∈ idx.pages, p.LeafOk ∧ p.Holds (b.searchStore args).data

instance (b : BpannBackend K K) (args : SearchPendingArgs K) :
    Decidable (b.StoresRows args) :=
  inferInstanceAs (Decidable (∀ idx ∈ b.index.indices, ∀ p ∈ idx.pages, p.LeafOk ∧ _))

/-- No fragment is left out and none is too large for a scan. -/
structure Unpruned (t : Tuning) (b : BpannBackend K K) : Prop where
  budget : b.index.indices.length ≤
    searchFragmentBudget t b.index.indices.length b.index.indexedRows
  scanned : ∀ idx ∈ b.index.indices, idx.header.indexedRows ≤ t.1.exhaustiveSearchRowLimit

theorem Unpruned.scannable (hu : Unpruned t b) (hs : b.StoresRows args) (hc : b.Coverage) :
    b.Scannable t where
  scannable idx hidx := by
    refine ⟨fun p hp => (hs idx hidx p hp).1, fun hex => ?_⟩
    simp [BpannTuning.useExhaustiveSearch, hu.scanned idx hidx] at hex
  rows_lt idx hidx i hi := by
    have hmem := hc.listed.mem_iff.mp (List.mem_flatMap.mpr ⟨idx, hidx, hi⟩)
    exact (List.mem_range.mp hmem).trans_le hc.indexed_le

theorem Unpruned.fragmentRows (hu : Unpruned t b) (hc : b.Coverage) (queryF32 : List K) :
    (b.fragmentRows t queryF32).Perm (List.range b.indexedRows) := by
  unfold BpannBackend.fragmentRows
  split
  · rw [IncrementalIndex.reachedRows_of_exhaustive hu.budget hu.scanned]
    exact hc.listed
  next h =>
    rw [not_and_or, not_not, Nat.not_lt, Nat.le_zero] at h
    have hlisted := hc.listed
    rcases h with h | h
    · rw [indexedRows, h]
      rfl
    · rw [h, List.flatMap_nil] at hlisted
      exact hlisted

/-- A search in which nothing is pruned returns the nearest of all rows. -/
theorem searchIndexedAndPending_eq_nearestRows {queryRows : List (List K)} (hc : b.Coverage)
    (h32 : b.len ≤ 2 ^ 32) (hu : Unpruned t b) (hs : b.StoresRows args)
    (hq : ∀ query ∈ queryRows, query.length = b.trainX.ncols)
    (hx : args.xScale.length = b.trainX.ncols) (htotal : args.total = b.len)
    (hk : 1 ≤ args.kEff) (hN : args.excludeNearest.toNat + args.kEff ≤ b.len)
    (hpool : args.excludeNearest.toNat + args.kEff ≤ args.poolK) :
    b.searchIndexedAndPending t queryRows args =
      .ok (queryRows.map fun query =>
        nearestRows (b.searchDist args query) b.len args.kEff args.excludeNearest) := by
  unfold searchIndexedAndPending
  rw [mapM_ok_iff, List.forall₂_map_right_iff, List.forall₂_same]
  intro query hquery
  have hw : b.Widths args query := ⟨hq query hquery, hx, htotal.le, htotal.le.trans h32⟩
  obtain ⟨hits, hlegA, -, hholds⟩ := fragmentLeg_eq hw (hu.scannable hs hc)
  obtain rfl := hholds fun idx hidx p hp => (hs idx hidx p hp).2
  have hrows : (b.fragmentRows t (bpannRowToF32 query args.scaleX args.xScale) ++
      List.range' b.index.indexedRows (args.total - b.index.indexedRows)).Perm
      (List.range b.len) := by
    rw [htotal, ← range_append_range' hc.indexed_le]
    exact (hu.fragmentRows hc _).append_right _
  have hsub := ids_legs_subperm (max args.indexK 1) args.poolK
    (scored (b.searchDist args query)
      (b.fragmentRows t (bpannRowToF32 query args.scaleX args.xScale)))
    (scored (b.searchDist args query)
      (List.range' b.index.indexedRows (args.total - b.index.indexedRows)))
  rw [ids_scored, ids_scored] at hsub
  have hids := nodup_of_subperm hsub (hrows.nodup_iff.mpr List.nodup_range)
  have hindexK := (args.le_indexK hk).trans (le_max_left args.indexK 1)
  rw [hlegA, pendingLeg_eq hw]
  simp only [Outcome.bind_eq_ok]
  refine ⟨_, rfl, _, rfl, _, mergeLegs_eq hw hids fun i hi => ?_, ?_⟩
  · exact List.mem_range.mp (hrows.subset (hsub.subset hi))
  · have hdist : ∀ hit ∈ topK ScoredLe (max args.indexK 1)
        (scored (b.searchDist args query)
          (b.fragmentRows t (bpannRowToF32 query args.scaleX args.xScale))) ++
        topK ScoredLe args.poolK (scored (b.searchDist args query)
          (List.range' b.index.indexedRows (args.total - b.index.indexedRows))),
        hit.2 = b.searchDist args query hit.1 := by
      intro hit hmem
      rcases List.mem_append.mp hmem with hmem | hmem
      · exact snd_of_mem_scored (mem_of_mem_topK _ hmem)
      · exact snd_of_mem_scored (mem_of_mem_topK _ hmem)
    rw [scored_ids hdist, ite_self, rankMerged_eq_nearestRows hrows hk hN hindexK hpool,
      resultRow_of_length (length_nearestRows hN)]
    rfl

/-- Two indexed rows and a pending one, searched for the nearest row other than the query. -/
theorem nearestRows_three_rows :
    ∃ b₀ b₁ b : BpannBackend ℚ ℚ,
      new defaultEnv {} (.column [0, 2]) (.column [0, 0]) none false [1] = .ok b₀ ∧
        (ensureIndexSync defaultEnv).Returns b₀ () b₁ ∧
        (appendRows defaultEnv (.column [3]) (.column [0]) none).Returns b₁ () b ∧
        b.searchIndexedAndPending defaultEnv.tuning [[2]] ⟨3, 1, 2, true, false, [1]⟩ =
          .ok [nearestRows (b.searchDist ⟨3, 1, 2, true, false, [1]⟩ [2]) 3 1 true] :=
  ⟨_, _, _, rfl, rfl, rfl, searchIndexedAndPending_eq_nearestRows
    (Covered.coverage (Reachable.covered (.step (.step
      (.new defaultEnv (.column [0, 2]) (.column [0, 0]) none false [1] (by decide) rfl)
      (.ensureIndexSync defaultEnv rfl))
      (.appendRows defaultEnv (.column [3]) (.column [0]) none rfl))))
    (by decide) ⟨by decide, by decide⟩ (by decide) (by decide) rfl rfl (by decide) (by decide)
    (by decide)⟩

def smallLimitEnv : Env ℚ :=
  { defaultEnv with tuning := ⟨{ structuredBuildRowLimit := 1 }, by decide⟩ }

/-- An index that was built under another scale, reopened with the unit scale. -/
theorem not_nearestRows_reopened :
    ∃ b₀ b₁ b : BpannBackend ℚ ℚ,
      new smallLimitEnv {} (.column [4, 10]) (.column [0, 0]) none true [2] = .ok b₀ ∧
        (persistIndexToDisk smallLimitEnv).Returns b₀ () b₁ ∧
        reopen smallLimitEnv b₁.workDir = .ok b ∧
        b.Coverage ∧ Unpruned smallLimitEnv.tuning b ∧
        b.searchIndexedAndPending smallLimitEnv.tuning [[5]] ⟨2, 1, 1, false, true, [1]⟩ =
          .ok [[(1, 25)]] ∧
        nearestRows (b.searchDist ⟨2, 1, 1, false, true, [1]⟩ [5]) 2 1 false = [(0, 1)] :=
  ⟨_, _, _, rfl, rfl, rfl, Covered.coverage (Reachable.covered (.step (.step
      (.new smallLimitEnv (.column [4, 10]) (.column [0, 0]) none true [2] (by decide) rfl)
      (.persistIndexToDisk smallLimitEnv rfl)) (.reopen smallLimitEnv rfl))),
    ⟨by decide, by decide⟩, by decide +kernel, by decide +kernel⟩

end Ennbo.BpannBackend
