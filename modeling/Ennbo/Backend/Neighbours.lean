import Ennbo.Backend.Sessions

/-! # The rows that a search returns

A search of a backend returns stored rows with their distances as long as it has
enough rows to choose from. Excluding the nearest row takes one away from them,
and the beam may reach few leaves; what is missing then shows as padding.
-/

namespace Ennbo.BpannBackend

open Ranking

variable {K : Type} [ExactArith K] {b : BpannBackend K K} {t : Tuning} {queries : Array2 K}
  {searchK : ℕ} {excludeNearest : Bool}

/-- How many rows a search has to choose from. -/
def candidates (t : Tuning) (b : BpannBackend K K) (query : List K) : ℕ :=
  if b.len ≤ SMALL_N_INCORE_SEARCH_LIMIT then b.len
  else
    (b.fragmentRows t (bpannRowToF32 query b.scaleX b.xScale)).length + (b.len - b.indexedRows)

theorem enough_of_legs {k a c m p : ℕ}
    (h : k + excluded excludeNearest (a + c) ≤ a + c)
    (hm : k + excluded excludeNearest (a + c) ≤ m)
    (hp : k + excluded excludeNearest (a + c) ≤ p) :
    k + excluded excludeNearest (min m a + min p c) ≤ min m a + min p c := by
  unfold excluded at *
  cases excludeNearest with
  | false => simp at *; omega
  | true =>
    simp only [Bool.true_and, decide_eq_true_eq] at *
    by_cases hac : 1 < a + c
    · rw [if_pos hac] at h hm hp
      split <;> omega
    · rw [if_neg hac] at h hm hp
      split <;> omega

omit [ExactArith K] in
theorem width_le_searchPool {n : ℕ} (hmax : searchK + excludeNearest.toNat ≤ USIZE_MAX)
    (hn : n ≤ b.len) (h : b.searchWidth searchK + excluded excludeNearest n ≤ n) :
    b.searchWidth searchK + excluded excludeNearest n ≤ b.searchPool searchK excludeNearest := by
  unfold searchPool searchWidth excluded at *
  cases excludeNearest with
  | false => simp at *
  | true =>
    rw [Bool.toNat_true] at hmax
    rw [if_pos rfl, Nat.mod_eq_of_lt (by omega)]
    simp only [Bool.true_and, decide_eq_true_eq] at *
    split at h <;> split <;> omega

/-- A search of the resident matrix. -/
theorem neighbours_of_small (hb : b.Sized) (hcur : b.CacheCurrent) (h0 : b.len ≠ 0)
    (hlen : b.len ≤ SMALL_N_INCORE_SEARCH_LIMIT) (hq : queries.ncols = b.numDim)
    (hmax : searchK + excludeNearest.toNat ≤ USIZE_MAX)
    (hcand : b.searchWidth searchK + excluded excludeNearest b.len ≤ b.len) :
    ∃ rows, (search t queries searchK excludeNearest b).1 = .ok rows ∧
      List.Forall₂ (fun query row => Neighbours (b.dist query) b.len (b.searchWidth searchK) row)
        queries.rows rows := by
  refine ⟨_, search_of_matrix hb h0 hlen hcur.residentFlat_eq b.length_scaledRows
    (fun row h => length_of_mem_scaledRows hb h) t hq searchK excludeNearest, ?_⟩
  rw [List.forall₂_map_right_iff, List.forall₂_same]
  intro query _
  have hpool := width_le_searchPool hmax le_rfl hcand
  have hdist : (fun i => sqDist (bpannRowToF32 query b.scaleX b.xScale)
      (b.scaledRows.getD i [])) = b.dist query := by
    funext i
    rw [getD_scaledRows]
    rfl
  rw [hdist]
  apply neighbours_resultRow
  · exact nodup_ids_topK (nodup_ids_scoredRows _ _) _
  · intro hit hmem
    have hmem := mem_of_mem_topK ScoredLe hmem
    obtain ⟨i, hi, rfl⟩ := List.mem_map.mp hmem
    exact ⟨List.mem_range.mp hi, rfl⟩
  · omega
  · have h := enough_of_legs (c := 0) (p := b.searchPool searchK excludeNearest) hcand hpool hpool
    rw [length_topK, scoredRows, scored, List.length_map, List.length_range]
    simpa [len] using h

theorem Sound.rows_subperm (hb : b.Sound) (t : Tuning) (queryF32 : List K) :
    (b.fragmentRows t queryF32 ++
      List.range' b.index.indexedRows (b.len - b.index.indexedRows)).Subperm
      (List.range b.len) := by
  have hs : ∀ idx ∈ b.index.indices, idx.Scannable t :=
    fun idx hidx => (hb.index.searchable idx hidx).scannable t
  have hfrag : (b.fragmentRows t queryF32).Subperm (List.range b.index.indexedRows) := by
    unfold fragmentRows
    split
    · exact (IncrementalIndex.reachedRows_subperm hs queryF32).trans
        hb.covered.coverage.listed.subperm
    · exact List.nil_subperm
  rw [← range_append_range' hb.covered.indexed_le]
  exact List.Subperm.append hfrag (List.Subperm.refl _)

theorem Sound.holds (hb : b.Sound) (hscale : b.scaleX = false) :
    ∀ idx ∈ b.index.indices, ∀ p ∈ idx.pages,
      p.Holds (b.searchStore (b.pendingArgs searchK excludeNearest)).data := by
  intro idx hidx p hp
  have h := (hb.index.holds hscale idx hidx).holds p hp
  unfold MmapSearchStore.data searchStore pendingArgs
  rw [hscale]
  exact h

theorem excluded_le (excludeNearest : Bool) (n : ℕ) :
    excluded excludeNearest n ≤ excludeNearest.toNat := by
  unfold excluded
  cases excludeNearest with
  | false => simp
  | true => split <;> simp

/-- What the two legs give a search: rows at most once, as many as the cuts allow. -/
structure Legs (t : Tuning) (b : BpannBackend K K) (args : SearchPendingArgs K) (query : List K)
    (legA legB : List (ℕ × K)) : Prop where
  fragmentLeg_eq : b.fragmentLeg t args query = .ok legA
  pendingLeg_eq : b.pendingLeg args query = .ok legB
  rows : ((legA ++ legB).map Prod.fst).Subperm (List.range b.len)
  dists : args.scaleX = false → ∀ hit ∈ legA ++ legB, hit.2 = b.searchDist args query hit.1
  length_eq : (legA ++ legB).length =
    min (max args.indexK 1)
        (b.fragmentRows t (bpannRowToF32 query args.scaleX args.xScale)).length +
      min args.poolK (b.len - b.index.indexedRows)

theorem Sound.exists_legs (hb : b.Sound) {args : SearchPendingArgs K} {query : List K}
    (hargs : args = b.pendingArgs searchK excludeNearest) (hw : b.Widths args query) :
    ∃ legA legB, Legs t b args query legA legB := by
  have hs : b.Scannable t :=
    ⟨fun idx hidx => (hb.index.searchable idx hidx).scannable t, fun idx hidx i hi => by
      rw [MmapColumnStore.nrows_eq_length_rows]
      exact hb.covered.rows_lt idx hidx i hi⟩
  obtain ⟨hits, hlegA, hids, hholds⟩ := BpannBackend.fragmentLeg_eq hw hs
  have hsub := ids_legs_subperm (max args.indexK 1) args.poolK hits
    (scored (b.searchDist args query)
      (List.range' b.index.indexedRows (b.len - b.index.indexedRows)))
  rw [hids, ids_scored] at hsub
  have htotal : args.total = b.len := by rw [hargs]; rfl
  refine ⟨_, _, hlegA, ?_, hsub.trans (hb.rows_subperm t _), ?_, ?_⟩
  · rw [BpannBackend.pendingLeg_eq hw, htotal]
  · intro hscale hit hmem
    have hscale' : b.scaleX = false := by
      rw [hargs] at hscale
      exact hscale
    obtain rfl := hholds (by
      rw [hargs]
      exact hb.holds hscale')
    rcases List.mem_append.mp hmem with hmem | hmem
    · exact snd_of_mem_scored (mem_of_mem_topK _ hmem)
    · exact snd_of_mem_scored (mem_of_mem_topK _ hmem)
  · rw [List.length_append, length_topK, length_topK, ← hids, List.length_map, scored,
      List.length_map, List.length_range']

/-- A search of the fragments and the pending rows. -/
theorem neighbours_of_large (hb : b.Sound) (hlen : SMALL_N_INCORE_SEARCH_LIMIT < b.len)
    (hq : queries.ncols = b.numDim) (hk : 1 ≤ searchK)
    (hmax : searchK + excludeNearest.toNat ≤ USIZE_MAX)
    (hcand : ∀ query ∈ queries.rows, b.searchWidth searchK +
      excluded excludeNearest (b.candidates t query) ≤ b.candidates t query) :
    ∃ rows, (search t queries searchK excludeNearest b).1 = .ok rows ∧
      List.Forall₂ (fun query row => Neighbours (b.dist query) b.len (b.searchWidth searchK) row)
        queries.rows rows := by
  rw [search_of_large hlen]
  apply Outcome.exists_mapM
  intro query hquery
  have hcand := hcand query hquery
  have hw : b.Widths (b.pendingArgs searchK excludeNearest) query :=
    { query_eq := (queries.width query hquery).trans (hq.trans hb.sized.ncols_eq.symm)
      xScale_eq := hb.sized.xScale_eq.trans hb.sized.ncols_eq.symm
      total_le := le_rfl
      total_u32 := by
        have := hb.covered.len_lt
        unfold U32_MAX at this
        change b.len ≤ 2 ^ 32
        omega }
  obtain ⟨legA, legB, hlegs⟩ := hb.exists_legs (t := t) rfl hw
  have hnodup := nodup_of_subperm hlegs.rows List.nodup_range
  have hlt := fun i (hi : i ∈ (legA ++ legB).map Prod.fst) =>
    List.mem_range.mp (hlegs.rows.subset hi)
  -- both merges rank the candidates by the distances of the stored rows
  have hseen : (if b.scaleX then scored (b.dist query) ((legA ++ legB).map Prod.fst)
      else legA ++ legB) = scored (b.dist query) ((legA ++ legB).map Prod.fst) := by
    split
    · rfl
    next hscale => exact (scored_ids (hlegs.dists (Bool.not_eq_true _ ▸ hscale))).symm
  have hmerge := mergeLegs_eq hw hnodup hlt
  change b.mergeLegs _ query legA legB = .ok (rankMerged _ _ _ (if b.scaleX then
    scored (b.dist query) ((legA ++ legB).map Prod.fst) else legA ++ legB)) at hmerge
  rw [hseen] at hmerge
  have hcount : b.candidates t query =
      (b.fragmentRows t (bpannRowToF32 query b.scaleX b.xScale)).length +
        (b.len - b.index.indexedRows) := by
    unfold candidates
    rw [if_neg (not_le.mpr hlen)]
    rfl
  have hle : b.candidates t query ≤ b.len := by
    have := (hb.rows_subperm t (bpannRowToF32 query b.scaleX b.xScale)).length_le
    rwa [List.length_append, List.length_range', List.length_range, ← hcount] at this
  have hpool := width_le_searchPool hmax hle hcand
  have hindexK : b.searchWidth searchK + excluded excludeNearest (b.candidates t query) ≤
      max (b.pendingArgs searchK excludeNearest).indexK 1 := by
    have h := (b.pendingArgs searchK excludeNearest).le_indexK
      (le_min hk (by omega))
    have := excluded_le excludeNearest (b.candidates t query)
    change excludeNearest.toNat + b.searchWidth searchK ≤ _ at h
    omega
  refine ⟨_, ?_, neighbours_resultRow (b.dist query) (b.searchWidth searchK)
    (b.searchPool searchK excludeNearest) excludeNearest
    (by rwa [ids_scored (b.dist query)]) ?_ ?_ ?_⟩
  · simp only [Outcome.bind_eq_ok]
    exact ⟨_, hlegs.fragmentLeg_eq, _, hlegs.pendingLeg_eq, _, hmerge, rfl⟩
  · intro hit hmem
    obtain ⟨i, hi, rfl⟩ := List.mem_map.mp hmem
    exact ⟨hlt i hi, rfl⟩
  · omega
  · have henough := enough_of_legs (hcount ▸ hcand) (hcount ▸ hindexK) (hcount ▸ hpool)
    have hlength := hlegs.length_eq
    rw [scored, List.length_map, List.length_map, hlength]
    exact henough

/--
In every session, a search that has enough rows to choose from returns different stored rows with
their distances, nearest first.
-/
theorem neighbours_of_session (h : Session b) (hN : 1 ≤ b.len) (hq : queries.ncols = b.numDim)
    (hk : 1 ≤ searchK) (hmax : searchK + excludeNearest.toNat ≤ USIZE_MAX)
    (hcand : ∀ query ∈ queries.rows, b.searchWidth searchK +
      excluded excludeNearest (b.candidates t query) ≤ b.candidates t query) :
    ∃ rows, (search t queries searchK excludeNearest b).1 = .ok rows ∧
      List.Forall₂ (fun query row => Neighbours (b.dist query) b.len (b.searchWidth searchK) row)
        queries.rows rows := by
  have hb := h.sound
  by_cases hlen : b.len ≤ SMALL_N_INCORE_SEARCH_LIMIT
  · by_cases hnone : queries.rows = []
    · refine ⟨[], ?_, by rw [hnone]; exact .nil⟩
      rw [search_of_matrix hb.sized (by omega) hlen hb.cache.cacheCurrent.residentFlat_eq
        b.length_scaledRows (fun row h => length_of_mem_scaledRows hb.sized h) t hq, hnone]
      rfl
    · obtain ⟨query, hquery⟩ := List.exists_mem_of_ne_nil _ hnone
      have h := hcand query hquery
      unfold candidates at h
      rw [if_pos hlen] at h
      exact neighbours_of_small hb.sized hb.cache.cacheCurrent (by omega) hlen hq hmax h
  · exact neighbours_of_large hb (not_le.mp hlen) hq hk hmax hcand

/-- Three rows, searched for the two nearest to a stored row other than itself. -/
theorem neighbours_three_rows :
    ∃ b : BpannBackend ℚ ℚ,
      new defaultEnv {} (.column [0, 2, 3]) (.column [0, 0, 0]) none false [1] = .ok b ∧
        ∃ rows, (search defaultEnv.tuning (.column [2]) 2 true b).1 = .ok rows ∧
          List.Forall₂ (fun query row => Neighbours (b.dist query) b.len (b.searchWidth 2) row)
            (Array2.column [2]).rows rows :=
  ⟨_, rfl, neighbours_of_session
    (.new defaultEnv (.column [0, 2, 3]) (.column [0, 0, 0]) none false [1] (by decide) rfl rfl)
    (by decide) rfl (by decide) (by decide) (by decide)⟩

/-- As many rows are wanted as there are, but the nearest one is excluded. -/
theorem not_neighbours_padded :
    ∃ b : BpannBackend ℚ ℚ,
      new defaultEnv {} (.column [0, 1]) (.column [0, 0]) none false [1] = .ok b ∧ Session b ∧
        (search defaultEnv.tuning (.column [0]) 2 true b).1 = .ok [[(1, 1), (0, 0)]] ∧
        ¬ Neighbours (b.dist [0]) b.len (b.searchWidth 2) [(1, 1), (0, 0)] := by
  refine ⟨_, rfl, .new defaultEnv (.column [0, 1]) (.column [0, 0]) none false [1] (by decide)
    rfl rfl, by decide +kernel, fun h => ?_⟩
  have hsorted := h.sorted
  norm_num at hsorted

end Ennbo.BpannBackend
