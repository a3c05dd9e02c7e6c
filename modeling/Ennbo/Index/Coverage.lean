import Ennbo.Index.Fragments
import Ennbo.Index.Merge
import Ennbo.Index.Partition

/-! # The rows that fragments cover

Every fragment holds the rows of one span, once each, and the spans follow one
another. A synchronisation extends the chain by a span, and merging neighbours
leaves the chain as it was.
-/

namespace Ennbo

variable {D F : Type} [Floating D] [Floating F] [FloatCast D F]

/-- The leaves list the rows from `start` up to `stop`, each once. -/
structure Spans (idx : BpannIndex F) (start stop : ℕ) : Prop where
  le : start ≤ stop
  count : idx.header.indexedRows = stop - start
  rows : idx.leafRows.Perm (List.range' start (stop - start))

/-- The fragments span consecutive parts of the rows from `start` up to `stop`. -/
def Covers : ℕ → List (BpannIndex F) → ℕ → Prop
  | start, [], stop => start = stop
  | start, idx :: rest, stop => ∃ mid, Spans idx start mid ∧ Covers mid rest stop

section Covers

omit [Floating F]

theorem covers_append_iff {xs ys : List (BpannIndex F)} {start stop : ℕ} :
    Covers start (xs ++ ys) stop ↔ ∃ mid, Covers start xs mid ∧ Covers mid ys stop := by
  induction xs generalizing start with
  | nil => simp [Covers]
  | cons x xs ih =>
    simp only [List.cons_append, Covers, ih]
    constructor
    · rintro ⟨m, hx, mid, hxs, hys⟩
      exact ⟨mid, ⟨m, hx, hxs⟩, hys⟩
    · rintro ⟨mid, ⟨m, hx, hxs⟩, hys⟩
      exact ⟨m, hx, mid, hxs, hys⟩

theorem covers_singleton {idx : BpannIndex F} {start stop : ℕ} :
    Covers start [idx] stop ↔ Spans idx start stop := by
  simp [Covers]

/-- Together the fragments list every row of the chain once. -/
theorem Covers.rows {frags : List (BpannIndex F)} {start stop : ℕ} (h : Covers start frags stop) :
    start ≤ stop ∧ (frags.map fun idx => idx.header.indexedRows).sum = stop - start ∧
      (frags.flatMap BpannIndex.leafRows).Perm (List.range' start (stop - start)) := by
  induction frags generalizing start with
  | nil =>
    obtain rfl := h
    simp
  | cons idx rest ih =>
    obtain ⟨mid, hidx, hrest⟩ := h
    obtain ⟨hle, hsum, hrows⟩ := ih hrest
    have := hidx.le
    refine ⟨by omega, by rw [List.map_cons, List.sum_cons, hsum, hidx.count]; omega, ?_⟩
    have hr : List.range' start (stop - start) =
        List.range' start (mid - start) ++ List.range' mid (stop - mid) := by
      obtain ⟨m, rfl⟩ := Nat.exists_eq_add_of_le hidx.le
      rw [Nat.add_sub_cancel_left, List.range'_append_1]
      congr 1
      omega
    rw [List.flatMap_cons, hr]
    exact hidx.rows.append hrows

theorem Covers.counted {frags : List (BpannIndex F)} {start stop : ℕ}
    (h : Covers start frags stop) :
    ∀ idx ∈ frags, idx.header.indexedRows = idx.leafRows.length := by
  induction frags generalizing start with
  | nil => simp
  | cons idx rest ih =>
    obtain ⟨mid, hidx, hrest⟩ := h
    rintro p (_ | ⟨_, hp⟩)
    · rw [hidx.rows.length_eq, List.length_range', hidx.count]
    · exact ih hrest p hp

end Covers

theorem spans_concatMerge {parts : List (BpannIndex F)} {merged : BpannIndex F} {start stop : ℕ}
    (hc : Covers start parts stop) (h : BpannIndex.concatMerge parts = .ok merged) :
    Spans merged start stop := by
  obtain ⟨hrows, htotal⟩ := keepsRows_concatMerge h
  obtain ⟨hle, hsum, hperm⟩ := hc.rows
  exact ⟨hle, htotal.trans hsum, hrows ▸ hperm⟩

theorem covers_mergeStep {xs ys : List (BpannIndex F)} {start stop : ℕ}
    (hc : Covers start xs stop) (h : MergeStep xs ys) : Covers start ys stop := by
  obtain ⟨pre, run, post, merged, rfl, hm, rfl⟩ := h
  obtain ⟨b, hpr, hpost⟩ := covers_append_iff.mp hc
  obtain ⟨a, hpre, hrun⟩ := covers_append_iff.mp hpr
  exact covers_append_iff.mpr ⟨a, hpre, b, spans_concatMerge hrun hm, hpost⟩

theorem covers_of_merges {xs ys : List (BpannIndex F)} {start stop : ℕ}
    (hc : Covers start xs stop) (h : Relation.ReflTransGen MergeStep xs ys) :
    Covers start ys stop := by
  induction h with
  | refl => exact hc
  | tail _ hstep ih => exact covers_mergeStep ih hstep

section Built

variable {start stop : ℕ}

omit [Floating F] in
theorem spans_buildRowIdsLeaf (hle : start ≤ stop) (h32 : stop ≤ 2 ^ 32) (centroid : List F)
    (numDim : ℕ) :
    Spans (BpannIndex.buildRowIdsLeaf (spanIds start stop) centroid numDim) start stop where
  le := hle
  count := length_spanIds start stop
  rows := by
    rw [spanIds_of_le h32]
    simp [BpannIndex.buildRowIdsLeaf, BpannIndex.ofLeaf, BpannIndex.leafRows]

theorem leafRows_buildFromRows_perm {t : Tuning} {rowIds : List ℕ} {vectors : List (List F)}
    {numDim cap : ℕ} {rng : Rng F} {depth : ℕ} {idx : BpannIndex F}
    (h : BpannIndex.buildFromRowsWithPersist t rowIds vectors numDim cap rng depth = .ok idx) :
    idx.leafRows.Perm rowIds ∧ idx.header.indexedRows = rowIds.length := by
  rw [BpannIndex.buildFromRowsWithPersist] at h
  split at h
  · obtain rfl := Outcome.pure_eq_ok.mp h
    exact ⟨by simp [BpannIndex.buildSingleLeafFromRows, BpannIndex.ofLeaf, BpannIndex.leafRows],
      rfl⟩
  · simp only [Outcome.bind_eq_ok, Outcome.ofOption_eq_ok, Outcome.pure_eq_ok] at h
    obtain ⟨tree, htree, rfl⟩ := h
    refine ⟨?_, rfl⟩
    obtain ⟨hl, -⟩ := PartitionTree.build_eq_some htree
    rw [BpannIndex.leafRows]
    have hrows := (numbered_partitionToPagesId tree.root 0).rows
    refine (List.Perm.of_eq hrows).trans ?_
    refine ((PartitionTree.entries_perm htree).map Prod.fst).trans (List.Perm.of_eq ?_)
    rw [List.map_fst_zip hl.le]

omit [Floating D] [Floating F] [FloatCast D F] in
theorem leafRows_forestLeaves {leaf : ℕ → ℕ → ℕ → Outcome (Page F)} {spans : List (ℕ × ℕ)}
    {nextId : ℕ} {leaves : List (Page F)}
    (hleaf : ∀ span ∈ spans, ∀ id page, leaf id span.1 span.2 = .ok page →
      page.leafRows = List.range' span.1 (span.2 - span.1))
    (h : forestLeaves leaf spans nextId = .ok leaves) :
    leaves.flatMap Page.leafRows = spans.flatMap fun s => List.range' s.1 (s.2 - s.1) := by
  induction spans generalizing nextId leaves with
  | nil =>
    obtain rfl := Outcome.pure_eq_ok.mp h
    rfl
  | cons span spans ih =>
    simp only [forestLeaves, Outcome.bind_eq_ok, Outcome.pure_eq_ok] at h
    obtain ⟨page, hp, pages, hps, rfl⟩ := h
    rw [List.flatMap_cons, List.flatMap_cons, hleaf span List.mem_cons_self _ _ hp,
      ih (fun s hs => hleaf s (List.mem_cons_of_mem _ hs)) hps]

omit [Floating D] [FloatCast D F] in
theorem spans_buildLeafForestIndex {leaf : ℕ → ℕ → ℕ → Outcome (Page F)} {numDim leafRows : ℕ}
    {idx : BpannIndex F} (hle : start ≤ stop)
    (hleaf : ∀ cur chunkEnd, cur < chunkEnd → chunkEnd ≤ stop → ∀ id page,
      leaf id cur chunkEnd = .ok page → page.leafRows = List.range' cur (chunkEnd - cur))
    (h : buildLeafForestIndex leaf numDim start stop leafRows = .ok idx) :
    Spans idx start stop := by
  obtain ⟨leaves, hl, rfl⟩ := buildLeafForestIndex_eq_ok.mp h
  have hpos : 0 < max leafRows 1 := by omega
  refine ⟨hle, rfl, ?_⟩
  rw [BpannIndex.leafRows, forestPages, List.flatMap_append,
    leafRows_forestLeaves (fun span hs id page hp => ?_) hl, chunkSpans_flatMap hpos le_rfl]
  · simp
  · obtain ⟨-, h₁, h₂, -⟩ := chunkSpans_bounds hpos span hs
    exact hleaf _ _ h₁ h₂ id page hp

theorem spans_builtFragment {env : Env F} {ctx : IndexBuildContext D} {frag : BpannIndex F}
    (hle : start ≤ stop) (h32 : stop < 2 ^ 32) (h : BuiltFragment env ctx start stop frag) :
    Spans frag start stop := by
  cases h with
  | rowIds centroid => exact spans_buildRowIdsLeaf hle h32.le _ _
  | tree hv hidx =>
    obtain ⟨hrows, hcount⟩ := leafRows_buildFromRows_perm hidx
    exact ⟨hle, hcount.trans (length_spanIds _ _), spanIds_of_le h32.le ▸ hrows⟩
  | emptyForest hidx =>
    refine spans_buildLeafForestIndex hle (fun cur chunkEnd h₁ h₂ id page hp => ?_) hidx
    simp only [emptyLeaf, Outcome.bind_eq_ok, Outcome.pure_eq_ok] at hp
    obtain ⟨_, -, rfl⟩ := hp
    rw [Page.leafRows_emptyRangeLeaf, toU32_of_lt (by omega), toU32_of_lt (by omega)]
  | vectorForest hidx =>
    refine spans_buildLeafForestIndex hle (fun cur chunkEnd h₁ h₂ id page hp => ?_) hidx
    simp only [vectorLeaf, Outcome.bind_eq_ok, Outcome.pure_eq_ok] at hp
    obtain ⟨_, -, rfl⟩ := hp
    rw [Page.leafRows_leaf, spanIds_of_le (by omega)]

end Built

theorem covers_ensureSync {env : Env F} {ctx : IndexBuildContext D} {stop : ℕ}
    {s s' : IndexState D F} (h32 : stop < 2 ^ 32)
    (hc : Covers 0 s.index.indices s.index.indexedRows)
    (h : (IndexState.ensureSync env ctx stop).Returns s () s') :
    Covers 0 s'.index.indices s'.index.indexedRows := by
  rcases IndexState.returns_ensureSync h with ⟨-, rfl⟩ | ⟨hlt, ⟨frag, hf, hm⟩, hr, -⟩
  · exact hc
  · rw [hr]
    exact covers_of_merges (covers_append_iff.mpr
      ⟨_, hc, covers_singleton.mpr (spans_builtFragment hlt.le h32 hf)⟩) hm

end Ennbo
