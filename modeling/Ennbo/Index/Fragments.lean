import Ennbo.Index.Sync
import Mathlib.Logic.Relation

/-! # What a synchronisation does to the fragments

A synchronisation adds one fragment over the new rows and then merges runs of
neighbouring fragments. Whatever holds of the new fragment and survives merging
holds of all fragments.
-/

namespace Ennbo

variable {D F : Type} [Floating D] [Floating F] [FloatCast D F]

/-- The fragments that a synchronisation builds over the rows from `start` to `stop`. -/
inductive BuiltFragment (env : Env F) (ctx : IndexBuildContext D) (start stop : ℕ) :
    BpannIndex F → Prop where
  | rowIds (centroid : List F) :
      BuiltFragment env ctx start stop
        (BpannIndex.buildRowIdsLeaf (spanIds start stop) centroid ctx.numDim)
  | tree {vectors : List (List F)} {rng : Rng F} {idx : BpannIndex F} :
      loadVectorsFromMmap ctx start stop = .ok vectors →
      BpannIndex.buildFromRowsWithPersist env.tuning (spanIds start stop) vectors ctx.numDim
        DEFAULT_LEAF_CAPACITY rng env.depth = .ok idx →
      BuiltFragment env ctx start stop idx
  | emptyForest {idx : BpannIndex F} :
      buildEmptyLeafForestIndex ctx start stop env.tuning.1.structuredBuildRowLimit = .ok idx →
      BuiltFragment env ctx start stop idx
  | vectorForest {idx : BpannIndex F} :
      buildVectorLeafForestIndex ctx start stop MID_BAND_LEAF_CAPACITY = .ok idx →
      BuiltFragment env ctx start stop idx

/-- Replace a run of neighbouring fragments by their merge. -/
def MergeStep (xs ys : List (BpannIndex F)) : Prop :=
  ∃ pre run post merged, xs = pre ++ run ++ post ∧
    BpannIndex.concatMerge run = .ok merged ∧ ys = pre ++ merged :: post

namespace IncrementalIndex

variable {s s' : IncrementalIndex D F}

def SameFragments (s s' : IncrementalIndex D F) : Prop :=
  s'.indices = s.indices ∧ s'.indexedRows = s.indexedRows

omit [Floating F] [FloatCast D F] in
theorem sameFragments_notePendingRows (s : IncrementalIndex D F) (x : Array2 D) (scaleX : Bool)
    (xScale : List D) : SameFragments s (s.notePendingRows x scaleX xScale) := by
  rw [notePendingRows]
  split <;> exact ⟨rfl, rfl⟩

def Compacted (s s' : IncrementalIndex D F) : Prop :=
  Relation.ReflTransGen MergeStep s.indices s'.indices ∧ s'.indexedRows = s.indexedRows

omit [Floating D] [FloatCast D F] in
theorem Compacted.refl (s : IncrementalIndex D F) : Compacted s s := ⟨.refl, rfl⟩

omit [Floating D] [FloatCast D F] in
theorem Compacted.trans {s₁ s₂ s₃ : IncrementalIndex D F} (h₁ : Compacted s₁ s₂)
    (h₂ : Compacted s₂ s₃) : Compacted s₁ s₃ :=
  ⟨h₁.1.trans h₂.1, h₂.2.trans h₁.2⟩

omit [Floating F] in
theorem returns_takePendingCentroid {numDim : ℕ} {o : Option (List F)}
    (h : (takePendingCentroid numDim).Returns s o s') : SameFragments s s' := by
  simp only [takePendingCentroid, Call.returns_bind, Call.returns_get] at h
  obtain ⟨_, _, ⟨rfl, rfl⟩, h⟩ := h
  split at h
  · obtain ⟨-, rfl⟩ := Call.returns_pure.mp h
    exact ⟨rfl, rfl⟩
  · split at h
    · obtain ⟨-, rfl⟩ := Call.returns_pure.mp h
      exact ⟨rfl, rfl⟩
    · simp only [Call.returns_bind, Call.returns_modify, Call.returns_pure] at h
      obtain ⟨_, _, rfl, -, rfl⟩ := h
      exact ⟨rfl, rfl⟩

section Compact

omit [Floating D] [FloatCast D F]

omit [Floating F] in
/-- The best run lies within the fragments. -/
theorem bestRun_add_le {smallLimit mergeN : ℕ} {indices : List (BpannIndex F)}
    (h : mergeN ≤ indices.length) : bestRun smallLimit mergeN indices + mergeN ≤ indices.length := by
  have hb : ∀ (is : List ℕ) (best : ℕ × ℕ), (∀ i ∈ is, i + mergeN ≤ indices.length) →
      best.1 + mergeN ≤ indices.length →
      (is.foldl (fun best i =>
        let rank := runRank smallLimit ((indices.drop i).take mergeN)
        if rank < best.2 then (i, rank) else best) best).1 + mergeN ≤ indices.length := by
    intro is
    induction is with
    | nil => exact fun best _ h => h
    | cons i is ih =>
      intro best his hbest
      rw [List.foldl_cons]
      refine ih _ (fun j hj => his j (List.mem_cons_of_mem _ hj)) ?_
      dsimp only
      split
      · exact his i List.mem_cons_self
      · exact hbest
  refine hb _ _ (fun i hi => ?_) (by omega)
  have := List.mem_range.mp hi
  omega

/-- The best run is replaced by its merge. -/
theorem returns_amalgamateSmallestRun {t : Tuning} {mergeN i : ℕ} (hm : 2 ≤ mergeN)
    (hs : mergeN ≤ s.indices.length)
    (hi : i = bestRun t.1.smallFragmentMergeRows mergeN s.indices) :
    (amalgamateSmallestRun t mergeN).Returns s () s' ↔
      ∃ merged, BpannIndex.concatMerge ((s.indices.drop i).take mergeN) = .ok merged ∧
        s' = { s with indices := s.indices.take i ++ merged :: s.indices.drop (i + mergeN) } := by
  have hlt : ¬ s.indices.length < 2 := by omega
  have hle : bestRun t.1.smallFragmentMergeRows mergeN s.indices + mergeN ≤ s.indices.length :=
    bestRun_add_le hs
  have hlen : (s.indices.take i).length = i := by rw [List.length_take]; omega
  simp only [amalgamateSmallestRun, Call.returns_bind, Call.returns_get]
  constructor
  · rintro ⟨_, _, ⟨rfl, rfl⟩, h⟩
    simp only [hlt, if_false, min_eq_left hs, ← hi, Call.returns_bind, Call.returns_modify,
      Call.returns_ofOutcome] at h
    obtain ⟨-, _, rfl, merged, _, ⟨hmerged, rfl⟩, rfl⟩ := h
    refine ⟨merged, hmerged, ?_⟩
    simp only [List.take_left' hlen, List.drop_left' hlen]
  · rintro ⟨merged, hmerged, rfl⟩
    refine ⟨_, _, ⟨rfl, rfl⟩, ?_⟩
    simp only [hlt, if_false, min_eq_left hs, ← hi, Call.returns_bind, Call.returns_modify,
      Call.returns_ofOutcome]
    refine ⟨(), _, rfl, merged, _, ⟨hmerged, rfl⟩, ?_⟩
    simp only [List.take_left' hlen, List.drop_left' hlen]

theorem compacted_amalgamateSmallestRun {t : Tuning} {mergeN : ℕ} (hm : 2 ≤ mergeN)
    (hs : mergeN ≤ s.indices.length)
    (h : (amalgamateSmallestRun t mergeN).Returns s () s') :
    Compacted s s' ∧ s'.indices.length + mergeN = s.indices.length + 1 := by
  obtain ⟨merged, hmerged, rfl⟩ := (returns_amalgamateSmallestRun hm hs rfl).mp h
  have hi : bestRun t.1.smallFragmentMergeRows mergeN s.indices + mergeN ≤ s.indices.length :=
    bestRun_add_le hs
  generalize bestRun t.1.smallFragmentMergeRows mergeN s.indices = i at hmerged hi ⊢
  have hsplit : s.indices =
      s.indices.take i ++ (s.indices.drop i).take mergeN ++ s.indices.drop (i + mergeN) := by
    rw [List.append_assoc, ← List.drop_drop, List.take_append_drop, List.take_append_drop]
  refine ⟨⟨.single ⟨_, _, _, merged, hsplit, hmerged, rfl⟩, rfl⟩, ?_⟩
  simp only [List.length_append, List.length_cons, List.length_take, List.length_drop]
  omega

theorem returns_compactLoop {t : Tuning} {maxFragments n : ℕ} (hmax : 0 < maxFragments)
    (hn : s.indices.length ≤ n) (h : (compactLoop t maxFragments n).Returns s () s') :
    Compacted s s' ∧ s'.indices.length ≤ maxFragments := by
  induction n generalizing s with
  | zero =>
    obtain ⟨-, rfl⟩ := Call.returns_pure.mp h
    exact ⟨.refl s, by omega⟩
  | succ n ih =>
    simp only [compactLoop, Call.returns_bind, Call.returns_get] at h
    obtain ⟨_, _, ⟨rfl, rfl⟩, h⟩ := h
    split at h
    next hlt =>
      obtain ⟨_, s₁, h₁, h⟩ := Call.returns_bind.mp h
      obtain ⟨hc, hl⟩ := compacted_amalgamateSmallestRun (by omega) (min_le_right _ _) h₁
      obtain ⟨hc', hl'⟩ := ih (by omega) h
      exact ⟨hc.trans hc', hl'⟩
    next hlt =>
      obtain ⟨-, rfl⟩ := Call.returns_pure.mp h
      exact ⟨.refl s, by omega⟩

theorem indexCompactThreshold_pos (t : Tuning) (indexedRows : ℕ) :
    0 < indexCompactThreshold t indexedRows := by
  rw [indexCompactThreshold]
  split
  · exact one_pos
  · have := t.indexCompactFragmentMax_ge
    simp only [INDEX_COMPACT_THRESHOLD_MIN, INDEX_COMPACT_FRAGMENT_MAX_MIN] at this ⊢
    omega

theorem returns_maybeCompact {t : Tuning} (hpos : 0 < s.indexedRows)
    (h : (maybeCompact t).Returns s () s') : Compacted s s' := by
  simp only [maybeCompact, Call.returns_bind, Call.returns_get] at h
  obtain ⟨_, _, ⟨rfl, rfl⟩, h⟩ := h
  split at h
  · simp only [compact, Call.returns_bind, Call.returns_get] at h
    obtain ⟨_, _, ⟨rfl, rfl⟩, h⟩ := h
    rw [if_neg hpos.ne'] at h
    exact (returns_compactLoop (indexCompactThreshold_pos t _) le_rfl h).1
  · obtain ⟨-, rfl⟩ := Call.returns_pure.mp h
    exact .refl s

end Compact

section IndexSpan

variable {env : Env F} {ctx : IndexBuildContext D} {start stop : ℕ}

/-- One fragment over the new rows has been added. -/
def Pushed (env : Env F) (ctx : IndexBuildContext D) (start stop : ℕ)
    (s s' : IncrementalIndex D F) : Prop :=
  ∃ frag, BuiltFragment env ctx start stop frag ∧ s'.indices = s.indices ++ [frag] ∧
    s'.indexedRows = stop

theorem Pushed.of_push {s₁ : IncrementalIndex D F} {frag : BpannIndex F}
    (h : SameFragments s s₁) (hf : BuiltFragment env ctx start stop frag) :
    Pushed env ctx start stop s (push frag stop s₁) :=
  ⟨frag, hf, by rw [push, h.1], rfl⟩

theorem returns_buildBatch (hlt : start < stop)
    (h : (buildBatch env ctx start stop).Returns s () s') : Pushed env ctx start stop s s' := by
  rw [buildBatch, if_neg (by omega)] at h
  obtain ⟨pending, s₁, hp, h⟩ := Call.returns_bind.mp h
  simp only [Call.returns_bind, Call.returns_ofOutcome, Call.returns_modify] at h
  obtain ⟨idx, _, ⟨hidx, rfl⟩, rfl⟩ := h
  refine .of_push (returns_takePendingCentroid hp) ?_
  split at hidx
  · cases pending with
    | some centroid =>
      simp only [Outcome.bind_eq_ok, Outcome.pure_eq_ok] at hidx
      obtain ⟨_, -, rfl⟩ := hidx
      exact .rowIds _
    | none =>
      simp only [Outcome.bind_eq_ok, Outcome.pure_eq_ok] at hidx
      obtain ⟨_, -, rfl⟩ := hidx
      exact .rowIds _
  · obtain ⟨vectors, hv, hidx⟩ := Outcome.bind_eq_ok.mp hidx
    exact .tree hv hidx

/-- The new rows become one fragment, and then only runs of fragments are merged. -/
theorem returns_indexSpan (hlt : s.indexedRows < stop)
    (h : (indexSpan env ctx stop).Returns s () s') :
    ∃ frag, BuiltFragment env ctx s.indexedRows stop frag ∧
      Relation.ReflTransGen MergeStep (s.indices ++ [frag]) s'.indices ∧
      s'.indexedRows = stop := by
  have key : ∃ s₂, Pushed env ctx s.indexedRows stop s s₂ ∧
      (maybeCompact env.tuning).Returns s₂ () s' := by
    simp only [indexSpan, Call.returns_bind, Call.returns_get] at h
    obtain ⟨_, _, ⟨rfl, rfl⟩, h⟩ := h
    split at h
    · simp only [buildEmptyLeafForest, if_neg (show ¬ stop ≤ s.indexedRows by omega),
        Call.returns_bind, Call.returns_ofOutcome, Call.returns_modify] at h
      obtain ⟨_, s₁, ht, _, _, ⟨idx, _, ⟨hidx, rfl⟩, rfl⟩, hc⟩ := h
      exact ⟨_, .of_push (returns_takePendingCentroid ht) (.emptyForest hidx), hc⟩
    · split at h
      · simp only [buildVectorLeafForest, if_neg (show ¬ stop ≤ s.indexedRows by omega),
          Call.returns_bind, Call.returns_ofOutcome, Call.returns_modify] at h
        obtain ⟨_, s₁, ht, _, _, ⟨idx, _, ⟨hidx, rfl⟩, rfl⟩, hc⟩ := h
        exact ⟨_, .of_push (returns_takePendingCentroid ht) (.vectorForest hidx), hc⟩
      · obtain ⟨_, s₂, hb, hc⟩ := Call.returns_bind.mp h
        exact ⟨s₂, returns_buildBatch hlt hb, hc⟩
  obtain ⟨s₂, ⟨frag, hf, hi, hr⟩, hc⟩ := key
  obtain ⟨hm, hr'⟩ := returns_maybeCompact (by omega) hc
  exact ⟨frag, hf, hi ▸ hm, hr'.trans hr⟩

end IndexSpan

end IncrementalIndex

namespace IndexState

theorem returns_ensureSync {env : Env F} {ctx : IndexBuildContext D} {stop : ℕ}
    {s s' : IndexState D F} (h : (ensureSync env ctx stop).Returns s () s') :
    (stop ≤ s.index.indexedRows ∧ s' = s) ∨
      (s.index.indexedRows < stop ∧
        (∃ frag, BuiltFragment env ctx s.index.indexedRows stop frag ∧
          Relation.ReflTransGen MergeStep (s.index.indices ++ [frag]) s'.index.indices) ∧
        s'.index.indexedRows = stop ∧ s'.dir = s.dir.writeIndexedRows stop) := by
  simp only [ensureSync, Call.returns_bind, Call.returns_get] at h
  obtain ⟨_, _, ⟨rfl, rfl⟩, h⟩ := h
  split at h
  next hle =>
    obtain ⟨-, rfl⟩ := Call.returns_pure.mp h
    exact .inl ⟨hle, rfl⟩
  next hlt =>
    simp only [onIndex, Call.returns_bind, Call.returns_on, Call.returns_modify] at h
    obtain ⟨_, _, ⟨index, hspan, rfl⟩, rfl⟩ := h
    obtain ⟨frag, hf, hm, hr⟩ := IncrementalIndex.returns_indexSpan (by omega) hspan
    exact .inr ⟨by omega, ⟨frag, hf, hm⟩, hr, by rw [hr]⟩

omit [Floating D] [FloatCast D F] in
theorem forall_of_merges {P : BpannIndex F → Prop}
    (hmerge : ∀ run merged, (∀ idx ∈ run, P idx) → BpannIndex.concatMerge run = .ok merged →
      P merged) {xs ys : List (BpannIndex F)} (hxs : ∀ idx ∈ xs, P idx)
    (h : Relation.ReflTransGen MergeStep xs ys) : ∀ idx ∈ ys, P idx := by
  induction h with
  | refl => exact hxs
  | tail _ hstep ih =>
    obtain ⟨pre, run, post, merged, rfl, hm, rfl⟩ := hstep
    intro idx hidx
    rcases List.mem_append.mp hidx with hidx | hidx
    · exact ih idx (by simp [hidx])
    · rcases List.mem_cons.mp hidx with rfl | hidx
      · exact hmerge run _ (fun p hp => ih p (by simp [hp])) hm
      · exact ih idx (by simp [hidx])

theorem forall_ensureSync {P : BpannIndex F → Prop} {env : Env F} {ctx : IndexBuildContext D}
    {stop : ℕ} {s s' : IndexState D F}
    (hbuilt : ∀ frag, BuiltFragment env ctx s.index.indexedRows stop frag → P frag)
    (hmerge : ∀ run merged, (∀ idx ∈ run, P idx) → BpannIndex.concatMerge run = .ok merged →
      P merged) (hs : ∀ idx ∈ s.index.indices, P idx)
    (h : (ensureSync env ctx stop).Returns s () s') : ∀ idx ∈ s'.index.indices, P idx := by
  rcases returns_ensureSync h with ⟨-, rfl⟩ | ⟨-, ⟨frag, hf, hm⟩, -, -⟩
  · exact hs
  · refine forall_of_merges hmerge (fun idx hidx => ?_) hm
    rcases List.mem_append.mp hidx with hidx | hidx
    · exact hs idx hidx
    · obtain rfl := List.mem_singleton.mp hidx
      exact hbuilt _ hf

/-- Writing an index replaces the index, the metadata and the counter on disk. -/
def persisted (ctx : IndexBuildContext D) (stored : Option (BpannIndex F)) (s : IndexState D F) :
    IndexState D F :=
  { s with
    dir :=
      (({ s.dir with index := stored } : WorkDir D F).writeMetadata ctx.trainX.nrows ctx.numDim
        ctx.numMetrics ctx.scaleX s.index.indexedRows).writeIndexedRows s.index.indexedRows }

/-- Persisting synchronises all rows, merges the fragments and writes the merged index. -/
theorem returns_persistToDisk {env : Env F} {ctx : IndexBuildContext D} {s s' : IndexState D F}
    (h : (persistToDisk env ctx).Returns s () s') :
    ∃ s₁, (ensureSync env ctx ctx.trainX.nrows).Returns s () s₁ ∧
      ((s₁.index.indices = [] ∧ s₁.index.indexedRows = 0 ∧ s' = s₁) ∨
        (s₁.index.indices = [] ∧ s₁.index.indexedRows ≠ 0 ∧ s' = persisted ctx s₁.dir.index s₁) ∨
        ∃ merged, s₁.index.indices ≠ [] ∧ BpannIndex.concatMerge s₁.index.indices = .ok merged ∧
          s' = persisted ctx (some merged.reload) s₁) := by
  obtain ⟨_, s₁, hsync, h⟩ := Call.returns_bind.mp h
  refine ⟨s₁, hsync, ?_⟩
  simp only [Call.returns_bind, Call.returns_get] at h
  obtain ⟨_, _, ⟨rfl, rfl⟩, h⟩ := h
  split at h
  next he =>
    obtain ⟨-, rfl⟩ := Call.returns_pure.mp h
    exact .inl ⟨List.isEmpty_iff.mp he.1, he.2, rfl⟩
  next he =>
    right
    split at h
    next hnil =>
      obtain rfl := Call.returns_modify.mp h
      exact .inl ⟨hnil, fun h0 => he ⟨by simp [hnil], h0⟩, rfl⟩
    next single hone =>
      simp only [Call.returns_bind, Call.returns_modify] at h
      obtain ⟨_, _, rfl, rfl⟩ := h
      exact .inr ⟨single, by simp [hone], by rw [hone]; rfl, rfl⟩
    next hnil _ =>
      simp only [Call.returns_bind, Call.returns_ofOutcome, Call.returns_modify] at h
      obtain ⟨merged, _, ⟨hm, rfl⟩, _, _, rfl, rfl⟩ := h
      exact .inr ⟨merged, hnil, hm, rfl⟩

end IndexState

end Ennbo
