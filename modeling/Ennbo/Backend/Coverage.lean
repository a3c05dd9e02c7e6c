import Ennbo.Backend.Steps
import Ennbo.Index.Coverage

/-! # Coverage of the stored rows

Every stored row is in one fragment or pending, through appends, builds,
compactions, resets, persists and reopens. What is on disk is enough to build
the same state again.
-/

namespace Ennbo

variable {D F : Type} [Floating D] [Floating F] [FloatCast D F]

/-- The index on disk lists the first of `n` rows, and no more than the counter says. -/
def WorkDir.IndexCovered (dir : WorkDir D F) (n : ℕ) : Prop :=
  ∀ idx, dir.index = some idx →
    Spans idx 0 idx.header.indexedRows ∧ idx.header.indexedRows ≤ n ∧
      ∃ m, dir.indexedRows = some m ∧ idx.header.indexedRows ≤ m

/-- What the files say about the rows: how many there are, and how many are indexed. -/
structure WorkDir.Covered (dir : WorkDir D F) (n : ℕ) : Prop where
  numObs : dir.numObs = some n
  metadata : ∀ m, dir.metadata = some m → m.numObs ≤ n
  index : dir.IndexCovered n

/-- The invariant of a backend: fragments, counters and files agree on the indexed rows. -/
structure BpannBackend.Covered (b : BpannBackend D F) : Prop where
  covers : Covers 0 b.index.indices b.index.indexedRows
  indexed_le : b.index.indexedRows ≤ b.len
  pending : b.pendingUnindexed = b.len - b.index.indexedRows
  len_lt : b.len < U32_MAX
  clean : b.indexDirty = false → b.index.indexedRows = b.len
  dir : b.dir.Covered b.len

omit [Floating D] [Floating F] [FloatCast D F] in
theorem WorkDir.IndexCovered.writeIndexedRows {dir : WorkDir D F} {n m : ℕ}
    (h : dir.IndexCovered n) (hm : ∀ idx, dir.index = some idx → idx.header.indexedRows ≤ m) :
    (dir.writeIndexedRows m).IndexCovered n := by
  intro idx hidx
  obtain ⟨hs, hle, -⟩ := h idx hidx
  exact ⟨hs, hle, m, rfl, hm idx hidx⟩

omit [Floating D] [Floating F] [FloatCast D F] in
theorem WorkDir.Covered.writeIndexedRows {dir : WorkDir D F} {n : ℕ} (h : dir.Covered n) :
    (dir.writeIndexedRows n).Covered n :=
  { h with index := h.index.writeIndexedRows fun idx hidx => (h.index idx hidx).2.1 }

omit [Floating D] [Floating F] [FloatCast D F] in
theorem WorkDir.Covered.loadNumObs {dir : WorkDir D F} {n : ℕ} (h : dir.Covered n) :
    dir.loadNumObs = some n := by
  have hn := h.numObs
  rw [WorkDir.loadNumObs]
  split
  next sidecar m hs hm =>
    have := h.metadata m hm
    rw [hn, Option.some.injEq] at hs
    rw [Option.some.injEq]
    omega
  all_goals simp_all

namespace BpannBackend

variable {b b' : BpannBackend D F} {env : Env F}

section Sync

theorem covered_ensureSync {index' : IncrementalIndex D F} {dir' : WorkDir D F}
    (hc : Covers 0 b.index.indices b.index.indexedRows) (hle : b.index.indexedRows ≤ b.len)
    (hlt : b.len < U32_MAX) (hd : b.dir.Covered b.len)
    (h : (IndexState.ensureSync env b.context b.len).Returns ⟨b.index, b.dir⟩ () ⟨index', dir'⟩) :
    Covers 0 index'.indices index'.indexedRows ∧ index'.indexedRows = b.len ∧
      dir'.Covered b.len := by
  have hc' := covers_ensureSync (by simp only [U32_MAX] at hlt; omega) hc h
  rcases IndexState.returns_ensureSync h with ⟨hge, he⟩ | ⟨-, -, hr, hdir⟩
  · obtain ⟨rfl, rfl⟩ := IndexState.mk.inj he
    exact ⟨hc', hle.antisymm hge, hd⟩
  · obtain rfl : dir' = b.dir.writeIndexedRows b.len := hdir
    exact ⟨hc', hr, hd.writeIndexedRows⟩

theorem covered_ensureIndexSync (hb : b.Covered) (h : (ensureIndexSync env).Returns b () b') :
    b'.Covered := by
  rcases returns_ensureIndexSync h with ⟨hge, rfl⟩ | ⟨-, ⟨index', dir'⟩, hs, rfl⟩
  · have he : b.index.indexedRows = b.len := hb.indexed_le.antisymm hge
    exact { hb with pending := (Nat.sub_eq_zero_of_le hge).symm }
  · obtain ⟨hc, he, hd⟩ := covered_ensureSync hb.covers hb.indexed_le hb.len_lt hb.dir hs
    exact
      { covers := hc
        indexed_le := he.le
        pending := (Nat.sub_eq_zero_of_le he.ge).symm
        len_lt := hb.len_lt
        clean := fun _ => he
        dir := hd }

end Sync

section Append

omit [Floating D] [Floating F] [FloatCast D F] in
theorem covered_resetIndex (hb : b.Covered) : b.resetIndex.Covered where
  covers := rfl
  indexed_le := Nat.zero_le _
  pending := rfl
  len_lt := hb.len_lt
  clean h := by simp [resetIndex] at h
  dir := hb.dir

omit [Floating F] [FloatCast D F] in
/-- The new rows are pending, and the counters on disk follow. -/
theorem covered_afterAppend {x y : Array2 D} {yvar : Option (Array2 D)}
    {trainX trainY : MmapColumnStore D} {trainYvar : Option (MmapColumnStore D)}
    (hb : b.Covered) (h : Appended b x y yvar trainX trainY trainYvar) :
    (b.afterAppend x trainX trainY trainYvar).Covered := by
  have hlen : trainX.nrows = b.len + x.nrows :=
    MmapColumnStore.nrows_of_rows (MmapColumnStore.rows_of_mmapAppend h.trainX_eq).2
  have hnote := b.index.sameFragments_notePendingRows x b.scaleX b.xScale
  have hle := hb.indexed_le
  refine
    { covers := ?_
      indexed_le := ?_
      pending := ?_
      len_lt := hlen.trans_lt h.limit
      clean := fun h => by simp [afterAppend, noteAppended] at h
      dir := ?_ }
  all_goals simp only [afterAppend, noteAppended, len] at *
  · rw [hnote.1, hnote.2]
    exact hb.covers
  · rw [hnote.2]
    omega
  · rw [hnote.2, hb.pending, len]
    omega
  · exact
      { numObs := rfl
        metadata := fun m hm => (hb.dir.metadata m hm).trans (by simp only [len]; omega)
        index := fun idx hidx => by
          obtain ⟨hs, hn, hm⟩ := hb.dir.index idx hidx
          exact ⟨hs, hn.trans (by simp only [len]; omega), hm⟩ }

theorem covered_appendRows {x y : Array2 D} {yvar : Option (Array2 D)} (hb : b.Covered)
    (h : (appendRows env x y yvar).Returns b () b') : b'.Covered := by
  rcases returns_appendRows h with ⟨-, rfl⟩ | ⟨_, _, _, ha, rfl | hs⟩
  · exact hb
  · exact covered_afterAppend hb ha
  · exact covered_ensureIndexSync (covered_afterAppend hb ha) hs

end Append

section Persist

variable [DecidableEq F]

omit [Floating D] [FloatCast D F] in
theorem indexDirty_of_needsDiskRewrite_eq_false (h : b.needsDiskRewrite = false) :
    b.indexDirty = false := by
  by_contra hd
  rw [Bool.not_eq_false] at hd
  unfold needsDiskRewrite IndexState.needsDiskRewrite at h
  rw [hd, IncrementalIndex.needsDiskRewrite_of_dirty] at h
  simp at h

/-- After a persist everything is indexed, and what is on disk lists every row. -/
theorem covered_persistIndexToDisk (hb : b.Covered)
    (h : (persistIndexToDisk env).Returns b () b') : b'.Covered := by
  rcases returns_persistIndexToDisk h with ⟨hn, rfl⟩ | ⟨-, s, hs, rfl⟩
  · have he := hb.clean (indexDirty_of_needsDiskRewrite_eq_false hn)
    exact
      { hb with
        pending := (Nat.sub_eq_zero_of_le he.ge).symm
        clean := fun _ => he }
  · obtain ⟨⟨index', dir'⟩, hsync, hs⟩ := IndexState.returns_persistToDisk hs
    obtain ⟨hc, he, hd⟩ := covered_ensureSync hb.covers hb.indexed_le hb.len_lt hb.dir hsync
    have key : ∀ dir₂ : WorkDir D F, dir₂.Covered b.len →
        ((b.withIndex ⟨index', dir₂⟩).markPersisted).Covered := fun dir₂ hd₂ =>
      { covers := hc
        indexed_le := he.le
        pending := (Nat.sub_eq_zero_of_le he.ge).symm
        len_lt := hb.len_lt
        clean := fun _ => he
        dir := hd₂ }
    rcases hs with ⟨-, -, rfl⟩ | ⟨hnil, hne, -⟩ | ⟨merged, -, hm, rfl⟩
    · exact key _ hd
    · simp only at hnil hne
      rw [hnil] at hc
      exact absurd hc.symm hne
    · have hspan := spans_concatMerge hc hm
      refine key _ ⟨hd.numObs, ?_, ?_⟩
      · rintro m ⟨⟩
        exact le_rfl
      · rintro idx ⟨⟩
        have hcount : merged.header.indexedRows = b.len := by
          have := hspan.count
          omega
        refine ⟨?_, hcount.le, index'.indexedRows, rfl, ?_⟩
        · rw [BpannIndex.header_reload, hcount, ← he]
          exact ⟨hspan.le, hspan.count, by rw [BpannIndex.leafRows_reload]; exact hspan.rows⟩
        · rw [BpannIndex.header_reload, hcount, ← he]

end Persist

section Open

variable {dir : WorkDir D F} {trainX trainY : MmapColumnStore D}
  {trainYvar : Option (MmapColumnStore D)} {scaleX : Bool} {xScale : List D}

omit [Floating D] [Floating F] [FloatCast D F] in
theorem covers_openedIndices (env : Env F) {n : ℕ} (hd : dir.IndexCovered n) :
    Covers 0 (openedIndices env dir (openedRows dir n))
        (persistedRows (openedIndices env dir (openedRows dir n))) ∧
      persistedRows (openedIndices env dir (openedRows dir n)) ≤ openedRows dir n := by
  rw [openedIndices]
  split
  next stored hs =>
    obtain ⟨hspan, hn, m, hm, hle⟩ := hd stored hs
    have hrows : openedRows dir n = min m n := by simp [openedRows, WorkDir.loadIndexedRows, hm]
    split
    · refine ⟨covers_singleton.mpr ⟨hspan.le, hspan.count, hspan.rows⟩, ?_⟩
      exact hrows ▸ le_min hle hn
    · exact ⟨rfl, Nat.zero_le _⟩
  next => exact ⟨rfl, Nat.zero_le _⟩

theorem covered_openIndexed (hd : dir.IndexCovered trainX.nrows) (hlt : trainX.nrows < U32_MAX)
    (h : openIndexed env dir trainX trainY trainYvar scaleX xScale = .ok b) :
    b.Covered ∧ b.trainX = trainX := by
  obtain ⟨⟨index', dir'⟩, hs, rfl⟩ := openIndexed_eq_ok h
  obtain ⟨hc, hle⟩ := covers_openedIndices env hd
  have hn : openedRows dir trainX.nrows ≤ trainX.nrows := min_le_right _ _
  have key : Covers 0 index'.indices (openedRows dir trainX.nrows) ∧
      dir'.IndexCovered trainX.nrows := by
    rcases hs with ⟨hge, he⟩ | ⟨hgt, hsync⟩
    · obtain ⟨rfl, rfl⟩ := IndexState.mk.inj he
      exact ⟨hle.antisymm hge ▸ hc, hd⟩
    · have hmin := min_eq_left hle
      have h32 : openedRows dir trainX.nrows < 2 ^ 32 := by
        simp only [U32_MAX] at hlt
        omega
      have hc' := covers_ensureSync h32 (by simpa only [opened, hmin] using hc) hsync
      rcases IndexState.returns_ensureSync hsync with ⟨hge, -⟩ | ⟨-, -, hr, hdir⟩
      · simp only [opened, hmin] at hge
        omega
      · obtain rfl : dir' = dir.writeIndexedRows _ := hdir
        refine ⟨hr ▸ hc', hd.writeIndexedRows fun idx hidx => ?_⟩
        obtain ⟨-, hn', m, hm, hm'⟩ := hd idx hidx
        simpa [openedRows, WorkDir.loadIndexedRows, hm] using ⟨hm', hn'⟩
  refine ⟨?_, rfl⟩
  exact
    { covers := key.1
      indexed_le := hn
      pending := rfl
      len_lt := hlt
      clean := fun h => hn.antisymm (by simpa [finishOpen, withIndex, opened] using h)
      dir :=
        { numObs := rfl
          metadata := by
            rintro m ⟨⟩
            exact le_rfl
          index := key.2 } }

theorem covered_new_empty {x y : Array2 D} {yvar : Option (Array2 D)} (hlt : x.nrows < U32_MAX)
    (h : new env {} x y yvar scaleX xScale = .ok b) : b.Covered := by
  obtain ⟨trainX, trainY, trainYvar, ⟨-, -, storeX, _, hX, -, hrX, -⟩, -, ho⟩ := new_eq_ok h
  have h0 : storeX.nrows = 0 := (MmapColumnStore.mmapOpenOrCreate_eq_ok hX).2.1
  have hrows : trainX.nrows = x.nrows := by
    rw [trainX.nrows_eq_length_rows, hrX, List.length_append, storeX.length_rows, h0, zero_add]
    split
    · rfl
    · simp only [true_and, not_lt, List.length_nil] at *
      omega
  have hd : ({} : WorkDir D F).openNumObsCounter.IndexCovered trainX.nrows := by
    rintro idx ⟨⟩
  exact (covered_openIndexed hd (hrows ▸ hlt) ho).1

theorem covered_reopen (hb : b.Covered) (h : reopen env b.workDir = .ok b') :
    b'.Covered ∧ b'.len = b.len := by
  rw [reopen] at h
  split at h
  · simp at h
  next m hm =>
    obtain ⟨trainX, trainY, trainYvar, ⟨-, -, storeX, _, hX, -, hrX, -⟩, -, ho⟩ := new_eq_ok h
    have hdir : b.workDir.openNumObsCounter = b.workDir := by
      simp [WorkDir.openNumObsCounter, workDir, hb.dir.numObs]
    have hload : b.workDir.loadNumObs = some b.len := hb.dir.loadNumObs
    rw [hdir, hload] at hX
    rw [hdir] at ho
    have hrows : trainX.nrows = b.len := by
      rw [trainX.nrows_eq_length_rows, hrX]
      simp [Array2.empty, Array2.nrows, storeX.length_rows,
        (MmapColumnStore.mmapOpenOrCreate_eq_ok hX).2.1]
    have hd : b.workDir.IndexCovered trainX.nrows := hrows ▸ hb.dir.index
    obtain ⟨hc, he⟩ := covered_openIndexed hd (hrows ▸ hb.len_lt) ho
    exact ⟨hc, by rw [len, he, hrows]⟩

end Open

section Runs

variable [DecidableEq F]

/-- One successful call, or the configuration of the flush thresholds. -/
inductive Step : BpannBackend D F → BpannBackend D F → Prop where
  | appendRows {b b' : BpannBackend D F} (env : Env F) (x y : Array2 D)
      (yvar : Option (Array2 D)) :
      (BpannBackend.appendRows env x y yvar).Returns b () b' → Step b b'
  | ensureIndexSync {b b' : BpannBackend D F} (env : Env F) :
      (BpannBackend.ensureIndexSync env).Returns b () b' → Step b b'
  | markIndexStale (b : BpannBackend D F) : Step b b.markIndexStale
  | ensureIndexSyncWithScale {b b' : BpannBackend D F} (env : Env F) (scaleX : Bool)
      (xScale : List D) :
      (BpannBackend.ensureIndexSyncWithScale env scaleX xScale).Returns b () b' → Step b b'
  | persistIndexToDisk {b b' : BpannBackend D F} (env : Env F) :
      (BpannBackend.persistIndexToDisk env).Returns b () b' → Step b b'
  | softSyncIdle {b b' : BpannBackend D F} (env : Env F) :
      (softSyncBuild env).Returns b none b' → Step b b'
  | softSync {b b' : BpannBackend D F} {built : IncrementalIndex D F} (env : Env F) :
      (softSyncBuild env).Returns b (some built) b' → Step b (b'.softSyncPublish built)
  | reopen {b b' : BpannBackend D F} (env : Env F) :
      BpannBackend.reopen env b.workDir = .ok b' → Step b b'
  | configure (b : BpannBackend D F) (soft hard : ℕ) (defer : Bool) :
      Step b ((b.reconfigureFlushThresholds soft hard).withDeferAppendIndexing defer)

/-- The states of a backend that was created in an empty directory. -/
inductive Reachable : BpannBackend D F → Prop where
  | new {b : BpannBackend D F} (env : Env F) (x y : Array2 D) (yvar : Option (Array2 D))
      (scaleX : Bool) (xScale : List D) : x.nrows < U32_MAX →
      BpannBackend.new env {} x y yvar scaleX xScale = .ok b → Reachable b
  | step {b b' : BpannBackend D F} : Reachable b → Step b b' → Reachable b'

theorem covered_step (hb : b.Covered) (h : Step b b') : b'.Covered := by
  cases h with
  | appendRows env x y yvar h => exact covered_appendRows hb h
  | ensureIndexSync env h => exact covered_ensureIndexSync hb h
  | markIndexStale => exact covered_resetIndex hb
  | ensureIndexSyncWithScale env scaleX xScale h =>
    simp only [ensureIndexSyncWithScale, Call.returns_bind, Call.returns_modify] at h
    obtain ⟨-, _, rfl, h⟩ := h
    refine covered_ensureIndexSync ?_ h
    rw [setScale]
    split
    · exact covered_resetIndex { hb with }
    · exact hb
  | persistIndexToDisk env h => exact covered_persistIndexToDisk hb h
  | softSyncIdle env h =>
    rcases returns_softSyncBuild h with ⟨-, -, rfl⟩ | ⟨-, _, -, ho, -⟩
    · exact hb
    · exact absurd ho (by simp)
  | softSync env h =>
    rcases returns_softSyncBuild h with ⟨-, ho, -⟩ | ⟨-, ⟨index', dir'⟩, hs, ho, rfl⟩
    · exact absurd ho (by simp)
    · obtain rfl := Option.some.inj ho
      obtain ⟨hc, he, hd⟩ := covered_ensureSync hb.covers hb.indexed_le hb.len_lt hb.dir hs
      exact
        { covers := hc
          indexed_le := he.le
          pending := (Nat.sub_eq_zero_of_le he.ge).symm
          len_lt := hb.len_lt
          clean := fun _ => he
          dir := hd }
  | reopen env h => exact (covered_reopen hb h).1
  | configure soft hard defer => exact { hb with }

theorem Reachable.covered (h : Reachable b) : b.Covered := by
  induction h with
  | new env x y yvar scaleX xScale hlt h => exact covered_new_empty hlt h
  | step _ hstep ih => exact covered_step ih hstep

end Runs

/-- The fragments list the indexed rows, each once and in order; the other rows are pending. -/
structure Coverage (b : BpannBackend D F) : Prop where
  listed : (b.index.indices.flatMap BpannIndex.leafRows).Perm (List.range b.indexedRows)
  counted : ∀ idx ∈ b.index.indices, idx.header.indexedRows = idx.leafRows.length
  consecutive : Covers 0 b.index.indices b.indexedRows
  pending : b.pendingRows = b.len - b.indexedRows
  indexed_le : b.indexedRows ≤ b.len

omit [Floating D] [Floating F] [FloatCast D F] in
theorem Covered.coverage (hb : b.Covered) : b.Coverage where
  listed := by
    have h := hb.covers.rows.2.2
    rwa [Nat.sub_zero, ← List.range_eq_range'] at h
  counted := hb.covers.counted
  consecutive := hb.covers
  pending := hb.pending
  indexed_le := hb.indexed_le

/-- Coverage holds in every state that calls on a backend can reach. -/
theorem coverage_of_reachable [DecidableEq F] (h : Reachable b) : b.Coverage :=
  h.covered.coverage

/-- Two rows in an empty directory, indexed by one synchronisation. -/
theorem coverage_two_rows :
    ∃ b b' : BpannBackend ℚ ℚ,
      new defaultEnv {} (.column [0, 1]) (.column [0, 1]) none false [1] = .ok b ∧
        (ensureIndexSync defaultEnv).Returns b () b' ∧ b'.indexedRows = 2 ∧ b'.Coverage :=
  ⟨_, _, rfl, rfl, rfl, coverage_of_reachable
    (.step (.new defaultEnv (.column [0, 1]) (.column [0, 1]) none false [1] (by decide) rfl)
      (.ensureIndexSync defaultEnv rfl))⟩

end BpannBackend

end Ennbo
