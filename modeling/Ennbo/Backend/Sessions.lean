import Ennbo.Backend.Coverage
import Ennbo.Backend.Resident
import Ennbo.Index.SearchableMerge

/-! # Sessions with searches

The states of a backend that is searched between its other calls. Its fragments
can always be searched. Without a scale the leaves hold the stored rows, in
memory and on disk; with one they may hold rows under an older scale after the
directory is reopened.
-/

namespace Ennbo

variable {D F : Type} [Floating D] [Floating F] [FloatCast D F]

def rawData (rows : List (List D)) : ℕ → List F := rowData rows false []

omit [Floating F] in
theorem rawData_append (rows more : List (List D)) {i : ℕ} (hi : i < rows.length) :
    (rawData rows i : List F) = rawData (rows ++ more) i := by
  unfold rawData rowData
  rw [List.getD_append _ _ _ _ hi]

/-- Fragments that can be searched, and that hold the stored rows unless a scale is in force. -/
structure IndexSound (numDim : ℕ) (rows : List (List D)) (scaleX : Bool)
    (indices : List (BpannIndex F)) : Prop where
  searchable : ∀ idx ∈ indices, idx.Searchable
  holds : scaleX = false → ∀ idx ∈ indices, idx.HoldsRows numDim (rawData rows)

/-- The same of the index on disk, under the scale that the metadata records. -/
structure WorkDir.Sound (dir : WorkDir D F) (numDim : ℕ) (rows : List (List D)) : Prop where
  numDim_eq : ∀ m, dir.metadata = some m → m.numDim = numDim
  searchable : ∀ idx, dir.index = some idx → idx.Searchable
  holds : ∀ idx m, dir.index = some idx → dir.metadata = some m → m.scaleX = false →
    idx.HoldsRows numDim (rawData rows)

/-- The invariant of a backend that is searched. -/
structure BpannBackend.Sound (b : BpannBackend D F) : Prop where
  covered : b.Covered
  sized : b.Sized
  cache : b.CachePrefix
  index : IndexSound b.numDim b.trainX.rows b.scaleX b.index.indices
  dir : b.dir.Sound b.numDim b.trainX.rows

omit [Floating F] in
theorem IndexSound.append {numDim : ℕ} {rows : List (List D)} {scaleX : Bool}
    {indices : List (BpannIndex F)} (h : IndexSound numDim rows scaleX indices)
    (hrows : ∀ idx ∈ indices, ∀ i ∈ idx.leafRows, i < rows.length) (more : List (List D)) :
    IndexSound numDim (rows ++ more) scaleX indices where
  searchable := h.searchable
  holds hscale idx hidx :=
    (h.holds hscale idx hidx).congr fun i hi => rawData_append rows more (hrows idx hidx i hi)

omit [Floating F] in
theorem WorkDir.Sound.append {dir : WorkDir D F} {numDim : ℕ} {rows : List (List D)}
    (h : dir.Sound numDim rows)
    (hrows : ∀ idx, dir.index = some idx → ∀ i ∈ idx.leafRows, i < rows.length)
    (more : List (List D)) : dir.Sound numDim (rows ++ more) where
  numDim_eq := h.numDim_eq
  searchable := h.searchable
  holds idx m hidx hm hscale :=
    (h.holds idx m hidx hm hscale).congr fun i hi => rawData_append rows more (hrows idx hidx i hi)

namespace BpannBackend

variable {b b' : BpannBackend D F} {env : Env F}

omit [Floating D] [Floating F] [FloatCast D F] in
theorem Covered.rows_lt (hb : b.Covered) :
    ∀ idx ∈ b.index.indices, ∀ i ∈ idx.leafRows, i < b.trainX.rows.length := by
  intro idx hidx i hi
  have hmem := hb.coverage.listed.mem_iff.mp (List.mem_flatMap.mpr ⟨idx, hidx, hi⟩)
  rw [MmapColumnStore.length_rows]
  exact (List.mem_range.mp hmem).trans_le hb.indexed_le

omit [Floating D] [Floating F] [FloatCast D F] in
theorem Covered.disk_rows_lt (hb : b.Covered) :
    ∀ idx, b.dir.index = some idx → ∀ i ∈ idx.leafRows, i < b.trainX.rows.length := by
  intro idx hidx i hi
  obtain ⟨hspan, hle, -⟩ := hb.dir.index idx hidx
  have := List.mem_range'_1.mp (hspan.rows.mem_iff.mp hi)
  rw [MmapColumnStore.length_rows]
  exact (show i < idx.header.indexedRows by omega).trans_le hle

omit [Floating F] in
theorem context_data (b : BpannBackend D F) (hscale : b.scaleX = false) :
    (b.context.data : ℕ → List F) = rawData b.trainX.rows := by
  unfold IndexBuildContext.data context rawData
  rw [hscale]
  rfl

section Steps

theorem indexSound_ensureSync {stop : ℕ} {s : IndexState D F} (hb : b.Sized)
    (hi : IndexSound b.numDim b.trainX.rows b.scaleX b.index.indices) (h32 : stop < 2 ^ 32)
    (hstop : stop ≤ b.len)
    (h : (IndexState.ensureSync env b.context stop).Returns ⟨b.index, b.dir⟩ () s) :
    IndexSound b.numDim b.trainX.rows b.scaleX s.index.indices where
  searchable := searchable_ensureSync h32 hi.searchable h
  holds hscale := by
    have hdata := b.context_data hscale
    have hwide : ∀ i < stop, (b.context.data i : List F).length = b.context.numDim := by
      intro i hi
      rw [hdata, rawData, rowData, bpannRowToF32, if_neg Bool.false_ne_true, List.length_map]
      exact (b.trainX.length_getD_rows (hi.trans_le hstop)).trans hb.ncols_eq
    have hold := hi.holds hscale
    rw [← hdata] at hold ⊢
    exact holdsRows_ensureSync h32 hwide hold h

theorem dirSound_ensureSync {stop : ℕ} {ctx : IndexBuildContext D} {s s' : IndexState D F}
    {numDim : ℕ} {rows : List (List D)} (hd : s.dir.Sound numDim rows)
    (h : (IndexState.ensureSync env ctx stop).Returns s () s') : s'.dir.Sound numDim rows := by
  rcases IndexState.returns_ensureSync h with ⟨-, rfl⟩ | ⟨-, -, -, hdir⟩
  · exact hd
  · rw [hdir]
    exact { hd with }

theorem sound_ensureIndexSync (hb : b.Sound) (h : (ensureIndexSync env).Returns b () b') :
    b'.Sound := by
  have hcovered := covered_ensureIndexSync hb.covered h
  have hext : b.Extends b' := by
    have := extends_ensureIndexSync b env b (Extends.refl b)
    rwa [show ensureIndexSync env b = (.ok (), b') from h] at this
  rcases returns_ensureIndexSync h with ⟨-, rfl⟩ | ⟨-, s, hs, rfl⟩
  · exact
      { covered := hcovered
        sized := hext.sized hb.sized
        cache := hext.cachePrefix hb.cache
        index := hb.index
        dir := hb.dir }
  · have h32 : b.len < 2 ^ 32 := by
      have := hb.covered.len_lt
      unfold U32_MAX at this
      omega
    exact
      { covered := hcovered
        sized := hext.sized hb.sized
        cache := hext.cachePrefix hb.cache
        index := indexSound_ensureSync (b := b) hb.sized hb.index h32 le_rfl hs
        dir := dirSound_ensureSync hb.dir hs }

omit [Floating F] in
theorem sound_resetIndex (hb : b.Sound) : b.resetIndex.Sound where
  covered := covered_resetIndex hb.covered
  sized := { hb.sized with }
  cache := hb.cache
  index := ⟨by simp [resetIndex, IncrementalIndex.reset],
    fun _ => by simp [resetIndex, IncrementalIndex.reset]⟩
  dir := hb.dir

omit [Floating F] in
theorem sound_afterAppend {x y : Array2 D} {yvar : Option (Array2 D)}
    {trainX trainY : MmapColumnStore D} {trainYvar : Option (MmapColumnStore D)}
    (hb : b.Sound) (h : Appended b x y yvar trainX trainY trainYvar) :
    (b.afterAppend x trainX trainY trainYvar).Sound := by
  obtain ⟨hcols, hrows⟩ := MmapColumnStore.rows_of_mmapAppend h.trainX_eq
  have hnote := b.index.sameFragments_notePendingRows x b.scaleX b.xScale
  constructor
  · exact covered_afterAppend hb.covered h
  · exact ⟨hcols.trans hb.sized.ncols_eq, hb.sized.xScale_eq⟩
  · intro n data hdata
    exact absurd hdata (by simp [afterAppend, noteAppended])
  · simp only [afterAppend, noteAppended]
    rw [hnote.1, hrows]
    exact hb.index.append hb.covered.rows_lt x.rows
  · simp only [afterAppend, noteAppended]
    rw [hrows]
    exact { hb.dir.append hb.covered.disk_rows_lt x.rows with }

theorem sound_appendRows {x y : Array2 D} {yvar : Option (Array2 D)} (hb : b.Sound)
    (h : (appendRows env x y yvar).Returns b () b') : b'.Sound := by
  rcases returns_appendRows h with ⟨-, rfl⟩ | ⟨_, _, _, ha, rfl | hs⟩
  · exact hb
  · exact sound_afterAppend hb ha
  · exact sound_ensureIndexSync (sound_afterAppend hb ha) hs

omit [Floating F] in
theorem sound_setScale {scaleX : Bool} {xScale : List D} (hb : b.Sound)
    (hx : xScale.length = b.numDim) (hscale : b.Rescalable scaleX xScale) :
    (b.setScale scaleX xScale).Sound := by
  have hsized : (b.setScale scaleX xScale).Sized := sized_setScale hb.sized hx
  have hcache := cachePrefix_setScale hb.cache hscale
  unfold setScale at hsized hcache ⊢
  split
  next hne =>
    rw [if_pos hne] at hsized hcache
    exact
      { covered := covered_resetIndex { hb.covered with }
        sized := hsized
        cache := hcache
        index := ⟨by simp [resetIndex, IncrementalIndex.reset],
          fun _ => by simp [resetIndex, IncrementalIndex.reset]⟩
        dir := hb.dir }
  next => exact hb

theorem sound_ensureIndexSyncWithScale {scaleX : Bool} {xScale : List D} (hb : b.Sound)
    (hx : xScale.length = b.numDim) (hscale : b.Rescalable scaleX xScale)
    (h : (ensureIndexSyncWithScale env scaleX xScale).Returns b () b') : b'.Sound := by
  simp only [ensureIndexSyncWithScale, Call.returns_bind, Call.returns_modify] at h
  obtain ⟨-, _, rfl, h⟩ := h
  exact sound_ensureIndexSync (sound_setScale hb hx hscale) h

omit [Floating F] in
theorem sound_withMatrix (hb : b.Sound) : b.withMatrix.Sound where
  covered := { hb.covered with }
  sized := { hb.sized with }
  cache := cachePrefix_withMatrix hb.cache
  index := hb.index
  dir := hb.dir

theorem sound_softSync {s : IndexState D F} (hb : b.Sound)
    (hcovered : ({ b with dir := s.dir }.softSyncPublish s.index).Covered)
    (h : (IndexState.ensureSync env b.context b.len).Returns ⟨b.index, b.dir⟩ () s) :
    ({ b with dir := s.dir }.softSyncPublish s.index).Sound := by
  have h32 : b.len < 2 ^ 32 := by
    have := hb.covered.len_lt
    unfold U32_MAX at this
    omega
  exact
    { covered := hcovered
      sized := { hb.sized with }
      cache := hb.cache
      index := indexSound_ensureSync (b := b) hb.sized hb.index h32 le_rfl h
      dir := dirSound_ensureSync hb.dir h }

end Steps

section Persist

variable [DecidableEq F]

theorem sound_persistIndexToDisk (hb : b.Sound)
    (h : (persistIndexToDisk env).Returns b () b') : b'.Sound := by
  have hcovered := covered_persistIndexToDisk hb.covered h
  rcases returns_persistIndexToDisk h with ⟨-, rfl⟩ | ⟨-, s, hs, rfl⟩
  · exact
      { covered := hcovered
        sized := { hb.sized with }
        cache := hb.cache
        index := hb.index
        dir := hb.dir }
  · obtain ⟨s₁, hsync, hs⟩ := IndexState.returns_persistToDisk hs
    have h32 : b.len < 2 ^ 32 := by
      have := hb.covered.len_lt
      unfold U32_MAX at this
      omega
    have hindex := indexSound_ensureSync (b := b) hb.sized hb.index h32 le_rfl hsync
    have hdir := dirSound_ensureSync hb.dir hsync
    have key : ∀ s : IndexState D F, s.index = s₁.index → s.dir.Sound b.numDim b.trainX.rows →
        ((b.withIndex s).markPersisted).Covered → ((b.withIndex s).markPersisted).Sound := by
      intro s he hd hc
      exact
        { covered := hc
          sized := { hb.sized with }
          cache := hb.cache
          index := by
            change IndexSound b.numDim b.trainX.rows b.scaleX s.index.indices
            rw [he]
            exact hindex
          dir := hd }
    rcases hs with ⟨-, -, rfl⟩ | ⟨hnil, hne, -⟩ | ⟨merged, -, hm, rfl⟩
    · exact key _ rfl hdir hcovered
    · have hc := (covered_ensureSync hb.covered.covers hb.covered.indexed_le hb.covered.len_lt
        hb.covered.dir hsync).1
      rw [hnil] at hc
      exact absurd hc.symm hne
    · refine key _ rfl ⟨?_, ?_, ?_⟩ hcovered
      · rintro m ⟨⟩
        rfl
      · rintro idx ⟨⟩
        exact (searchable_concatMerge hindex.searchable hm).reload
      · rintro idx m ⟨⟩ ⟨⟩ hscale
        exact (holdsRows_concatMerge (hindex.holds hscale) hm).reload

end Persist

section Open

variable {dir : WorkDir D F} {trainX trainY : MmapColumnStore D}
  {trainYvar : Option (MmapColumnStore D)} {scaleX : Bool} {xScale : List D}

def OpensScale (dir : WorkDir D F) (scaleX : Bool) : Prop :=
  ∀ idx, dir.index = some idx → ∃ m, dir.metadata = some m ∧ m.scaleX = scaleX

omit [Floating F] in
theorem indexSound_openedIndices (env : Env F) (n : ℕ) (hd : dir.Sound trainX.ncols trainX.rows)
    (hscale : OpensScale dir scaleX) :
    IndexSound trainX.ncols trainX.rows scaleX (openedIndices env dir n) := by
  unfold openedIndices
  split
  next stored hstored =>
    split
    · constructor
      · intro idx hidx
        obtain rfl := List.mem_singleton.mp hidx
        have h := hd.searchable stored hstored
        exact ⟨h.pageIds, h.ordered, h.leaves⟩
      · intro hfalse idx hidx
        obtain rfl := List.mem_singleton.mp hidx
        obtain ⟨m, hm, hms⟩ := hscale stored hstored
        have h := hd.holds stored m hstored hm (hms.trans hfalse)
        exact ⟨h.numDim_eq, h.holds, h.wide⟩
    · exact ⟨by simp, by simp⟩
  next => exact ⟨by simp, by simp⟩

theorem sound_openIndexed (hc : dir.IndexCovered trainX.nrows) (hlt : trainX.nrows < U32_MAX)
    (hd : dir.Sound trainX.ncols trainX.rows) (hscale : OpensScale dir scaleX)
    (hx : xScale.length = trainX.ncols)
    (h : openIndexed env dir trainX trainY trainYvar scaleX xScale = .ok b) : b.Sound := by
  have hcovered := (covered_openIndexed hc hlt h).1
  obtain ⟨s, hs, rfl⟩ := openIndexed_eq_ok h
  have hopened := indexSound_openedIndices env (openedRows dir trainX.nrows) hd hscale
  have key : IndexSound trainX.ncols trainX.rows scaleX s.index.indices ∧
      s.dir.index = dir.index := by
    rcases hs with ⟨-, rfl⟩ | ⟨-, hsync⟩
    · exact ⟨hopened, rfl⟩
    · have h32 : openedRows dir trainX.nrows < 2 ^ 32 := by
        have : openedRows dir trainX.nrows ≤ trainX.nrows := min_le_right _ _
        unfold U32_MAX at hlt
        omega
      refine ⟨indexSound_ensureSync
        (b := opened env dir trainX trainY trainYvar scaleX xScale) ⟨rfl, hx⟩ hopened h32
        (min_le_right _ _) hsync, ?_⟩
      rcases IndexState.returns_ensureSync hsync with ⟨-, rfl⟩ | ⟨-, -, -, hdir⟩
      · rfl
      · rw [hdir]
        rfl
  exact
    { covered := hcovered
      sized := ⟨rfl, hx⟩
      cache := fun n data hdata => absurd hdata (by simp [finishOpen, withIndex, opened])
      index := key.1
      dir :=
        { numDim_eq := by
            rintro m ⟨⟩
            rfl
          searchable := fun idx hidx => hd.searchable idx (key.2 ▸ hidx)
          holds := by
            rintro idx m hidx ⟨⟩ hfalse
            have hidx : dir.index = some idx := key.2 ▸ hidx
            obtain ⟨m, hm, hms⟩ := hscale idx hidx
            exact hd.holds idx m hidx hm (hms.trans hfalse) } }

theorem sound_new_empty {x y : Array2 D} {yvar : Option (Array2 D)} (hlt : x.nrows < U32_MAX)
    (hx : xScale.length = x.ncols) (h : new env {} x y yvar scaleX xScale = .ok b) : b.Sound := by
  have hcovered := covered_new_empty hlt h
  obtain ⟨trainX, trainY, trainYvar, hopen, -, ho⟩ := new_eq_ok h
  have hlen : b.trainX = trainX := by
    obtain ⟨s, -, rfl⟩ := openIndexed_eq_ok ho
    rfl
  have hc : ({} : WorkDir D F).openNumObsCounter.IndexCovered trainX.nrows := by
    rintro idx ⟨⟩
  refine sound_openIndexed hc ?_ ⟨?_, ?_, ?_⟩ ?_ (hx.trans hopen.ncols_x.symm) ho
  · have := hcovered.len_lt
    rwa [len, hlen] at this
  · rintro m ⟨⟩
  · rintro idx ⟨⟩
  · rintro idx m ⟨⟩
  · rintro idx ⟨⟩

/-- Reopening the directory of a backend. -/
theorem sound_reopen (hb : b.Sound) (h : reopen env b.workDir = .ok b') : b'.Sound := by
  have hcovered := covered_reopen hb.covered h
  rw [reopen] at h
  split at h
  · simp at h
  next m hm =>
    obtain ⟨trainX, trainY, trainYvar, hopen, -, ho⟩ := new_eq_ok h
    obtain ⟨storeX, -, hX, -, hrX, -⟩ := hopen.rows
    have hdim : m.numDim = b.trainX.ncols :=
      (hb.dir.numDim_eq m hm).trans hb.sized.ncols_eq.symm
    have hdir : b.workDir.openNumObsCounter = b.workDir := by
      simp [WorkDir.openNumObsCounter, workDir, hb.covered.dir.numObs]
    rw [hdir] at hX ho
    rw [show b.workDir.loadNumObs = some b.len from hb.covered.dir.loadNumObs] at hX
    have hstore : storeX = b.trainX := by
      have := b.trainX.mmapOpenOrCreate_mmap
      rw [← hdim] at this
      exact Except.ok.inj (hX.symm.trans this)
    have hrows : trainX.rows = b.trainX.rows := by
      rw [hrX, hstore]
      simp [Array2.empty, Array2.nrows]
    have hcols : trainX.ncols = b.numDim := by
      rw [hopen.ncols_x, ← hb.dir.numDim_eq m hm]
      rfl
    have hnrows : trainX.nrows = b.len := by
      rw [trainX.nrows_eq_length_rows, hrows, MmapColumnStore.length_rows, len]
    refine sound_openIndexed ?_ ?_ ?_ ?_ ?_ ho
    · rw [hnrows]
      exact hb.covered.dir.index
    · rw [hnrows]
      exact hb.covered.len_lt
    · rw [hrows, hcols]
      exact { hb.dir with }
    · exact fun idx _ => ⟨m, hm, rfl⟩
    · rw [List.length_replicate, hopen.ncols_x]
      rfl

end Open

section Runs

variable [DecidableEq F]

/--
The states of a backend that was created in an empty directory and is searched between its other
calls. Scales have one entry for each dimension, and no rescaling changes a resident row.
-/
inductive Session : BpannBackend D F → Prop where
  | new {b : BpannBackend D F} (env : Env F) (x y : Array2 D) (yvar : Option (Array2 D))
      (scaleX : Bool) (xScale : List D) : x.nrows < U32_MAX → xScale.length = x.ncols →
      BpannBackend.new env {} x y yvar scaleX xScale = .ok b → Session b
  | step {b b' : BpannBackend D F} : Session b → Step b b' → b'.scaleX = b.scaleX →
      b'.xScale = b.xScale → Session b'
  | ensureIndexSyncWithScale {b b' : BpannBackend D F} (env : Env F) (scaleX : Bool)
      (xScale : List D) : Session b → xScale.length = b.numDim → b.Rescalable scaleX xScale →
      (BpannBackend.ensureIndexSyncWithScale env scaleX xScale).Returns b () b' → Session b'
  | reopen {b b' : BpannBackend D F} (env : Env F) : Session b →
      BpannBackend.reopen env b.workDir = .ok b' → Session b'
  | search {b : BpannBackend D F} (t : Tuning) (queries : Array2 D) (searchK : ℕ)
      (excludeNearest : Bool) :
      Session b → Session (BpannBackend.search t queries searchK excludeNearest b).2

/-- A step that keeps the scale. -/
theorem sound_step (hb : b.Sound) (h : Step b b') (hscale : b'.scaleX = b.scaleX)
    (hx : b'.xScale = b.xScale) : b'.Sound := by
  have hcovered := covered_step hb.covered h
  cases h with
  | appendRows env x y yvar h => exact sound_appendRows hb h
  | ensureIndexSync env h => exact sound_ensureIndexSync hb h
  | markIndexStale => exact sound_resetIndex hb
  | ensureIndexSyncWithScale env scaleX xScale h =>
    simp only [ensureIndexSyncWithScale, Call.returns_bind, Call.returns_modify] at h
    obtain ⟨-, _, rfl, h⟩ := h
    have hext : (b.setScale scaleX xScale).Extends b' := by
      have := extends_ensureIndexSync _ env _ (Extends.refl (b.setScale scaleX xScale))
      rwa [show ensureIndexSync env (b.setScale scaleX xScale) = (.ok (), b') from h] at this
    refine sound_ensureIndexSync ?_ h
    have hscale' := hext.scaleX_eq.symm.trans hscale
    have hx' := hext.xScale_eq.symm.trans hx
    by_cases hne : b.scaleX ≠ scaleX ∨ !arrayEq b.xScale xScale
    · unfold setScale at hscale' hx'
      rw [if_pos hne] at hscale' hx'
      obtain rfl : scaleX = b.scaleX := hscale'
      obtain rfl : xScale = b.xScale := hx'
      exact sound_setScale hb hb.sized.xScale_eq (.inr fun _ _ => rfl)
    · unfold setScale
      rwa [if_neg hne]
  | persistIndexToDisk env h => exact sound_persistIndexToDisk hb h
  | softSyncIdle env h =>
    rcases returns_softSyncBuild h with ⟨-, -, rfl⟩ | ⟨-, _, -, ho, -⟩
    · exact hb
    · exact absurd ho (by simp)
  | softSync env h =>
    rcases returns_softSyncBuild h with ⟨-, ho, -⟩ | ⟨-, s, hs, ho, rfl⟩
    · exact absurd ho (by simp)
    · obtain rfl := Option.some.inj ho
      exact sound_softSync hb hcovered hs
  | reopen env h => exact sound_reopen hb h
  | configure soft hard defer =>
    exact
      { covered := hcovered
        sized := { hb.sized with }
        cache := hb.cache
        index := hb.index
        dir := hb.dir }

theorem Session.sound (h : Session b) : b.Sound := by
  induction h with
  | new env x y yvar scaleX xScale hlt hx h => exact sound_new_empty hlt hx h
  | step _ hstep hscale hx ih => exact sound_step ih hstep hscale hx
  | ensureIndexSyncWithScale env scaleX xScale _ hx hscale h ih =>
    exact sound_ensureIndexSyncWithScale ih hx hscale h
  | reopen env _ h ih => exact sound_reopen ih h
  | @search b t queries searchK excludeNearest _ ih =>
    rcases search_state t queries searchK excludeNearest b with he | he
    · rwa [he]
    · rw [he]
      exact sound_withMatrix ih

end Runs

end BpannBackend

end Ennbo
