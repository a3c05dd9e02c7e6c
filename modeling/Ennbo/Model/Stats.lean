import Ennbo.Model.Sessions

/-! # Statistics

The sums of a model are those of the rows that its backend holds, added up in
their order. Adds continue the sums; opening a directory starts them from the
rows it was given, or from the stored rows when the counts differ.
-/

namespace Ennbo

variable {D F : Type} [Floating D] [Floating F] [FloatCast D F]

open BpannBackend (SameStores Appended)

section Sums

def rowSums (n : ℕ) (rows : List (List D)) : List D × List D :=
  rows.foldl addRow (List.replicate n 0, List.replicate n 0)

theorem columnSumsAndSumsq_eq (a : Array2 D) : columnSumsAndSumsq a = rowSums a.ncols a.rows := rfl

theorem length_rowSums (n : ℕ) (rows : List (List D)) :
    (rowSums n rows).1.length = n ∧ (rowSums n rows).2.length = n := by
  have key : ∀ sums : List D × List D, sums.1.length = n ∧ sums.2.length = n →
      (rows.foldl addRow sums).1.length = n ∧ (rows.foldl addRow sums).2.length = n := by
    induction rows with
    | nil => exact fun _ h => h
    | cons row rows ih =>
      intro sums h
      exact ih _ (by simpa [addRow] using h)
  exact key _ (by simp)

theorem accumulateColumns_rowSums (n : ℕ) (rows : List (List D)) (a : Array2 D) :
    accumulateColumns (rowSums n rows).1 (rowSums n rows).2 a = rowSums n (rows ++ a.rows) := by
  unfold accumulateColumns rowSums
  rw [List.foldl_append]

end Sums

section Backend

/-- Rows of the widths of the backend, as many outputs as inputs. -/
structure InMemoryEnnBackend.Fit (b : InMemoryEnnBackend D F) : Prop where
  ncols_x : b.trainXRows.ncols = b.numDim
  ncols_y : b.trainYRows.ncols = b.numMetrics
  nrows_y : b.trainYRows.nrows = b.len
  ncols_yvar : ∀ rows, b.trainYvarRows = some rows → rows.ncols = b.numMetrics

structure BpannBackend.Fit (b : BpannBackend D F) : Prop where
  filed : b.Filed
  ncols_yvar : ∀ store, b.trainYvar = some store → store.ncols = b.numMetrics

namespace EnnBackend

def Fit : EnnBackend D F → Prop
  | .inMemory b => b.Fit
  | .disk h => h.data.Fit

def storedX : EnnBackend D F → List (List D) :=
  read (fun b => b.trainXRows.rows) fun b => b.trainX.rows

def storedY : EnnBackend D F → List (List D) :=
  read (fun b => b.trainYRows.rows) fun b => b.trainY.rows

/-- The backend with these rows behind its own. -/
structure Grown (b : EnnBackend D F) (xs ys : List (List D)) (b' : EnnBackend D F) : Prop where
  fit : b'.Fit
  numDim_eq : b'.numDim = b.numDim
  numMetrics_eq : b'.numMetrics = b.numMetrics
  storedX_eq : b'.storedX = b.storedX ++ xs
  storedY_eq : b'.storedY = b.storedY ++ ys

variable {b b' : EnnBackend D F} {env : Env F}

omit [Floating D] [Floating F] [FloatCast D F] in
theorem length_storedX (b : EnnBackend D F) : b.storedX.length = b.len := by
  cases b with
  | inMemory b => rfl
  | disk h => exact h.data.trainX.length_rows

omit [Floating D] [Floating F] [FloatCast D F] in
theorem Fit.length_storedY (h : b.Fit) : b.storedY.length = b.len := by
  cases b with
  | inMemory b => exact InMemoryEnnBackend.Fit.nrows_y h
  | disk handle =>
    have hf : handle.data.Fit := h
    exact (handle.data.trainY.length_rows).trans hf.filed.nrows_y

omit [Floating D] [Floating F] [FloatCast D F] in
theorem Grown.refl (h : b.Fit) : Grown b [] [] b :=
  ⟨h, rfl, rfl, (List.append_nil _).symm, (List.append_nil _).symm⟩

omit [Floating D] [Floating F] [FloatCast D F] in
theorem Grown.of_sameStores {h h' : DiskBackendHandle D F} (hf : h.data.Fit)
    (hs : SameStores h.data.Records h.data h'.data) : Grown (.disk h) [] [] (.disk h') where
  fit := ⟨hs.filed hf.filed, fun store hstore => by
    rw [hs.trainYvar_eq] at hstore
    rw [hs.numMetrics_eq]
    exact hf.ncols_yvar store hstore⟩
  numDim_eq := hs.numDim_eq
  numMetrics_eq := hs.numMetrics_eq
  storedX_eq := by
    rw [List.append_nil]
    exact congrArg MmapColumnStore.rows hs.trainX_eq
  storedY_eq := by
    rw [List.append_nil]
    exact congrArg MmapColumnStore.rows hs.trainY_eq

omit [Floating D] [Floating F] [FloatCast D F] in
theorem Grown.trans {xs ys xs' ys' : List (List D)} {b'' : EnnBackend D F} (h : Grown b xs ys b')
    (h' : Grown b' xs' ys' b'') : Grown b (xs ++ xs') (ys ++ ys') b'' where
  fit := h'.fit
  numDim_eq := h'.numDim_eq.trans h.numDim_eq
  numMetrics_eq := h'.numMetrics_eq.trans h.numMetrics_eq
  storedX_eq := by rw [h'.storedX_eq, h.storedX_eq, List.append_assoc]
  storedY_eq := by rw [h'.storedY_eq, h.storedY_eq, List.append_assoc]

omit [Floating D] [Floating F] [FloatCast D F] in
theorem Grown.len_eq {xs ys : List (List D)} (h : Grown b xs ys b') :
    b'.len = b.len + xs.length := by
  rw [← length_storedX, h.storedX_eq, List.length_append, length_storedX]

omit [Floating D] [Floating F] [FloatCast D F] in
theorem grown_waitForFlush (h : b.Fit) : Grown b [] [] (waitForFlush b).2 := by
  cases b with
  | inMemory b => exact .refl h
  | disk handle =>
    have hdata : (DiskBackendHandle.waitForFlush handle).2.data = handle.data :=
      DiskBackendHandle.keeps_waitForFlush (R := fun b => b = handle.data) handle rfl
    have hf : handle.data.Fit := h
    refine .of_sameStores hf ?_
    rw [hdata]
    exact hf.filed.sameStores

omit [Floating D] [Floating F] [FloatCast D F] in
theorem grown_markIndexStale (h : b.Fit) : Grown b [] [] (markIndexStale b).2 := by
  cases b with
  | inMemory b =>
    have hf : b.Fit := h
    exact ⟨⟨hf.ncols_x, hf.ncols_y, hf.nrows_y, hf.ncols_yvar⟩, rfl, rfl,
      (List.append_nil _).symm, (List.append_nil _).symm⟩
  | disk handle =>
    have hf : handle.data.Fit := h
    refine .of_sameStores hf ?_
    exact { hf.filed.sameStores with bare := fun _ => ⟨rfl, rfl⟩ }

/-- The rows of an append, in the widths of the backend. -/
structure Fitting (b : EnnBackend D F) (x y : Array2 D) (yvar : Option (Array2 D)) : Prop where
  nrows_pos : 0 < x.nrows
  nrows_y : x.nrows = y.nrows
  ncols_x : x.ncols = b.numDim
  ncols_y : y.ncols = b.numMetrics
  ncols_yvar : ∀ yv, yvar = some yv → yv.ncols = b.numMetrics
  first : ∀ yv, yvar = some yv → EpistemicNearestNeighbors.storesYvar b = false → b.len = 0

variable {x y : Array2 D} {yvar : Option (Array2 D)}

omit [Floating D] [Floating F] [FloatCast D F] in
theorem Fitting.grown (h : Fitting b x y yvar) (hg : Grown b [] [] b')
    (hs : EpistemicNearestNeighbors.storesYvar b' = EpistemicNearestNeighbors.storesYvar b) :
    Fitting b' x y yvar where
  nrows_pos := h.nrows_pos
  nrows_y := h.nrows_y
  ncols_x := h.ncols_x.trans hg.numDim_eq.symm
  ncols_y := h.ncols_y.trans hg.numMetrics_eq.symm
  ncols_yvar yv hyv := (h.ncols_yvar yv hyv).trans hg.numMetrics_eq.symm
  first yv hyv hnone := by
    rw [hg.len_eq, List.length_nil, Nat.add_zero]
    exact h.first yv hyv (hs ▸ hnone)

omit [Floating D] [Floating F] [FloatCast D F] in
theorem storesYvar_waitForFlush (b : EnnBackend D F) :
    EpistemicNearestNeighbors.storesYvar (waitForFlush b).2 =
      EpistemicNearestNeighbors.storesYvar b := by
  cases b with
  | inMemory b => rfl
  | disk handle =>
    have hdata : (DiskBackendHandle.waitForFlush handle).2.data = handle.data :=
      DiskBackendHandle.keeps_waitForFlush (R := fun b => b = handle.data) handle rfl
    exact congrArg (fun b : BpannBackend D F => b.trainYvar.isSome) hdata

omit [Floating D] in
theorem pushRows_eq_ok {rows extra : RowStorage D} (h : extra.ncols = rows.ncols) :
    ∃ out, RowStorage.pushRows rows extra = .ok out ∧ out.ncols = rows.ncols ∧
      out.rows = rows.rows ++ extra.rows := by
  unfold RowStorage.pushRows
  rw [dif_pos h]
  exact ⟨_, rfl, rfl, rfl⟩

omit [Floating F] [FloatCast D F] [Floating D] in
/-- In memory an append of fitting rows returns. -/
theorem returns_appendRows_inMemory {b : InMemoryEnnBackend D F} (hb : b.Fit)
    (h : Fitting (.inMemory b) x y yvar) :
    ∃ b', (InMemoryEnnBackend.appendRows x y yvar).Returns b () b' ∧
      Grown (.inMemory b) x.rows y.rows (.inMemory b') ∧ b'.index = b.index ∧
      b'.indexStale = b.indexStale ∧ b'.indexSyncedObs = b.indexSyncedObs := by
  obtain ⟨outX, hX, hcX, hrX⟩ := pushRows_eq_ok (h.ncols_x.trans hb.ncols_x.symm)
  obtain ⟨outY, hY, hcY, hrY⟩ := pushRows_eq_ok (h.ncols_y.trans hb.ncols_y.symm)
  have hlen : outX.nrows = b.len + x.nrows := by
    unfold Array2.nrows
    rw [hrX, List.length_append]
    rfl
  have hlenY : outY.nrows = outX.nrows := by
    rw [hlen, h.nrows_y, ← hb.nrows_y]
    unfold Array2.nrows
    rw [hrY, List.length_append]
  have hfit : ∀ trainYvar : Option (RowStorage D),
      (∀ rows, trainYvar = some rows → rows.ncols = b.numMetrics) →
      InMemoryEnnBackend.Fit
        { b with trainXRows := outX, trainYRows := outY, trainYvarRows := trainYvar } :=
    fun trainYvar hv => ⟨hcX.trans hb.ncols_x, hcY.trans hb.ncols_y, hlenY, hv⟩
  have key : ∃ trainYvar : Option (RowStorage D),
      (∀ rows, trainYvar = some rows → rows.ncols = b.numMetrics) ∧
      (InMemoryEnnBackend.appendRows x y yvar).Returns b ()
        { b with trainXRows := outX, trainYRows := outY, trainYvarRows := trainYvar } := by
    unfold Call.Returns InMemoryEnnBackend.appendRows
    rw [Call.get_bind_apply, Call.ite_apply, if_neg h.nrows_pos.ne', hX, Call.ok_bind_apply,
      Call.modify_bind_apply, hY, Call.ok_bind_apply, Call.modify_bind_apply]
    obtain ⟨trainX, trainY, old, numDim, numMetrics, index, stale, synced⟩ := b
    cases old with
    | none =>
      cases yvar with
      | none => exact ⟨none, by simp, rfl⟩
      | some yv =>
        refine ⟨some yv, ?_, rfl⟩
        rintro rows ⟨⟩
        exact h.ncols_yvar yv rfl
    | some rows =>
      have hold := hb.ncols_yvar rows rfl
      cases yvar with
      | none =>
        refine ⟨some rows, ?_, rfl⟩
        rintro rows ⟨⟩
        exact hold
      | some yv =>
        obtain ⟨out, hout, hcout, -⟩ := pushRows_eq_ok ((h.ncols_yvar yv rfl).trans hold.symm)
        refine ⟨some out, ?_, ?_⟩
        · rintro rows ⟨⟩
          rw [hcout, hold]
        · dsimp only
          rw [hout, Call.ok_bind_apply]
          rfl
  obtain ⟨trainYvar, hv, hret⟩ := key
  exact ⟨_, hret, ⟨hfit trainYvar hv, rfl, rfl, hrX, hrY⟩, rfl, rfl, rfl⟩

omit [Floating F] [FloatCast D F] in
/-- On disk fitting rows can be stored, unless there are too many of them. -/
theorem exists_appended {h₀ : DiskBackendHandle D F} (hb : h₀.data.Fit)
    (h : Fitting (.disk h₀) x y yvar) (hlimit : h₀.data.len + x.nrows < U32_MAX) :
    ∃ trainX trainY trainYvar, Appended h₀.data x y yvar trainX trainY trainYvar := by
  obtain ⟨trainX, hX, -⟩ := MmapColumnStore.mmapAppend_eq_ok (h.ncols_x.trans hb.filed.ncols_x.symm)
  obtain ⟨trainY, hY, -⟩ := MmapColumnStore.mmapAppend_eq_ok (h.ncols_y.trans hb.filed.ncols_y.symm)
  have hv : ∃ trainYvar, bpannAppendYvarOnAdd h₀.data.dir h₀.data.numMetrics h₀.data.trainYvar
      yvar = .ok trainYvar := by
    cases yvar with
    | none =>
      refine ⟨h₀.data.trainYvar, ?_⟩
      unfold bpannAppendYvarOnAdd
      cases h₀.data.trainYvar <;> rfl
    | some yv =>
      have hcols := h.ncols_yvar yv rfl
      cases hold : h₀.data.trainYvar with
      | some store =>
        obtain ⟨out, hout, -⟩ := MmapColumnStore.mmapAppend_eq_ok
          (hcols.trans (hb.ncols_yvar store hold).symm)
        exact ⟨some out, by simp [bpannAppendYvarOnAdd, hout]⟩
      | none =>
        have h0 : h₀.data.len = 0 := h.first yv rfl (by
          change h₀.data.trainYvar.isSome = false
          rw [hold]
          rfl)
        have hload : h₀.data.dir.loadNumObs = some 0 := by
          rw [hb.filed.dir.loadNumObs, h0]
        have hopen : ∃ store : MmapColumnStore D, MmapColumnStore.mmapOpenOrCreate
            h₀.data.dir.trainYvar h₀.data.numMetrics (some 0) = .ok store := by
          unfold MmapColumnStore.mmapOpenOrCreate
          dsimp only
          rw [dif_pos (by simp)]
          exact ⟨_, rfl⟩
        obtain ⟨store, hstore⟩ := hopen
        have hwidth := (MmapColumnStore.mmapOpenOrCreate_eq_ok hstore).1
        obtain ⟨out, hout, -⟩ := MmapColumnStore.mmapAppend_eq_ok (hcols.trans hwidth.symm)
        exact ⟨some out, by simp [bpannAppendYvarOnAdd, hload, hstore, hout]⟩
  obtain ⟨trainYvar, hv⟩ := hv
  exact ⟨trainX, trainY, trainYvar, h.nrows_pos, h.ncols_x, h.ncols_y, h.nrows_y, hlimit, hX, hY,
    hv⟩

omit [Floating F] [FloatCast D F] in
theorem ncols_bpannAppendYvarOnAdd {dir : WorkDir D F} {n : ℕ}
    {old new : Option (MmapColumnStore D)} (hold : ∀ store, old = some store → store.ncols = n)
    (h : bpannAppendYvarOnAdd dir n old yvar = .ok new) :
    ∀ store, new = some store → store.ncols = n := by
  rintro store rfl
  unfold bpannAppendYvarOnAdd at h
  split at h
  next old yv =>
    obtain ⟨out, hout, he⟩ := Outcome.map_eq_ok.mp h
    obtain rfl := Option.some.inj he
    rw [(MmapColumnStore.rows_of_mmapAppend hout).1, hold _ rfl]
  next yv =>
    simp only [Outcome.bind_eq_ok, Outcome.map_eq_ok] at h
    obtain ⟨s, hs, out, hout, he⟩ := h
    obtain rfl := Option.some.inj he
    rw [(MmapColumnStore.rows_of_mmapAppend hout).1, MmapColumnStore.ncols_mmapOpenOrCreate hs]
  next => exact hold _ (Outcome.pure_eq_ok.mp h)

omit [Floating F] [FloatCast D F] in
theorem grown_afterAppend {h₀ : DiskBackendHandle D F} (hb : h₀.data.Fit)
    {trainX trainY : MmapColumnStore D} {trainYvar : Option (MmapColumnStore D)}
    (ha : Appended h₀.data x y yvar trainX trainY trainYvar) {h : DiskBackendHandle D F}
    (hd : SameStores (h₀.data.afterAppend x trainX trainY trainYvar).Records
      (h₀.data.afterAppend x trainX trainY trainYvar) h.data) :
    Grown (.disk h₀) x.rows y.rows (.disk h) := by
  have hfiled := hb.filed.afterAppend ha
  have hnext : Grown (.disk { h₀ with data := h₀.data.afterAppend x trainX trainY trainYvar }) [] []
      (.disk h) :=
    .of_sameStores ⟨hfiled, ncols_bpannAppendYvarOnAdd hb.ncols_yvar ha.trainYvar_eq⟩ hd
  exact
    { hnext with
      storedX_eq := by
        rw [hnext.storedX_eq, List.append_nil]
        exact (MmapColumnStore.rows_of_mmapAppend ha.trainX_eq).2
      storedY_eq := by
        rw [hnext.storedY_eq, List.append_nil]
        exact (MmapColumnStore.rows_of_mmapAppend ha.trainY_eq).2 }

/-- When an append reaches a flush, the index can be built. -/
def FlushBuilds (env : Env F) (x y : Array2 D) (yvar : Option (Array2 D)) :
    EnnBackend D F → Prop
  | .inMemory _ => True
  | .disk h => ∀ trainX trainY trainYvar, Appended h.data x y yvar trainX trainY trainYvar →
      (h.data.afterAppend x trainX trainY trainYvar).flushDue = true →
        (BpannBackend.ensureIndexSync env (h.data.afterAppend x trainX trainY trainYvar)).1 = .ok ()

/-- An append of fitting rows stores them all, or is refused before it stores any. -/
theorem appendRows_cases (hb : b.Fit) (h : Fitting b x y yvar) (hbuild : FlushBuilds env x y yvar b) :
    (∃ b', (appendRows env x y yvar).Returns b () b' ∧ Grown b x.rows y.rows b') ∨
      ∃ e, appendRows env x y yvar b = (.error e, b) := by
  cases b with
  | inMemory b =>
    obtain ⟨b', hret, hgrown, -⟩ := returns_appendRows_inMemory hb h
    have hret : InMemoryEnnBackend.appendRows x y yvar b = (.ok (), b') := hret
    refine .inl ⟨.inMemory b', ?_, hgrown⟩
    simp only [Call.Returns, appendRows, dispatch, hret]
  | disk handle =>
    by_cases hlimit : handle.data.len + x.nrows < U32_MAX
    · obtain ⟨trainX, trainY, trainYvar, ha⟩ := exists_appended hb h hlimit
      have hrun := BpannBackend.appendRows_of_appended env ha
      have hsame := ((show handle.data.Fit from hb).filed.afterAppend ha).sameStores
      by_cases hdue : (handle.data.afterAppend x trainX trainY trainYvar).flushDue = true
      · rw [if_pos hdue] at hrun
        have hok := hbuild trainX trainY trainYvar ha hdue
        refine .inl ⟨.disk { handle with data := (BpannBackend.ensureIndexSync env
          (handle.data.afterAppend x trainX trainY trainYvar)).2 }, ?_, ?_⟩
        · simp only [Call.Returns, appendRows, dispatch, DiskBackendHandle.onData, Call.on, hrun,
            hok]
        · exact grown_afterAppend hb ha
            (BpannBackend.keeps_ensureIndexSync (BpannBackend.sidecarFree_records _) _ env _ hsame)
      · rw [if_neg hdue] at hrun
        refine .inl ⟨.disk { handle with data := handle.data.afterAppend x trainX trainY trainYvar },
          ?_, grown_afterAppend hb ha hsame⟩
        simp only [Call.Returns, appendRows, dispatch, DiskBackendHandle.onData, Call.on, hrun]
    · obtain ⟨e, he⟩ := BpannBackend.appendRows_of_limit env yvar h.nrows_pos h.ncols_x
        h.ncols_y h.nrows_y hlimit
      refine .inr ⟨e, ?_⟩
      simp only [appendRows, dispatch, DiskBackendHandle.onData, Call.on, he]

end EnnBackend

end Backend

namespace EpistemicNearestNeighbors

variable [Analysis D] {env : Env F} {m m' : EpistemicNearestNeighbors D F} {x y : Array2 D}
  {yvar : Option (Array2 D)}

open EnnBackend (Grown Fitting)

/-- The statistics are those of the rows that the backend holds. -/
structure StatsMatch (m : EpistemicNearestNeighbors D F) : Prop where
  numObs_eq : m.numObs = m.backend.len
  ySums_eq : (m.ySum, m.ySumsq) = rowSums m.numMetrics m.backend.storedY
  yScale_eq : m.yScale = scaleFromMoments m.numObs m.numMetrics m.ySum m.ySumsq 0
  xSums_eq : m.scaleX = true → (m.xSum, m.xSumsq) = rowSums m.numDim m.backend.storedX
  xScale_eq : m.scaleX = true →
    m.xScale = scaleFromMoments m.numObs m.numDim m.xSum m.xSumsq X_MIN_STD

/-- The invariant that adds keep. -/
structure Consistent (m : EpistemicNearestNeighbors D F) : Prop where
  stats : m.StatsMatch
  fit : m.backend.Fit
  numDim_eq : m.numDim = m.backend.numDim
  numMetrics_eq : m.numMetrics = m.backend.numMetrics

section Add

omit [Floating F] [FloatCast D F] in
theorem Consistent.withBackend {b : EnnBackend D F} (hm : m.Consistent)
    (hg : Grown m.backend [] [] b) : { m with backend := b }.Consistent where
  stats :=
    { numObs_eq := by
        rw [hm.stats.numObs_eq]
        exact hg.len_eq.symm
      ySums_eq := by
        rw [hm.stats.ySums_eq]
        change _ = rowSums m.numMetrics b.storedY
        rw [hg.storedY_eq, List.append_nil]
      yScale_eq := hm.stats.yScale_eq
      xSums_eq := fun h => by
        rw [hm.stats.xSums_eq h]
        change _ = rowSums m.numDim b.storedX
        rw [hg.storedX_eq, List.append_nil]
      xScale_eq := hm.stats.xScale_eq }
  fit := hg.fit
  numDim_eq := hm.numDim_eq.trans hg.numDim_eq.symm
  numMetrics_eq := hm.numMetrics_eq.trans hg.numMetrics_eq.symm

omit [Floating F] [FloatCast D F] in
theorem ySums_grown {b : EnnBackend D F} (hm : m.Consistent)
    (hg : Grown m.backend x.rows y.rows b) :
    accumulateColumns m.ySum m.ySumsq y = rowSums m.numMetrics b.storedY := by
  have h := accumulateColumns_rowSums m.numMetrics m.backend.storedY y
  rw [← hm.stats.ySums_eq] at h
  rw [h, hg.storedY_eq]

omit [Floating F] [FloatCast D F] in
theorem xSums_grown {b : EnnBackend D F} (hm : m.Consistent) (hscale : m.scaleX = true)
    (hg : Grown m.backend x.rows y.rows b) :
    accumulateColumns m.xSum m.xSumsq x = rowSums m.numDim b.storedX := by
  have h := accumulateColumns_rowSums m.numDim m.backend.storedX x
  rw [← hm.stats.xSums_eq hscale] at h
  rw [h, hg.storedX_eq]

omit [Floating F] [FloatCast D F] in
theorem consistent_afterAdd {b : EnnBackend D F} (hm : m.Consistent)
    (hg : Grown m.backend x.rows y.rows b) : (m.afterAdd b x y).Consistent := by
  have hy := ySums_grown hm hg
  by_cases hscale : m.scaleX = true
  · have hx := xSums_grown hm hscale hg
    have hstale := EnnBackend.grown_markIndexStale hg.fit
    have hlen : (EnnBackend.markIndexStale b).2.len = b.len := hstale.len_eq
    unfold afterAdd
    dsimp only
    rw [if_pos hscale]
    refine ⟨⟨rfl, ?_, ?_, fun _ => ?_, fun _ => ?_⟩, hstale.fit, ?_, ?_⟩
    · change accumulateColumns m.ySum m.ySumsq y = rowSums m.numMetrics _
      rw [hy, hstale.storedY_eq, List.append_nil]
    · change scaleFromMoments b.len _ _ _ _ = scaleFromMoments _ _ _ _ _
      rw [← hlen]
      rfl
    · change accumulateColumns m.xSum m.xSumsq x = rowSums m.numDim _
      rw [hx, hstale.storedX_eq, List.append_nil]
    · change scaleFromMoments b.len _ _ _ _ = scaleFromMoments _ _ _ _ _
      rw [← hlen]
      rfl
    · exact hm.numDim_eq.trans (hg.numDim_eq.symm.trans hstale.numDim_eq.symm)
    · exact hm.numMetrics_eq.trans (hg.numMetrics_eq.symm.trans hstale.numMetrics_eq.symm)
  · unfold afterAdd
    dsimp only
    rw [if_neg hscale]
    exact ⟨⟨rfl, hy, rfl, fun h => absurd h hscale, fun h => absurd h hscale⟩, hg.fit,
      hm.numDim_eq.trans hg.numDim_eq.symm, hm.numMetrics_eq.trans hg.numMetrics_eq.symm⟩

/-- What passes the checks of an add. -/
structure ValidAdd (m : EpistemicNearestNeighbors D F) (x y : Array2 D)
    (yvar : Option (Array2 D)) : Prop where
  nrows_eq : x.nrows = y.nrows
  ncols_x : x.ncols = m.numDim
  ncols_y : y.ncols = m.numMetrics
  ncols_yvar : ∀ yv, yvar = some yv → yv.ncols = y.ncols
  first : ∀ yv, yvar = some yv → storesYvar m.backend = false → m.numObs = 0

omit [Analysis D] [Floating D] [Floating F] [FloatCast D F] in
/-- Without a store there are no variances to be found. -/
theorem firstYvar_of_not_storesYvar (h : storesYvar m.backend = false) :
    m.firstYvar = .ok none := by
  have hrow : m.backend.rowYvar 0 = .ok none ∨ ∃ e, m.backend.rowYvar 0 = .error (.error e) := by
    cases hb : m.backend with
    | inMemory b =>
      rw [hb] at h
      have hnone : b.trainYvarRows = none := Option.isSome_eq_false_iff.mp h |>
        Option.isNone_iff_eq_none.mp
      change InMemoryEnnBackend.rowYvar b 0 = _ ∨ ∃ e, InMemoryEnnBackend.rowYvar b 0 = _
      unfold InMemoryEnnBackend.rowYvar InMemoryEnnBackend.checkIndex
      rw [hnone]
      split
      · exact .inr ⟨_, rfl⟩
      · exact .inl rfl
    | disk handle =>
      rw [hb] at h
      have hnone : handle.data.trainYvar = none := Option.isSome_eq_false_iff.mp h |>
        Option.isNone_iff_eq_none.mp
      change DiskBpannEnnBackend.rowYvar handle.data 0 = _ ∨
        ∃ e, DiskBpannEnnBackend.rowYvar handle.data 0 = _
      unfold DiskBpannEnnBackend.rowYvar MmapColumnStore.mmapRowSlice
      rw [hnone]
      split
      · exact .inr ⟨_, rfl⟩
      · exact .inl rfl
  unfold firstYvar
  rcases hrow with h | ⟨e, h⟩
  · rw [h]
  · rw [h]
    rfl

omit [Analysis D] [Floating D] [Floating F] [FloatCast D F] in
theorem validAdd_of_ok (h : m.validateAdd x y yvar = .ok ()) : m.ValidAdd x y yvar := by
  unfold validateAdd at h
  split at h
  · simp at h
  next hshape =>
    push Not at hshape
    simp only [Outcome.bind_eq_ok, Outcome.map_eq_ok] at h
    obtain ⟨stored, ⟨o, ho, rfl⟩, h⟩ := h
    refine ⟨hshape.1, hshape.2.1, hshape.2.2, ?_, ?_⟩
    · rintro yv rfl
      dsimp only at h
      split at h
      · simp at h
      next hs =>
        simp only [Array2.shape, ne_eq, not_not, List.cons.injEq] at hs
        exact hs.2.1
    · rintro yv rfl hnone
      rw [firstYvar_of_not_storesYvar hnone] at ho
      obtain rfl := Except.ok.inj ho
      dsimp only at h
      split at h
      · simp at h
      · split at h
        · simp at h
        next hobs =>
          simp only [Option.isSome_none, Bool.not_false, true_and] at hobs
          omega

omit [Floating F] [FloatCast D F] in
theorem warpAdded_shape {storedY : Array2 D} {storedYvar : Option (Array2 D)}
    (h : m.warpAdded y yvar = .ok (storedY, storedYvar))
    (hv : ∀ yv, yvar = some yv → yv.ncols = y.ncols) :
    storedY.nrows = y.nrows ∧ storedY.ncols = y.ncols ∧
      (∀ v, storedYvar = some v → v.ncols = y.ncols) ∧ (storedYvar.isSome = yvar.isSome) := by
  unfold warpAdded at h
  split at h
  · obtain ⟨rfl, rfl⟩ := Prod.mk.inj (Outcome.pure_eq_ok.mp h)
    exact ⟨rfl, rfl, hv, rfl⟩
  · simp only [Outcome.bind_eq_ok] at h
    obtain ⟨warped, hwarped, h⟩ := h
    have hshape : warped.nrows = y.nrows ∧ warped.ncols = y.ncols := by
      rw [YBounds.warpY_eq_ok hwarped]
      exact ⟨Array2.nrows_mapCols _ _, rfl⟩
    split at h
    · simp only [Outcome.bind_eq_ok, Outcome.pure_eq_ok, Prod.mk.injEq] at h
      obtain ⟨v, hv', rfl, rfl⟩ := h
      refine ⟨hshape.1, hshape.2, ?_, rfl⟩
      rintro _ ⟨⟩
      exact (YBounds.shape_warpYvar hv').2
    · obtain ⟨rfl, rfl⟩ := Prod.mk.inj (Outcome.pure_eq_ok.mp h)
      refine ⟨hshape.1, hshape.2, ?_, rfl⟩
      rintro _ ⟨⟩

omit [Floating F] [FloatCast D F] in
theorem Consistent.fitting (hm : m.Consistent) (hx : 0 < x.nrows) (hv : m.ValidAdd x y yvar)
    {storedY : Array2 D} {storedYvar : Option (Array2 D)}
    (hw : m.warpAdded y yvar = .ok (storedY, storedYvar)) :
    Fitting m.backend x storedY storedYvar := by
  obtain ⟨hn, hc, hcv, hsome⟩ := warpAdded_shape hw hv.ncols_yvar
  have hmetrics := hv.ncols_y.trans hm.numMetrics_eq
  refine ⟨hx, hv.nrows_eq.trans hn.symm, hv.ncols_x.trans hm.numDim_eq, hc.trans hmetrics,
    fun v h => (hcv v h).trans hmetrics, ?_⟩
  rintro v rfl hnone
  obtain ⟨yv, hyv⟩ := Option.isSome_iff_exists.mp hsome.symm
  rw [← hm.stats.numObs_eq]
  exact hv.first yv hyv hnone

omit [Floating F] [FloatCast D F] in
theorem Consistent.fits_y (hm : m.Consistent) (hy : y.ncols = m.numMetrics) :
    fitsColumns m.ySum y = .ok () := by
  have hlen := (length_rowSums m.numMetrics m.backend.storedY).1
  rw [← hm.stats.ySums_eq] at hlen
  unfold fitsColumns
  rw [if_neg (by dsimp only at hlen; omega)]
  rfl

omit [Floating F] [FloatCast D F] in
theorem Consistent.fits_x (hm : m.Consistent) (hscale : m.scaleX = true)
    (hx : x.ncols = m.numDim) : fitsColumns m.xSum x = .ok () := by
  have hlen := (length_rowSums m.numDim m.backend.storedX).1
  rw [← hm.stats.xSums_eq hscale] at hlen
  unfold fitsColumns
  rw [if_neg (by dsimp only at hlen; omega)]
  rfl

/-- An add that reaches a flush can build the index. -/
def AddBuilds (env : Env F) (m : EpistemicNearestNeighbors D F) (x y : Array2 D)
    (yvar : Option (Array2 D)) : Prop :=
  ∀ storedY storedYvar, m.warpAdded y yvar = .ok (storedY, storedYvar) →
    EnnBackend.FlushBuilds env x storedY storedYvar m.backend

omit [Analysis D] in
theorem flushBuilds_waitForFlush {b : EnnBackend D F}
    (h : EnnBackend.FlushBuilds env x y yvar b) :
    EnnBackend.FlushBuilds env x y yvar (EnnBackend.waitForFlush b).2 := by
  cases b with
  | inMemory b => trivial
  | disk handle =>
    have hdata : (DiskBackendHandle.waitForFlush handle).2.data = handle.data :=
      DiskBackendHandle.keeps_waitForFlush (R := fun b => b = handle.data) handle rfl
    change ∀ trainX trainY trainYvar, Appended (DiskBackendHandle.waitForFlush handle).2.data
      x y yvar trainX trainY trainYvar → _
    rw [hdata]
    exact h

/-- However an add ends, the statistics are those of the rows that are stored. -/
theorem consistent_add (hm : m.Consistent) (hbuild : m.AddBuilds env x y yvar) :
    (add env x y yvar m).2.Consistent := by
  have hwait := hm.withBackend (EnnBackend.grown_waitForFlush hm.fit)
  rw [add, Call.get_bind_apply]
  cases hv : m.validateAdd x y yvar with
  | error e =>
    rw [Call.error_bind_apply]
    exact hm
  | ok _ =>
    rw [Call.ok_bind_apply, Call.ite_apply]
    split
    next hx =>
      let m₁ := { m with backend := (EnnBackend.waitForFlush m.backend).2 }
      have hw₁ : onBackend EnnBackend.waitForFlush m =
          ((EnnBackend.waitForFlush m.backend).1, m₁) := rfl
      cases hw : (EnnBackend.waitForFlush m.backend).1 with
      | error e =>
        rw [hw] at hw₁
        rw [Call.bind_apply_of_error _ hw₁]
        exact hwait
      | ok _ =>
        rw [hw] at hw₁
        rw [Call.bind_apply_of_ok _ hw₁]
        cases hstored : m.warpAdded y yvar with
        | error e =>
          rw [Call.error_bind_apply]
          exact hwait
        | ok stored =>
          obtain ⟨storedY, storedYvar⟩ := stored
          have hvalid := validAdd_of_ok hv
          have hfitting := (hm.fitting hx hvalid hstored).grown
            (EnnBackend.grown_waitForFlush hm.fit) (EnnBackend.storesYvar_waitForFlush _)
          rw [Call.ok_bind_apply]
          dsimp only
          rcases EnnBackend.appendRows_cases hwait.fit hfitting
            (flushBuilds_waitForFlush (hbuild storedY storedYvar hstored)) with
            ⟨b, happend, hgrown⟩ | ⟨e, he⟩
          · have happend₁ : onBackend (EnnBackend.appendRows env x storedY storedYvar) m₁ =
                (.ok (), { m with backend := b }) := Call.returns_on.mpr ⟨b, happend, rfl⟩
            have hcols := (warpAdded_shape hstored hvalid.ncols_yvar).2.1
            rw [Call.bind_apply_of_ok _ happend₁, hm.fits_y (hcols.trans hvalid.ncols_y),
              Call.ok_bind_apply, Call.modify_bind_apply]
            have hafter := consistent_afterAdd hm ((EnnBackend.grown_waitForFlush hm.fit).trans
              hgrown)
            unfold afterAdd at hafter
            dsimp only at hafter
            split
            next hscale =>
              rw [if_pos hscale] at hafter
              rw [hm.fits_x hscale hvalid.ncols_x, Call.ok_bind_apply, Call.modify_bind_apply,
                Call.bind_apply_of_ok _ (onBackend_markIndexStale _)]
              exact hafter
            next hscale =>
              rw [if_neg hscale] at hafter
              exact hafter
          · have he₁ : onBackend (EnnBackend.appendRows env x storedY storedYvar) m₁ =
                (.error e, m₁) := by
              simp only [onBackend, Call.on, m₁, he]
            rw [Call.bind_apply_of_error _ he₁]
            exact hwait
    next hx => exact hm

end Add

section Open

open EnnBackend (Grown)

omit [Floating F] [FloatCast D F] in
theorem Consistent.persistYBoundsMetadata (hm : m.Consistent) :
    m.persistYBoundsMetadata.Consistent := by
  cases hb : m.backend with
  | inMemory b =>
    have hp : m.persistYBoundsMetadata =
        { m with workDir := m.workDir.map (YBounds.persistBoundsMetadata m.yBounds) } := by
      unfold EpistemicNearestNeighbors.persistYBoundsMetadata modifyDir
      rw [hb]
    have hs := hm.stats
    rw [hp]
    exact ⟨⟨hs.numObs_eq, hs.ySums_eq, hs.yScale_eq, hs.xSums_eq, hs.xScale_eq⟩, hm.fit,
      hm.numDim_eq, hm.numMetrics_eq⟩
  | disk handle =>
    have hp : m.persistYBoundsMetadata =
        { m with
          backend := .disk
            { handle with
              data := { handle.data with
                dir := YBounds.persistBoundsMetadata m.yBounds handle.data.dir } } } := by
      unfold EpistemicNearestNeighbors.persistYBoundsMetadata modifyDir
      rw [hb]
    have hfit := hm.fit
    rw [hb] at hfit
    have hf : handle.data.Fit := hfit
    obtain ⟨md, hmd, hdims⟩ := hf.filed.dir.metadata
    have hdir : (YBounds.persistBoundsMetadata m.yBounds handle.data.dir).metadata =
        some { md with yBounds := some m.yBounds } := by
      unfold YBounds.persistBoundsMetadata
      rw [hmd]
      rfl
    have hg : Grown (.disk handle) [] [] (.disk
        { handle with
          data := { handle.data with
            dir := YBounds.persistBoundsMetadata m.yBounds handle.data.dir } }) :=
      .of_sameStores hf
        { hf.filed.sameStores with
          dir := ⟨hf.filed.dir.numObs, _, hdir, hdims⟩
          bare := hf.filed.bare }
    rw [← hb] at hg
    rw [hp]
    exact hm.withBackend hg

variable {options : ModelOptions D F} {bounds : Array2 D}

omit [Floating F] [FloatCast D F] in
theorem warp_yvar {out : Array2 D × Option (Array2 D)} (hv : ∀ yv, yvar = some yv →
    yv.ncols = y.ncols) (h : warp bounds y yvar = .ok out) :
    ∀ v, out.2 = some v → v.ncols = y.ncols := by
  unfold warp at h
  split at h
  · obtain rfl := Outcome.pure_eq_ok.mp h
    exact hv
  · simp only [Outcome.bind_eq_ok] at h
    obtain ⟨warped, hwarped, h⟩ := h
    split at h
    · simp only [Outcome.bind_eq_ok, Outcome.pure_eq_ok] at h
      obtain ⟨v, hv', rfl⟩ := h
      rintro _ ⟨⟩
      exact (YBounds.shape_warpYvar hv').2
    · obtain rfl := Outcome.pure_eq_ok.mp h
      rintro _ ⟨⟩

omit [Floating D] [Analysis D] [Floating F] [FloatCast D F] in
theorem ncols_of_validateShapes (h : validateShapes x y yvar = .ok ()) :
    ∀ yv, yvar = some yv → yv.ncols = y.ncols := by
  rintro yv rfl
  unfold validateShapes at h
  split at h
  · simp at h
  · dsimp only at h
    split at h
    · simp at h
    next hs =>
      simp only [Array2.shape, ne_eq, not_not, List.cons.injEq] at hs
      exact hs.2.1

omit [Floating F] [FloatCast D F] in
/-- The statistics of the constructor are those of rows that the backend took over. -/
theorem consistent_assemble (backend : EnnBackend D F) (hfit : backend.Fit)
    (hX : backend.storedX = x.rows) (hY : backend.storedY = y.rows)
    (hdim : backend.numDim = x.ncols) (hmetrics : backend.numMetrics = y.ncols) :
    (assemble backend options bounds x y).Consistent := by
  have hlen : backend.len = x.nrows := by
    rw [← EnnBackend.length_storedX, hX]
    rfl
  refine ⟨⟨hlen.symm, ?_, rfl, fun hscale => ?_, fun hscale => ?_⟩, hfit, hdim.symm,
    hmetrics.symm⟩
  · change columnSumsAndSumsq y = rowSums y.ncols backend.storedY
    rw [hY]
    rfl
  · have hs : options.scaleX = true := hscale
    change ((if options.scaleX = true then columnSumsAndSumsq x else _) : List D × List D) =
      rowSums x.ncols backend.storedX
    rw [if_pos hs, hX]
    rfl
  · have hs : options.scaleX = true := hscale
    change (if options.scaleX = true then scaleFromMoments x.nrows x.ncols _ _ X_MIN_STD else _) = _
    rw [if_pos hs]
    rfl

theorem consistent_inMemory (bounds : Array2 D) {backend : EnnBackend D F} {warpedY : Array2 D}
    {warpedYvar : Option (Array2 D)} {xScale : List D} (hs : options.storage = .inMemory)
    (hrows : x.nrows = warpedY.nrows) (hv : ∀ v, warpedYvar = some v → v.ncols = warpedY.ncols)
    (h : openBackend env options x warpedY warpedYvar xScale = .ok backend) :
    (assemble backend options bounds x warpedY).Consistent := by
  simp only [openBackend, hs, EnnBackend.newInMemory, Outcome.map_eq_ok,
    InMemoryEnnBackend.new, Outcome.bind_eq_ok, Outcome.pure_eq_ok] at h
  obtain ⟨b, ⟨index, -, rfl⟩, rfl⟩ := h
  exact consistent_assemble (.inMemory _) ⟨rfl, rfl, hrows.symm, hv⟩ rfl rfl rfl rfl

omit [Floating D] [Floating F] [FloatCast D F] [Analysis D] in
theorem trainRowsAt_range {b : BpannBackend D F} (hf : b.Filed) {rows : TrainRowsAt D}
    (h : b.trainRowsAt (List.range b.len) = .ok rows) :
    rows.x = b.trainX.rows ∧ rows.y = b.trainY.rows := by
  have hX := b.trainX.mmapGather_range
  have hY := b.trainY.mmapGather_range
  rw [hf.nrows_y] at hY
  unfold BpannBackend.trainRowsAt bpannTrainRowsAt at h
  split at h
  · simp at h
  · simp only [Outcome.bind_eq_ok] at h
    obtain ⟨xs, hx, ys, hy, h⟩ := h
    obtain rfl := Except.ok.inj (hX.symm.trans hx)
    obtain rfl := Except.ok.inj (hY.symm.trans hy)
    split at h
    · rw [← Outcome.pure_eq_ok.mp h]
      exact ⟨rfl, rfl⟩
    · simp only [Outcome.bind_eq_ok, Outcome.pure_eq_ok] at h
      obtain ⟨_, -, rfl⟩ := h
      exact ⟨rfl, rfl⟩

omit [Floating D] [Analysis D] in
theorem rowsMatrix_eq_ok {n : ℕ} {rows : List (List D)} {a : Array2 D}
    (h : rowsMatrix n rows = .ok a) : a.ncols = n ∧ a.rows = rows := by
  unfold rowsMatrix at h
  split at h
  · rw [← Outcome.pure_eq_ok.mp h]
    exact ⟨rfl, rfl⟩
  · simp at h

/-- Taking the statistics from the files; an empty directory leaves those of the constructor. -/
theorem consistent_sync {h₀ : DiskBackendHandle D F} (hb : m.backend = .disk h₀)
    (hf : h₀.data.Fit) (hscale : m.scaleX = false)
    (hempty : h₀.data.len = 0 →
      (m.ySum, m.ySumsq) = rowSums h₀.data.numMetrics [] ∧
        m.yScale = List.replicate h₀.data.numMetrics 1)
    (h : (syncObsStatsFromBackend env).Returns m () m') : m'.Consistent := by
  have hlen : m.backend.len = h₀.data.len := by rw [hb]; rfl
  have hmetrics : m.backend.numMetrics = h₀.data.numMetrics := by rw [hb]; rfl
  have hfit : m.backend.Fit := by rw [hb]; exact hf
  obtain ⟨_, m₁, hm₁, h⟩ := Call.returns_bind.mp h
  obtain rfl := Call.returns_modify.mp hm₁
  obtain ⟨_, _, hget, h⟩ := Call.returns_bind.mp h
  obtain ⟨rfl, rfl⟩ := Call.returns_get.mp hget
  rw [Call.returns_ite] at h
  split at h
  next h0 =>
    obtain ⟨-, rfl⟩ := Call.returns_pure.mp h
    have h0 : h₀.data.len = 0 := hlen.symm.trans h0
    obtain ⟨hsums, hyscale⟩ := hempty h0
    have hnil : m.backend.storedY = [] :=
      List.eq_nil_of_length_eq_zero (hfit.length_storedY.trans (hlen.trans h0))
    refine ⟨⟨rfl, ?_, ?_, ?_, ?_⟩, hfit, rfl, rfl⟩
    · change (m.ySum, m.ySumsq) = rowSums m.backend.numMetrics m.backend.storedY
      rw [hsums, hnil, hmetrics]
    · change m.yScale = scaleFromMoments m.backend.len m.backend.numMetrics m.ySum m.ySumsq 0
      rw [hyscale, hlen, h0, hmetrics]
      rfl
    · intro hs
      exact absurd (hscale.symm.trans hs) (by simp)
    · intro hs
      exact absurd (hscale.symm.trans hs) (by simp)
  next =>
    simp only [Call.returns_bind, Call.returns_ofOutcome, Call.returns_modify] at h
    obtain ⟨rows, _, ⟨hrows, rfl⟩, xs, _, ⟨hx, rfl⟩, ys, _, ⟨hy, rfl⟩, _, _, rfl, h⟩ := h
    rw [Call.returns_ite, if_neg (by simp [hscale])] at h
    simp only [Call.returns_bind, Call.returns_get, onBackend, Call.returns_on] at h
    obtain ⟨_, _, ⟨rfl, rfl⟩, b, hsync, rfl⟩ := h
    rw [hb] at hrows
    have hrows : h₀.data.trainRowsAt (List.range h₀.data.len) = .ok rows := hrows
    have hrowsY := (trainRowsAt_range hf.filed hrows).2
    obtain ⟨hcols, hyrows⟩ := rowsMatrix_eq_ok hy
    have hgrown : Grown m.backend [] [] b := by
      have hkeeps := EnnBackend.keeps_ensureIndexSync (BpannBackend.sidecarFree_records h₀.data)
        h₀.data env m.scaleX m.xScale
      obtain ⟨h', rfl, hs⟩ := hkeeps.of_returns ⟨h₀, hb, hf.filed.sameStores⟩ hsync
      rw [hb]
      exact .of_sameStores hf hs
    have hstored : b.storedY = ys.rows := by
      rw [hgrown.storedY_eq, List.append_nil, hyrows, hrowsY, hb]
      rfl
    refine ⟨⟨hgrown.len_eq.symm, ?_, rfl, ?_, ?_⟩, hgrown.fit, hgrown.numDim_eq.symm,
      hgrown.numMetrics_eq.symm⟩
    · change columnSumsAndSumsq ys = rowSums m.backend.numMetrics b.storedY
      rw [columnSumsAndSumsq_eq, hstored, hcols]
    · intro hs
      exact absurd (hscale.symm.trans hs) (by simp)
    · intro hs
      exact absurd (hscale.symm.trans hs) (by simp)

/--
The directory does not hold as many rows as the constructor is given, and an empty one that is
reopened is as wide as the outputs.
-/
def Opens (options : ModelOptions D F) (x y : Array2 D) : Prop :=
  options.storage = .disk → ∀ dir, options.workDir = some dir →
    (x.nrows ≠ 0 → dir.storedRows ≠ x.nrows) ∧
      (x.nrows = 0 → dir.storedRows = 0 →
        ∀ md, dir.metadata = some md → md.numMetrics = y.ncols)

omit [Analysis D] in
theorem fit_diskNew {dir : WorkDir D F} {xScale : List D} {scaleX : Bool} {driver : IndexDriver}
    {b : BpannBackend D F} (hrows : x.nrows = y.nrows)
    (h : DiskBpannEnnBackend.new env dir x y yvar scaleX xScale driver = .ok b) : b.Fit := by
  refine ⟨DiskBpannEnnBackend.filed_new hrows h, ?_⟩
  obtain ⟨inner, rfl, ⟨-, hre⟩ | ⟨-, hnew⟩⟩ := DiskBpannEnnBackend.new_eq_ok h
  · unfold BpannBackend.reopen at hre
    split at hre
    · simp at hre
    · have hyvar := BpannBackend.trainYvar_new hre
      exact hyvar
  · have hyvar := BpannBackend.trainYvar_new hnew
    exact hyvar

omit [Analysis D] in
/-- The constructor of a disk model that reopens an empty directory knows its widths. -/
theorem sums_of_empty {dir : WorkDir D F} {xScale : List D} {b : BpannBackend D F}
    {warpedY : Array2 D} {warpedYvar : Option (Array2 D)} (hs : options.storage = .disk)
    (hdir : options.workDir = some dir) (hopens : Opens options x y)
    (hrows : x.nrows = warpedY.nrows) (hcols : warpedY.ncols = y.ncols)
    (hb : DiskBpannEnnBackend.new env dir x warpedY warpedYvar options.scaleX xScale
      options.driver = .ok b) (h0 : b.len = 0) :
    x.nrows = 0 ∧ b.numMetrics = warpedY.ncols := by
  obtain ⟨hne, hwidth⟩ := hopens hs dir hdir
  obtain ⟨inner, rfl, ⟨⟨hx, -, -⟩, hre⟩ | ⟨-, hnew⟩⟩ := DiskBpannEnnBackend.new_eq_ok hb
  · refine ⟨hx, ?_⟩
    unfold BpannBackend.reopen at hre
    split at hre
    · simp at hre
    next md hmd =>
      have hempty : (Array2.empty md.numDim : Array2 D).nrows =
        (Array2.empty md.numMetrics).nrows := rfl
      have hstored : dir.storedRows = 0 := by
        by_contra hne'
        exact hne' (((BpannBackend.rows_new hempty hre).2 hne').symm.trans h0)
      rw [hcols, ← hwidth hx hstored md hmd]
      exact (BpannBackend.widths_new hre).2
  · refine ⟨?_, (BpannBackend.widths_new hnew).2⟩
    obtain ⟨hzero, hmany⟩ := BpannBackend.rows_new hrows hnew
    by_cases hstored : dir.storedRows = 0
    · have hlen : inner.len = x.nrows := by
        change inner.trainX.nrows = x.rows.length
        rw [inner.trainX.nrows_eq_length_rows, (hzero hstored).1]
      exact hlen.symm.trans h0
    · exact absurd ((hmany hstored).symm.trans h0) hstored

theorem consistent_newWithOptions (hopens : Opens options x y)
    (h : newWithOptions env x y yvar options = .ok m) : m.Consistent := by
  obtain ⟨bounds, warpedY, warpedYvar, backend, m₁, hc, rfl⟩ := newWithOptions_eq_ok h
  apply Consistent.persistYBoundsMetadata
  obtain ⟨hwn, hwc⟩ := warp_shape hc.warp_eq
  have hrows : x.nrows = warpedY.nrows := (validateShapes_eq_ok hc.shapes).trans hwn.symm
  cases hs : options.storage with
  | inMemory =>
    have hv : ∀ v, warpedYvar = some v → v.ncols = warpedY.ncols := fun v hv =>
      (warp_yvar (ncols_of_validateShapes hc.shapes) hc.warp_eq v hv).trans hwc.symm
    have hm := consistent_inMemory bounds hs hrows hv hc.backend_eq
    rw [hc.unsynced ?_]
    · exact hm
    · rintro (hre | hne)
      · simp [diskReopen, hs] at hre
      · exact hne hm.stats.numObs_eq
  | disk =>
    obtain ⟨dir, b₀, hdir, hdriver, hb₀, rfl⟩ := openBackend_disk hs hc.backend_eq
    have hfit := fit_diskNew hrows hb₀
    have hscale : options.scaleX = false := by
      simpa [hdriver, isDiskIndexDriver] using hc.scale
    by_cases hsync : Resyncs options x warpedY
        (assemble (.disk (.new b₀)) options bounds x warpedY)
    · refine consistent_sync rfl hfit hscale (fun h0 => ?_) (hc.synced hsync)
      have h0 : b₀.len = 0 := h0
      obtain ⟨hx, hm⟩ := sums_of_empty hs hdir hopens hrows hwc hb₀ h0
      have hnil : warpedY.rows = [] := List.eq_nil_of_length_eq_zero (hrows.symm.trans hx)
      constructor
      · change columnSumsAndSumsq warpedY = rowSums b₀.numMetrics []
        rw [columnSumsAndSumsq_eq, hnil, hm]
      · change scaleFromMoments x.nrows warpedY.ncols _ _ 0 = List.replicate b₀.numMetrics 1
        rw [hx, hm]
        rfl
    · rw [hc.unsynced hsync]
      unfold Resyncs at hsync
      push Not at hsync
      have hlen : x.nrows = b₀.len := hsync.2
      obtain ⟨inner, rfl, ⟨hre, -⟩ | ⟨-, hnew⟩⟩ := DiskBpannEnnBackend.new_eq_ok hb₀
      · refine absurd ?_ hsync.1
        unfold diskReopen
        simp [hs, hre.1, hre.2.1, hdir, hre.2.2]
      · obtain ⟨hzero, hmany⟩ := BpannBackend.rows_new hrows hnew
        have hlen : x.nrows = inner.len := hlen
        have hstored : dir.storedRows = 0 := by
          by_contra hne
          have hn := hmany hne
          exact (hopens hs dir hdir).1 (by omega) (by omega)
        obtain ⟨hX, hY⟩ := hzero hstored
        obtain ⟨hdim, hmetrics⟩ := BpannBackend.widths_new hnew
        exact consistent_assemble _ hfit hX hY hdim hmetrics

omit [Floating F] [FloatCast D F] in
theorem consistent_emptyModel (backend : EnnBackend D F) {numDim numMetrics : ℕ}
    {workDir : Option (WorkDir D F)} (hfit : backend.Fit) (h0 : backend.len = 0)
    (hdim : backend.numDim = numDim) (hmetrics : backend.numMetrics = numMetrics) :
    (emptyModel backend numDim numMetrics workDir).Consistent := by
  have hnil : backend.storedY = [] :=
    List.eq_nil_of_length_eq_zero (hfit.length_storedY.trans h0)
  refine ⟨⟨h0.symm, ?_, rfl, ?_, ?_⟩, hfit, hdim.symm, hmetrics.symm⟩
  · change _ = rowSums numMetrics backend.storedY
    rw [hnil]
    rfl
  · rintro ⟨⟩
  · rintro ⟨⟩

/-- A model that is opened empty matches an empty directory. -/
theorem consistent_newEmpty {numDim numMetrics : ℕ} {driver : IndexDriver} {storage : EnnStorage}
    {workDir : Option (WorkDir D F)} {threshold : Option ℕ}
    (hstored : storage = .disk → ∀ dir, workDir = some dir → dir.storedRows = 0)
    (h : newEmpty env numDim numMetrics driver storage workDir threshold = .ok m) :
    m.Consistent := by
  cases storage with
  | inMemory =>
    simp only [newEmpty, EnnBackend.newEmpty, InMemoryEnnBackend.newEmpty, InMemoryEnnBackend.new,
      Outcome.bind_eq_ok, Outcome.pure_eq_ok, Outcome.map_eq_ok] at h
    obtain ⟨_, ⟨b, ⟨index, -, rfl⟩, rfl⟩, rfl⟩ := h
    refine consistent_emptyModel (.inMemory _) ⟨rfl, rfl, rfl, ?_⟩ rfl rfl rfl
    rintro rows ⟨⟩
  | disk =>
    obtain ⟨dir, inner, b, hdir, hnew, ⟨soft, hard, defer, rfl⟩, rfl⟩ := newEmpty_disk h
    have hempty : (Array2.empty numDim : Array2 D).nrows = (Array2.empty numMetrics).nrows := rfl
    have hfiled := BpannBackend.filed_new hempty hnew
    have hyvar := BpannBackend.trainYvar_new hnew
    obtain ⟨hdim, hmetrics⟩ := BpannBackend.widths_new hnew
    have hX := ((BpannBackend.rows_new hempty hnew).1 (hstored rfl dir hdir)).1
    have hlen : inner.len = 0 := by
      change inner.trainX.nrows = 0
      rw [inner.trainX.nrows_eq_length_rows, hX]
      rfl
    exact consistent_emptyModel (.disk _)
      ⟨{ hfiled with bare := hfiled.bare }, hyvar⟩ hlen hdim hmetrics

end Open

section Runs

/-- The states of a model whose constructor and adds meet the conditions. -/
inductive Run : EpistemicNearestNeighbors D F → Prop where
  | newWithOptions {m : EpistemicNearestNeighbors D F} (env : Env F) (x y : Array2 D)
      (yvar : Option (Array2 D)) (options : ModelOptions D F) : Opens options x y →
      EpistemicNearestNeighbors.newWithOptions env x y yvar options = .ok m → Run m
  | newEmpty {m : EpistemicNearestNeighbors D F} (env : Env F) (numDim numMetrics : ℕ)
      (driver : IndexDriver) (storage : EnnStorage) (workDir : Option (WorkDir D F))
      (threshold : Option ℕ) :
      (storage = .disk → ∀ dir, workDir = some dir → dir.storedRows = 0) →
      EpistemicNearestNeighbors.newEmpty env numDim numMetrics driver storage workDir threshold =
        .ok m → Run m
  | add {m : EpistemicNearestNeighbors D F} (env : Env F) (x y : Array2 D)
      (yvar : Option (Array2 D)) : Run m → AddBuilds env m x y yvar →
      Run (EpistemicNearestNeighbors.add env x y yvar m).2

theorem Run.consistent (h : Run m) : m.Consistent := by
  induction h with
  | newWithOptions env x y yvar options hopens h => exact consistent_newWithOptions hopens h
  | newEmpty env numDim numMetrics driver storage workDir threshold hstored h =>
    exact consistent_newEmpty hstored h
  | add env x y yvar _ hbuild ih => exact consistent_add ih hbuild

/--
In every run that opens only directories whose rows the constructor takes, and whose flushes build,
the statistics are those of the stored rows.
-/
theorem statsMatch_of_run (h : Run m) : m.StatsMatch := h.consistent.stats

theorem statsMatch_add_one_row :
    ∃ m : EpistemicNearestNeighbors ℚ ℚ,
      newWithOptions defaultEnv (.column [1]) (.column [2]) none (diskOptions {}) = .ok m ∧
        (add defaultEnv (.column [3]) (.column [5]) none m).2.StatsMatch ∧
        (add defaultEnv (.column [3]) (.column [5]) none m).2.ySum = [7] := by
  refine ⟨_, rfl, statsMatch_of_run (.add defaultEnv (.column [3]) (.column [5]) none
    (.newWithOptions defaultEnv (.column [1]) (.column [2]) none (diskOptions {}) ?_ rfl) ?_), ?_⟩
  · rintro - dir ⟨⟩
    exact ⟨fun _ => by decide, fun h => absurd h (by decide)⟩
  · intro storedY storedYvar _ trainX trainY trainYvar _ hdue
    exact absurd (show false = true from hdue) (by simp)
  · decide +kernel

/-- Two rows are left in a directory; a model that is opened there empty counts none. -/
theorem not_statsMatch_newEmpty :
    ∃ (m m' : EpistemicNearestNeighbors ℚ ℚ) (dir : WorkDir ℚ ℚ),
      newWithOptions defaultEnv (.column [1, 2]) (.column [3, 4]) none (diskOptions {}) = .ok m ∧
        m.drop defaultEnv = some dir ∧
        newEmpty defaultEnv 1 1 .bpAnnDisk .disk (some dir) none = .ok m' ∧
        m'.numObs = 0 ∧ m'.backend.len = 2 ∧ ¬ m'.StatsMatch := by
  refine ⟨_, _, _, rfl, rfl, rfl, rfl, rfl, ?_⟩
  intro h
  exact absurd h.numObs_eq (by decide)

end Runs

end EpistemicNearestNeighbors

end Ennbo
