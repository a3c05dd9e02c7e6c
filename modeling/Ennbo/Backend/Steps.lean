import Ennbo.Backend.Basic
import Ennbo.Index.Fragments

/-! # What the calls of a backend do

One lemma for each call: the states it can leave when it returns.
-/

namespace Ennbo.BpannBackend

variable {D F : Type} [Floating D] [Floating F] [FloatCast D F]
variable {env : Env F} {b b' : BpannBackend D F}

def withIndex (b : BpannBackend D F) (s : IndexState D F) : BpannBackend D F :=
  { b with index := s.index, dir := s.dir }

theorem returns_ensureIndexSync (h : (ensureIndexSync env).Returns b () b') :
    (b.len ≤ b.index.indexedRows ∧ b' = b.clearPending) ∨
      (b.index.indexedRows < b.len ∧ ∃ s,
        (IndexState.ensureSync env b.context b.len).Returns ⟨b.index, b.dir⟩ () s ∧
          b' = (b.withIndex s).clearPending) := by
  simp only [ensureIndexSync, Call.returns_bind, Call.returns_get] at h
  obtain ⟨_, _, ⟨rfl, rfl⟩, h⟩ := h
  split at h
  next hge => exact .inl ⟨hge, (Call.returns_modify.mp h).symm⟩
  next hlt =>
    simp only [onIndex, Call.returns_bind, Call.returns_on, Call.returns_modify] at h
    obtain ⟨_, _, ⟨s, hs, rfl⟩, rfl⟩ := h
    exact .inr ⟨by omega, s, hs, rfl⟩

/-- However it ends, a synchronisation only changes the index, the files and the counter. -/
theorem ensureIndexSync_state (env : Env F) (b : BpannBackend D F) :
    ∃ s pending, (ensureIndexSync env b).2 = { b.withIndex s with pendingUnindexed := pending } ∧
      ((b.len ≤ b.index.indexedRows ∧ s = ⟨b.index, b.dir⟩) ∨
        (b.index.indexedRows < b.len ∧
          s = (IndexState.ensureSync env b.context b.len ⟨b.index, b.dir⟩).2)) := by
  rw [ensureIndexSync, Call.get_bind_apply, Call.ite_apply]
  split
  next hle => exact ⟨⟨b.index, b.dir⟩, 0, rfl, .inl ⟨hle, rfl⟩⟩
  next hlt =>
    generalize hs : (IndexState.ensureSync env b.context b.len ⟨b.index, b.dir⟩).2 = s
    refine ⟨s, ?_⟩
    have key : ∃ pending, ((onIndex (IndexState.ensureSync env b.context b.len) >>=
        fun _ => Call.modify clearPending) b).2 =
          { b.withIndex s with pendingUnindexed := pending } := by
      refine Call.Keeps.after (P := fun b' : BpannBackend D F =>
        ∃ pending, b' = { b.withIndex s with pendingUnindexed := pending })
        ⟨b.pendingUnindexed, ?_⟩ ?_
      · rw [← hs]
        rfl
      · rintro - b' ⟨pending, rfl⟩
        exact ⟨0, rfl⟩
    obtain ⟨pending, hkey⟩ := key
    exact ⟨pending, hkey, .inr ⟨not_le.mp hlt, rfl⟩⟩

/-- The stores of a backend after an append. -/
structure Appended (b : BpannBackend D F) (x y : Array2 D) (yvar : Option (Array2 D))
    (trainX trainY : MmapColumnStore D) (trainYvar : Option (MmapColumnStore D)) : Prop where
  nrows_pos : 0 < x.nrows
  ncols_x : x.ncols = b.numDim
  ncols_y : y.ncols = b.numMetrics
  nrows_y : x.nrows = y.nrows
  limit : b.len + x.nrows < U32_MAX
  trainX_eq : b.trainX.mmapAppend x = .ok trainX
  trainY_eq : b.trainY.mmapAppend y = .ok trainY
  trainYvar_eq : bpannAppendYvarOnAdd b.dir b.numMetrics b.trainYvar yvar = .ok trainYvar

/-- The backend once the new rows are stored and counted. -/
def afterAppend (b : BpannBackend D F) (x : Array2 D) (trainX trainY : MmapColumnStore D)
    (trainYvar : Option (MmapColumnStore D)) : BpannBackend D F :=
  noteAppended { b with trainX := trainX, trainY := trainY, trainYvar := trainYvar } x

theorem returns_appendRows {x y : Array2 D} {yvar : Option (Array2 D)}
    (h : (appendRows env x y yvar).Returns b () b') :
    (x.nrows = 0 ∧ b' = b) ∨ ∃ trainX trainY trainYvar,
      Appended b x y yvar trainX trainY trainYvar ∧
        (b' = b.afterAppend x trainX trainY trainYvar ∨
          (ensureIndexSync env).Returns (b.afterAppend x trainX trainY trainYvar) () b') := by
  simp only [appendRows, Call.returns_bind, Call.returns_get] at h
  obtain ⟨_, _, ⟨rfl, rfl⟩, h⟩ := h
  split at h
  next h0 => exact .inl ⟨h0, (Call.returns_pure.mp h).2.symm⟩
  next h0 =>
    split at h
    · simp at h
    next hshape =>
      simp only [Call.returns_bind, Call.returns_ofOutcome, Call.returns_modify,
        Call.returns_get] at h
      obtain ⟨_, _, ⟨hlimit, rfl⟩, trainX, _, ⟨hx, rfl⟩, _, _, rfl, trainY, _, ⟨hy, rfl⟩, _, _,
        rfl, trainYvar, _, ⟨hv, rfl⟩, _, _, rfl, _, _, rfl, _, _, ⟨rfl, rfl⟩, h⟩ := h
      push Not at hshape
      refine .inr ⟨trainX, trainY, trainYvar,
        ⟨by omega, hshape.1, hshape.2.1, hshape.2.2, bpannCheckAppendRowLimit_eq_ok.mp hlimit,
          hx, hy, hv⟩, ?_⟩
      split at h
      · exact .inr h
      · exact .inl (Call.returns_pure.mp h).2.symm

theorem appendRows_of_appended (env : Env F) {x y : Array2 D} {yvar : Option (Array2 D)}
    {trainX trainY : MmapColumnStore D} {trainYvar : Option (MmapColumnStore D)}
    (h : Appended b x y yvar trainX trainY trainYvar) :
    appendRows env x y yvar b =
      if (b.afterAppend x trainX trainY trainYvar).flushDue then
        ensureIndexSync env (b.afterAppend x trainX trainY trainYvar)
      else (.ok (), b.afterAppend x trainX trainY trainYvar) := by
  have hlimit := bpannCheckAppendRowLimit_eq_ok.mpr h.limit
  have hshape : ¬ (x.ncols ≠ b.numDim ∨ y.ncols ≠ b.numMetrics ∨ x.nrows ≠ y.nrows) := by
    simp [h.ncols_x, h.ncols_y, h.nrows_y]
  rw [appendRows, Call.get_bind_apply, Call.ite_apply, if_neg h.nrows_pos.ne', Call.ite_apply,
    if_neg hshape, hlimit, Call.ok_bind_apply, h.trainX_eq, Call.ok_bind_apply,
    Call.modify_bind_apply, h.trainY_eq, Call.ok_bind_apply, Call.modify_bind_apply, h.trainYvar_eq,
    Call.ok_bind_apply, Call.modify_bind_apply, Call.modify_bind_apply, Call.get_bind_apply,
    Call.ite_apply]
  rfl

/-- The shapes and the number of rows that are checked before anything is stored. -/
structure Accepted (b : BpannBackend D F) (x y : Array2 D) : Prop where
  ncols_x : x.ncols = b.numDim
  ncols_y : y.ncols = b.numMetrics
  nrows_y : x.nrows = y.nrows
  limit : b.len + x.nrows < U32_MAX

/-- How an append ends, and the state it leaves. -/
inductive AppendEnds (env : Env F) (b : BpannBackend D F) (x y : Array2 D)
    (yvar : Option (Array2 D)) : Outcome Unit × BpannBackend D F → Prop where
  | noRows : x.nrows = 0 → AppendEnds env b x y yvar (.ok (), b)
  | refused {e : Failure} : 0 < x.nrows → ¬ b.Accepted x y →
      AppendEnds env b x y yvar (.error e, b)
  | badX {e : Failure} : 0 < x.nrows → b.Accepted x y → b.trainX.mmapAppend x = .error e →
      AppendEnds env b x y yvar (.error e, b)
  | badY {e : Failure} {trainX : MmapColumnStore D} : 0 < x.nrows → b.Accepted x y →
      b.trainX.mmapAppend x = .ok trainX → b.trainY.mmapAppend y = .error e →
      AppendEnds env b x y yvar (.error e, { b with trainX := trainX })
  | badYvar {e : Failure} {trainX trainY : MmapColumnStore D} : 0 < x.nrows → b.Accepted x y →
      b.trainX.mmapAppend x = .ok trainX → b.trainY.mmapAppend y = .ok trainY →
      bpannAppendYvarOnAdd b.dir b.numMetrics b.trainYvar yvar = .error e →
      AppendEnds env b x y yvar (.error e, { b with trainX := trainX, trainY := trainY })
  | stored {trainX trainY : MmapColumnStore D} {trainYvar : Option (MmapColumnStore D)} :
      Appended b x y yvar trainX trainY trainYvar →
      AppendEnds env b x y yvar
        (if (b.afterAppend x trainX trainY trainYvar).flushDue then
          ensureIndexSync env (b.afterAppend x trainX trainY trainYvar)
        else (.ok (), b.afterAppend x trainX trainY trainYvar))

theorem appendRows_ends (env : Env F) (b : BpannBackend D F) (x y : Array2 D)
    (yvar : Option (Array2 D)) : AppendEnds env b x y yvar (appendRows env x y yvar b) := by
  by_cases h0 : x.nrows = 0
  · rw [appendRows, Call.get_bind_apply, Call.ite_apply, if_pos h0]
    exact .noRows h0
  have hpos : 0 < x.nrows := Nat.pos_of_ne_zero h0
  by_cases hshape : x.ncols ≠ b.numDim ∨ y.ncols ≠ b.numMetrics ∨ x.nrows ≠ y.nrows
  · rw [appendRows, Call.get_bind_apply, Call.ite_apply, if_neg h0, Call.ite_apply,
      if_pos hshape]
    exact .refused hpos fun h => hshape.elim (absurd h.ncols_x)
      fun h' => h'.elim (absurd h.ncols_y) (absurd h.nrows_y)
  rw [appendRows, Call.get_bind_apply, Call.ite_apply, if_neg h0, Call.ite_apply, if_neg hshape]
  push Not at hshape
  cases hlimit : bpannCheckAppendRowLimit (b.len + x.nrows) with
  | error e =>
    rw [Call.error_bind_apply]
    refine .refused hpos fun h => ?_
    rw [bpannCheckAppendRowLimit_eq_ok.mpr h.limit] at hlimit
    cases hlimit
  | ok _ =>
    have hok : b.Accepted x y :=
      ⟨hshape.1, hshape.2.1, hshape.2.2, bpannCheckAppendRowLimit_eq_ok.mp hlimit⟩
    rw [Call.ok_bind_apply]
    cases hx : b.trainX.mmapAppend x with
    | error e =>
      rw [Call.error_bind_apply]
      exact .badX hpos hok hx
    | ok trainX =>
      rw [Call.ok_bind_apply, Call.modify_bind_apply]
      cases hy : b.trainY.mmapAppend y with
      | error e =>
        rw [Call.error_bind_apply]
        exact .badY hpos hok hx hy
      | ok trainY =>
        rw [Call.ok_bind_apply, Call.modify_bind_apply]
        cases hv : bpannAppendYvarOnAdd b.dir b.numMetrics b.trainYvar yvar with
        | error e =>
          rw [Call.error_bind_apply]
          exact .badYvar hpos hok hx hy hv
        | ok trainYvar =>
          rw [Call.ok_bind_apply, Call.modify_bind_apply, Call.modify_bind_apply,
            Call.get_bind_apply, Call.ite_apply]
          exact .stored ⟨hpos, hok.ncols_x, hok.ncols_y, hok.nrows_y, hok.limit, hx, hy, hv⟩

theorem appendRows_of_limit (env : Env F) {x y : Array2 D} (yvar : Option (Array2 D))
    (hpos : 0 < x.nrows)
    (hx : x.ncols = b.numDim) (hy : y.ncols = b.numMetrics) (hn : x.nrows = y.nrows)
    (hlimit : ¬ b.len + x.nrows < U32_MAX) :
    ∃ e, appendRows env x y yvar b = (.error e, b) := by
  have hshape : ¬ (x.ncols ≠ b.numDim ∨ y.ncols ≠ b.numMetrics ∨ x.nrows ≠ y.nrows) := by
    simp [hx, hy, hn]
  cases hcheck : bpannCheckAppendRowLimit (b.len + x.nrows) with
  | ok _ => exact absurd (bpannCheckAppendRowLimit_eq_ok.mp hcheck) hlimit
  | error e =>
    refine ⟨e, ?_⟩
    rw [appendRows, Call.get_bind_apply, Call.ite_apply, if_neg hpos.ne', Call.ite_apply,
      if_neg hshape, hcheck, Call.error_bind_apply]

theorem returns_softSyncBuild {o : Option (IncrementalIndex D F)}
    (h : (softSyncBuild env).Returns b o b') :
    (b.len ≤ b.index.indexedRows ∧ o = none ∧ b' = b) ∨
      (b.index.indexedRows < b.len ∧ ∃ s,
        (IndexState.ensureSync env b.context b.len).Returns ⟨b.index, b.dir⟩ () s ∧
          o = some s.index ∧ b' = { b with dir := s.dir }) := by
  simp only [softSyncBuild, Call.returns_bind, Call.returns_get] at h
  obtain ⟨_, _, ⟨rfl, rfl⟩, h⟩ := h
  split at h
  next hge =>
    obtain ⟨rfl, rfl⟩ := Call.returns_pure.mp h
    exact .inl ⟨hge, rfl, rfl⟩
  next hlt =>
    simp only [Call.returns_on, Call.returns_bind, Call.returns_get, Call.returns_pure] at h
    obtain ⟨_, ⟨_, s, hs, _, _, ⟨rfl, rfl⟩, rfl, rfl⟩, rfl⟩ := h
    exact .inr ⟨by omega, s, hs, rfl, rfl⟩

theorem openIndexed_eq_ok {dir : WorkDir D F} {trainX trainY : MmapColumnStore D}
    {trainYvar : Option (MmapColumnStore D)} {scaleX : Bool} {xScale : List D}
    (h : openIndexed env dir trainX trainY trainYvar scaleX xScale = .ok b) :
    ∃ s,
      ((openedRows dir trainX.nrows ≤
            persistedRows (openedIndices env dir (openedRows dir trainX.nrows)) ∧
          s = ⟨(opened env dir trainX trainY trainYvar scaleX xScale).index, dir⟩) ∨
        (persistedRows (openedIndices env dir (openedRows dir trainX.nrows)) <
            openedRows dir trainX.nrows ∧
          (IndexState.ensureSync env
            (opened env dir trainX trainY trainYvar scaleX xScale).context
            (openedRows dir trainX.nrows)).Returns
              ⟨(opened env dir trainX trainY trainYvar scaleX xScale).index, dir⟩ () s)) ∧
      b = finishOpen (openedRows dir trainX.nrows)
        ((opened env dir trainX trainY trainYvar scaleX xScale).withIndex s) := by
  rw [openIndexed] at h
  split at h
  next hlt =>
    simp only [onIndex, Outcome.bind_eq_ok, Outcome.pure_eq_ok, Call.exec_eq_ok,
      Call.returns_on] at h
    obtain ⟨_, ⟨s, hs, rfl⟩, rfl⟩ := h
    exact ⟨s, .inr ⟨hlt, hs⟩, rfl⟩
  next hge =>
    simp only [Outcome.bind_eq_ok, Outcome.pure_eq_ok] at h
    obtain ⟨_, rfl, rfl⟩ := h
    exact ⟨_, .inl ⟨not_lt.mp hge, rfl⟩, rfl⟩

/-- The stores that the constructor opens and, in an empty directory, fills. -/
structure OpenedStores (dir : WorkDir D F) (x y : Array2 D) (trainX trainY : MmapColumnStore D) :
    Prop where
  ncols_x : trainX.ncols = x.ncols
  ncols_y : trainY.ncols = y.ncols
  rows : ∃ storeX storeY : MmapColumnStore D,
    MmapColumnStore.mmapOpenOrCreate dir.trainX x.ncols dir.loadNumObs = .ok storeX ∧
    MmapColumnStore.mmapOpenOrCreate dir.trainY y.ncols dir.loadNumObs = .ok storeY ∧
    trainX.rows = storeX.rows ++ (if storeX.nrows = 0 ∧ 0 < x.nrows then x.rows else []) ∧
    trainY.rows = storeY.rows ++ (if storeX.nrows = 0 ∧ 0 < x.nrows then y.rows else [])

omit [Floating F] [FloatCast D F] in
theorem fillStore_eq_ok {s t : MmapColumnStore D} {a : Array2 D} {fill : Bool}
    (h : fillStore fill s a = .ok t) :
    t.ncols = s.ncols ∧ t.rows = s.rows ++ (if fill then a.rows else []) := by
  cases fill with
  | true => exact MmapColumnStore.rows_of_mmapAppend h
  | false =>
    obtain rfl := Outcome.pure_eq_ok.mp h
    exact ⟨rfl, (List.append_nil _).symm⟩

omit [Floating F] [FloatCast D F] in
theorem growFresh_spec (fresh : Bool) (s : MmapColumnStore D) :
    (growFresh fresh s).ncols = s.ncols ∧ (growFresh fresh s).rows = s.rows := by
  cases fresh with
  | true => exact ⟨s.ensureCapacity_ncols _, s.rows_ensureCapacity _⟩
  | false => exact ⟨rfl, rfl⟩

theorem new_eq_ok {dir : WorkDir D F} {x y : Array2 D} {yvar : Option (Array2 D)} {scaleX : Bool}
    {xScale : List D} (h : new env dir x y yvar scaleX xScale = .ok b) :
    ∃ trainX trainY trainYvar, OpenedStores dir.openNumObsCounter x y trainX trainY ∧
      bpannOpenOrAppendYvar dir.openNumObsCounter y.ncols yvar = .ok trainYvar ∧
      openIndexed env dir.openNumObsCounter trainX trainY trainYvar scaleX xScale = .ok b := by
  have hknown : dir.openNumObsCounter.loadNumObs ≠ none := by
    simp only [WorkDir.loadNumObs, WorkDir.openNumObsCounter]
    split <;> simp_all
  obtain ⟨n, hn⟩ := Option.ne_none_iff_exists'.mp hknown
  simp only [new, Outcome.bind_eq_ok, hn] at h
  obtain ⟨-, -, -, -, storeX, hX, storeY, hY, storeX', hX', storeY', hY', trainYvar, hV, h⟩ := h
  obtain ⟨hcX, hrX⟩ := fillStore_eq_ok hX'
  obtain ⟨hcY, hrY⟩ := fillStore_eq_ok hY'
  refine ⟨_, _, trainYvar, ⟨?_, ?_, storeX, storeY, hn ▸ hX, hn ▸ hY, ?_, ?_⟩, hV, h⟩
  · rw [(growFresh_spec _ _).1, hcX, (MmapColumnStore.mmapOpenOrCreate_eq_ok hX).1]
  · rw [(growFresh_spec _ _).1, hcY, (MmapColumnStore.mmapOpenOrCreate_eq_ok hY).1]
  · rw [(growFresh_spec _ _).2, hrX]
    simp
  · rw [(growFresh_spec _ _).2, hrY]
    simp

section Persist

variable [DecidableEq F]

theorem returns_persistIndexToDisk (h : (persistIndexToDisk env).Returns b () b') :
    (b.needsDiskRewrite = false ∧ b' = b.markPersisted) ∨
      (b.needsDiskRewrite = true ∧ ∃ s,
        (IndexState.persistToDisk env b.context).Returns ⟨b.index, b.dir⟩ () s ∧
          b' = (b.withIndex s).markPersisted) := by
  simp only [persistIndexToDisk, Call.returns_bind, Call.returns_get] at h
  obtain ⟨_, _, ⟨rfl, rfl⟩, h⟩ := h
  split at h
  next hn =>
    simp only [onIndex, Call.returns_bind, Call.returns_on, Call.returns_modify] at h
    obtain ⟨_, _, ⟨s, hs, rfl⟩, rfl⟩ := h
    exact .inr ⟨hn, s, hs, rfl⟩
  next hn => exact .inl ⟨by simpa using hn, (Call.returns_modify.mp h).symm⟩

end Persist

end Ennbo.BpannBackend
