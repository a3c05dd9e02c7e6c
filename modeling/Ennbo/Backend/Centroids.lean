import Ennbo.Backend.Coverage
import Mathlib.Algebra.BigOperators.Ring.List

/-! # Centroids of row-id leaves

A new leaf of row ids takes its centroid from a running sum over the appended
rows, or from the stored rows. The running sum is over some of the rows that are
not indexed yet, so it is the mean of the leaf when it counts all of them.
-/

namespace Ennbo

section Mean

variable {K : Type} [ExactArith K]

/-- The sums of the first `n` columns. -/
def columnSum (n : ℕ) (rows : List (List K)) : List K :=
  (List.range n).map fun j => (rows.map fun row => row.getD j 0).sum

def columnMean (n : ℕ) (rows : List (List K)) : List K :=
  (columnSum n rows).map fun v => v / (rows.length : K)

@[simp] theorem length_columnSum (n : ℕ) (rows : List (List K)) :
    (columnSum n rows).length = n := by
  simp [columnSum]

theorem columnSum_nil (n : ℕ) : columnSum n ([] : List (List K)) = List.replicate n 0 := by
  simp [columnSum]

theorem getD_columnSum {n j : ℕ} (hj : j < n) (rows : List (List K)) :
    (columnSum n rows).getD j 0 = (rows.map fun row => row.getD j 0).sum := by
  simp [columnSum, hj]

theorem getElem_addInto {acc v : List K} {j : ℕ} (hj : j < (addInto acc v).length) :
    (addInto acc v)[j] = acc.getD j 0 + v.getD j 0 := by
  induction acc generalizing v j with
  | nil => simp [addInto] at hj
  | cons a acc ih =>
    cases v with
    | nil =>
      rw [List.getD_nil, add_zero, ← List.getD_eq_getElem _ 0]
      rfl
    | cons x v =>
      cases j with
      | zero => simp [addInto]
      | succ j => simpa [addInto] using ih (by simpa [addInto] using hj)

theorem addInto_columnSum {n : ℕ} {v : List K} (xs : List (List K)) {ys : List (List K)}
    (h : ∀ j < n, v.getD j 0 = (ys.map fun row => row.getD j 0).sum) :
    addInto (columnSum n xs) v = columnSum n (xs ++ ys) := by
  apply List.ext_getElem
  · simp
  · intro j hj _
    have hlt : j < n := by simpa using hj
    rw [getElem_addInto, getD_columnSum hlt, h j hlt]
    simp [columnSum]

theorem foldl_addInto_columnSum (n : ℕ) (xs ys : List (List K)) :
    ys.foldl addInto (columnSum n xs) = columnSum n (xs ++ ys) := by
  induction ys generalizing xs with
  | nil => simp
  | cons y ys ih =>
    have hy : addInto (columnSum n xs) y = columnSum n (xs ++ [y]) :=
      addInto_columnSum xs (by simp)
    rw [List.foldl_cons, hy, ih, List.append_assoc, List.singleton_append]

theorem foldl_addInto (n : ℕ) (rows : List (List K)) :
    rows.foldl addInto (List.replicate n 0) = columnSum n rows := by
  rw [← columnSum_nil, foldl_addInto_columnSum, List.nil_append]

theorem getD_scaledRow (row : List K) (scaleX : Bool) (xScale : List K) (j : ℕ) :
    (scaledRow row scaleX xScale).getD j 0 =
      if scaleX then row.getD j 0 / xScale.getD j 0 else row.getD j 0 := by
  cases scaleX with
  | false => rfl
  | true =>
    simp only [scaledRow, if_true, List.getD_eq_getElem?_getD, List.getElem?_zipWith]
    cases row[j]? <;> cases xScale[j]? <;> simp

theorem getD_scaledRow_columnSum {n j : ℕ} (hj : j < n) (rows : List (List K)) (scaleX : Bool)
    (xScale : List K) :
    (scaledRow (columnSum n rows) scaleX xScale).getD j 0 =
      ((rows.map fun row => scaledRow row scaleX xScale).map fun row => row.getD j 0).sum := by
  simp only [List.map_map, Function.comp_def, getD_scaledRow, getD_columnSum hj]
  cases scaleX with
  | false => rfl
  | true =>
    simp only [if_true, div_eq_mul_inv]
    exact (List.sum_map_mul_right ..).symm

end Mean

namespace IncrementalIndex

variable {D F : Type} [Floating D] [Floating F] [FloatCast D F]

section Accumulates

variable {K : Type} [ExactArith K] {numDim start stop : ℕ} {s : IncrementalIndex K K}

/-- The accumulator holds the sum of these vectors; it is empty before the first of them. -/
structure Accumulates (numDim : ℕ) (s : IncrementalIndex K K) (vectors : List (List K)) :
    Prop where
  count : s.pendingRowCount = vectors.length
  sum : s.pendingCentroidSum = columnSum numDim vectors ∨
    s.pendingCentroidSum = [] ∧ vectors = []

/-- Nothing is counted, whether or not the rows up to `stop` have been indexed. -/
structure Drained (numDim start stop : ℕ) (s : IncrementalIndex K K) : Prop where
  accumulates : Accumulates numDim s []
  rows : s.indexedRows = start ∨ s.indexedRows = stop

/-- The pending centroid is the mean of what was accumulated, and nothing stays counted. -/
theorem takePendingCentroid_eq {vectors : List (List K)} (h : Accumulates numDim s vectors) :
    ∃ s₁, takePendingCentroid numDim s =
        (.ok (if vectors = [] then none else some (columnMean numDim vectors)), s₁) ∧
      Accumulates numDim s₁ [] ∧ SameFragments s s₁ := by
  rw [takePendingCentroid, Call.get_bind_apply, Call.ite_apply]
  by_cases hnil : vectors = []
  · subst hnil
    have hcount : s.pendingRowCount = 0 := h.count
    rw [if_pos hcount]
    exact ⟨s, rfl, h, rfl, rfl⟩
  · have hcount : s.pendingRowCount ≠ 0 := by
      rw [h.count]
      exact (List.length_pos_iff.mpr hnil).ne'
    obtain hsum | ⟨-, hempty⟩ := h.sum
    · have hlen : s.pendingCentroidSum.length = numDim := by rw [hsum, length_columnSum]
      rw [if_neg hcount, Call.ite_apply, if_neg (not_not.mpr hlen), Call.modify_bind_apply,
        if_neg hnil]
      refine ⟨{ s with
        pendingCentroidSum := List.replicate s.pendingCentroidSum.length 0
        pendingRowCount := 0 }, ?_, ⟨rfl, .inl ?_⟩, rfl, rfl⟩
      · rw [hsum, h.count]
        rfl
      · rw [hlen, columnSum_nil]
    · exact absurd hempty hnil

omit [Floating D] [FloatCast D F] in
/-- What only depends on the accumulator and the number of indexed rows, compaction keeps. -/
theorem keeps_maybeCompact {P : IncrementalIndex D F → Prop} (t : Tuning)
    (hP : ∀ s indices, P s → P { s with indices := indices }) :
    Call.Keeps P (maybeCompact t : Call (IncrementalIndex D F) Unit) := by
  have hmerge : ∀ mergeN, Call.Keeps P (amalgamateSmallestRun t mergeN) := by
    intro mergeN s hs
    refine Call.Keeps.get_bind (Call.Keeps.ite (Call.keeps_pure _) ?_) hs
    apply Call.Keeps.bind (Call.keeps_modify fun s hs => hP s _ hs)
    refine fun _ => (Call.keeps_ofOutcome _).bind fun _ => Call.keeps_modify fun s hs => hP s _ hs
  have hloop : ∀ maxFragments n, Call.Keeps P (compactLoop t maxFragments n) := by
    intro maxFragments n
    induction n with
    | zero => exact Call.keeps_pure _
    | succ n ih =>
      intro s hs
      exact Call.Keeps.get_bind
        (Call.Keeps.ite ((hmerge _).bind fun _ => ih) (Call.keeps_pure _)) hs
  have hcompact : Call.Keeps P (compact t) := by
    intro s hs
    exact Call.Keeps.get_bind
      (Call.Keeps.ite (Call.keeps_modify fun s hs => hP s _ hs) (hloop _ _)) hs
  intro s hs
  exact Call.Keeps.get_bind (Call.Keeps.ite hcompact (Call.keeps_pure _)) hs

theorem keeps_drained_maybeCompact (numDim start stop : ℕ) (t : Tuning) :
    Call.Keeps (Drained numDim start stop) (maybeCompact t : Call (IncrementalIndex K K) Unit) :=
  keeps_maybeCompact t fun _ _ h => ⟨⟨h.accumulates.count, h.accumulates.sum⟩, h.rows⟩

theorem keeps_push (idx : BpannIndex K) :
    Call.Keeps (Drained numDim start stop)
      (Call.modify (push idx stop) : Call (IncrementalIndex K K) Unit) :=
  Call.keeps_modify fun _ h => ⟨⟨h.accumulates.count, h.accumulates.sum⟩, .inr rfl⟩

/-- Building over a span leaves nothing counted, however it ends. -/
theorem drained_indexSpan {env : Env K} {ctx : IndexBuildContext K} {vectors : List (List K)}
    (h : Accumulates ctx.numDim s vectors) (hlt : s.indexedRows < stop) :
    Drained ctx.numDim s.indexedRows stop (indexSpan env ctx stop s).2 := by
  obtain ⟨s₁, htake, hacc, hsame⟩ := takePendingCentroid_eq h
  have hdrained : Drained ctx.numDim s.indexedRows stop s₁ := ⟨hacc, .inl hsame.2⟩
  have hbuilt : ∀ o : Outcome (BpannIndex K), Call.Keeps (Drained ctx.numDim s.indexedRows stop)
      (Call.ofOutcome o >>= fun index => Call.modify (push index stop)) := fun o =>
    (Call.keeps_ofOutcome o).bind keeps_push
  have hcompact := keeps_drained_maybeCompact (K := K) ctx.numDim s.indexedRows stop env.tuning
  rw [indexSpan, Call.get_bind_apply, Call.ite_apply, Call.ite_apply]
  split
  · rw [Call.bind_apply_of_ok _ htake]
    refine Call.Keeps.bind ?_ (fun _ => hcompact) s₁ hdrained
    exact Call.Keeps.ite (Call.keeps_pure _) (hbuilt _)
  · split
    · rw [Call.bind_apply_of_ok _ htake]
      refine Call.Keeps.bind ?_ (fun _ => hcompact) s₁ hdrained
      exact Call.Keeps.ite (Call.keeps_pure _) (hbuilt _)
    · refine Call.Keeps.after ?_ fun _ => hcompact
      rw [buildBatch, if_neg (by omega), Call.bind_apply_of_ok _ htake]
      exact hbuilt _ s₁ hdrained

/-- Noted rows are added under the scale in force. -/
theorem Accumulates.notePendingRows {vectors : List (List K)} {x : Array2 K} (scaleX : Bool)
    (xScale : List K) (hx : x.ncols = numDim) (h : Accumulates numDim s vectors) :
    Accumulates numDim (s.notePendingRows x scaleX xScale)
      (vectors ++ x.rows.map fun row => scaledRow row scaleX xScale) := by
  subst hx
  rw [IncrementalIndex.notePendingRows]
  split
  next h0 => rwa [List.eq_nil_of_length_eq_zero h0, List.map_nil, List.append_nil]
  next h0 =>
    have hstart : (if s.pendingCentroidSum.length ≠ x.ncols then List.replicate x.ncols 0
        else s.pendingCentroidSum) = columnSum x.ncols vectors := by
      obtain hsum | ⟨hsum, rfl⟩ := h.sum
      · simp [hsum]
      · rw [columnSum_nil, hsum]
        split
        · rfl
        next hlen =>
          have hzero : 0 = x.ncols := not_not.mp hlen
          rw [← hzero, List.replicate_zero]
    constructor
    · simp [h.count, Array2.nrows]
    · left
      dsimp only
      rw [hstart, foldl_addInto]
      exact addInto_columnSum vectors fun j hj => getD_scaledRow_columnSum hj x.rows scaleX xScale

end Accumulates

end IncrementalIndex

namespace BpannBackend

variable {K : Type} [ExactArith K] {b b' : BpannBackend K K} {counted : List ℕ}

/-- Row `i` under the scale in force. -/
def scaledRowAt (b : BpannBackend K K) (i : ℕ) : List K :=
  scaledRow (b.trainX.rows.getD i []) b.scaleX b.xScale

def unindexed (b : BpannBackend K K) : List ℕ :=
  List.range' b.index.indexedRows (b.len - b.index.indexedRows)

/-- The accumulator holds the sum of the counted rows, none of which is indexed. -/
structure Counts (b : BpannBackend K K) (counted : List ℕ) : Prop where
  indexed_le : b.index.indexedRows ≤ b.len
  ncols_eq : b.trainX.ncols = b.numDim
  sublist : counted.Sublist b.unindexed
  accumulates : b.index.Accumulates b.numDim (counted.map b.scaledRowAt)

section Invariant

open IncrementalIndex

theorem counts_of_drained (start stop : ℕ) (hcols : b.trainX.ncols = b.numDim)
    (h : Drained b.numDim start stop b.index) (hstart : start ≤ b.len) (hstop : stop ≤ b.len) :
    b.Counts [] where
  indexed_le := by
    obtain hrows | hrows := h.rows <;> omega
  ncols_eq := hcols
  sublist := List.nil_sublist _
  accumulates := h.accumulates

theorem Counts.lt_len (h : b.Counts counted) {i : ℕ} (hi : i ∈ counted) : i < b.len := by
  have hmem := List.mem_range'_1.mp (h.sublist.subset hi)
  have := h.indexed_le
  omega

/-- More stored rows change neither the counted rows nor their sum. -/
theorem Counts.congr (h : b.Counts counted) {more : List (List K)}
    (hrows : b'.trainX.rows = b.trainX.rows ++ more) (hcols : b'.trainX.ncols = b.trainX.ncols)
    (hindex : b'.index = b.index) (hdim : b'.numDim = b.numDim) (hscale : b'.scaleX = b.scaleX)
    (hx : b'.xScale = b.xScale) : b'.Counts counted := by
  have hlen : b'.len = b.len + more.length := MmapColumnStore.nrows_of_rows hrows
  constructor
  · rw [hindex, hlen]
    exact h.indexed_le.trans (Nat.le_add_right _ _)
  · rw [hcols, hdim, h.ncols_eq]
  · apply h.sublist.trans
    rw [unindexed, unindexed, hindex, hlen]
    apply List.range'_sublist_right.mpr
    omega
  · have hsame : counted.map b'.scaledRowAt = counted.map b.scaledRowAt := by
      apply List.map_congr_left
      intro i hi
      have hlt : i < b.trainX.rows.length := by
        rw [b.trainX.length_rows]
        exact h.lt_len hi
      rw [scaledRowAt, scaledRowAt, hrows, hscale, hx, List.getD_append _ _ _ _ hlt]
    rw [hindex, hdim, hsame]
    exact h.accumulates

theorem drained_ensureSync {numDim : ℕ} (env : Env K) {ctx : IndexBuildContext K} {stop : ℕ}
    {s : IndexState K K} {vectors : List (List K)} (hdim : ctx.numDim = numDim)
    (h : s.index.Accumulates numDim vectors) (hlt : s.index.indexedRows < stop) :
    Drained numDim s.index.indexedRows stop (IndexState.ensureSync env ctx stop s).2.index := by
  subst hdim
  rw [IndexState.ensureSync, Call.get_bind_apply, Call.ite_apply, if_neg (by omega)]
  exact Call.Keeps.after (P := fun s' : IndexState K K => Drained _ _ _ s'.index)
    (drained_indexSpan h hlt) fun _ => Call.keeps_modify fun _ h => h

theorem Counts.ensureIndexSync (h : b.Counts counted) (env : Env K) :
    ∃ counted', (ensureIndexSync env b).2.Counts counted' := by
  obtain ⟨s, pending, heq, ⟨-, rfl⟩ | ⟨hlt, hs⟩⟩ := ensureIndexSync_state env b
  · rw [heq]
    exact ⟨counted, h.congr (List.append_nil _).symm rfl rfl rfl rfl rfl⟩
  · rw [heq]
    refine ⟨[], counts_of_drained b.index.indexedRows b.len h.ncols_eq ?_ h.indexed_le le_rfl⟩
    change Drained b.numDim b.index.indexedRows b.len s.index
    rw [hs]
    exact drained_ensureSync env (s := ⟨b.index, b.dir⟩) rfl h.accumulates hlt

theorem counts_resetIndex (hcols : b.trainX.ncols = b.numDim) : b.resetIndex.Counts [] where
  indexed_le := Nat.zero_le _
  ncols_eq := hcols
  sublist := List.nil_sublist _
  accumulates := ⟨rfl, .inr ⟨rfl, rfl⟩⟩

theorem Counts.setScale (h : b.Counts counted) (scaleX : Bool) (xScale : List K) :
    ∃ counted', (b.setScale scaleX xScale).Counts counted' := by
  rw [BpannBackend.setScale]
  split
  · exact ⟨[], counts_resetIndex h.ncols_eq⟩
  · exact ⟨counted, h⟩

/-- Appended rows are counted behind the others. -/
theorem Counts.afterAppend (h : b.Counts counted) {x y : Array2 K} {yvar : Option (Array2 K)}
    {trainX trainY : MmapColumnStore K} {trainYvar : Option (MmapColumnStore K)}
    (ha : Appended b x y yvar trainX trainY trainYvar) :
    (b.afterAppend x trainX trainY trainYvar).Counts
      (counted ++ List.range' b.len x.nrows) := by
  obtain ⟨hcols, hrows⟩ := MmapColumnStore.rows_of_mmapAppend ha.trainX_eq
  have hlen : trainX.nrows = b.len + x.nrows := MmapColumnStore.nrows_of_rows hrows
  have hstored : ({ b with trainX := trainX } : BpannBackend K K).Counts counted :=
    h.congr hrows hcols rfl rfl rfl rfl
  have hnote := b.index.sameFragments_notePendingRows x b.scaleX b.xScale
  have hindexed : (b.afterAppend x trainX trainY trainYvar).index.indexedRows =
      b.index.indexedRows := hnote.2
  have hle := h.indexed_le
  have hsplit : (b.afterAppend x trainX trainY trainYvar).unindexed =
      b.unindexed ++ List.range' b.len x.nrows := by
    have hlen' : (b.afterAppend x trainX trainY trainYvar).len = b.len + x.nrows := hlen
    have hstart : b.len = b.index.indexedRows + (b.len - b.index.indexedRows) := by omega
    have hspan : b.len + x.nrows - b.index.indexedRows =
        b.len - b.index.indexedRows + x.nrows := by omega
    rw [unindexed, unindexed, hindexed, hlen', hspan, ← List.range'_append_1, ← hstart]
  constructor
  · rw [hindexed]
    exact hle.trans (Nat.le.intro hlen.symm)
  · exact hcols.trans h.ncols_eq
  · rw [hsplit]
    exact h.sublist.append_right _
  · have hnew : (List.range' b.len x.nrows).map
        (b.afterAppend x trainX trainY trainYvar).scaledRowAt =
          x.rows.map fun row => scaledRow row b.scaleX b.xScale := by
      apply List.ext_getElem
      · simp [Array2.nrows]
      · intro i hi _
        have hi : i < x.rows.length := by simpa [Array2.nrows] using hi
        have hget : trainX.rows.getD (b.len + 1 * i) [] = x.rows[i] := by
          have hge : b.trainX.rows.length ≤ b.len + 1 * i := by
            rw [b.trainX.length_rows]
            exact Nat.le_add_right _ _
          rw [hrows, List.getD_append_right _ _ _ _ hge, b.trainX.length_rows, one_mul]
          simp [len, hi]
        rw [List.getElem_map, List.getElem_map, List.getElem_range']
        exact congrArg (fun row => scaledRow row b.scaleX b.xScale) hget
    rw [List.map_append, hnew]
    exact hstored.accumulates.notePendingRows b.scaleX b.xScale ha.ncols_x

theorem Counts.appendRows (h : b.Counts counted) (env : Env K) (x y : Array2 K)
    (yvar : Option (Array2 K)) : ∃ counted', (appendRows env x y yvar b).2.Counts counted' := by
  have hends := appendRows_ends env b x y yvar
  generalize BpannBackend.appendRows env x y yvar b = r at hends
  cases hends with
  | noRows => exact ⟨counted, h⟩
  | refused => exact ⟨counted, h⟩
  | badX => exact ⟨counted, h⟩
  | badY _ _ hx =>
    obtain ⟨hcols, hrows⟩ := MmapColumnStore.rows_of_mmapAppend hx
    exact ⟨counted, h.congr hrows hcols rfl rfl rfl rfl⟩
  | badYvar _ _ hx =>
    obtain ⟨hcols, hrows⟩ := MmapColumnStore.rows_of_mmapAppend hx
    exact ⟨counted, h.congr hrows hcols rfl rfl rfl rfl⟩
  | stored ha =>
    split
    · exact (h.afterAppend ha).ensureIndexSync env
    · exact ⟨_, h.afterAppend ha⟩

end Invariant

section Runs

/--
The states of a backend over any directory, also when calls fail. The states in which a call has
stored its rows or taken over its scale, and then brings the index up to date, are among them.
-/
inductive CountedRun : BpannBackend K K → Prop where
  | new {b : BpannBackend K K} (env : Env K) (dir : WorkDir K K) (x y : Array2 K)
      (yvar : Option (Array2 K)) (scaleX : Bool) (xScale : List K) :
      BpannBackend.new env dir x y yvar scaleX xScale = .ok b → CountedRun b
  | reopen {b b' : BpannBackend K K} (env : Env K) : CountedRun b →
      BpannBackend.reopen env b.workDir = .ok b' → CountedRun b'
  | stored {b : BpannBackend K K} {x y : Array2 K} {yvar : Option (Array2 K)}
      {trainX trainY : MmapColumnStore K} {trainYvar : Option (MmapColumnStore K)} : CountedRun b →
      Appended b x y yvar trainX trainY trainYvar →
      CountedRun (b.afterAppend x trainX trainY trainYvar)
  | appendRows {b : BpannBackend K K} (env : Env K) (x y : Array2 K) (yvar : Option (Array2 K)) :
      CountedRun b → CountedRun (BpannBackend.appendRows env x y yvar b).2
  | ensureIndexSync {b : BpannBackend K K} (env : Env K) :
      CountedRun b → CountedRun (BpannBackend.ensureIndexSync env b).2
  | markIndexStale {b : BpannBackend K K} : CountedRun b → CountedRun b.markIndexStale
  | setScale {b : BpannBackend K K} (scaleX : Bool) (xScale : List K) :
      CountedRun b → CountedRun (b.setScale scaleX xScale)
  | ensureIndexSyncWithScale {b : BpannBackend K K} (env : Env K) (scaleX : Bool)
      (xScale : List K) :
      CountedRun b → CountedRun (BpannBackend.ensureIndexSyncWithScale env scaleX xScale b).2

theorem counts_opened (env : Env K) (dir : WorkDir K K) (trainX trainY : MmapColumnStore K)
    (trainYvar : Option (MmapColumnStore K)) (scaleX : Bool) (xScale : List K) :
    (opened env dir trainX trainY trainYvar scaleX xScale).Counts [] where
  indexed_le := (min_le_right _ _).trans (min_le_right _ _)
  ncols_eq := rfl
  sublist := List.nil_sublist _
  accumulates := ⟨rfl, .inr ⟨rfl, rfl⟩⟩

theorem counts_openIndexed {env : Env K} {dir : WorkDir K K} {trainX trainY : MmapColumnStore K}
    {trainYvar : Option (MmapColumnStore K)} {scaleX : Bool} {xScale : List K}
    (h : openIndexed env dir trainX trainY trainYvar scaleX xScale = .ok b) : b.Counts [] := by
  have hopened := counts_opened env dir trainX trainY trainYvar scaleX xScale
  obtain ⟨s, hs, rfl⟩ := openIndexed_eq_ok h
  have hacc : s.index.Accumulates trainX.ncols [] := by
    obtain ⟨-, rfl⟩ | ⟨hlt, hsync⟩ := hs
    · exact hopened.accumulates
    · generalize hctx : (opened env dir trainX trainY trainYvar scaleX xScale).context = ctx
        at hsync
      have hdim : ctx.numDim = trainX.ncols := hctx ▸ rfl
      have hdrained := drained_ensureSync env
        (s := ⟨(opened env dir trainX trainY trainYvar scaleX xScale).index, dir⟩) hdim
        hopened.accumulates ((min_le_left _ _).trans_lt hlt)
      rw [show IndexState.ensureSync env _ _ _ = _ from hsync] at hdrained
      exact hdrained.accumulates
  exact
    { indexed_le := min_le_right _ _
      ncols_eq := rfl
      sublist := List.nil_sublist _
      accumulates := ⟨hacc.count, hacc.sum⟩ }

theorem counts_new {env : Env K} {dir : WorkDir K K} {x y : Array2 K} {yvar : Option (Array2 K)}
    {scaleX : Bool} {xScale : List K} (h : new env dir x y yvar scaleX xScale = .ok b) :
    b.Counts [] := by
  obtain ⟨_, _, _, -, -, hopen⟩ := new_eq_ok h
  exact counts_openIndexed hopen

/-- In every state the accumulator holds the sum of some rows that are not indexed. -/
theorem CountedRun.counts (h : CountedRun b) : ∃ counted, b.Counts counted := by
  induction h with
  | new env dir x y yvar scaleX xScale h => exact ⟨[], counts_new h⟩
  | @reopen b b' env _ h _ =>
    rw [BpannBackend.reopen] at h
    split at h
    · cases h
    · exact ⟨[], counts_new h⟩
  | stored _ ha ih =>
    obtain ⟨counted, hcounts⟩ := ih
    exact ⟨_, hcounts.afterAppend ha⟩
  | appendRows env x y yvar _ ih =>
    obtain ⟨counted, hcounts⟩ := ih
    exact hcounts.appendRows env x y yvar
  | ensureIndexSync env _ ih =>
    obtain ⟨counted, hcounts⟩ := ih
    exact hcounts.ensureIndexSync env
  | markIndexStale _ ih =>
    obtain ⟨counted, hcounts⟩ := ih
    exact ⟨[], counts_resetIndex hcounts.ncols_eq⟩
  | setScale scaleX xScale _ ih =>
    obtain ⟨counted, hcounts⟩ := ih
    exact hcounts.setScale scaleX xScale
  | ensureIndexSyncWithScale env scaleX xScale _ ih =>
    obtain ⟨counted, hcounts⟩ := ih
    obtain ⟨counted', hcounts'⟩ := hcounts.setScale scaleX xScale
    exact hcounts'.ensureIndexSync env

end Runs

section Leaf

/-- A backend in a run is about to index its rows up to `stop`. -/
inductive Builds : BpannBackend K K → ℕ → Prop where
  | sync {b : BpannBackend K K} : CountedRun b → Builds b b.len
  | opened (env : Env K) (dir : WorkDir K K) (trainX trainY : MmapColumnStore K)
      (trainYvar : Option (MmapColumnStore K)) (scaleX : Bool) (xScale : List K) :
      Builds (opened env dir trainX trainY trainYvar scaleX xScale) (openedRows dir trainX.nrows)

/-- The row-id leaf over the rows up to `stop` stores their mean. -/
def LeafIsMean (env : Env K) (b : BpannBackend K K) (stop : ℕ) : Prop :=
  ∃ s, (IncrementalIndex.buildBatch env b.context b.index.indexedRows stop).Returns b.index () s ∧
    s.indices = b.index.indices ++ [BpannIndex.buildRowIdsLeaf (spanIds b.index.indexedRows stop)
      (columnMean b.numDim
        ((List.range' b.index.indexedRows (stop - b.index.indexedRows)).map b.scaledRowAt))
      b.numDim]

theorem Builds.counts {stop : ℕ} (h : Builds b stop) :
    ∃ counted, b.Counts counted ∧ stop ≤ b.len ∧ (counted = [] ∨ stop = b.len) := by
  cases h with
  | sync h =>
    obtain ⟨counted, hcounts⟩ := h.counts
    exact ⟨counted, hcounts, le_rfl, .inr rfl⟩
  | opened env dir trainX trainY trainYvar scaleX xScale =>
    exact ⟨[], counts_opened env dir trainX trainY trainYvar scaleX xScale, min_le_right _ _,
      .inl rfl⟩

/-- The centroid that is computed from the stored rows. -/
theorem centroidFromMmapRows_eq {start stop : ℕ} (hlt : start < stop) (hstop : stop ≤ b.len) :
    centroidFromMmapRows b.context start stop =
      (.ok (columnMean b.numDim ((List.range' start (stop - start)).map b.scaledRowAt)) :
        Outcome (List K)) := by
  have hfold : ∀ (rows : List ℕ) (acc : List K), (∀ i ∈ rows, i < b.len) →
      rows.foldlM (fun acc i => do
        return addInto acc (scaledRow (← b.trainX.mmapRowSlice i) b.scaleX b.xScale)) acc =
          (.ok ((rows.map b.scaledRowAt).foldl addInto acc) : Outcome (List K)) := by
    intro rows
    induction rows with
    | nil => exact fun _ _ => rfl
    | cons i rows ih =>
      intro acc hrows
      rw [List.forall_mem_cons] at hrows
      rw [List.foldlM_cons, MmapColumnStore.mmapRowSlice_eq hrows.1]
      exact ih _ hrows.2
  rw [centroidFromMmapRows, if_neg (by omega)]
  have hrows : ∀ i ∈ List.range' start (stop - start), i < b.len := by
    intro i hi
    have := List.mem_range'_1.mp hi
    omega
  simp only [context, hfold _ _ hrows, foldl_addInto]
  simp [columnMean, Except.bind, Bind.bind]

theorem returns_buildBatch_leaf {env : Env K} {ctx : IndexBuildContext K} {start stop : ℕ}
    {s s₁ : IncrementalIndex K K} {o : Option (List K)} {centroid : List K} (hlt : start < stop)
    (hlimit : stop - start ≤ env.tuning.1.structuredBuildRowLimit)
    (htake : (IncrementalIndex.takePendingCentroid ctx.numDim).Returns s o s₁)
    (ho : o = some centroid ∨ o = none ∧ centroidFromMmapRows ctx start stop = .ok centroid) :
    (IncrementalIndex.buildBatch env ctx start stop).Returns s ()
      (IncrementalIndex.push
        (BpannIndex.buildRowIdsLeaf (spanIds start stop) centroid ctx.numDim) stop s₁) := by
  rw [IncrementalIndex.buildBatch, if_neg (by omega), Call.returns_bind]
  refine ⟨o, s₁, htake, ?_⟩
  rw [Call.returns_bind]
  refine ⟨_, s₁, Call.returns_ofOutcome.mpr ⟨?_, rfl⟩, Call.returns_modify.mpr rfl⟩
  rw [if_pos hlimit]
  obtain rfl | ⟨rfl, hrows⟩ := ho
  · rfl
  · rw [hrows]
    rfl

/-- The leaf stores the mean of its rows when the accumulator counts none or all of them. -/
theorem leafIsMean_of_builds (env : Env K) {stop : ℕ} (h : Builds b stop)
    (hlt : b.index.indexedRows < stop)
    (hlimit : stop - b.index.indexedRows ≤ env.tuning.1.structuredBuildRowLimit)
    (hcount : b.index.pendingRowCount = 0 ∨
      b.index.pendingRowCount = stop - b.index.indexedRows) : LeafIsMean env b stop := by
  obtain ⟨counted, hcounts, hstop, hall⟩ := h.counts
  obtain ⟨s₁, htake, -, hsame⟩ := IncrementalIndex.takePendingCentroid_eq hcounts.accumulates
  refine ⟨_, returns_buildBatch_leaf hlt hlimit htake ?_, by rw [← hsame.1]; rfl⟩
  have hlen : b.index.pendingRowCount = counted.length := by
    rw [hcounts.accumulates.count, List.length_map]
  by_cases hnil : counted = []
  · subst hnil
    exact .inr ⟨rfl, centroidFromMmapRows_eq hlt hstop⟩
  · have hpos : 0 < counted.length := List.length_pos_iff.mpr hnil
    obtain rfl := hall.resolve_left hnil
    have hcounted : counted = b.unindexed := by
      apply hcounts.sublist.eq_of_length
      rw [unindexed, List.length_range']
      omega
    left
    rw [if_neg (by simpa using hnil), hcounted, unindexed]

/-- Two appended rows, indexed together. -/
theorem leafIsMean_two : ∃ b : BpannBackend ℚ ℚ, b.len = 2 ∧ LeafIsMean defaultEnv b 2 := by
  refine ⟨_, ?_, leafIsMean_of_builds (b := (appendRows defaultEnv (.column [0, 1])
    (.column [0, 0]) none _).2) defaultEnv (.sync (.appendRows defaultEnv _ _ none
      (.new defaultEnv {} (Array2.empty 1) (Array2.empty 1) none false [1] rfl))) ?_ ?_ ?_⟩
  all_goals decide

/-- A row that is appended to a stale index stands for both rows of the leaf. -/
theorem not_leafIsMean :
    ¬ ∀ (env : Env ℚ) (b : BpannBackend ℚ ℚ) (stop : ℕ), Builds b stop →
      b.index.indexedRows < stop →
      stop - b.index.indexedRows ≤ env.tuning.1.structuredBuildRowLimit →
      LeafIsMean env b stop := by
  intro h
  have hnew : CountedRun _ :=
    .new defaultEnv {} (Array2.empty 1) (Array2.empty 1) none false [1] rfl
  have hstale := (hnew.appendRows defaultEnv (.column [0]) (.column [0]) none).markIndexStale
  have hrun := hstale.appendRows defaultEnv (.column [1]) (.column [0]) none
  obtain ⟨s, hs, hindices⟩ := h defaultEnv _ _ (.sync hrun) (by decide) (by decide)
  obtain rfl := congrArg Prod.snd hs
  revert hindices
  decide +kernel

end Leaf

end BpannBackend

end Ennbo
