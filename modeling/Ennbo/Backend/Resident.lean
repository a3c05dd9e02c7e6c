import Ennbo.Backend.Search

/-! # The resident matrix

A search up to the limit answers from a matrix that an earlier search may have
left in memory. The matrix follows the stored rows; it follows the scale only as
long as no rescaling changes the rows while it is resident.
-/

namespace Ennbo.BpannBackend

open Ranking

section Sizes

variable {D F : Type} [Floating D] [Floating F] [FloatCast D F]

/-- Rows and scale have one entry for each dimension. -/
structure Sized (b : BpannBackend D F) : Prop where
  ncols_eq : b.trainX.ncols = b.numDim
  xScale_eq : b.xScale.length = b.numDim

/-- The stores have grown, and the resident matrix is kept or dropped. -/
structure Extends (b b' : BpannBackend D F) : Prop where
  ncols_eq : b'.trainX.ncols = b.trainX.ncols
  numDim_eq : b'.numDim = b.numDim
  scaleX_eq : b'.scaleX = b.scaleX
  xScale_eq : b'.xScale = b.xScale
  rows : ∃ more, b'.trainX.rows = b.trainX.rows ++ more
  cache : b'.smallNXCache = b.smallNXCache ∨ b'.smallNXCache = none

variable {b b' : BpannBackend D F} {env : Env F}

omit [Floating D] [Floating F] [FloatCast D F] in
theorem Extends.refl (b : BpannBackend D F) : b.Extends b :=
  ⟨rfl, rfl, rfl, rfl, ⟨[], (List.append_nil _).symm⟩, .inl rfl⟩

omit [Floating D] [Floating F] [FloatCast D F] in
theorem Extends.sized (h : b.Extends b') (hb : b.Sized) : b'.Sized where
  ncols_eq := by rw [h.ncols_eq, h.numDim_eq, hb.ncols_eq]
  xScale_eq := by rw [h.xScale_eq, h.numDim_eq, hb.xScale_eq]

omit [Floating F] in
theorem Extends.cachePrefix (h : b.Extends b') (hb : b.CachePrefix) : b'.CachePrefix := by
  intro n data hdata
  rcases h.cache with hcache | hcache
  · rw [hcache] at hdata
    obtain ⟨hn, hrows⟩ := hb n data hdata
    obtain ⟨more, hmore⟩ := h.rows
    have hlen : b'.len = b.len + more.length := MmapColumnStore.nrows_of_rows hmore
    refine ⟨by omega, ?_⟩
    rw [hrows, scaledRows, scaledRows, hmore, h.scaleX_eq, h.xScale_eq, List.map_append,
      List.take_append_of_le_length]
    rw [List.length_map, MmapColumnStore.length_rows]
    exact hn
  · rw [hcache] at hdata
    exact absurd hdata (by simp)

omit [Floating D] [Floating F] [FloatCast D F] in
theorem extends_onIndex {α : Type} (c : Call (IndexState D F) α) :
    Call.Keeps b.Extends (onIndex c) := by
  refine Call.keeps_on (Q := fun _ => True) (fun _ _ => trivial) (fun _ _ => trivial) ?_
  intro b' s h _
  exact { h with }

theorem extends_ensureIndexSync (b : BpannBackend D F) (env : Env F) :
    Call.Keeps b.Extends (ensureIndexSync env) := by
  have hclear : Call.Keeps b.Extends (Call.modify clearPending) :=
    Call.keeps_modify fun b' h => { h with }
  refine Call.keeps_get.bind fun s => Call.Keeps.ite hclear ?_
  exact (extends_onIndex _).bind fun _ => hclear

theorem extends_appendRows (b : BpannBackend D F) (x y : Array2 D) (yvar : Option (Array2 D)) :
    b.Extends (appendRows env x y yvar b).2 := by
  refine Call.Keeps.get_bind (P := b.Extends) ?_ (Extends.refl b)
  refine Call.Keeps.ite (Call.keeps_pure _) (Call.Keeps.ite (Call.keeps_ofOutcome _) ?_)
  refine Call.Keeps.ofOutcome_bind fun _ _ => ?_
  refine Call.Keeps.ofOutcome_bind fun trainX hX => ?_
  obtain ⟨hcols, hrows⟩ := MmapColumnStore.rows_of_mmapAppend hX
  refine (Call.keeps_modify fun b' h => ?_).bind fun _ => ?_
  · exact { h with ncols_eq := hcols, rows := ⟨x.rows, hrows⟩ }
  refine Call.Keeps.ofOutcome_bind fun trainY _ => ?_
  refine (Call.keeps_modify fun b' h => { h with }).bind fun _ => ?_
  refine Call.Keeps.ofOutcome_bind fun trainYvar _ => ?_
  refine (Call.keeps_modify fun b' h => { h with }).bind fun _ => ?_
  refine (Call.keeps_modify fun b' h => { h with cache := .inr rfl }).bind fun _ => ?_
  exact Call.keeps_get.bind fun s => Call.Keeps.ite (extends_ensureIndexSync b env)
    (Call.keeps_pure _)

end Sizes

section Runs

variable {D F : Type} [Floating D] [Floating F] [FloatCast D F] {b b' : BpannBackend D F}
  {env : Env F}

/-- No matrix is resident, or the new scale gives every stored row the same entries. -/
def Rescalable (b : BpannBackend D F) (scaleX : Bool) (xScale : List D) : Prop :=
  b.smallNXCache = none ∨ ∀ row ∈ b.trainX.rows,
    (bpannRowToF32 row scaleX xScale : List F) = bpannRowToF32 row b.scaleX b.xScale

/-- The states of a backend that is built by `new` and then appends rows, marks its index as stale,
brings it up to date with or without a new scale, and searches; a new scale meets a condition. -/
inductive Run (ok : BpannBackend D F → Bool → List D → Prop) : BpannBackend D F → Prop where
  | new {b : BpannBackend D F} (env : Env F) (dir : WorkDir D F) (x y : Array2 D)
      (yvar : Option (Array2 D)) (scaleX : Bool) (xScale : List D) : xScale.length = x.ncols →
      BpannBackend.new env dir x y yvar scaleX xScale = .ok b → Run ok b
  | appendRows {b : BpannBackend D F} (env : Env F) (x y : Array2 D) (yvar : Option (Array2 D)) :
      Run ok b → Run ok (BpannBackend.appendRows env x y yvar b).2
  | markIndexStale {b : BpannBackend D F} : Run ok b → Run ok b.markIndexStale
  | ensureIndexSync {b : BpannBackend D F} (env : Env F) :
      Run ok b → Run ok (BpannBackend.ensureIndexSync env b).2
  | ensureIndexSyncWithScale {b : BpannBackend D F} (env : Env F) (scaleX : Bool)
      (xScale : List D) : Run ok b → xScale.length = b.numDim → ok b scaleX xScale →
      Run ok (BpannBackend.ensureIndexSyncWithScale env scaleX xScale b).2
  | search {b : BpannBackend D F} (t : Tuning) (queries : Array2 D) (searchK : ℕ)
      (excludeNearest : Bool) :
      Run ok b → Run ok (BpannBackend.search t queries searchK excludeNearest b).2

theorem sized_new {dir : WorkDir D F} {x y : Array2 D} {yvar : Option (Array2 D)} {scaleX : Bool}
    {xScale : List D} (hx : xScale.length = x.ncols)
    (h : new env dir x y yvar scaleX xScale = .ok b) : b.Sized ∧ b.smallNXCache = none := by
  obtain ⟨trainX, trainY, trainYvar, hopen, -, ho⟩ := new_eq_ok h
  obtain ⟨s, -, rfl⟩ := openIndexed_eq_ok ho
  exact ⟨⟨rfl, hx.trans hopen.ncols_x.symm⟩, rfl⟩

omit [Floating F] [FloatCast D F] in
theorem sized_setScale {scaleX : Bool} {xScale : List D} (hb : b.Sized)
    (hx : xScale.length = b.numDim) : (b.setScale scaleX xScale).Sized := by
  unfold setScale
  split
  · exact ⟨hb.ncols_eq, hx⟩
  · exact hb

omit [Floating F] in
theorem cachePrefix_setScale {scaleX : Bool} {xScale : List D} (hb : b.CachePrefix)
    (hscale : b.Rescalable scaleX xScale) : (b.setScale scaleX xScale).CachePrefix := by
  unfold setScale
  split
  · intro n data hdata
    change b.smallNXCache = some (n, data) at hdata
    rcases hscale with hnone | hsame
    · rw [hnone] at hdata
      exact absurd hdata (by simp)
    · obtain ⟨hn, hrows⟩ := hb n data hdata
      refine ⟨hn, ?_⟩
      rw [hrows]
      exact congrArg (fun rows => (rows.take n).flatten) (List.map_congr_left hsame).symm
  · exact hb

omit [Floating F] in
theorem cachePrefix_withMatrix (hb : b.CachePrefix) : b.withMatrix.CachePrefix := by
  intro n data hdata
  obtain ⟨rfl, rfl⟩ := Prod.mk.inj (Option.some.inj hdata)
  refine ⟨le_rfl, ?_⟩
  rw [hb.cacheCurrent.residentFlat_eq]
  exact congrArg List.flatten (List.take_of_length_le b.length_scaledRows.le).symm

variable {ok : BpannBackend D F → Bool → List D → Prop}

theorem Run.sized (h : Run ok b) : b.Sized := by
  induction h with
  | new env dir x y yvar scaleX xScale hx h => exact (sized_new hx h).1
  | appendRows env x y yvar _ ih => exact (extends_appendRows _ x y yvar).sized ih
  | markIndexStale _ ih => exact { ih with }
  | ensureIndexSync env _ ih => exact (extends_ensureIndexSync _ env _ (Extends.refl _)).sized ih
  | ensureIndexSyncWithScale env scaleX xScale _ hx _ ih =>
    exact (extends_ensureIndexSync _ env _ (Extends.refl _)).sized (sized_setScale ih hx)
  | @search b t queries searchK excludeNearest _ ih =>
    rcases search_state t queries searchK excludeNearest b with he | he
    · rwa [he]
    · rw [he]
      exact { ih with }

theorem Run.cachePrefix (h : Run Rescalable b) : b.CachePrefix := by
  induction h with
  | new env dir x y yvar scaleX xScale hx h =>
    intro n data hdata
    rw [(sized_new hx h).2] at hdata
    exact absurd hdata (by simp)
  | appendRows env x y yvar _ ih => exact (extends_appendRows _ x y yvar).cachePrefix ih
  | markIndexStale _ ih => exact ih
  | ensureIndexSync env _ ih =>
    exact (extends_ensureIndexSync _ env _ (Extends.refl _)).cachePrefix ih
  | ensureIndexSyncWithScale env scaleX xScale _ _ hscale ih =>
    exact (extends_ensureIndexSync _ env _ (Extends.refl _)).cachePrefix
      (cachePrefix_setScale ih hscale)
  | @search b t queries searchK excludeNearest _ ih =>
    rcases search_state t queries searchK excludeNearest b with he | he
    · rwa [he]
    · rw [he]
      exact cachePrefix_withMatrix ih

end Runs

section Answers

variable {K : Type} [ExactArith K] {b : BpannBackend K K}

def dist (b : BpannBackend K K) (query : List K) (i : ℕ) : K :=
  sqDist (bpannRowToF32 query b.scaleX b.xScale) (rowData b.trainX.rows b.scaleX b.xScale i)

/-- Every search that excludes nothing returns the nearest of all rows. -/
def AnswersExactly (b : BpannBackend K K) : Prop :=
  ∀ (t : Tuning) (queries : Array2 K) (searchK : ℕ), queries.ncols = b.numDim →
    (search t queries searchK false b).1 =
      .ok (queries.rows.map fun query =>
        nearestRows (b.dist query) b.len (min searchK b.len) false)

theorem getD_scaledRows (b : BpannBackend K K) (i : ℕ) :
    b.scaledRows.getD i [] = rowData b.trainX.rows b.scaleX b.xScale i := by
  have hnil : (bpannRowToF32 [] b.scaleX b.xScale : List K) = [] := by
    unfold bpannRowToF32
    split <;> rfl
  rw [scaledRows, rowData, ← hnil, List.getD_map, hnil]

theorem length_of_mem_scaledRows (hb : b.Sized) {row : List K} (h : row ∈ b.scaledRows) :
    row.length = b.numDim := by
  obtain ⟨r, hr, rfl⟩ := List.mem_map.mp h
  have hlen := (b.trainX.width_rows r hr).trans hb.ncols_eq
  rw [length_bpannRowToF32 _ (hb.xScale_eq.trans hlen.symm), hlen]

/-- What a small search answers from a matrix of `n` rows. -/
theorem search_of_matrix (hb : b.Sized) (h0 : b.len ≠ 0)
    (hlen : b.len ≤ SMALL_N_INCORE_SEARCH_LIMIT) {rows : List (List K)}
    (hflat : b.residentFlat = rows.flatten) (hrows : rows.length = b.len)
    (hwidth : ∀ row ∈ rows, row.length = b.numDim) (t : Tuning) {queries : Array2 K}
    (hq : queries.ncols = b.numDim) (searchK : ℕ) (excludeNearest : Bool) :
    (search t queries searchK excludeNearest b).1 =
      .ok (queries.rows.map fun query =>
        resultRow (b.searchWidth searchK) (rankMerged (b.searchWidth searchK)
          (b.searchPool searchK excludeNearest) excludeNearest
          (topK ScoredLe (b.searchPool searchK excludeNearest) (scoredRows
            (fun i => sqDist (bpannRowToF32 query b.scaleX b.xScale) (rows.getD i []))
            b.len)))) := by
  have h32 : rows.length ≤ 2 ^ 32 := by
    rw [hrows]
    unfold SMALL_N_INCORE_SEARCH_LIMIT at hlen
    omega
  rw [search_of_small h0 hlen]
  dsimp only
  rw [scoreQueriesFlat_eq (b.flatArgs b.residentFlat searchK excludeNearest) hflat
    hrows.symm hwidth h32]
  · rw [hrows]
    rfl
  · intro query hquery
    have hwq := (queries.width query hquery).trans hq
    exact (length_bpannRowToF32 _ (hb.xScale_eq.trans hwq.symm)).trans hwq

theorem resultRow_rankMerged_topK (dist : ℕ → K) {n k : ℕ} (hk : k ≤ n) :
    resultRow k (rankMerged k k false (topK ScoredLe k (scoredRows dist n))) =
      nearestRows dist n k false := by
  have hlen : (topK ScoredLe k (scoredRows dist n)).length = k := by
    rw [length_topK, scoredRows, scored, List.length_map, List.length_range]
    exact min_eq_left hk
  rw [rankMerged_topK, resultRow_of_length hlen, nearestRows, Bool.toNat_false, List.drop_zero,
    Nat.zero_add]

theorem search_of_matrix_false (hb : b.Sized) (h0 : b.len ≠ 0)
    (hlen : b.len ≤ SMALL_N_INCORE_SEARCH_LIMIT) {rows : List (List K)}
    (hflat : b.residentFlat = rows.flatten) (hrows : rows.length = b.len)
    (hwidth : ∀ row ∈ rows, row.length = b.numDim) (t : Tuning) {queries : Array2 K}
    (hq : queries.ncols = b.numDim) (searchK : ℕ) :
    (search t queries searchK false b).1 =
      .ok (queries.rows.map fun query => nearestRows
        (fun i => sqDist (bpannRowToF32 query b.scaleX b.xScale) (rows.getD i []))
        b.len (min searchK b.len) false) := by
  rw [search_of_matrix hb h0 hlen hflat hrows hwidth t hq]
  refine congrArg Except.ok (List.map_congr_left fun query _ => ?_)
  exact resultRow_rankMerged_topK _ (min_le_right _ _)

theorem answersExactly_of_cacheCurrent (hb : b.Sized)
    (hlen : b.len ≤ SMALL_N_INCORE_SEARCH_LIMIT) (hcur : b.CacheCurrent) : b.AnswersExactly := by
  intro t queries searchK hq
  by_cases h0 : b.len = 0
  · rw [search_of_empty h0]
    refine congrArg Except.ok (List.map_congr_left fun query _ => ?_)
    simp [h0, nearestRows, scoredRows, scored]
  · rw [search_of_matrix_false hb h0 hlen hcur.residentFlat_eq b.length_scaledRows
      (fun row h => length_of_mem_scaledRows hb h) t hq]
    simp only [getD_scaledRows]
    rfl

/-- Answers that are exact for the stored rows themselves show that the matrix holds them. -/
theorem cacheCurrent_of_answersExactly (hb : b.Sized)
    (hlen : b.len ≤ SMALL_N_INCORE_SEARCH_LIMIT) (hans : b.AnswersExactly) : b.CacheCurrent := by
  intro data hdata
  have hsize := (cachedFlat_eq_some.mp hdata).2
  have hres : b.residentFlat = data := by rw [residentFlat, hdata, Option.getD_some]
  -- the rows of the resident matrix
  let s : MmapColumnStore K := ⟨b.numDim, b.len, data, hsize.ge⟩
  have hflat : data = s.rows.flatten := by
    rw [s.flatten_rows]
    exact (List.take_of_length_le hsize.le).symm
  have hlenS : s.rows.length = b.len := s.length_rows
  suffices hrows : s.rows = b.scaledRows by rw [hflat, hrows]
  apply List.ext_getElem (hlenS.trans b.length_scaledRows.symm)
  intro i hi hi'
  have hib : i < b.len := hlenS ▸ hi
  have hrow := (b.trainX.length_getD_rows hib).trans hb.ncols_eq
  -- a search for row `i` itself must find it at distance zero
  have h := hans ⟨{}, default_tuning_valid⟩
    ⟨b.numDim, [b.trainX.rows.getD i []], by simpa using hrow⟩ b.len rfl
  rw [search_of_matrix_false hb (by omega) hlen (hres.trans hflat) hlenS s.width_rows
    ⟨{}, default_tuning_valid⟩ rfl, min_self] at h
  have hdist := dist_eq_of_nearestRows_eq (List.cons.inj (Except.ok.inj h)).1 hib
  have hself : b.dist (b.trainX.rows.getD i []) i = 0 := sqDist_self _
  rw [hself, List.getD_eq_getElem _ _ hi] at hdist
  have hscaled : b.scaledRows[i] = bpannRowToF32 (b.trainX.rows.getD i []) b.scaleX b.xScale := by
    rw [← List.getD_eq_getElem _ [] hi', getD_scaledRows]
    rfl
  rw [hscaled]
  refine (eq_of_sqDist_eq_zero ?_ hdist).symm
  rw [length_bpannRowToF32 _ (hb.xScale_eq.trans hrow.symm), hrow]
  exact (s.width_rows _ (List.getElem_mem hi)).symm

/--
Along runs in which no rescaling changes a resident row, all answers are exact. Along any run they
are exact in just those states whose matrix, if a search would take one, is current.
-/
theorem answersExactly_of_run :
    (∀ b : BpannBackend K K, Run Rescalable b → b.len ≤ SMALL_N_INCORE_SEARCH_LIMIT →
      b.AnswersExactly) ∧
    ∀ b : BpannBackend K K, Run (fun _ _ _ => True) b → b.len ≤ SMALL_N_INCORE_SEARCH_LIMIT →
      (b.AnswersExactly ↔ b.CacheCurrent) := by
  constructor
  · intro b h hlen
    exact answersExactly_of_cacheCurrent h.sized hlen h.cachePrefix.cacheCurrent
  · intro b h hlen
    exact ⟨cacheCurrent_of_answersExactly h.sized hlen,
      answersExactly_of_cacheCurrent h.sized hlen⟩

end Answers

/-- A search, an append that drops its matrix, and a rescaling. -/
theorem answersExactly_append_rescale :
    ∃ b : BpannBackend ℚ ℚ,
      new defaultEnv {} (.column [0, 2]) (.column [0, 0]) none true [2] = .ok b ∧
        let b₁ := (search defaultEnv.tuning (.column [2]) 1 false b).2
        let b₂ := (appendRows defaultEnv (.column [3]) (.column [0]) none b₁).2
        let b₃ := (ensureIndexSyncWithScale defaultEnv true [3] b₂).2
        b₃.len = 3 ∧ b₃.AnswersExactly ∧ (b₁.AnswersExactly ↔ b₁.CacheCurrent) :=
  ⟨_, rfl, rfl,
    answersExactly_of_run.1 _ (.ensureIndexSyncWithScale defaultEnv true [3]
      (.appendRows defaultEnv (.column [3]) (.column [0]) none
        (.search defaultEnv.tuning (.column [2]) 1 false
          (.new defaultEnv {} (.column [0, 2]) (.column [0, 0]) none true [2] rfl rfl)))
      rfl (.inl rfl)) (by decide),
    answersExactly_of_run.2 _ (.search defaultEnv.tuning (.column [2]) 1 false
      (.new defaultEnv {} (.column [0, 2]) (.column [0, 0]) none true [2] rfl rfl)) (by decide)⟩

/-- The matrix of the first search answers the second one, under another scale. -/
theorem not_answersExactly_rescaled :
    ∃ b : BpannBackend ℚ ℚ,
      new defaultEnv {} (.column [4, 10]) (.column [0, 0]) none true [1] = .ok b ∧
        let b₁ := (search defaultEnv.tuning (.column [10]) 1 false b).2
        let b₂ := (ensureIndexSyncWithScale defaultEnv true [2] b₁).2
        Run (fun _ _ _ => True) b₂ ∧ b₂.len = 2 ∧
          (search defaultEnv.tuning (.column [10]) 1 false b₂).1 = .ok [[(0, 1)]] ∧
          nearestRows (b₂.dist [10]) 2 1 false = [(1, 0)] :=
  ⟨_, rfl,
    .ensureIndexSyncWithScale defaultEnv true [2]
      (.search defaultEnv.tuning (.column [10]) 1 false
        (.new defaultEnv {} (.column [4, 10]) (.column [0, 0]) none true [1] rfl rfl)) rfl trivial,
    rfl, by decide +kernel, by decide +kernel⟩

end Ennbo.BpannBackend
