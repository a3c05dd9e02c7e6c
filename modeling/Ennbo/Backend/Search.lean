import Ennbo.Backend.Steps
import Ennbo.Search.Flat
import Ennbo.Search.LargeN

/-! # The search of a backend

Up to a limit all rows are kept in memory as one flat matrix, which is built by
the first search and kept until rows are appended. Above the limit the fragments
and the pending rows are searched.
-/

namespace Ennbo.BpannBackend

variable {D F : Type} [Floating D] [Floating F] [FloatCast D F]

section Calls

/-- The resident matrix, when it has the right number of rows and entries. -/
def cachedFlat (b : BpannBackend D F) (n : ℕ) : Option (List F) :=
  match b.smallNXCache with
  | some (cachedN, data) => if cachedN = n ∧ data.length = n * b.numDim then some data else none
  | none => none

/-- The first `n` rows under the scale in force, one after another. -/
def buildFlat (b : BpannBackend D F) (n : ℕ) : Outcome (List F) := do
  let rows ← (List.range n).mapM fun i => do
    return bpannRowToF32 (← b.trainX.mmapRowSlice i) b.scaleX b.xScale
  return rows.flatten

def loadOrBuildSmallNCache (n : ℕ) : Call (BpannBackend D F) (List F) := do
  let b ← Call.get
  if SMALL_N_INCORE_SEARCH_LIMIT < n then Call.ofOutcome (throw .panic)
  else
    match b.cachedFlat n with
    | some data => return data
    | none => do
      let flat ← Call.ofOutcome (b.buildFlat n)
      Call.modify fun b => { b with smallNXCache := some (n, flat) }
      return flat

def searchWidth (b : BpannBackend D F) (searchK : ℕ) : ℕ := min searchK b.len

/-- How many candidates are ranked; the sum wraps around as `usize` does. -/
def searchPool (b : BpannBackend D F) (searchK : ℕ) (excludeNearest : Bool) : ℕ :=
  if excludeNearest then min ((searchK + 1) % (USIZE_MAX + 1)) b.len else b.searchWidth searchK

def flatArgs (b : BpannBackend D F) (flat : List F) (searchK : ℕ) (excludeNearest : Bool) :
    ScoreQueriesFlat D F where
  flat := flat
  total := b.len
  numDim := b.numDim
  scaleX := b.scaleX
  xScale := b.xScale
  kEff := b.searchWidth searchK
  poolK := b.searchPool searchK excludeNearest
  excludeNearest := excludeNearest

def pendingArgs (b : BpannBackend D F) (searchK : ℕ) (excludeNearest : Bool) :
    SearchPendingArgs D where
  total := b.len
  kEff := b.searchWidth searchK
  poolK := b.searchPool searchK excludeNearest
  excludeNearest := excludeNearest
  scaleX := b.scaleX
  xScale := b.xScale

/-- One row of ids and distances for each query. -/
def search (t : Tuning) (queries : Array2 D) (searchK : ℕ) (excludeNearest : Bool) :
    Call (BpannBackend D F) (List (List (ℕ × D))) := do
  let b ← Call.get
  if b.len = 0 then return queries.rows.map fun _ => []
  else if b.len ≤ SMALL_N_INCORE_SEARCH_LIMIT then do
    let flat ← loadOrBuildSmallNCache b.len
    Call.ofOutcome (scoreQueriesFlat queries.rows (b.flatArgs flat searchK excludeNearest))
  else
    Call.ofOutcome
      (b.searchIndexedAndPending t queries.rows (b.pendingArgs searchK excludeNearest))

end Calls

section Matrix

def scaledRows (b : BpannBackend D F) : List (List F) :=
  b.trainX.rows.map fun row => bpannRowToF32 row b.scaleX b.xScale

def CacheCurrent (b : BpannBackend D F) : Prop :=
  ∀ data, b.cachedFlat b.len = some data → data = b.scaledRows.flatten

/-- The resident matrix holds the rows that were stored when it was built. -/
def CachePrefix (b : BpannBackend D F) : Prop :=
  ∀ n data, b.smallNXCache = some (n, data) →
    n ≤ b.len ∧ data = (b.scaledRows.take n).flatten

omit [Floating D] [Floating F] [FloatCast D F] in
theorem cachedFlat_eq_some {b : BpannBackend D F} {n : ℕ} {data : List F} :
    b.cachedFlat n = some data ↔
      b.smallNXCache = some (n, data) ∧ data.length = n * b.numDim := by
  unfold cachedFlat
  split
  next cachedN flat h =>
    rw [h]
    simp only [Option.ite_none_right_eq_some, Option.some.injEq, Prod.mk.injEq]
    constructor
    · rintro ⟨⟨rfl, hlen⟩, rfl⟩
      exact ⟨⟨rfl, rfl⟩, hlen⟩
    · rintro ⟨⟨rfl, rfl⟩, hlen⟩
      exact ⟨⟨rfl, hlen⟩, rfl⟩
  next h => simp [h]

omit [Floating F] in
theorem length_scaledRows (b : BpannBackend D F) : b.scaledRows.length = b.len := by
  rw [scaledRows, List.length_map, MmapColumnStore.length_rows, len]

omit [Floating F] in
theorem CachePrefix.cacheCurrent {b : BpannBackend D F} (h : b.CachePrefix) : b.CacheCurrent := by
  intro data hdata
  obtain ⟨-, hrows⟩ := h _ _ (cachedFlat_eq_some.mp hdata).1
  rw [hrows, List.take_of_length_le b.length_scaledRows.le]

omit [Floating F] in
theorem buildFlat_eq (b : BpannBackend D F) : b.buildFlat b.len = .ok b.scaledRows.flatten := by
  unfold buildFlat
  rw [Outcome.bind_eq_ok]
  refine ⟨b.scaledRows, ?_, rfl⟩
  unfold len
  rw [mapM_ok_iff, scaledRows, MmapColumnStore.rows, List.map_map,
    List.forall₂_map_right_iff, List.forall₂_same]
  intro i hi
  have hi := List.mem_range.mp hi
  rw [Outcome.bind_eq_ok]
  refine ⟨b.trainX.row i, ?_, rfl⟩
  rw [MmapColumnStore.mmapRowSlice, if_neg (not_le.mpr hi)]
  rfl

def residentFlat (b : BpannBackend D F) : List F :=
  (b.cachedFlat b.len).getD b.scaledRows.flatten

def withMatrix (b : BpannBackend D F) : BpannBackend D F :=
  { b with smallNXCache := some (b.len, b.residentFlat) }

omit [Floating F] in
theorem CacheCurrent.residentFlat_eq {b : BpannBackend D F} (h : b.CacheCurrent) :
    b.residentFlat = b.scaledRows.flatten := by
  unfold residentFlat
  cases hc : b.cachedFlat b.len with
  | none => rfl
  | some data => exact h data hc

omit [Floating F] in
theorem loadOrBuildSmallNCache_eq {b : BpannBackend D F}
    (hlen : b.len ≤ SMALL_N_INCORE_SEARCH_LIMIT) :
    (loadOrBuildSmallNCache b.len).Returns b b.residentFlat b.withMatrix := by
  simp only [loadOrBuildSmallNCache, Call.returns_bind, Call.returns_get]
  refine ⟨b, b, ⟨rfl, rfl⟩, ?_⟩
  rw [if_neg (not_lt.mpr hlen)]
  unfold residentFlat withMatrix residentFlat
  cases hc : b.cachedFlat b.len with
  | some data =>
    obtain ⟨hcache, -⟩ := cachedFlat_eq_some.mp hc
    rw [Call.returns_pure]
    refine ⟨rfl, ?_⟩
    rw [Option.getD_some, ← hcache]
  | none =>
    simp only [Call.returns_bind, Call.returns_ofOutcome, Call.returns_modify, Call.returns_pure]
    exact ⟨_, _, ⟨b.buildFlat_eq, rfl⟩, (), _, rfl, rfl, rfl⟩

end Matrix

section Search

variable {b : BpannBackend D F} {t : Tuning} {queries : Array2 D} {searchK : ℕ}
  {excludeNearest : Bool}

theorem search_of_empty (h0 : b.len = 0) :
    search t queries searchK excludeNearest b = (.ok (queries.rows.map fun _ => []), b) := by
  change (if b.len = 0 then _ else _ : Call _ _) b = _
  rw [if_pos h0]
  rfl

theorem search_of_small (h0 : b.len ≠ 0) (hlen : b.len ≤ SMALL_N_INCORE_SEARCH_LIMIT) :
    search t queries searchK excludeNearest b =
      (scoreQueriesFlat queries.rows (b.flatArgs b.residentFlat searchK excludeNearest),
        b.withMatrix) := by
  have hload := loadOrBuildSmallNCache_eq hlen
  change (if b.len = 0 then _ else if b.len ≤ SMALL_N_INCORE_SEARCH_LIMIT then _ else _ :
    Call _ _) b = _
  rw [if_neg h0, if_pos hlen]
  unfold Call.Returns at hload
  simp only [bind, hload]
  rfl

theorem search_of_large (hlen : SMALL_N_INCORE_SEARCH_LIMIT < b.len) :
    search t queries searchK excludeNearest b =
      (b.searchIndexedAndPending t queries.rows (b.pendingArgs searchK excludeNearest), b) := by
  change (if b.len = 0 then _ else if b.len ≤ SMALL_N_INCORE_SEARCH_LIMIT then _ else _ :
    Call _ _) b = _
  rw [if_neg (by omega), if_neg (by omega)]
  rfl

theorem search_state (t : Tuning) (queries : Array2 D) (searchK : ℕ) (excludeNearest : Bool)
    (b : BpannBackend D F) :
    (search t queries searchK excludeNearest b).2 = b ∨
      (search t queries searchK excludeNearest b).2 = b.withMatrix := by
  by_cases h0 : b.len = 0
  · rw [search_of_empty h0]
    exact .inl rfl
  · by_cases hlen : b.len ≤ SMALL_N_INCORE_SEARCH_LIMIT
    · rw [search_of_small h0 hlen]
      exact .inr rfl
    · rw [search_of_large (not_le.mp hlen)]
      exact .inl rfl

end Search

end Ennbo.BpannBackend
