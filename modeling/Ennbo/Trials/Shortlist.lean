import Ennbo.Backend.Files
import Ennbo.Backend.Search
import Ennbo.Ranking.Interleave
import Ennbo.Trials.Search

/-! # The index behind a history

Compact descriptors are appended to a backend together with their values, and
the row number is the id of the observation. A shortlist joins the neighbours of
several queries rank by rank and reads the values back.
-/

namespace Ennbo.Trials

variable {D F : Type} [Floating D] [TrialFloat F] [FloatCast D F]

section Calls

structure BpannHistory (D F : Type) where
  backend : BpannBackend D F
  descriptorDim : ℕ

/-- How a call on a history ends when it returns no value. -/
inductive HistoryFailure where
  | error (message : String)
  | panic
  | diverge
  deriving DecidableEq

/-- The text of an error of the backend. -/
def errorText : BpannError → String
  | .invalidShape expected got => s!"Invalid shape: expected {expected}, got {got}"
  | .invalidParameter message => s!"Invalid parameter: {message}"

/-- `map_err(|error| error.to_string())` -/
def mapErr {α : Type} : Outcome α → Except HistoryFailure α
  | .ok a => .ok a
  | .error (.error e) => .error (.error (errorText e))
  | .error .panic => .error .panic
  | .error .diverge => .error .diverge

namespace BpannHistory

def new (env : Env F) (dir : WorkDir D F) (descriptorDim : ℕ) :
    Except HistoryFailure (BpannHistory D F) :=
  if descriptorDim = 0 then
    .error (.error "BPANN history descriptor dimension must be positive")
  else
    match mapErr (BpannBackend.newEmpty env dir descriptorDim 1) with
    | .error e => .error e
    | .ok backend => .ok ⟨backend, descriptorDim⟩

def len (h : BpannHistory D F) : ℕ := h.backend.len

omit [Floating D] in
theorem width_singleton (row : List D) : ∀ r ∈ [row], r.length = row.length := by simp

/-- A matrix of one row. -/
def rowMatrix (row : List D) : Array2 D where
  ncols := row.length
  rows := [row]
  width := width_singleton row

/-- Append a descriptor and a value; the id is the number of the row. -/
def append (env : Env F) (descriptor : List D) (value : F) (h : BpannHistory D F) :
    Except HistoryFailure UInt64 × BpannHistory D F :=
  if descriptor.length ≠ h.descriptorDim then
    (.error (.error
      s!"descriptor has {descriptor.length} dimensions, expected {h.descriptorDim}"), h)
  else if !isFinite value then (.error (.error "observation value must be finite"), h)
  else
    let id := UInt64.ofNat h.len
    let r := h.backend.appendRows env (rowMatrix descriptor) (rowMatrix [toF64 value]) none
    ((mapErr r.1).map fun _ => id, { h with backend := r.2 })

def sync (env : Env F) (h : BpannHistory D F) : Except HistoryFailure Unit × BpannHistory D F :=
  let r := h.backend.ensureIndexSync env
  (mapErr r.1, { h with backend := r.2 })

/-- `u64::try_from` of an index that is returned as `i64`. -/
def observationId (index : ℕ) : Except HistoryFailure UInt64 :=
  if index < 2 ^ 63 then .ok (UInt64.ofNat index)
  else .error (.error s!"BPANN returned invalid observation ID {index}")

def search (t : Tuning) (queries : Array2 D) (neighbors : ℕ) (h : BpannHistory D F) :
    Except HistoryFailure (List (List UInt64)) × BpannHistory D F :=
  if queries.ncols ≠ h.descriptorDim then
    (.error (.error
      s!"query descriptors have {queries.ncols} dimensions, expected {h.descriptorDim}"), h)
  else if neighbors = 0 then
    (.error (.error "BPANN history search requires at least one neighbor"), h)
  else if h.len = 0 then (.ok (queries.rows.map fun _ => []), h)
  else
    let r := h.backend.search t queries neighbors false
    ((mapErr r.1).bind fun rows => rows.mapM fun row => row.mapM fun hit => observationId hit.1,
      { h with backend := r.2 })

/-- One row at one rank. An id that is new is kept, and the loop ends at the last one wanted. -/
def shortlistStep (maxObservations rank : ℕ) (ids row : List UInt64) :
    Except (List UInt64) (List UInt64) :=
  match row[rank]? with
  | none => .ok ids
  | some id =>
    if id ∈ ids then .ok ids
    else if (ids ++ [id]).length = maxObservations then .error (ids ++ [id])
    else .ok (ids ++ [id])

/-- The ids that are kept, from rank to rank and from query to query. -/
def shortlistIds (perQuery : List (List UInt64)) (maxObservations : ℕ) : List UInt64 :=
  let maxRank := (perQuery.map List.length).max?.getD 0
  let ends := (List.range maxRank).foldlM
    (fun ids rank => perQuery.foldlM (shortlistStep maxObservations rank) ids) []
  match ends with
  | .ok ids => ids
  | .error ids => ids

/-- `values.column(0)` -/
def firstColumn (rows : List (List D)) : Outcome (List D) :=
  rows.mapM fun row => Outcome.ofOption .panic row[0]?

/-- The objective values of some rows. -/
def observations (backend : BpannBackend D F) (ids : List UInt64) :
    Outcome (List (IndexedObservation F)) := do
  let rows ← backend.trainRowsAt (ids.map UInt64.toNat)
  let values ← firstColumn rows.y
  return List.zipWith (fun id value => ⟨id, toF32 value⟩) ids values

def shortlist (t : Tuning) (queries : Array2 D) (neighborsPerQuery maxObservations : ℕ)
    (h : BpannHistory D F) :
    Except HistoryFailure (List (IndexedObservation F)) × BpannHistory D F :=
  if maxObservations = 0 then (.error (.error "BPANN shortlist capacity must be positive"), h)
  else
    let r := h.search t queries neighborsPerQuery
    (r.1.bind fun perQuery =>
      let ids := shortlistIds perQuery maxObservations
      if ids.isEmpty then .ok [] else mapErr (observations r.2.backend ids), r.2)

def persist [DecidableEq F] (env : Env F) (h : BpannHistory D F) :
    Except HistoryFailure Unit × BpannHistory D F :=
  let r := h.backend.persistIndexToDisk env
  (mapErr r.1, { h with backend := r.2 })

end BpannHistory

end Calls

namespace BpannHistory

section Runs

variable [DecidableEq F]

def logged (log : List F) (value : F) (h h' : BpannHistory D F) : List F :=
  if h.len < h'.len then log ++ [value] else log

/-- The states of a history that was created in an empty directory, however its calls end,
with the values of its rows. -/
inductive Reached : BpannHistory D F → List F → Prop where
  | new {h : BpannHistory D F} (env : Env F) (descriptorDim : ℕ) :
      BpannHistory.new env {} descriptorDim = .ok h → Reached h []
  | append {h : BpannHistory D F} {log : List F} (env : Env F) (descriptor : List D) (value : F) :
      Reached h log →
      Reached (h.append env descriptor value).2 (logged log value h (h.append env descriptor value).2)
  | sync {h : BpannHistory D F} {log : List F} (env : Env F) :
      Reached h log → Reached (h.sync env).2 log
  | search {h : BpannHistory D F} {log : List F} (t : Tuning) (queries : Array2 D)
      (neighbors : ℕ) : Reached h log → Reached (h.search t queries neighbors).2 log
  | shortlist {h : BpannHistory D F} {log : List F} (t : Tuning) (queries : Array2 D)
      (neighborsPerQuery maxObservations : ℕ) : Reached h log →
      Reached (h.shortlist t queries neighborsPerQuery maxObservations).2 log
  | persist {h : BpannHistory D F} {log : List F} (env : Env F) :
      Reached h log → Reached (h.persist env).2 log
  | reopen {h h' : BpannHistory D F} {log : List F} (env : Env F) (descriptorDim : ℕ) :
      Reached h log → BpannHistory.new env h.backend.workDir descriptorDim = .ok h' →
      Reached h' log

/-- The rows of a backend have these values, and no variances. -/
structure Labelled (b : BpannBackend D F) (log : List F) : Prop where
  filed : b.Filed
  numMetrics : b.numMetrics = 1
  trainYvar : b.trainYvar = none
  rows_y : b.trainY.rows = log.map fun value => [toF64 value]
  finite : ∀ value ∈ log, isFinite value = true

variable {b b' : BpannBackend D F} {h h' : BpannHistory D F} {log : List F} {env : Env F}

omit [Floating D] [DecidableEq F] in
theorem Labelled.length (hb : Labelled b log) : log.length = b.len := by
  rw [← hb.filed.nrows_y, ← b.trainY.length_rows, hb.rows_y, List.length_map]

omit [DecidableEq F] [Floating D] in
theorem Labelled.of_sameStores (hb : Labelled b log) (hsame : b.SameStores b.Records b') :
    Labelled b' log where
  filed := hsame.filed hb.filed
  numMetrics := hsame.numMetrics_eq.trans hb.numMetrics
  trainYvar := hsame.trainYvar_eq.trans hb.trainYvar
  rows_y := by rw [hsame.trainY_eq, hb.rows_y]
  finite := hb.finite

omit [DecidableEq F] in
theorem Labelled.sync (hb : Labelled b log) (env : Env F) :
    Labelled (b.ensureIndexSync env).2 log :=
  hb.of_sameStores (b.keeps_ensureIndexSync b.sidecarFree_records env b hb.filed.sameStores)

theorem Labelled.persist (hb : Labelled b log) (env : Env F) :
    Labelled (b.persistIndexToDisk env).2 log :=
  hb.of_sameStores (b.filed_persistIndexToDisk env b hb.filed.sameStores)

omit [DecidableEq F] in
theorem Labelled.search (hb : Labelled b log) (t : Tuning) (queries : Array2 D) (searchK : ℕ) :
    Labelled (b.search t queries searchK false).2 log := by
  rcases BpannBackend.search_state t queries searchK false b with he | he
  · rwa [he]
  · rw [he]
    exact { hb with filed := { hb.filed with bare := hb.filed.bare } }

omit [DecidableEq F] in
/-- An append that ends without storing its row leaves the backend as it was. -/
theorem Labelled.append (hb : Labelled b log) (env : Env F) (descriptor : List D) {value : F}
    (hvalue : isFinite value = true) :
    (b.appendRows env (rowMatrix descriptor) (rowMatrix [toF64 value]) none).2 = b ∧
        (b.appendRows env (rowMatrix descriptor) (rowMatrix [toF64 value]) none).1 ≠ .ok () ∨
      b.len < U32_MAX ∧
        (b.appendRows env (rowMatrix descriptor) (rowMatrix [toF64 value]) none).2.len = b.len + 1 ∧
        Labelled (b.appendRows env (rowMatrix descriptor) (rowMatrix [toF64 value]) none).2
          (log ++ [value]) := by
  have hends := b.appendRows_ends env (rowMatrix descriptor) (rowMatrix [toF64 value]) none
  generalize b.appendRows env (rowMatrix descriptor) (rowMatrix [toF64 value]) none = r at hends
  cases hends with
  | noRows h0 => cases h0
  | refused => exact .inl ⟨rfl, by simp⟩
  | badX => exact .inl ⟨rfl, by simp⟩
  | badY _ hok _ hy =>
    obtain ⟨_, hy', -⟩ := MmapColumnStore.mmapAppend_eq_ok
      (hok.ncols_y.trans hb.filed.ncols_y.symm)
    rw [hy'] at hy
    cases hy
  | badYvar _ _ _ _ hv =>
    rw [hb.trainYvar] at hv
    cases hv
  | stored ha =>
    right
    obtain ⟨-, hrows⟩ := MmapColumnStore.rows_of_mmapAppend ha.trainY_eq
    have hyvar := ha.trainYvar_eq
    rw [hb.trainYvar] at hyvar
    have hstored : Labelled (b.afterAppend (rowMatrix descriptor) _ _ _) (log ++ [value]) :=
      { filed := hb.filed.afterAppend ha
        numMetrics := hb.numMetrics
        trainYvar := (Outcome.pure_eq_ok.mp hyvar).symm
        rows_y := by
          rw [List.map_append, ← hb.rows_y]
          exact hrows
        finite := by
          rw [List.forall_mem_append]
          exact ⟨hb.finite, by simpa using hvalue⟩ }
    have hlen : ∀ {b' : BpannBackend D F}, Labelled b' (log ++ [value]) → b'.len = b.len + 1 := by
      intro b' hb'
      rw [← hb'.length, ← hb.length, List.length_append, List.length_singleton]
    have hlimit : b.len < U32_MAX := (Nat.lt_succ_self _).trans ha.limit
    split
    · exact ⟨hlimit, hlen (hstored.sync env), hstored.sync env⟩
    · exact ⟨hlimit, hlen hstored, hstored⟩

omit [DecidableEq F] in
theorem labelled_newEmpty {dir : WorkDir D F} {descriptorDim : ℕ} (storeY : MmapColumnStore D)
    (h : BpannBackend.newEmpty env dir descriptorDim 1 = .ok b)
    (hstore : MmapColumnStore.mmapOpenOrCreate dir.openNumObsCounter.trainY 1
      dir.openNumObsCounter.loadNumObs = .ok storeY)
    (hrows : storeY.rows = log.map fun value => [toF64 value])
    (hfinite : ∀ value ∈ log, isFinite value = true) : Labelled b log := by
  have hfiled := BpannBackend.filed_new (by rfl) h
  have hmetrics := (BpannBackend.widths_new h).2
  obtain ⟨trainX, trainY, trainYvar, hopen, hV, ho⟩ := BpannBackend.new_eq_ok h
  obtain ⟨storeX, storeY', -, hY, -, hrY⟩ := hopen.rows
  obtain rfl : storeY' = storeY := Except.ok.inj (hY.symm.trans hstore)
  obtain ⟨s, -, rfl⟩ := BpannBackend.openIndexed_eq_ok ho
  refine ⟨hfiled, hmetrics, (Outcome.pure_eq_ok.mp hV).symm, ?_, hfinite⟩
  change trainY.rows = _
  rw [hrY, hrows, if_neg (by simp [Array2.empty, Array2.nrows]), List.append_nil]

omit [DecidableEq F] in
theorem labelled_create {descriptorDim : ℕ}
    (h : BpannBackend.newEmpty env {} descriptorDim 1 = .ok b) : Labelled b [] :=
  labelled_newEmpty ⟨1, 0, [], by simp⟩ h rfl rfl (by simp)

omit [DecidableEq F] in
theorem Labelled.reopen (hb : Labelled b log) {descriptorDim : ℕ}
    (h : BpannBackend.newEmpty env b.workDir descriptorDim 1 = .ok b') : Labelled b' log := by
  have hwork : b.workDir.Filed b.len b.numDim b.numMetrics :=
    ⟨hb.filed.dir.numObs, hb.filed.dir.metadata⟩
  apply labelled_newEmpty _ h _ hb.rows_y hb.finite
  rw [hwork.openNumObsCounter, hwork.loadNumObs]
  have hfile := b.trainY.mmapOpenOrCreate_mmap
  rwa [hb.filed.ncols_y, hb.numMetrics, hb.filed.nrows_y] at hfile

omit [DecidableEq F] in
theorem new_eq_ok {dir : WorkDir D F} {descriptorDim : ℕ}
    (h' : BpannHistory.new env dir descriptorDim = .ok h) :
    BpannBackend.newEmpty env dir descriptorDim 1 = .ok h.backend := by
  unfold BpannHistory.new at h'
  split at h'
  next => cases h'
  next =>
    cases hb : BpannBackend.newEmpty env dir descriptorDim 1 with
    | error e => cases e <;> simp [hb, mapErr] at h'
    | ok backend =>
      rw [hb] at h'
      cases h'
      rfl

theorem mapErr_eq_ok {α : Type} {o : Outcome α} {a : α} : mapErr o = .ok a ↔ o = .ok a := by
  rcases o with (e | _ | _) | a'
  · simp [mapErr]
  · simp [mapErr]
  · simp [mapErr]
  · simp [mapErr]

omit [DecidableEq F] in
/-- An append fails and stores nothing, or stores the row; the id is the number of the row. -/
theorem append_ends (hb : Labelled h.backend log) (env : Env F) (descriptor : List D) (value : F) :
    (∀ id, (h.append env descriptor value).1 = .ok id →
        id.toNat = log.length ∧
          logged log value h (h.append env descriptor value).2 = log ++ [value]) ∧
      Labelled (h.append env descriptor value).2.backend
        (logged log value h (h.append env descriptor value).2) := by
  have hsame : logged log value h h = log := if_neg (lt_irrefl _)
  unfold BpannHistory.append
  split
  next => rw [hsame]; exact ⟨by simp, hb⟩
  next =>
    split
    next => rw [hsame]; exact ⟨by simp, hb⟩
    next hfinite =>
      have hfinite : isFinite value = true := by simpa using hfinite
      have hends := hb.append env descriptor hfinite
      dsimp only
      generalize h.backend.appendRows env (rowMatrix descriptor) (rowMatrix [toF64 value]) none = r
        at hends
      obtain ⟨o, b'⟩ := r
      obtain ⟨rfl, hfail⟩ | ⟨hlimit, hlen, hstored⟩ := hends
      · refine ⟨?_, ?_⟩
        · intro id hid
          cases ho : mapErr o with
          | error e => simp [ho, Except.map] at hid
          | ok u => exact absurd (mapErr_eq_ok.mp ho) hfail
        · rwa [show logged log value h { h with backend := h.backend } = log from hsame]
      · have hlog : logged log value h { h with backend := b' } = log ++ [value] := by
          apply if_pos
          change h.backend.len < b'.len
          rw [show b'.len = h.backend.len + 1 from hlen]
          exact Nat.lt_succ_self _
        rw [hlog]
        refine ⟨fun id hid => ⟨?_, rfl⟩, hstored⟩
        cases ho : mapErr o with
        | error e => simp [ho, Except.map] at hid
        | ok u =>
          rw [ho] at hid
          obtain rfl := Except.ok.inj hid
          rw [hb.length]
          apply UInt64.toNat_ofNat_of_lt'
          exact hlimit.trans (by decide)

omit [DecidableEq F] in
theorem Labelled.search_history (hb : Labelled h.backend log) (t : Tuning) (queries : Array2 D)
    (neighbors : ℕ) : Labelled (h.search t queries neighbors).2.backend log := by
  unfold BpannHistory.search
  split
  next => exact hb
  next =>
    split
    next => exact hb
    next =>
      split
      next => exact hb
      next => exact hb.search t queries neighbors

omit [DecidableEq F] in
theorem Labelled.shortlist (hb : Labelled h.backend log) (t : Tuning) (queries : Array2 D)
    (neighborsPerQuery maxObservations : ℕ) :
    Labelled (h.shortlist t queries neighborsPerQuery maxObservations).2.backend log := by
  unfold BpannHistory.shortlist
  split
  next => exact hb
  next => exact hb.search_history t queries neighborsPerQuery

theorem Reached.labelled (h' : Reached h log) : Labelled h.backend log := by
  induction h' with
  | new env descriptorDim hnew => exact labelled_create (new_eq_ok hnew)
  | append env descriptor value _ ih => exact (append_ends ih env descriptor value).2
  | sync env _ ih => exact ih.sync env
  | search t queries neighbors _ ih => exact ih.search_history t queries neighbors
  | shortlist t queries neighborsPerQuery maxObservations _ ih =>
    exact ih.shortlist t queries neighborsPerQuery maxObservations
  | persist env _ ih => exact ih.persist env
  | reopen env descriptorDim _ hnew ih => exact ih.reopen (new_eq_ok hnew)

end Runs

section Spec

open Ranking

/-- Widening a finite value to `f64` and narrowing it again gives the value. -/
class ExactWidening (D F : Type) [TrialFloat F] [FloatCast D F] : Prop where
  toF32_toF64 : ∀ value : F, isFinite value = true → toF32 (toF64 value : D) = value

instance : ExactWidening ℚ ℚ := ⟨fun _ _ => rfl⟩

/-- What a shortlist owes the rankings of the queries and the values of the rows. -/
structure IsShortlist (perQuery : List (List UInt64)) (maxObservations : ℕ) (log : List F)
    (list : List (IndexedObservation F)) : Prop where
  nodup : (list.map IndexedObservation.id).Nodup
  length_le : list.length ≤ maxObservations
  found : ∀ o ∈ list, ∃ row ∈ perQuery, o.id ∈ row
  ordered : ∀ a b r s, BestRank perQuery a r → BestRank perQuery b s → r < s →
    b ∈ list.map IndexedObservation.id →
    ∃ us vs, list.map IndexedObservation.id = us ++ b :: vs ∧ a ∈ us
  whole : perQuery.flatten.dedup.length ≤ maxObservations →
    ∀ row ∈ perQuery, ∀ id ∈ row, id ∈ list.map IndexedObservation.id
  value_eq : ∀ o ∈ list, log[o.id.toNat]? = some o.value

variable {perQuery : List (List UInt64)} {maxObservations : ℕ} {log : List F}
  {b : BpannBackend D F}

theorem length_le_maxRank : ∀ row ∈ perQuery,
    row.length ≤ (perQuery.map List.length).max?.getD 0 :=
  fun _ hrow => List.le_max?_getD_of_mem (List.mem_map_of_mem hrow)

theorem shortlistIds_eq (hmax : 1 ≤ maxObservations) :
    shortlistIds perQuery maxObservations =
      interleave perQuery ((perQuery.map List.length).max?.getD 0) maxObservations := by
  have hloop := foldlM_rankMajor (shortlistStep maxObservations) (takeUntil maxObservations)
    (fun rank acc row hrow => by rw [shortlistStep, hrow]; rfl)
    (fun rank acc row a hrow => by rw [shortlistStep, hrow, takeUntil])
    perQuery ((perQuery.map List.length).max?.getD 0) []
  unfold shortlistIds interleave
  dsimp only
  rw [hloop, foldlM_takeUntil hmax]
  by_cases hlt : (firsts (rankMajor perQuery ((perQuery.map List.length).max?.getD 0))).length <
      maxObservations
  · rw [if_pos hlt, List.take_of_length_le hlt.le]
  · rw [if_neg hlt]

omit [TrialFloat F] in
/-- The entries that are listed, each with its own value. -/
theorem isShortlist_of_ids {list : List (IndexedObservation F)} (hmax : 1 ≤ maxObservations)
    (hids : list.map IndexedObservation.id = shortlistIds perQuery maxObservations)
    (hvalue : ∀ o ∈ list, log[o.id.toNat]? = some o.value) :
    IsShortlist perQuery maxObservations log list := by
  rw [shortlistIds_eq hmax] at hids
  constructor
  · rw [hids]
    exact nodup_interleave _ _ _
  · rw [← List.length_map IndexedObservation.id, hids]
    exact List.length_take_le _ _
  · intro o ho
    have hmem : o.id ∈ list.map IndexedObservation.id := List.mem_map_of_mem ho
    rw [hids] at hmem
    exact exists_mem_of_mem_interleave hmem
  · intro x y r s hx hy hrs hmem
    rw [hids] at hmem ⊢
    exact interleave_before length_le_maxRank hx hy hrs hmem
  · intro hfits row hrow id hid
    rw [hids]
    exact mem_interleave_of_fits length_le_maxRank hfits ⟨row, hrow, hid⟩
  · exact hvalue

omit [Floating D] [TrialFloat F] in
theorem zipWith_observations {ids : List UInt64} {values : List D}
    (h : List.Forall₂ (fun id value => log[id.toNat]? = some (toF32 value)) ids values) :
    (List.zipWith (fun id value => (⟨id, toF32 value⟩ : IndexedObservation F)) ids values).map
        IndexedObservation.id = ids ∧
      ∀ o ∈ List.zipWith (fun id value => (⟨id, toF32 value⟩ : IndexedObservation F)) ids values,
        log[o.id.toNat]? = some o.value := by
  induction h with
  | nil => exact ⟨rfl, by simp⟩
  | cons hvalue _ ih =>
    rw [List.zipWith_cons_cons, List.map_cons, ih.1, List.forall_mem_cons]
    exact ⟨rfl, hvalue, ih.2⟩

variable [DecidableEq F] [ExactWidening D F]

omit [ExactWidening D F] [Floating D] [DecidableEq F] in
theorem Labelled.row_eq (hb : Labelled b log) {i : ℕ} {row : List D}
    (hrow : b.trainY.mmapRowSlice i = .ok row) :
    ∃ value, log[i]? = some value ∧ row = [toF64 value] := by
  have hi : i < b.trainY.nrows := by
    by_contra hge
    rw [MmapColumnStore.mmapRowSlice, if_pos (not_lt.mp hge)] at hrow
    cases hrow
  rw [MmapColumnStore.mmapRowSlice_eq hi, hb.rows_y] at hrow
  have hlog : i < log.length := by rwa [hb.length, ← hb.filed.nrows_y]
  obtain rfl := Except.ok.inj hrow
  refine ⟨log[i], List.getElem?_eq_getElem hlog, ?_⟩
  rw [List.getD_eq_getElem _ _ (by simpa using hlog), List.getElem_map]

omit [Floating D] [DecidableEq F] in
theorem Labelled.value_eq (hb : Labelled b log) {i : ℕ} {row : List D} {value : D}
    (hrow : b.trainY.mmapRowSlice i = .ok row) (hvalue : row[0]? = some value) :
    log[i]? = some (toF32 value) := by
  obtain ⟨v, hlog, rfl⟩ := hb.row_eq hrow
  obtain rfl := Option.some.inj hvalue
  rw [hlog, ExactWidening.toF32_toF64 _ (hb.finite v (List.mem_of_getElem? hlog))]

omit [Floating D] [DecidableEq F] in
theorem Labelled.of_observations (hb : Labelled b log) {ids : List UInt64}
    {list : List (IndexedObservation F)} (h : observations b ids = .ok list) :
    list.map IndexedObservation.id = ids ∧ ∀ o ∈ list, log[o.id.toNat]? = some o.value := by
  unfold observations firstColumn at h
  obtain ⟨rows, hrows, h⟩ := Outcome.bind_eq_ok.mp h
  obtain ⟨values, hvalues, h⟩ := Outcome.bind_eq_ok.mp h
  obtain rfl := Outcome.pure_eq_ok.mp h
  apply zipWith_observations
  have hgather : b.trainY.mmapGather (ids.map UInt64.toNat) = .ok rows.y := by
    unfold BpannBackend.trainRowsAt bpannTrainRowsAt at hrows
    split at hrows
    next => cases hrows
    next =>
      obtain ⟨x, -, hrows⟩ := Outcome.bind_eq_ok.mp hrows
      obtain ⟨y, hy, hrows⟩ := Outcome.bind_eq_ok.mp hrows
      rw [hb.trainYvar] at hrows
      obtain rfl := Outcome.pure_eq_ok.mp hrows
      exact hy
  have hrow := List.forall₂_map_left_iff.mp (mapM_ok_iff.mp hgather)
  apply (forall₂_trans hrow (mapM_ok_iff.mp hvalues)).imp
  rintro id value ⟨row, hslice, hcolumn⟩
  exact hb.value_eq hslice (Outcome.ofOption_eq_ok.mp hcolumn)

omit [ExactWidening D F] [Floating D] [DecidableEq F] in
/-- Rows that are stored can be read. -/
theorem Labelled.exists_observations (hb : Labelled b log) {ids : List UInt64}
    (h : ∀ id ∈ ids, id.toNat < log.length) :
    ∃ list : List (IndexedObservation F), BpannHistory.observations b ids = .ok list := by
  have hgather : ∀ store : MmapColumnStore D, store.nrows = b.len →
      ∃ rows, store.mmapGather (ids.map UInt64.toNat) = .ok rows := by
    intro store hn
    apply Outcome.exists_mapM_iff.mpr
    intro i hi
    obtain ⟨id, hid, rfl⟩ := List.mem_map.mp hi
    exact ⟨_, MmapColumnStore.mmapRowSlice_eq (by rw [hn, ← hb.length]; exact h id hid)⟩
  obtain ⟨x, hx⟩ := hgather b.trainX rfl
  obtain ⟨y, hy⟩ := hgather b.trainY hb.filed.nrows_y
  have hrows : b.trainRowsAt (ids.map UInt64.toNat) = .ok ⟨x, y, none⟩ := by
    unfold BpannBackend.trainRowsAt bpannTrainRowsAt
    have hfind : (ids.map UInt64.toNat).find? (b.len ≤ ·) = none := by
      rw [List.find?_eq_none]
      intro i hi
      obtain ⟨id, hid, rfl⟩ := List.mem_map.mp hi
      have hlt := h id hid
      rw [hb.length] at hlt
      simpa using hlt
    rw [hfind, hb.trainYvar]
    dsimp only
    rw [hx, hy]
    rfl
  have hvalues : ∃ values, firstColumn y = .ok values := by
    apply Outcome.exists_mapM_iff.mpr
    intro row hrow
    obtain ⟨i, -, hslice⟩ := exists_mem_left (mapM_ok_iff.mp hy) hrow
    obtain ⟨value, -, rfl⟩ := hb.row_eq hslice
    exact ⟨_, rfl⟩
  obtain ⟨values, hvalues⟩ := hvalues
  unfold BpannHistory.observations
  rw [hrows]
  change ∃ list, (firstColumn y >>= _) = .ok list
  rw [hvalues]
  exact ⟨_, rfl⟩

end Spec

end BpannHistory

open BpannHistory

/-- In every history that is reached, an append that returns an id gives its value to the next row,
and a shortlist interleaves what a search finds, with the values of its rows. -/
theorem shortlist_of_history [DecidableEq F] [ExactWidening D F] {h : BpannHistory D F}
    {log : List F} (hreached : Reached h log) :
    (∀ env descriptor value id, (h.append env descriptor value).1 = .ok id →
      id.toNat = log.length ∧
        logged log value h (h.append env descriptor value).2 = log ++ [value]) ∧
    ∀ t queries neighborsPerQuery maxObservations,
      (∀ list, (h.shortlist t queries neighborsPerQuery maxObservations).1 = .ok list →
        ∃ perQuery, (h.search t queries neighborsPerQuery).1 = .ok perQuery ∧
          IsShortlist perQuery maxObservations log list) ∧
      ∀ perQuery, 1 ≤ maxObservations → (h.search t queries neighborsPerQuery).1 = .ok perQuery →
        (∀ row ∈ perQuery, ∀ id ∈ row, id.toNat < log.length) →
        ∃ list, (h.shortlist t queries neighborsPerQuery maxObservations).1 = .ok list := by
  have hb := hreached.labelled
  refine ⟨fun env descriptor value => (append_ends hb env descriptor value).1, ?_⟩
  intro t queries neighborsPerQuery maxObservations
  have hafter := hb.search_history t queries neighborsPerQuery
  unfold BpannHistory.shortlist
  constructor
  · intro list hlist
    by_cases h0 : maxObservations = 0
    · rw [if_pos h0] at hlist
      cases hlist
    · rw [if_neg h0] at hlist
      have hmax : 1 ≤ maxObservations := Nat.pos_of_ne_zero h0
      cases hsearch : (h.search t queries neighborsPerQuery).1 with
      | error e =>
        dsimp only at hlist
        rw [hsearch] at hlist
        cases hlist
      | ok perQuery =>
        refine ⟨perQuery, rfl, ?_⟩
        dsimp only at hlist
        rw [hsearch] at hlist
        dsimp only [Except.bind] at hlist
        split at hlist
        next hnil =>
          obtain rfl := Except.ok.inj hlist
          exact isShortlist_of_ids hmax (List.isEmpty_iff.mp hnil).symm (by simp)
        next =>
          obtain ⟨hids, hvalue⟩ := hafter.of_observations (mapErr_eq_ok.mp hlist)
          exact isShortlist_of_ids hmax hids hvalue
  · intro perQuery hmax hsearch hlt
    rw [if_neg (Nat.pos_iff_ne_zero.mp hmax)]
    dsimp only
    rw [hsearch]
    dsimp only [Except.bind]
    split
    next => exact ⟨[], rfl⟩
    next =>
      have hids : ∀ id ∈ shortlistIds perQuery maxObservations, id.toNat < log.length := by
        intro id hid
        rw [shortlistIds_eq hmax] at hid
        obtain ⟨row, hrow, hmem⟩ := Ranking.exists_mem_of_mem_interleave hid
        exact hlt row hrow id hmem
      obtain ⟨list, hlist⟩ := hafter.exists_observations hids
      exact ⟨list, mapErr_eq_ok.mpr hlist⟩

/-- Two observations, of which the second is the nearest. -/
theorem shortlist_of_history_two :
    ∃ h : BpannHistory ℚ ℚ, Reached h [5, 7] ∧ ∃ list perQuery,
      (h.shortlist defaultEnv.tuning (.column [3]) 1 1).1 = .ok list ∧
        IsShortlist perQuery 1 [5, 7] list := by
  have hnew : ∃ h : BpannHistory ℚ ℚ, BpannHistory.new defaultEnv {} 1 = .ok h ∧
      (h.append defaultEnv [0] 5).1 = .ok 0 ∧
      ((h.append defaultEnv [0] 5).2.append defaultEnv [3] 7).1 = .ok 1 ∧
      (((h.append defaultEnv [0] 5).2.append defaultEnv [3] 7).2.search defaultEnv.tuning
        (.column [3]) 1).1 = .ok [[1]] :=
    ⟨_, rfl, by decide +kernel, by decide +kernel, by decide +kernel⟩
  obtain ⟨h, hnew, hfirst, hsecond, hsearch⟩ := hnew
  have h₀ : Reached h [] := .new defaultEnv 1 hnew
  have h₁ := Reached.append defaultEnv [0] 5 h₀
  rw [((shortlist_of_history h₀).1 _ _ _ _ hfirst).2] at h₁
  have h₂ := Reached.append defaultEnv [3] 7 h₁
  rw [((shortlist_of_history h₁).1 _ _ _ _ hsecond).2] at h₂
  obtain ⟨hspec, hreturns⟩ := (shortlist_of_history h₂).2 defaultEnv.tuning (.column [3]) 1 1
  obtain ⟨list, hlist⟩ := hreturns [[1]] le_rfl hsearch (by simp)
  obtain ⟨perQuery, -, hlists⟩ := hspec list hlist
  exact ⟨_, h₂, list, perQuery, hlist, hlists⟩

end Ennbo.Trials
