import Ennbo.Model.Paths

/-! # Searches in memory

A model in memory answers from an index that holds all of its rows. What it
finds for a query does not depend on the other queries of the request.
-/

namespace Ennbo

/-- Two mappings one after another, the second over the entries and what the first made of
them. -/
theorem Outcome.mapM_zip_eq_ok {α β γ : Type} {f : α → Outcome β} {g : α × β → Outcome γ}
    (as : List α) (cs : List γ) :
    (as.mapM f >>= fun bs => (as.zip bs).mapM g) = .ok cs ↔
      List.Forall₂ (fun a c => ∃ b, f a = .ok b ∧ g (a, b) = .ok c) as cs := by
  simp only [Outcome.bind_eq_ok, mapM_ok_iff]
  constructor
  · rintro ⟨bs, hbs, hcs⟩
    induction hbs generalizing cs with
    | nil =>
      rw [List.zip_nil_left, List.forall₂_nil_left_iff] at hcs
      rw [hcs]
      exact .nil
    | cons hb _ ih =>
      rw [List.zip_cons_cons] at hcs
      cases hcs with
      | cons hc hcs => exact .cons ⟨_, hb, hc⟩ (ih _ hcs)
  · intro h
    induction h with
    | nil => exact ⟨[], .nil, .nil⟩
    | cons hc _ ih =>
      obtain ⟨b, hb, hc⟩ := hc
      obtain ⟨bs, hbs, hcs⟩ := ih
      exact ⟨b :: bs, .cons hb hbs, .cons hc hcs⟩

/-- A search that finds for each query what it finds for that query alone, with a place for each
row that is asked for. -/
structure RowWise {D F : Type} (search : NeighborSearch D) (m : EpistemicNearestNeighbors D F) :
    Prop where
  rows : ∀ (x : Array2 D) searchK excludeNearest tieBreakNeighbors hits, x.ncols = m.numDim →
    searchK ≤ m.numObs → search x searchK excludeNearest tieBreakNeighbors = .ok hits →
      List.Forall₂ (fun q row => ∃ hits', search (.ofRow q) searchK excludeNearest
        tieBreakNeighbors = .ok hits' ∧ hits'.rows = [row]) x.rows hits.rows
  wide : ∀ (x : Array2 D) searchK excludeNearest tieBreakNeighbors hits, x.ncols = m.numDim →
    searchK ≤ m.numObs → search x searchK excludeNearest tieBreakNeighbors = .ok hits →
      (if excludeNearest then searchK - 1 else searchK) ≤ hits.ncols


section Index

variable {D F : Type} [Floating D] [FloatCast D F]

namespace ENNIndex

/-- What an index finds for one query. -/
def searchRow (faiss : Faiss F) (index : ENNIndex D F) (searchK : ℕ) (q : List D) :
    List (D × ℤ) :=
  (List.range searchK).map fun j =>
    if index.len = 0 then (infinity, 0)
    else
      FaissBackend.paddedHit faiss index.inner
        ((if index.scaleX then q.mapIdx fun j v => v / index.xScale.getD j 0 else q).map
          FloatCast.toF32)
        (min searchK index.len) j

/-- What an index finds for the queries of a request. -/
def found (faiss : Faiss F) (index : ENNIndex D F) (searchK : ℕ) (x : Array2 D) : Hits D where
  ncols := searchK
  rows := x.rows.map (index.searchRow faiss searchK)
  width := by
    simp only [List.mem_map, forall_exists_index, and_imp]
    rintro _ q - rfl
    rw [searchRow, List.length_map, List.length_range]

variable {faiss : Faiss F} {index : ENNIndex D F} {x : Array2 D} {searchK : ℕ}

theorem ofRows_eq_found (h0 : index.len = 0) :
    Array2.ofRows searchK (fun _ _ => ((infinity : D), (0 : ℤ))) x =
      index.found faiss searchK x := by
  apply Array2.eq_of_rows
  · rfl
  · apply List.map_congr_left
    intro q _
    simp only [searchRow, if_pos h0]

theorem innerSearch_eq_found (h0 : index.len ≠ 0) (hdim : index.inner.numDim = x.ncols) :
    index.inner.search faiss (index.scaled x) (min searchK index.len) searchK =
      .ok (index.found faiss searchK x) := by
  have hcols : (index.scaled x).ncols = index.inner.numDim := by
    rw [hdim]
    unfold scaled
    split <;> rfl
  have hscaled : (index.scaled x).rows = x.rows.map fun q =>
      if index.scaleX then q.mapIdx fun j v => v / index.xScale.getD j 0 else q := by
    unfold scaled
    split
    · rfl
    · exact (List.map_id _).symm
  unfold FaissBackend.search FaissBackend.checkDims
  rw [if_neg (not_not.mpr hcols)]
  apply congrArg Except.ok
  apply Array2.eq_of_rows
  · exact max_eq_right (min_le_left _ _)
  · simp only [Array2.ofRows, found, hscaled, List.map_map,
      max_eq_right (min_le_left searchK index.len)]
    apply List.map_congr_left
    intro q _
    simp only [Function.comp_apply, searchRow, if_neg h0]

theorem search_eq_ok_iff (hk : 0 < searchK) (hdim : index.inner.numDim = index.numDim)
    {hits : Hits D} :
    index.search faiss x searchK false = .ok hits ↔
      x.ncols = index.numDim ∧ index.found faiss searchK x = hits := by
  unfold search
  rw [if_neg hk.ne']
  by_cases hx : x.ncols = index.numDim
  · rw [if_neg (not_not.mpr hx), and_iff_right hx]
    by_cases h0 : index.len = 0
    · rw [← ofRows_eq_found h0]
      simp [h0]
    · simp only [if_neg h0, innerSearch_eq_found h0 (hdim.trans hx.symm)]
      exact Outcome.pure_eq_ok
  · rw [if_pos hx]
    simp [hx]

end ENNIndex

end Index

namespace EpistemicNearestNeighbors

open TieBreak
open Call (Answers)

variable {D F : Type} [Floating D] [Floating F] [FloatCast D F] [Analysis D]
  {m m' : EpistemicNearestNeighbors D F} {b : InMemoryEnnBackend D F} {faiss : Faiss F}
  {env : Env F} {x : Array2 D} {searchK : ℕ} {excludeNearest tieBreakNeighbors : Bool}

/-- The candidates with the distances that they are picked by. -/
def candidates (m : EpistemicNearestNeighbors D F) (x : Array2 D) (tieBreakNeighbors : Bool)
    (hits : List (List (D × ℤ))) : Outcome (List (List (D × ℤ))) :=
  if tieBreakNeighbors then m.dist2sForNeighborIndices x hits else pure hits

/-- What the exact search of a model over these rows ends with. -/
def exactTopk (faiss : Faiss F) (m : EpistemicNearestNeighbors D F) (b : InMemoryEnnBackend D F)
    (x : Array2 D) (searchK : ℕ) (excludeNearest tieBreakNeighbors : Bool) : Outcome (Hits D) :=
  let k := min searchK m.numObs
  if k = 0 then
    pure (applyExcludeNearest (placed searchK (x.rows.map fun _ => [])) excludeNearest)
  else do
    let hits ← (b.syncedIndex m.scaleX m.xScale).search faiss x
      (m.faissSearchK searchK tieBreakNeighbors) false
    let pools ← m.candidates x tieBreakNeighbors hits.rows
    let rows ← (x.rows.zip pools).mapM fun q =>
      topkRow (m.rowDist2sForQuery q.1) q.2 k tieBreakNeighbors
    return applyExcludeNearest (placed searchK rows) excludeNearest

section Answers

variable (hb : m.backend = .inMemory b) (h : Reindexed m m')

include hb h

omit [Analysis D] in
theorem syncForSearch_answers : Answers (Reindexed m) Eq (syncForSearch env) m' (.ok ()) := by
  obtain ⟨heq, hr⟩ := h.of_syncsTo (c := syncForSearch env) (o := fun _ => .ok ())
    (fun _ _ _ _ => rfl) hb fun m₁ b hs hx hb hc => by
      rw [← hs, ← hx] at hc
      obtain ⟨index, stale, n, heq, hcoherent, -⟩ := ensureIndexSync_inMemory env hb hc
      exact ⟨index, stale, n, (syncForSearch_inMemory hb).trans heq, hcoherent⟩
  exact ⟨Outcome.matches_eq.mpr heq, hr⟩

omit [Analysis D] in
theorem backendSearch_answers (k : ℕ) :
    Answers (Reindexed m) Eq (backendSearch faiss env x k excludeNearest) m'
      ((b.syncedIndex m.scaleX m.xScale).search faiss x k excludeNearest) := by
  obtain ⟨heq, hr⟩ := h.of_syncsTo (c := backendSearch faiss env x k excludeNearest)
    (o := fun b => (b.syncedIndex m.scaleX m.xScale).search faiss x k excludeNearest)
    (fun _ _ _ _ => rfl) hb fun m₁ b hs hx hb hc => by
      rw [← hs, ← hx] at hc ⊢
      exact backendSearch_inMemory hb hc k excludeNearest
  exact ⟨Outcome.matches_eq.mpr heq, hr⟩

theorem exactF64BatchTopk_answers :
    Answers (Reindexed m) Eq
      (exactF64BatchTopk faiss env x searchK excludeNearest tieBreakNeighbors) m'
      (exactTopk faiss m b x searchK excludeNearest tieBreakNeighbors) := by
  apply Call.answers_get_bind
  unfold exactTopk faissSearchK
  rw [← h.sameReads.numObs_eq]
  apply Call.answers_ite
  · intro
    exact Call.answers_pure h rfl
  · intro
    apply (backendSearch_answers hb h _).bind
    rintro hits _ m₂ rfl h₂
    apply Call.answers_get_bind
    rw [h₂.rowDist2s_eq.1, h₂.rowDist2s_eq.2]
    apply Call.answers_ofOutcome_bind h₂
    rintro pools -
    apply Call.answers_ofOutcome_bind h₂
    rintro rows -
    exact Call.answers_pure h₂ rfl

theorem indexSearch_answers :
    Answers (Reindexed m) Eq (indexSearch faiss env x searchK excludeNearest tieBreakNeighbors) m'
      (exactTopk faiss m b x searchK excludeNearest tieBreakNeighbors) := by
  have hdo : exactTopk faiss m b x searchK excludeNearest tieBreakNeighbors =
      (do
        let _ ← (.ok () : Outcome Unit)
        exactTopk faiss m b x searchK excludeNearest tieBreakNeighbors) := rfl
  rw [hdo]
  apply (syncForSearch_answers hb h).bind
  rintro _ _ m₁ - h₁
  apply Call.answers_get_bind
  rw [if_pos h₁.driver_eq]
  exact exactF64BatchTopk_answers hb h₁

end Answers

theorem fst_exactF64BatchTopk (hb : m.backend = .inMemory b) (h : Reindexed m m') :
    (exactF64BatchTopk faiss env x searchK excludeNearest tieBreakNeighbors m').1 =
      exactTopk faiss m b x searchK excludeNearest tieBreakNeighbors :=
  Outcome.matches_eq.mp (exactF64BatchTopk_answers hb h).1

theorem fst_indexSearch (hb : m.backend = .inMemory b) (h : Reindexed m m') :
    (indexSearch faiss env x searchK excludeNearest tieBreakNeighbors m').1 =
      exactTopk faiss m b x searchK excludeNearest tieBreakNeighbors :=
  Outcome.matches_eq.mp (indexSearch_answers hb h).1

/-- The candidates of one query. -/
def candidateRow (m : EpistemicNearestNeighbors D F) (tieBreakNeighbors : Bool) (q : List D)
    (hits : List (D × ℤ)) : Outcome (List (D × ℤ)) :=
  if tieBreakNeighbors then hits.mapM fun hit => do return (← m.dist2ForId q hit.2, hit.2)
  else pure hits

/-- What the exact search finds for one query. -/
def exactRow (faiss : Faiss F) (m : EpistemicNearestNeighbors D F) (b : InMemoryEnnBackend D F)
    (searchK : ℕ) (tieBreakNeighbors : Bool) (q : List D) : Outcome (List (D × ℤ)) := do
  let hits := (b.syncedIndex m.scaleX m.xScale).searchRow faiss
    (m.faissSearchK searchK tieBreakNeighbors) q
  let pool ← m.candidateRow tieBreakNeighbors q hits
  topkRow (m.rowDist2sForQuery q) pool (min searchK m.numObs) tieBreakNeighbors

/-- A row of hits as it is handed out. -/
def handOut (searchK : ℕ) (excludeNearest : Bool) (row : List (D × ℤ)) : List (D × ℤ) :=
  let row := (List.range searchK).map fun j => row.getD j (infinity, -1)
  if excludeNearest then row.drop 1 else row

omit [Analysis D] in
theorem rows_applyExcludeNearest (rows : List (List (D × ℤ))) :
    (applyExcludeNearest (placed searchK rows) excludeNearest).rows =
      rows.map (handOut searchK excludeNearest) := by
  unfold applyExcludeNearest
  cases excludeNearest with
  | true => exact List.map_map
  | false => rfl

omit [Analysis D] in
theorem ncols_applyExcludeNearest (rows : List (List (D × ℤ))) :
    (applyExcludeNearest (placed searchK rows) excludeNearest).ncols =
      if excludeNearest then searchK - 1 else searchK := by
  unfold applyExcludeNearest
  split <;> rfl

omit [Floating D] [Floating F] [FloatCast D F] [Analysis D] in
theorem faissSearchK_pos (h : 0 < min searchK m.numObs) :
    0 < m.faissSearchK searchK tieBreakNeighbors := by
  unfold faissSearchK
  dsimp only
  split <;> omega

omit [Floating F] [FloatCast D F] [Analysis D] in
theorem candidates_eq (x : Array2 D) (f : List D → List (D × ℤ)) :
    m.candidates x tieBreakNeighbors (x.rows.map f) =
      x.rows.mapM fun q => m.candidateRow tieBreakNeighbors q (f q) := by
  unfold candidates candidateRow
  cases tieBreakNeighbors with
  | true =>
    have hzip : x.rows.zip (x.rows.map f) = x.rows.map fun q => (q, f q) := by
      apply List.ext_getElem
      · simp
      · simp
    rw [if_pos rfl, dist2sForNeighborIndices, hzip, List.mapM_map]
    rfl
  | false => exact List.mapM_pure.symm

omit [Floating F] in
/-- The exact search goes query by query. -/
theorem exactTopk_eq_ok_iff (hpos : 0 < min searchK m.numObs) {hits : Hits D} :
    exactTopk faiss m b x searchK excludeNearest tieBreakNeighbors = .ok hits ↔
      x.ncols = b.numDim ∧ ∃ rows,
        List.Forall₂ (fun q row => exactRow faiss m b searchK tieBreakNeighbors q = .ok row)
          x.rows rows ∧
        applyExcludeNearest (placed searchK rows) excludeNearest = hits := by
  have hsearch : ∀ hits, (b.syncedIndex m.scaleX m.xScale).search faiss x
      (m.faissSearchK searchK tieBreakNeighbors) false = .ok hits ↔ x.ncols = b.numDim ∧
        (b.syncedIndex m.scaleX m.xScale).found faiss (m.faissSearchK searchK tieBreakNeighbors) x =
          hits :=
    fun hits => ENNIndex.search_eq_ok_iff (faissSearchK_pos hpos) rfl
  unfold exactTopk
  simp only [if_neg hpos.ne', Outcome.bind_eq_ok, hsearch, Outcome.pure_eq_ok]
  have hrows := fun rows : List (List (D × ℤ)) => Outcome.mapM_zip_eq_ok x.rows rows
    (f := fun q => m.candidateRow tieBreakNeighbors q ((b.syncedIndex m.scaleX m.xScale).searchRow
      faiss (m.faissSearchK searchK tieBreakNeighbors) q))
    (g := fun p => topkRow (m.rowDist2sForQuery p.1) p.2 (min searchK m.numObs) tieBreakNeighbors)
  simp only [Outcome.bind_eq_ok] at hrows
  unfold exactRow
  simp only [Outcome.bind_eq_ok, ← hrows, ← candidates_eq]
  constructor
  · rintro ⟨_, ⟨hx, rfl⟩, pools, hpools, rows, hrows, rfl⟩
    exact ⟨hx, rows, ⟨pools, hpools, hrows⟩, rfl⟩
  · rintro ⟨hx, rows, ⟨pools, hpools, hrows⟩, rfl⟩
    exact ⟨_, ⟨hx, rfl⟩, pools, hpools, rows, hrows, rfl⟩

omit [Floating F] in
theorem exactTopk_of_none (h0 : min searchK m.numObs = 0) :
    exactTopk faiss m b x searchK excludeNearest tieBreakNeighbors =
      .ok (applyExcludeNearest (placed searchK (x.rows.map fun _ => [])) excludeNearest) :=
  if_pos h0

/-- The search of a model in memory is a function of the query. -/
theorem rowWise_inMemory (faiss : Faiss F) (env : Env F) (hb : m.backend = .inMemory b)
    (h : Reindexed m m) :
    RowWise (fun x searchK excludeNearest tieBreakNeighbors =>
      (indexSearch faiss env x searchK excludeNearest tieBreakNeighbors m).1) m := by
  simp only [fst_indexSearch hb h]
  constructor
  · intro x searchK excludeNearest tieBreakNeighbors hits hx _ hhits
    rcases Nat.eq_zero_or_pos (min searchK m.numObs) with h0 | hpos
    · simp only [exactTopk_of_none h0] at hhits ⊢
      obtain rfl := Except.ok.inj hhits
      rw [rows_applyExcludeNearest, List.map_map, List.forall₂_map_right_iff]
      apply List.forall₂_same.mpr
      intro q _
      exact ⟨_, rfl, rows_applyExcludeNearest _⟩
    · simp only [exactTopk_eq_ok_iff hpos] at hhits ⊢
      obtain ⟨hdim, rows, hrows, rfl⟩ := hhits
      rw [rows_applyExcludeNearest, List.forall₂_map_right_iff]
      apply ((List.forall₂_and_left _ _).mpr ⟨x.width, hrows⟩).imp
      rintro q row ⟨hq, hrow⟩
      exact ⟨_, ⟨hq.trans hdim, [row], .cons hrow .nil, rfl⟩, rows_applyExcludeNearest _⟩
  · intro x searchK excludeNearest tieBreakNeighbors hits hx _ hhits
    rcases Nat.eq_zero_or_pos (min searchK m.numObs) with h0 | hpos
    · obtain rfl := Except.ok.inj ((exactTopk_of_none h0).symm.trans hhits)
      exact (ncols_applyExcludeNearest _).ge
    · obtain ⟨-, rows, -, rfl⟩ := (exactTopk_eq_ok_iff hpos).mp hhits
      exact (ncols_applyExcludeNearest _).ge

end EpistemicNearestNeighbors

end Ennbo
