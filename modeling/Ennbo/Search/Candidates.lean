import Ennbo.Index.Searchable
import Ennbo.Search.Tree
import Mathlib.Data.List.Flatten
import Mathlib.Data.List.Perm.Subperm

/-! # What a search of the fragments finds

A search reaches some leaves of some fragments and returns the nearest of their
rows. Descents end, no row is reached twice, and the distances are those of the
rows where the leaves hold the rows' vectors.
-/

namespace Ennbo

open Ranking

section Selections

variable {α β : Type}

theorem flatMap_subperm {f g : α → List β} {l : List α} (h : ∀ a ∈ l, (g a).Subperm (f a)) :
    (l.flatMap g).Subperm (l.flatMap f) := by
  induction l with
  | nil => exact List.Subperm.refl _
  | cons a l ih =>
    rw [List.forall_mem_cons] at h
    rw [List.flatMap_cons, List.flatMap_cons]
    exact List.Subperm.append h.1 (ih h.2)

theorem subperm_flatMap {f : α → List β} {l l' : List α} (h : l'.Subperm l) :
    (l'.flatMap f).Subperm (l.flatMap f) := by
  obtain ⟨m, hperm, hsub⟩ := h
  exact ⟨_, hperm.flatMap_right f, hsub.flatMap f⟩

theorem nodup_of_subperm {l l' : List β} (h : l'.Subperm l) (hl : l.Nodup) : l'.Nodup := by
  obtain ⟨m, hperm, hsub⟩ := h
  exact hperm.nodup_iff.mp (hsub.nodup hl)

end Selections

section Scoring

variable {K : Type} [ExactArith K] {store : MmapSearchStore K} {query : List K}

def MmapSearchStore.data (store : MmapSearchStore K) : ℕ → List K :=
  rowData store.trainX.rows store.scaleX store.xScale

def MmapSearchStore.dist (store : MmapSearchStore K) (query : List K) (i : ℕ) : K :=
  sqDist query (store.data i)

def MmapSearchStore.Fits (store : MmapSearchStore K) (query : List K) : Prop :=
  ∀ i < store.trainX.nrows, query.length = (store.data i).length

theorem scoreRow_eq (hfit : store.Fits query) {i : ℕ} (hi : i < store.trainX.nrows) :
    scoreRow store query i = .ok (i, store.dist query i) := by
  unfold scoreRow
  rw [MmapColumnStore.mmapRowSlice_eq hi]
  change Except.ok (i, l2SqF32 query (store.data i)) = _
  rw [l2SqF32_eq (hfit i hi)]
  rfl

theorem mapM_scoreRow_eq (hfit : store.Fits query) {rows : List ℕ}
    (hrows : ∀ i ∈ rows, i < store.trainX.nrows) :
    rows.mapM (scoreRow store query) = .ok (scored (store.dist query) rows) := by
  rw [mapM_ok_iff, scored, List.forall₂_map_right_iff, List.forall₂_same]
  exact fun i hi => scoreRow_eq hfit (hrows i hi)

/-- A leaf yields its rows, with their distances where it holds their vectors. -/
theorem scoreLeafPage_eq (hfit : store.Fits query) {p : Page K} (hok : p.LeafOk)
    (hrows : ∀ i ∈ p.leafRows, i < store.trainX.nrows) :
    ∃ hits, scoreLeafPage (some store) query p = .ok hits ∧ hits.map Prod.fst = p.leafRows ∧
      (p.Holds store.data → hits = scored (store.dist query) p.leafRows) := by
  match p, hok, hrows with
  | .internal _ _ _, _, _ => exact ⟨[], rfl, rfl, fun _ => rfl⟩
  | .leaf _ _ (some (start, stop)) _ _, hok, hrows =>
    refine ⟨_, ?_, ids_scored _ _, fun _ => rfl⟩
    change start ≤ stop at hok
    change scoreLeafRange (some store) query start stop = _
    unfold scoreLeafRange
    rw [if_neg hok.not_gt]
    exact mapM_scoreRow_eq hfit hrows
  | .leaf _ rowIds none [] _, _, hrows =>
    exact ⟨_, mapM_scoreRow_eq hfit hrows, ids_scored _ _, fun _ => rfl⟩
  | .leaf _ rowIds none (v :: vs) _, hok, hrows =>
    change (v :: vs).length = rowIds.length at hok
    refine ⟨rowIds.zip (batchedSqL2F32 query (v :: vs)), rfl, ?_, ?_⟩
    · rw [List.map_fst_zip (by simp [batchedSqL2F32, ← hok])]
      rfl
    · intro hholds
      change v :: vs = rowIds.map store.data at hholds
      rw [hholds, batchedSqL2F32, List.map_map, ← List.map_prod_left_eq_zip]
      refine List.map_congr_left fun i hi => ?_
      rw [Function.comp, l2SqF32_eq (hfit i (hrows i hi))]
      rfl

/-- Scoring pages ranks the rows of all of them. -/
theorem scorePages_eq (hfit : store.Fits query) (pages : List (Page K))
    (hok : ∀ p ∈ pages, p.LeafOk)
    (hrows : ∀ i ∈ pages.flatMap Page.leafRows, i < store.trainX.nrows) (k : ℕ) :
    ∃ hits, scorePages (some store) query pages k = .ok (topK ScoredLe k hits) ∧
      hits.map Prod.fst = pages.flatMap Page.leafRows ∧
      ((∀ p ∈ pages, p.Holds store.data) →
        hits = scored (store.dist query) (pages.flatMap Page.leafRows)) := by
  have hall : ∃ parts : List (List (ℕ × K)),
      pages.mapM (scoreLeafPage (some store) query) = .ok parts ∧
      parts.flatten.map Prod.fst = pages.flatMap Page.leafRows ∧
      ((∀ p ∈ pages, p.Holds store.data) →
        parts.flatten = scored (store.dist query) (pages.flatMap Page.leafRows)) := by
    induction pages with
    | nil => exact ⟨[], rfl, rfl, fun _ => rfl⟩
    | cons p pages ih =>
      rw [List.forall_mem_cons] at hok
      rw [List.flatMap_cons, List.forall_mem_append] at hrows
      obtain ⟨hits, hscore, hids, hholds⟩ := scoreLeafPage_eq hfit hok.1 hrows.1
      obtain ⟨parts, hparts, hpids, hpholds⟩ := ih hok.2 hrows.2
      refine ⟨hits :: parts, ?_, ?_, ?_⟩
      · rw [List.mapM_cons, hscore, hparts]
        rfl
      · rw [List.flatten_cons, List.map_append, hids, hpids, List.flatMap_cons]
      · intro h
        rw [List.forall_mem_cons] at h
        rw [List.flatten_cons, hholds h.1, hpholds h.2, List.flatMap_cons]
        simp [scored]
  obtain ⟨parts, hparts, hids, hholds⟩ := hall
  refine ⟨parts.flatten, ?_, hids, hholds⟩
  unfold scorePages
  rw [hparts]
  rfl

end Scoring

section Descent

variable {F : Type} [Floating F] {index : BpannIndex F} {query : List F}

omit [Floating F] in
theorem nodup_visit {leaves : List ℕ} (h : leaves.Nodup) (id : ℕ) : (visit leaves id).Nodup := by
  unfold visit
  split
  · exact h
  next hid => simpa [List.nodup_append, h] using fun a ha (he : a = id) => hid (he ▸ ha)

/-- A descent through pages listed before their children ends. -/
theorem exists_collectCandidateLeaves (hids : index.pageIds.Nodup) {order : List (Page F)}
    (horder : ParentsFirst order) (hpages : ∀ q ∈ order, q ∈ index.pages) (beamWidth : ℕ)
    {depth : ℕ} (hdepth : order.length ≤ depth) {p : Page F} (hp : p ∈ order) {leaves : List ℕ}
    (hl : leaves.Nodup) :
    ∃ leaves', collectCandidateLeaves index query beamWidth depth p leaves = .ok leaves' ∧
      leaves'.Nodup := by
  induction order generalizing depth p leaves with
  | nil => simp at hp
  | cons q rest ih =>
    obtain ⟨hb, hc, hrest⟩ := horder
    rw [List.forall_mem_cons] at hpages
    rw [List.length_cons] at hdepth
    rcases List.mem_cons.mp hp with rfl | hp
    · obtain ⟨d, rfl⟩ : ∃ d, depth = d + 1 := ⟨depth - 1, by omega⟩
      cases p with
      | leaf pageId rowIds rowRange vectors c => exact ⟨_, rfl, nodup_visit hl _⟩
      | internal pageId centroids childPageIds =>
        rw [collectCandidateLeaves]
        refine Outcome.exists_foldlM (P := List.Nodup) (fun i hi leaves hl => ?_) hl
        have hmem := (List.mem_insertionSort _).mp (List.mem_of_mem_take hi)
        obtain ⟨⟨c, j⟩, hj, rfl⟩ := List.mem_map.mp hmem
        have hjlt : j < childPageIds.length := by
          have := List.snd_lt_of_mem_zipIdx hj
          change centroids.length = childPageIds.length at hb
          omega
        obtain ⟨child, hchild, hid⟩ := List.mem_map.mp (hc _ (List.getElem_mem hjlt))
        have hfind := BpannIndex.pageById_of_mem hids (hpages.2 child hchild)
        rw [hid] at hfind
        obtain ⟨leaves', hleaves, hnodup⟩ := ih hrest hpages.2 (by omega : rest.length ≤ d) hchild hl
        refine ⟨leaves', ?_, hnodup⟩
        rw [Outcome.bind_eq_ok]
        refine ⟨childPageIds[j], ?_, ?_⟩
        · rw [List.getElem?_eq_getElem hjlt]
          rfl
        · rw [hfind]
          exact hleaves
    · exact ih hrest hpages.2 (by omega) hp hl

omit [Floating F] in
theorem nodup_followSkipEdges (edges : SkipEdges) {initial : List ℕ} (h : initial.Nodup) :
    (followSkipEdges edges initial).Nodup := by
  unfold followSkipEdges
  refine List.foldlRecOn initial _ h fun leaves hl leafId _ => ?_
  split
  · exact hl
  · split
    · exact hl
    · refine List.foldlRecOn _ _ hl fun leaves hl next _ => ?_
      split
      · exact hl
      · exact nodup_visit hl next

omit [Floating F] in
theorem BpannIndex.ids_filterMap_sublist {β : Type} (index : BpannIndex F) (f : Page F → β)
    (leaves : List ℕ) : ((leaves.filterMap fun leafId => (index.pageById leafId).map fun page =>
      (leafId, f page)).map Prod.fst).Sublist leaves := by
  induction leaves with
  | nil => simp
  | cons leafId leaves ih =>
    rw [List.filterMap_cons]
    cases index.pageById leafId with
    | none => exact ih.cons _
    | some page => exact ih.cons_cons _

theorem nodup_truncateCandidateLeaves (leaves : List ℕ) (h : leaves.Nodup) (limit : ℕ) :
    (truncateCandidateLeaves index query leaves limit).Nodup := by
  unfold truncateCandidateLeaves
  split
  · exact h
  · have hsub := index.ids_filterMap_sublist
      (fun page : Page F => l2SqF32 query page.centroid) leaves
    have hperm := (List.perm_insertionSort (fun a b : ℕ × F => cmpOrEqual a.2 b.2 ≠ .gt)
      (leaves.filterMap fun leafId => (index.pageById leafId).map fun page =>
        (leafId, l2SqF32 query page.centroid))).map Prod.fst
    exact ((List.take_sublist _ _).map Prod.fst).nodup (hperm.nodup_iff.mpr (hsub.nodup h))

theorem exists_candidateLeaves (query : List F) (hs : index.Searchable) (beamWidth : ℕ)
    (useSkipEdges : Bool) :
    ∃ leaves, candidateLeaves index query beamWidth useSkipEdges = .ok leaves ∧ leaves.Nodup := by
  have hdescend : ∃ leaves, descend index query beamWidth = .ok leaves ∧ leaves.Nodup := by
    unfold descend
    split
    next root hroot =>
      obtain ⟨order, hperm, horder⟩ := hs.ordered
      exact exists_collectCandidateLeaves hs.pageIds horder (fun q hq => hperm.mem_iff.mp hq)
        beamWidth hperm.length_eq.le (hperm.mem_iff.mpr (BpannIndex.pageById_eq_some hroot).1)
        List.nodup_nil
    next => exact ⟨[], rfl, List.nodup_nil⟩
  obtain ⟨leaves, hleaves, hnodup⟩ := hdescend
  have hfollow :
      (if useSkipEdges then followSkipEdges index.skipEdges leaves else leaves).Nodup := by
    split
    · exact nodup_followSkipEdges _ hnodup
    · exact hnodup
  refine ⟨truncateCandidateLeaves index query
    (if useSkipEdges then followSkipEdges index.skipEdges leaves else leaves)
    MAX_CANDIDATE_LEAVES, ?_, nodup_truncateCandidateLeaves _ hfollow _⟩
  unfold candidateLeaves
  rw [hleaves]
  rfl

end Descent

section Fragments

variable {F : Type} [Floating F]

/-- The pages that a search of a fragment scores. -/
def reachedPages (t : Tuning) (index : BpannIndex F) (query : List F) : List (Page F) :=
  let rows := index.header.indexedRows
  if t.1.useExhaustiveSearch rows then index.pages
  else
    match candidateLeaves index query (searchBeamWidth t) (t.1.useSkipRefinementSearch rows) with
    | .ok leaves => leaves.filterMap index.pageById
    | .error _ => []

omit [Floating F] in
theorem nodup_filterMap_pageById {index : BpannIndex F} {leaves : List ℕ} (h : leaves.Nodup) :
    (leaves.filterMap index.pageById).Nodup := by
  refine h.filterMap fun id id' page hp hp' => ?_
  rw [← (BpannIndex.pageById_eq_some hp).2, ← (BpannIndex.pageById_eq_some hp').2]

omit [Floating F] in
theorem nodup_pages {index : BpannIndex F} (h : index.pageIds.Nodup) : index.pages.Nodup :=
  List.Nodup.of_map _ h

/-- The leaves can be scored, and a fragment that is too large for a scan can be searched. -/
structure BpannIndex.Scannable (t : Tuning) (index : BpannIndex F) : Prop where
  leaves : ∀ p ∈ index.pages, p.LeafOk
  searchable : t.1.useExhaustiveSearch index.header.indexedRows = false → index.Searchable

omit [Floating F] in
theorem BpannIndex.Searchable.scannable {index : BpannIndex F} (h : index.Searchable)
    (t : Tuning) : index.Scannable t :=
  ⟨h.leaves, fun _ => h⟩

theorem reachedPages_subperm {t : Tuning} {index : BpannIndex F} (hs : index.Scannable t)
    (query : List F) : (reachedPages t index query).Subperm index.pages := by
  unfold reachedPages
  dsimp only
  split
  · exact List.Subperm.refl _
  next hex =>
    obtain ⟨leaves, hleaves, hnodup⟩ := exists_candidateLeaves query
      (hs.searchable (by simpa using hex)) (searchBeamWidth t)
      (t.1.useSkipRefinementSearch index.header.indexedRows)
    rw [hleaves]
    refine List.subperm_of_subset (nodup_filterMap_pageById hnodup) fun p hp => ?_
    obtain ⟨id, -, hid⟩ := List.mem_filterMap.mp hp
    exact (BpannIndex.pageById_eq_some hid).1

variable {K : Type} [ExactArith K] {store : MmapSearchStore K} {query : List K}

/-- A search of a fragment ranks the rows of the pages it reaches. -/
theorem searchIndexCandidates_eq {t : Tuning} {index : BpannIndex K} (hfit : store.Fits query)
    (hs : index.Scannable t) (hrows : ∀ i ∈ index.leafRows, i < store.trainX.nrows) (k : ℕ) :
    ∃ hits, searchIndexCandidates t index query k (some store) = .ok (topK ScoredLe k hits) ∧
      hits.map Prod.fst = (reachedPages t index query).flatMap Page.leafRows ∧
      ((∀ p ∈ index.pages, p.Holds store.data) →
        hits = scored (store.dist query) ((reachedPages t index query).flatMap Page.leafRows)) := by
  have hsub := (reachedPages_subperm hs query).subset
  obtain ⟨hits, hscore, hids, hholds⟩ := scorePages_eq hfit (reachedPages t index query)
    (fun p hp => hs.leaves p (hsub hp))
    (fun i hi => by
      obtain ⟨p, hp, hi⟩ := List.mem_flatMap.mp hi
      exact hrows i (List.mem_flatMap.mpr ⟨p, hsub hp, hi⟩)) k
  refine ⟨hits, ?_, hids, fun h => hholds fun p hp => h p (hsub hp)⟩
  unfold searchIndexCandidates
  dsimp only
  split
  next hex =>
    unfold searchExhaustiveLeavesWithStore
    rwa [reachedPages, if_pos hex] at hscore
  next hex =>
    obtain ⟨leaves, hleaves, -⟩ := exists_candidateLeaves query
      (hs.searchable (by simpa using hex)) (searchBeamWidth t)
      (t.1.useSkipRefinementSearch index.header.indexedRows)
    have hreached : reachedPages t index query = leaves.filterMap index.pageById := by
      unfold reachedPages
      dsimp only
      rw [if_neg hex, hleaves]
    unfold searchIndex
    split
    next h0 =>
      -- the early return: there is no page to score, or no row is wanted
      rcases h0 with h0 | h0
      · rw [List.isEmpty_iff.mp h0, List.subset_nil] at hsub
        rw [hsub, List.flatMap_nil, List.map_eq_nil_iff] at hids
        rw [hids, topK_nil]
        rfl
      · rw [h0, topK_zero]
        rfl
    next =>
      rw [hleaves]
      rwa [hreached] at hscore

end Fragments

namespace IncrementalIndex

section Reached

variable {D F : Type} [Floating F]

/-- The rows that a search of all fragments reaches. -/
def reachedRows (t : Tuning) (s : IncrementalIndex D F) (query : List F) : List ℕ :=
  (s.indicesToSearch t query).flatMap fun index =>
    (reachedPages t index query).flatMap Page.leafRows

variable {t : Tuning} {s : IncrementalIndex D F}

theorem indicesToSearch_subperm (query : List F) :
    (s.indicesToSearch t query).Subperm s.indices := by
  unfold indicesToSearch
  dsimp only
  split
  · exact List.Subperm.refl _
  · have hperm := (List.perm_insertionSort (fun a b : F × BpannIndex F => cmpOrEqual a.1 b.1 ≠ .gt)
      (s.indices.map fun index =>
        (if index.rootCentroid.isEmpty then infinity else l2SqF32 query index.rootCentroid,
          index))).map Prod.snd
    rw [List.map_map] at hperm
    have hid : (s.indices.map (Prod.snd ∘ fun index =>
        ((if index.rootCentroid.isEmpty then infinity else l2SqF32 query index.rootCentroid : F),
          index))) = s.indices := List.map_id _
    rw [hid] at hperm
    exact ((List.take_sublist _ _).map Prod.snd).subperm.trans hperm.subperm

theorem reachedRows_subperm (hs : ∀ idx ∈ s.indices, idx.Scannable t) (query : List F) :
    (s.reachedRows t query).Subperm (s.indices.flatMap BpannIndex.leafRows) := by
  have hsub := indicesToSearch_subperm (t := t) (s := s) query
  refine (flatMap_subperm fun index hindex => ?_).trans (subperm_flatMap hsub)
  exact subperm_flatMap (reachedPages_subperm (hs index (hsub.subset hindex)) query)

theorem reachedRows_of_exhaustive {query : List F}
    (hbudget : s.indices.length ≤ searchFragmentBudget t s.indices.length s.indexedRows)
    (hrows : ∀ idx ∈ s.indices, idx.header.indexedRows ≤ t.1.exhaustiveSearchRowLimit) :
    s.reachedRows t query = s.indices.flatMap BpannIndex.leafRows := by
  unfold reachedRows indicesToSearch
  dsimp only
  rw [if_pos hbudget]
  refine List.flatMap_congr fun index hindex => ?_
  have hex : t.1.useExhaustiveSearch index.header.indexedRows = true := by
    simpa [BpannTuning.useExhaustiveSearch] using hrows index hindex
  unfold reachedPages
  dsimp only
  rw [if_pos hex]
  rfl

end Reached

variable {K : Type} [ExactArith K] {store : MmapSearchStore K} {query : List K} {t : Tuning}
  {s : IncrementalIndex K K}

/-- The parts that a search of some fragments collects, each cut to `k` entries. -/
theorem mapM_searchIndexCandidates (hfit : store.Fits query) {indices : List (BpannIndex K)}
    (hs : ∀ idx ∈ indices, idx.Scannable t)
    (hrows : ∀ idx ∈ indices, ∀ i ∈ idx.leafRows, i < store.trainX.nrows) (k : ℕ) :
    ∃ parts : List (List (ℕ × K)),
      indices.mapM (fun index => searchIndexCandidates t index query k (some store)) =
        .ok (parts.map (topK ScoredLe k)) ∧
      parts.flatten.map Prod.fst =
        indices.flatMap (fun index => (reachedPages t index query).flatMap Page.leafRows) ∧
      ((∀ idx ∈ indices, ∀ p ∈ idx.pages, p.Holds store.data) →
        parts.flatten = scored (store.dist query)
          (indices.flatMap fun index => (reachedPages t index query).flatMap Page.leafRows)) := by
  induction indices with
  | nil => exact ⟨[], rfl, rfl, fun _ => rfl⟩
  | cons index indices ih =>
    rw [List.forall_mem_cons] at hs hrows
    obtain ⟨hits, hsearch, hids, hholds⟩ :=
      searchIndexCandidates_eq (t := t) hfit hs.1 hrows.1 k
    obtain ⟨parts, hparts, hpids, hpholds⟩ := ih hs.2 hrows.2
    refine ⟨hits :: parts, ?_, ?_, ?_⟩
    · rw [List.mapM_cons, hsearch, hparts]
      rfl
    · rw [List.flatten_cons, List.map_append, hids, hpids, List.flatMap_cons]
    · intro h
      rw [List.forall_mem_cons] at h
      rw [List.flatten_cons, hholds h.1, hpholds h.2, List.flatMap_cons]
      simp [scored]

theorem searchCandidates_eq (hfit : store.Fits query) (hs : ∀ idx ∈ s.indices, idx.Scannable t)
    (hrows : ∀ idx ∈ s.indices, ∀ i ∈ idx.leafRows, i < store.trainX.nrows) (k : ℕ) :
    ∃ hits, s.searchCandidates t query k (some store) = .ok (topK ScoredLe k hits) ∧
      hits.map Prod.fst = s.reachedRows t query ∧
      ((∀ idx ∈ s.indices, ∀ p ∈ idx.pages, p.Holds store.data) →
        hits = scored (store.dist query) (s.reachedRows t query)) := by
  have hsub := (indicesToSearch_subperm (t := t) (s := s) query).subset
  obtain ⟨parts, hparts, hids, hholds⟩ := mapM_searchIndexCandidates (t := t) hfit
    (fun idx h => hs idx (hsub h)) (fun idx h => hrows idx (hsub h))
    (perFragmentK k s.indices.length (s.indicesToSearch t query).length)
  refine ⟨parts.flatten, ?_, hids, fun h => hholds fun idx hidx => h idx (hsub hidx)⟩
  have htop := topK_flatMap_topK ScoredLe (le_max_right _ k :
    k ≤ perFragmentK k s.indices.length (s.indicesToSearch t query).length) id parts
  unfold searchCandidates
  dsimp only
  rw [hparts]
  rw [List.flatMap_id, List.flatMap_def] at htop
  exact congrArg Except.ok htop

end IncrementalIndex

end Ennbo
