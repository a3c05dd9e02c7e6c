import Ennbo.Index.Joined
import Ennbo.Search.Refinement
import Mathlib.Data.List.Perm.Basic

/-! # A full beam is a scan

A beam as wide as the largest node keeps every child, so the descent reaches
each leaf once. The leaves come in another order than in the list of pages, and
the ranking does not see the order.
-/

namespace Ennbo

open Ranking Relation

section FullBeam

variable {F : Type} {index : BpannIndex F} {p q : Page F}

/-- Ids name pages, every page hangs below the root and none hangs below itself. -/
structure BpannIndex.Rooted (index : BpannIndex F) : Prop where
  pageIds : index.pageIds.Nodup
  branches : ∀ p ∈ index.pages, p.BranchOk
  reachable : ∀ p ∈ index.pages, index.Reachable p
  acyclic : index.Acyclic

def BpannIndex.BeamCovers (index : BpannIndex F) (beamWidth : ℕ) : Prop :=
  ∀ p ∈ index.pages, p.childPageIds.length ≤ beamWidth

instance (index : BpannIndex F) (beamWidth : ℕ) : Decidable (index.BeamCovers beamWidth) :=
  inferInstanceAs (Decidable (∀ p ∈ index.pages, p.childPageIds.length ≤ beamWidth))

theorem ParentsFirst.branchOk {pages : List (Page F)} (h : ParentsFirst pages) :
    ∀ p ∈ pages, p.BranchOk := by
  induction pages with
  | nil => simp
  | cons q rest ih =>
    obtain ⟨hq, -, hrest⟩ := h
    exact List.forall_mem_cons.mpr ⟨hq, ih hrest⟩

theorem BpannIndex.Searchable.rooted (h : index.Searchable)
    (hreach : ∀ p ∈ index.pages, index.Reachable p) : index.Rooted where
  pageIds := h.pageIds
  branches := by
    obtain ⟨order, hperm, horder⟩ := h.ordered
    exact fun p hp => horder.branchOk p (hperm.mem_iff.mpr hp)
  reachable := hreach
  acyclic := h.acyclic

variable [Floating F] {query : List F} {beamWidth : ℕ}

theorem mem_beamChildren_of_le {centroids : List (List F)} (h : centroids.length ≤ beamWidth)
    {j : ℕ} (hj : j < centroids.length) :
    (j, l2SqF32 query centroids[j]) ∈ beamChildren query beamWidth centroids := by
  unfold beamChildren
  rw [List.take_of_length_le (by simp [h]), List.mem_insertionSort, List.mem_map]
  exact ⟨(centroids[j], j), List.mk_mem_zipIdx_iff_getElem?.mpr (List.getElem?_eq_getElem hj), rfl⟩

namespace BpannIndex

theorem ChildOf.beamChild (h : index.ChildOf p q) (hp : p.BranchOk)
    (hbeam : p.childPageIds.length ≤ beamWidth) : index.BeamChild query beamWidth p q := by
  obtain ⟨id, hid, hq⟩ := h
  cases p with
  | internal pageId centroids childPageIds =>
    change centroids.length = childPageIds.length at hp
    change childPageIds.length ≤ beamWidth at hbeam
    obtain ⟨j, hj, rfl⟩ := List.mem_iff_getElem.mp hid
    have hjc : j < centroids.length := hp ▸ hj
    exact ⟨_, mem_beamChildren_of_le (hp ▸ hbeam) hjc, _, List.getElem?_eq_getElem hj, hq⟩
  | leaf => cases hid

theorem reflTransGen_beamChild (hbranch : ∀ p ∈ index.pages, p.BranchOk)
    (hbeam : index.BeamCovers beamWidth) (hp : p ∈ index.pages)
    (h : ReflTransGen index.ChildOf p q) :
    ReflTransGen (index.BeamChild query beamWidth) p q ∧ q ∈ index.pages := by
  induction h with
  | refl => exact ⟨.refl, hp⟩
  | tail _ hstep ih =>
    obtain ⟨hpath, hmem⟩ := ih
    exact ⟨hpath.tail (hstep.beamChild (hbranch _ hmem) (hbeam _ hmem)), hstep.mem⟩

/-- Under a full beam the descent reaches every leaf. -/
theorem exists_descend_full (h : index.Rooted) (hbeam : index.BeamCovers beamWidth)
    (query : List F) :
    ∃ leaves, descend index query beamWidth = .ok leaves ∧ leaves.Nodup ∧
      ∀ id, id ∈ leaves ↔ id ∈ index.leaves.map Page.pageId := by
  obtain ⟨leaves, hdescend, hnodup, hmem⟩ :=
    exists_descend h.branches h.acyclic query beamWidth
  use leaves, hdescend, hnodup
  intro id
  rw [hmem, List.mem_map]
  constructor
  · rintro ⟨root, hroot, q, hpath, hleaf, rfl⟩
    have hq : q ∈ index.pages := by
      obtain rfl | ⟨r, -, hstep⟩ := hpath.cases_tail
      · exact (pageById_eq_some hroot).1
      · exact hstep.childOf.mem
    exact ⟨q, List.mem_filter.mpr ⟨hq, hleaf⟩, rfl⟩
  · rintro ⟨q, hq, rfl⟩
    obtain ⟨hq, hleaf⟩ := List.mem_filter.mp hq
    obtain ⟨root, hroot, hpath⟩ := h.reachable q hq
    have hfull : ReflTransGen (index.BeamChild query beamWidth) root q :=
      (reflTransGen_beamChild h.branches hbeam (pageById_eq_some hroot).1 hpath).1
    exact ⟨root, hroot, q, hfull, hleaf, rfl⟩

omit [Floating F] in
theorem perm_leaves (hids : index.pageIds.Nodup) {candidates : List ℕ}
    (hnodup : candidates.Nodup) (hall : ∀ p ∈ index.leaves, p.pageId ∈ candidates) :
    ((candidates.filterMap index.pageById).filter Page.isLeaf).Perm index.leaves := by
  apply (List.perm_ext_iff_of_nodup ((nodup_filterMap_pageById hnodup).filter _)
    ((nodup_pages hids).filter _)).mpr
  intro p
  rw [List.mem_filter, List.mem_filterMap]
  constructor
  · rintro ⟨⟨id, -, hp⟩, hleaf⟩
    exact List.mem_filter.mpr ⟨(pageById_eq_some hp).1, hleaf⟩
  · intro hp
    obtain ⟨hmem, hleaf⟩ := List.mem_filter.mp hp
    exact ⟨⟨p.pageId, hall p hp, pageById_of_mem hids hmem⟩, hleaf⟩

end BpannIndex

/-- Few enough leaves are all candidates, whatever the skip edges add. -/
theorem exists_candidateLeaves_full (h : index.Rooted) (hbeam : index.BeamCovers beamWidth)
    (hfew : index.leaves.length ≤ MAX_CANDIDATE_LEAVES) (query : List F) (useSkipEdges : Bool) :
    ∃ candidates, candidateLeaves index query beamWidth useSkipEdges = .ok candidates ∧
      candidates.Nodup ∧ ∀ p ∈ index.leaves, p.pageId ∈ candidates := by
  obtain ⟨reached, hdescend, hnodup, hmem⟩ := BpannIndex.exists_descend_full h hbeam query
  have hle : reached.length ≤ MAX_CANDIDATE_LEAVES := by
    have hsub : reached.Subperm (index.leaves.map Page.pageId) :=
      List.subperm_of_subset hnodup fun id hid => (hmem id).mp hid
    have hlen := hsub.length_le
    rw [List.length_map] at hlen
    exact hlen.trans hfew
  have hall : ∀ p ∈ index.leaves, p.pageId ∈ reached :=
    fun p hp => (hmem _).mpr (List.mem_map_of_mem hp)
  have hgreedy : candidateLeaves index query beamWidth false = .ok reached := by
    simp only [candidateLeaves, Outcome.bind_eq_ok, Outcome.pure_eq_ok]
    exact ⟨reached, hdescend, truncateCandidateLeaves_of_le hle⟩
  cases useSkipEdges with
  | false => exact ⟨reached, hgreedy, hnodup, hall⟩
  | true =>
    obtain ⟨extra, hextra⟩ := exists_candidateLeaves_skip hgreedy
    use reached ++ extra, hextra
    constructor
    · simp only [candidateLeaves, Outcome.bind_eq_ok, Outcome.pure_eq_ok, hdescend,
        Except.ok.injEq, exists_eq_left', if_true] at hextra
      rw [← hextra]
      exact nodup_truncateCandidateLeaves _ (nodup_followSkipEdges _ hnodup) _
    · exact fun p hp => List.mem_append_left _ (hall p hp)

end FullBeam

section Order

variable {α β : Type} {f : α → Outcome (List β)}

theorem Outcome.mapM_perm {f : α → Outcome β} {as as' : List α} (h : as.Perm as') {bs : List β}
    (hbs : as.mapM f = .ok bs) : ∃ bs', as'.mapM f = .ok bs' ∧ bs'.Perm bs := by
  obtain ⟨bs', hbs', hperm⟩ := List.perm_comp_forall₂ h.symm (mapM_ok_iff.mp hbs)
  exact ⟨bs', mapM_ok_iff.mpr hbs', hperm⟩

/-- Entries that yield nothing may be left out. -/
theorem Outcome.mapM_filter_flatten {keep : α → Bool} (hf : ∀ a, keep a = false → f a = .ok [])
    (as : List α) (l : List β) :
    (∃ parts, (as.filter keep).mapM f = .ok parts ∧ parts.flatten = l) ↔
      ∃ parts, as.mapM f = .ok parts ∧ parts.flatten = l := by
  induction as generalizing l with
  | nil => rfl
  | cons a as ih =>
    cases ha : keep a with
    | false =>
      rw [List.filter_cons_of_neg (by simp [ha]), ih]
      simp [List.mapM_cons, hf a ha]
    | true =>
      rw [List.filter_cons_of_pos ha]
      simp only [List.mapM_cons, Outcome.bind_eq_ok, Outcome.pure_eq_ok]
      constructor
      · rintro ⟨_, ⟨part, hpart, parts, hparts, rfl⟩, rfl⟩
        obtain ⟨parts', hparts', hflat⟩ := (ih parts.flatten).mp ⟨parts, hparts, rfl⟩
        exact ⟨_, ⟨part, hpart, parts', hparts', rfl⟩, by simp [hflat]⟩
      · rintro ⟨_, ⟨part, hpart, parts, hparts, rfl⟩, rfl⟩
        obtain ⟨parts', hparts', hflat⟩ := (ih parts.flatten).mpr ⟨parts, hparts, rfl⟩
        exact ⟨_, ⟨part, hpart, parts', hparts', rfl⟩, by simp [hflat]⟩

variable {D K : Type} [Floating D] [ExactArith K] [FloatCast D K]
  {store : Option (MmapSearchStore D)} {query : List K} {pages pages' : List (Page K)} {k : ℕ}
  {hits : List (ℕ × K)}

theorem scorePages_filter_isLeaf :
    scorePages store query (pages.filter Page.isLeaf) k = .ok hits ↔
      scorePages store query pages k = .ok hits := by
  have hinternal : ∀ p : Page K, p.isLeaf = false → scoreLeafPage store query p = .ok [] := by
    intro p hp
    cases p with
    | internal => rfl
    | leaf => cases hp
  have hfilter := Outcome.mapM_filter_flatten hinternal pages
  rw [scorePages_eq_ok, scorePages_eq_ok]
  constructor
  · rintro ⟨parts, hparts, rfl⟩
    obtain ⟨parts', hparts', hflat⟩ := (hfilter parts.flatten).mp ⟨parts, hparts, rfl⟩
    exact ⟨parts', hparts', by rw [hflat]⟩
  · rintro ⟨parts, hparts, rfl⟩
    obtain ⟨parts', hparts', hflat⟩ := (hfilter parts.flatten).mpr ⟨parts, hparts, rfl⟩
    exact ⟨parts', hparts', by rw [hflat]⟩

theorem scorePages_perm (hperm : pages.Perm pages')
    (h : scorePages store query pages k = .ok hits) :
    scorePages store query pages' k = .ok hits := by
  obtain ⟨parts, hparts, rfl⟩ := scorePages_eq_ok.mp h
  obtain ⟨parts', hparts', hflat⟩ := Outcome.mapM_perm hperm hparts
  apply scorePages_eq_ok.mpr
  exact ⟨parts', hparts', topK_congr ScoredLe hflat.flatten k⟩

theorem scorePages_iff_of_perm
    (hperm : (pages.filter Page.isLeaf).Perm (pages'.filter Page.isLeaf)) :
    scorePages store query pages k = .ok hits ↔ scorePages store query pages' k = .ok hits := by
  constructor
  · intro h
    exact scorePages_filter_isLeaf.mp
      (scorePages_perm hperm (scorePages_filter_isLeaf.mpr h))
  · intro h
    exact scorePages_filter_isLeaf.mp
      (scorePages_perm hperm.symm (scorePages_filter_isLeaf.mpr h))

end Order

section Exhaustive

variable {D K : Type} [Floating D] [ExactArith K] [FloatCast D K]

theorem searchIndex_eq_exhaustive (index : BpannIndex K) (hrooted : index.Rooted)
    (hfew : index.leaves.length ≤ MAX_CANDIDATE_LEAVES) (query : List K) (k beamWidth : ℕ)
    (hbeam : index.BeamCovers beamWidth) (useSkipEdges : Bool)
    (store : Option (MmapSearchStore D)) (hits : List (ℕ × K)) :
    (searchExhaustiveLeavesWithStore index query k store = .ok hits →
      searchIndex index query k beamWidth useSkipEdges store = .ok hits) ∧
    (0 < k → searchIndex index query k beamWidth useSkipEdges store = .ok hits →
      searchExhaustiveLeavesWithStore index query k store = .ok hits) := by
  unfold searchIndex searchExhaustiveLeavesWithStore
  split_ifs with hempty
  · -- the early return: the ranking is empty as well
    have hnil : ∀ l, scorePages store query index.pages k = .ok l → l = [] := by
      intro l hl
      obtain ⟨scored, hscored, rfl⟩ := scorePages_eq_ok.mp hl
      rcases hempty with hpages | rfl
      · rw [List.isEmpty_iff.mp hpages, List.mapM_nil, Outcome.pure_eq_ok] at hscored
        rw [← hscored, List.flatten_nil, topK_nil]
      · exact topK_zero _ _
    constructor
    · intro h
      rw [hnil hits h]
      rfl
    · intro hk h
      have hpages := List.isEmpty_iff.mp (hempty.resolve_right hk.ne')
      obtain rfl := Outcome.pure_eq_ok.mp h
      rw [hpages]
      exact scorePages_eq_ok.mpr ⟨[], rfl, topK_nil _ _⟩
  · obtain ⟨candidates, hcandidates, hnodup, hall⟩ :=
      exists_candidateLeaves_full hrooted hbeam hfew query useSkipEdges
    have hsame : scorePages store query (candidates.filterMap index.pageById) k = .ok hits ↔
        scorePages store query index.pages k = .ok hits :=
      scorePages_iff_of_perm (BpannIndex.perm_leaves hrooted.pageIds hnodup hall)
    rw [hcandidates]
    exact ⟨hsame.mpr, fun _ => hsame.mp⟩

theorem rooted_twoLeaves : twoLeaves.Rooted := by
  apply searchable_twoLeaves.rooted
  intro p hp
  rcases List.mem_cons.mp hp with rfl | hp
  · exact ⟨_, rfl, .refl⟩
  · rcases List.mem_cons.mp hp with rfl | hp
    · exact ⟨_, rfl, .single ⟨1, by decide, rfl⟩⟩
    · obtain rfl := List.mem_singleton.mp hp
      exact ⟨_, rfl, .single ⟨2, by decide, rfl⟩⟩

/-- A beam of width two finds both leaves, and the skip edge adds nothing. -/
theorem searchIndex_twoLeaves :
    searchIndex twoLeaves [1] 2 2 true (none : Option (MmapSearchStore ℚ)) =
      .ok [(0, 1), (1, 9)] :=
  (searchIndex_eq_exhaustive twoLeaves rooted_twoLeaves (by decide) [1] 2 2 (by decide) true none
    [(0, 1), (1, 9)]).1 (by decide +kernel)

end Exhaustive

end Ennbo
