import Ennbo.Index.Reachable
import Ennbo.Search.Candidates
import Mathlib.Data.Set.Card

/-! # Skip edges only add candidates

In an index without cycles a descent ends. It reaches the leaves on paths along
the children that the beam keeps. Skip edges put further leaves behind these,
and only as long as nothing has to be cut off, so following them moves no
distance of the answer up.
-/

namespace Ennbo

open Ranking Relation

section Collect

variable {F : Type} {leaves leaves' : List ℕ} {S : ℕ → Prop}

/-- The ids in `S` are added to a list without repetitions. -/
structure Collects (S : ℕ → Prop) (leaves leaves' : List ℕ) : Prop where
  mem_iff : ∀ id, id ∈ leaves' ↔ id ∈ leaves ∨ S id
  nodup : leaves.Nodup → leaves'.Nodup

theorem collects_refl (h : ∀ id, ¬ S id) : Collects S leaves leaves where
  mem_iff id := by simp [h]
  nodup := id

theorem collects_visit (pageId : ℕ) : Collects (· = pageId) leaves (visit leaves pageId) where
  mem_iff id := by
    unfold visit
    split
    next hmem =>
      constructor
      · exact .inl
      · rintro (h | rfl)
        · exact h
        · exact hmem
    next => simp
  nodup h := nodup_visit h pageId

theorem Collects.congr {T : ℕ → Prop} (h : Collects S leaves leaves') (hST : ∀ id, S id ↔ T id) :
    Collects T leaves leaves' where
  mem_iff id := by rw [h.mem_iff, hST]
  nodup := h.nodup

theorem exists_foldlM_collects {α : Type} {f : List ℕ → α → Outcome (List ℕ)} {T : α → ℕ → Prop}
    {as : List α} (h : ∀ a ∈ as, ∀ leaves, ∃ leaves', f leaves a = .ok leaves' ∧
      Collects (T a) leaves leaves') (hS : ∀ id, (∃ a ∈ as, T a id) ↔ S id) (leaves : List ℕ) :
    ∃ leaves', as.foldlM f leaves = .ok leaves' ∧ Collects S leaves leaves' := by
  induction as generalizing S leaves with
  | nil => exact ⟨leaves, rfl, collects_refl (by simpa using hS)⟩
  | cons a as ih =>
    rw [List.forall_mem_cons] at h
    obtain ⟨leaves₁, h₁, hc₁⟩ := h.1 leaves
    obtain ⟨leaves₂, h₂, hc₂⟩ := ih h.2 (fun id => Iff.rfl) leaves₁
    use leaves₂
    constructor
    · rw [List.foldlM_cons, Outcome.bind_eq_ok]
      exact ⟨leaves₁, h₁, h₂⟩
    · constructor
      · intro id
        rw [hc₂.mem_iff, hc₁.mem_iff, or_assoc, ← hS]
        simp
      · exact fun hnodup => hc₂.nodup (hc₁.nodup hnodup)

end Collect

section Descent

variable {F : Type} [Floating F]

/-- The children of an internal page that the beam keeps, with their distances. -/
def beamChildren (query : List F) (beamWidth : ℕ) (centroids : List (List F)) : List (ℕ × F) :=
  ((centroids.zipIdx.map fun c => (c.2, l2SqF32 query c.1)).insertionSort
    fun a b => cmpOrEqual a.2 b.2 ≠ .gt).take (max beamWidth 1)

theorem fst_lt_of_mem_beamChildren {query : List F} {beamWidth : ℕ} {centroids : List (List F)}
    {c : ℕ × F} (h : c ∈ beamChildren query beamWidth centroids) : c.1 < centroids.length := by
  have hmem := (List.mem_insertionSort _).mp (List.mem_of_mem_take h)
  obtain ⟨⟨v, j⟩, hj, rfl⟩ := List.mem_map.mp hmem
  simpa using List.snd_lt_of_mem_zipIdx hj

namespace BpannIndex

variable {index : BpannIndex F} {query : List F} {beamWidth : ℕ} {p q : Page F}

/-- `q` is a child of `p` to which a descent goes on. -/
def BeamChild (index : BpannIndex F) (query : List F) (beamWidth : ℕ) : Page F → Page F → Prop
  | .internal _ centroids childPageIds, q =>
    ∃ c ∈ beamChildren query beamWidth centroids, ∃ id, childPageIds[c.1]? = some id ∧
      index.pageById id = some q
  | .leaf .., _ => False

theorem BeamChild.childOf (h : index.BeamChild query beamWidth p q) : index.ChildOf p q := by
  cases p with
  | internal pageId centroids childPageIds =>
    obtain ⟨c, -, id, hid, hq⟩ := h
    exact ⟨id, List.mem_of_getElem? hid, hq⟩
  | leaf => exact h.elim

def Acyclic (index : BpannIndex F) : Prop :=
  ∀ p, index.Reachable p → ¬ TransGen index.ChildOf p p

omit [Floating F] in
theorem ChildOf.mem (h : index.ChildOf p q) : q ∈ index.pages := by
  obtain ⟨id, -, hid⟩ := h
  exact (pageById_eq_some hid).1

def below (index : BpannIndex F) (p : Page F) : Set (Page F) := {q | TransGen index.ChildOf p q}

omit [Floating F] in
theorem below_subset (p : Page F) : index.below p ⊆ {q | q ∈ index.pages} := by
  intro q hq
  obtain ⟨r, -, hrq⟩ := TransGen.tail'_iff.mp hq
  exact hrq.mem

omit [Floating F] in
theorem finite_below (p : Page F) : (index.below p).Finite :=
  (List.finite_toSet index.pages).subset (below_subset p)

omit [Floating F] in
theorem ncard_below_lt (h : index.ChildOf p q) (hq : ¬ TransGen index.ChildOf q q) :
    (index.below q).ncard < (index.below p).ncard := by
  have hsub : index.below q ⊆ index.below p := fun r hr => TransGen.head h hr
  have hmem : q ∈ index.below p := TransGen.single h
  exact Set.ncard_lt_ncard (hsub.ssubset_of_mem_notMem hmem hq) (finite_below p)

omit [Floating F] in
theorem ncard_below_lt_length (hp : p ∈ index.pages) (hcycle : ¬ TransGen index.ChildOf p p) :
    (index.below p).ncard < index.pages.length := by
  classical
  have hss : index.below p ⊂ {q | q ∈ index.pages} :=
    (below_subset p).ssubset_of_mem_notMem hp hcycle
  have hlt := Set.ncard_lt_ncard hss (List.finite_toSet index.pages)
  have hcard : {q | q ∈ index.pages}.ncard ≤ index.pages.length := by
    have htoFinset : {q | q ∈ index.pages} = (index.pages.toFinset : Set (Page F)) := by
      ext q
      simp
    rw [htoFinset, Set.ncard_coe_finset]
    exact List.toFinset_card_le _
  omega

theorem not_beamChild_of_isLeaf (h : p.isLeaf) : ¬ index.BeamChild query beamWidth p q := by
  cases p with
  | internal => cases h
  | leaf => exact id

/-- The leaves that a descent from `p` reaches. -/
def BeamLeaf (index : BpannIndex F) (query : List F) (beamWidth : ℕ) (p : Page F) (id : ℕ) :
    Prop :=
  ∃ q, ReflTransGen (index.BeamChild query beamWidth) p q ∧ q.isLeaf ∧ q.pageId = id

theorem beamLeaf_leaf (h : p.isLeaf) {id : ℕ} :
    index.BeamLeaf query beamWidth p id ↔ id = p.pageId := by
  constructor
  · rintro ⟨q, hpq, -, rfl⟩
    obtain rfl | ⟨r, hpr, -⟩ := hpq.cases_head
    · rfl
    · exact absurd hpr (not_beamChild_of_isLeaf h)
  · rintro rfl
    exact ⟨p, .refl, h, rfl⟩

theorem beamLeaf_internal (h : p.isLeaf = false) {id : ℕ} :
    index.BeamLeaf query beamWidth p id ↔
      ∃ q, index.BeamChild query beamWidth p q ∧ index.BeamLeaf query beamWidth q id := by
  constructor
  · rintro ⟨q, hpq, hq, rfl⟩
    obtain rfl | ⟨r, hpr, hrq⟩ := hpq.cases_head
    · rw [h] at hq
      cases hq
    · exact ⟨r, hpr, q, hrq, hq, rfl⟩
  · rintro ⟨r, hpr, q, hrq, hq, hid⟩
    exact ⟨q, .head hpr hrq, hq, hid⟩

/-- Without cycles a descent ends with the leaves along the beam. -/
theorem exists_collectCandidateLeaves_of_acyclic (hbranch : ∀ p ∈ index.pages, p.BranchOk)
    {depth : ℕ} (hp : p ∈ index.pages)
    (hacyclic : ∀ q, ReflTransGen index.ChildOf p q → ¬ TransGen index.ChildOf q q)
    (hdepth : (index.below p).ncard < depth) (leaves : List ℕ) :
    ∃ leaves', collectCandidateLeaves index query beamWidth depth p leaves = .ok leaves' ∧
      Collects (index.BeamLeaf query beamWidth p) leaves leaves' := by
  induction depth generalizing p leaves with
  | zero => cases hdepth
  | succ depth ih =>
    cases p with
    | leaf pageId rowIds rowRange vectors centroid =>
      refine ⟨_, rfl, (collects_visit pageId).congr fun id => ?_⟩
      exact (beamLeaf_leaf (p := .leaf pageId rowIds rowRange vectors centroid) rfl).symm
    | internal pageId centroids childPageIds =>
      rw [collectCandidateLeaves]
      -- the round of a child adds the leaves below the page that its id finds
      apply exists_foldlM_collects (T := fun c id => ∃ childId q,
        childPageIds[c.1]? = some childId ∧ index.pageById childId = some q ∧
          index.BeamLeaf query beamWidth q id)
      · intro c hc leaves
        have hlt : c.1 < childPageIds.length := by
          have hb : centroids.length = childPageIds.length := hbranch _ hp
          rw [← hb]
          exact fst_lt_of_mem_beamChildren hc
        have hget : childPageIds[c.1]? = some childPageIds[c.1] := List.getElem?_eq_getElem hlt
        cases hq : index.pageById childPageIds[c.1] with
        | none =>
          use leaves
          constructor
          · simp only [hget, Outcome.ofOption, Outcome.bind_eq_ok, Except.ok.injEq, exists_eq_left',
              hq, Outcome.pure_eq_ok]
          · apply collects_refl
            rintro id ⟨childId, q, hchild, hfind, -⟩
            rw [hget, Option.some.injEq] at hchild
            subst hchild
            rw [hq] at hfind
            cases hfind
        | some child =>
          have hchild : index.ChildOf (.internal pageId centroids childPageIds) child :=
            ⟨_, List.getElem_mem hlt, hq⟩
          have hlt := ncard_below_lt hchild (hacyclic child (.single hchild))
          obtain ⟨leaves', hleaves, hcollects⟩ := ih hchild.mem
            (fun q hq => hacyclic q (.head hchild hq)) (by omega) leaves
          use leaves'
          constructor
          · simp only [hget, Outcome.ofOption, Outcome.bind_eq_ok, Except.ok.injEq, exists_eq_left',
              hq, hleaves]
          · apply hcollects.congr
            intro id
            simp [hget, hq]
      · intro id
        rw [beamLeaf_internal rfl]
        constructor
        · rintro ⟨c, hc, childId, q, hchild, hq, hid⟩
          exact ⟨q, ⟨c, hc, childId, hchild, hq⟩, hid⟩
        · rintro ⟨q, ⟨c, hc, childId, hchild, hq⟩, hid⟩
          exact ⟨c, hc, childId, q, hchild, hq, hid⟩

theorem exists_descend (hbranch : ∀ p ∈ index.pages, p.BranchOk) (hacyclic : index.Acyclic)
    (query : List F) (beamWidth : ℕ) :
    ∃ leaves, descend index query beamWidth = .ok leaves ∧ leaves.Nodup ∧
      ∀ id, id ∈ leaves ↔ ∃ root, index.pageById index.header.rootPageId = some root ∧
        index.BeamLeaf query beamWidth root id := by
  unfold descend
  cases hroot : index.pageById index.header.rootPageId with
  | none => exact ⟨[], rfl, .nil, by simp⟩
  | some root =>
    have hmem := (pageById_eq_some hroot).1
    have hcycle : ∀ q, ReflTransGen index.ChildOf root q → ¬ TransGen index.ChildOf q q :=
      fun q hq => hacyclic q ⟨root, hroot, hq⟩
    obtain ⟨leaves, hleaves, hcollects⟩ := exists_collectCandidateLeaves_of_acyclic hbranch hmem
      hcycle (ncard_below_lt_length hmem (hcycle root .refl)) []
    refine ⟨leaves, hleaves, hcollects.nodup .nil, fun id => ?_⟩
    rw [hcollects.mem_iff]
    simp

omit [Floating F] in
theorem mem_of_childOf (hids : index.pageIds.Nodup) {order : List (Page F)}
    (horder : ParentsFirst order) (hpages : ∀ q ∈ order, q ∈ index.pages) (hp : p ∈ order)
    (h : index.ChildOf p q) : q ∈ order := by
  obtain ⟨id, hid, hq⟩ := h
  have hmem : id ∈ order.map Page.pageId := by
    clear hpages
    induction order with
    | nil => cases hp
    | cons r rest ih =>
      obtain ⟨-, hc, hrest⟩ := horder
      rw [List.map_cons]
      rcases List.mem_cons.mp hp with rfl | hp
      · exact List.mem_cons_of_mem _ (hc id hid)
      · exact List.mem_cons_of_mem _ (ih hrest hp)
  obtain ⟨q', hq', rfl⟩ := List.mem_map.mp hmem
  rw [pageById_of_mem hids (hpages q' hq'), Option.some.injEq] at hq
  exact hq ▸ hq'

omit [Floating F] in
theorem mem_of_reflTransGen (hids : index.pageIds.Nodup) {order : List (Page F)}
    (horder : ParentsFirst order) (hpages : ∀ q ∈ order, q ∈ index.pages) (hp : p ∈ order)
    (h : ReflTransGen index.ChildOf p q) : q ∈ order := by
  induction h with
  | refl => exact hp
  | tail _ hstep ih => exact mem_of_childOf hids horder hpages ih hstep

omit [Floating F] in
theorem not_transGen_of_parentsFirst (hids : index.pageIds.Nodup) {order : List (Page F)}
    (hnodup : order.Nodup) (horder : ParentsFirst order) (hpages : ∀ q ∈ order, q ∈ index.pages)
    (hp : p ∈ order) : ¬ TransGen index.ChildOf p p := by
  induction order with
  | nil => cases hp
  | cons r rest ih =>
    have hrest := horder.2.2
    rw [List.forall_mem_cons] at hpages
    rw [List.nodup_cons] at hnodup
    rcases List.mem_cons.mp hp with rfl | hp
    · intro hcycle
      obtain ⟨c, hpc, hcp⟩ := TransGen.head'_iff.mp hcycle
      have hc : c ∈ rest := by
        obtain ⟨id, hid, hfind⟩ := hpc
        obtain ⟨q, hq, rfl⟩ := List.mem_map.mp (horder.2.1 id hid)
        rw [pageById_of_mem hids (hpages.2 q hq), Option.some.injEq] at hfind
        exact hfind ▸ hq
      exact hnodup.1 (mem_of_reflTransGen hids hrest hpages.2 hc hcp)
    · exact ih hnodup.2 hrest hpages.2 hp

omit [Floating F] in
theorem Searchable.acyclic (h : index.Searchable) : index.Acyclic := by
  rintro p ⟨root, hroot, hp⟩
  obtain ⟨order, hperm, horder⟩ := h.ordered
  have hmem : p ∈ index.pages := by
    obtain rfl | ⟨q, -, hstep⟩ := hp.cases_tail
    · exact (pageById_eq_some hroot).1
    · exact hstep.mem
  exact not_transGen_of_parentsFirst h.pageIds (hperm.nodup_iff.mpr (nodup_pages h.pageIds)) horder
    (fun q hq => hperm.mem_iff.mp hq) (hperm.mem_iff.mpr hmem)

end BpannIndex

end Descent

section Skip

def ContinuesWithin (initial leaves : List ℕ) : Prop :=
  ∃ extra, leaves = initial ++ extra ∧ (extra = [] ∨ leaves.length ≤ MAX_CANDIDATE_LEAVES)

theorem ContinuesWithin.visit {initial leaves : List ℕ} (h : ContinuesWithin initial leaves)
    (next : ℕ) : ContinuesWithin initial
      (if MAX_CANDIDATE_LEAVES ≤ leaves.length then leaves else visit leaves next) := by
  obtain ⟨extra, rfl, hextra⟩ := h
  unfold Ennbo.visit
  split_ifs with hfull hmem
  · exact ⟨extra, rfl, hextra⟩
  · exact ⟨extra, rfl, hextra⟩
  · refine ⟨extra ++ [next], List.append_assoc _ _ _, .inr ?_⟩
    rw [List.length_append, List.length_singleton]
    omega

theorem continuesWithin_followSkipEdges (edges : SkipEdges) (initial : List ℕ) :
    ContinuesWithin initial (followSkipEdges edges initial) := by
  unfold followSkipEdges
  apply List.foldlRecOn (motive := ContinuesWithin initial)
  · exact ⟨[], (List.append_nil _).symm, .inl rfl⟩
  · intro leaves hleaves leafId _
    split
    · exact hleaves
    · split
      · exact hleaves
      · apply List.foldlRecOn (motive := ContinuesWithin initial)
        · exact hleaves
        · exact fun leaves hl next _ => hl.visit next

variable {F : Type} [Floating F]

theorem truncateCandidateLeaves_of_le {index : BpannIndex F} {query : List F} {leaves : List ℕ}
    {limit : ℕ} (h : leaves.length ≤ limit) :
    truncateCandidateLeaves index query leaves limit = leaves :=
  if_pos h

theorem exists_candidateLeaves_skip {index : BpannIndex F} {query : List F} {beamWidth : ℕ}
    {leaves : List ℕ} (h : candidateLeaves index query beamWidth false = .ok leaves) :
    ∃ extra, candidateLeaves index query beamWidth true = .ok (leaves ++ extra) := by
  simp only [candidateLeaves, Outcome.bind_eq_ok, Outcome.pure_eq_ok] at h ⊢
  obtain ⟨reached, hdescend, rfl⟩ := h
  obtain ⟨extra, hfollow, hextra⟩ := continuesWithin_followSkipEdges index.skipEdges reached
  rw [hfollow] at hextra
  simp only [hdescend, Except.ok.injEq, exists_eq_left', hfollow, if_true, Bool.false_eq_true,
    if_false]
  obtain rfl | hfew := hextra
  · exact ⟨[], by simp⟩
  · have hle : reached.length ≤ MAX_CANDIDATE_LEAVES := by
      rw [List.length_append] at hfew
      omega
    use extra
    rw [truncateCandidateLeaves_of_le hfew, truncateCandidateLeaves_of_le hle]

end Skip

section NeverHurts

variable {D F : Type} [Floating D] [Floating F] [FloatCast D F]

def searchGreedyBlocksOnlyWithStore (index : BpannIndex F) (query : List F) (k beamWidth : ℕ)
    (store : Option (MmapSearchStore D)) : Outcome (List (ℕ × F)) :=
  searchIndex index query k beamWidth false store

def searchWithSkipRefinementWithStore (index : BpannIndex F) (query : List F) (k beamWidth : ℕ)
    (store : Option (MmapSearchStore D)) : Outcome (List (ℕ × F)) :=
  searchIndex index query k beamWidth true store

theorem scorePages_eq_ok {store : Option (MmapSearchStore D)} {query : List F}
    {pages : List (Page F)} {k : ℕ} {hits : List (ℕ × F)} :
    scorePages store query pages k = .ok hits ↔
      ∃ scored, pages.mapM (scoreLeafPage store query) = .ok scored ∧
        topK ScoredLe k scored.flatten = hits := by
  simp only [scorePages, Outcome.bind_eq_ok, Outcome.pure_eq_ok, topK]

theorem returns_scorePages {store : Option (MmapSearchStore D)} {query : List F}
    {pages : List (Page F)} (h : ∀ p ∈ pages, (scoreLeafPage store query p).returns = true)
    (k : ℕ) : (scorePages store query pages k).returns = true := by
  obtain ⟨scored, hscored, -⟩ := Outcome.exists_mapM (P := fun _ _ => True) fun p hp =>
    ⟨_, Outcome.eq_ok_value (h p hp), trivial⟩
  rw [scorePages_eq_ok.mpr ⟨scored, hscored, rfl⟩]
  rfl

/-- Each place of the list is at least as near as that of the other list. -/
structure NoWorse {K : Type} [LE K] (better worse : List (ℕ × K)) : Prop where
  length_le : worse.length ≤ better.length
  dist_le : ∀ (j : ℕ) (h : j < better.length) (h' : j < worse.length), better[j].2 ≤ worse[j].2

variable {K : Type} [ExactArith K] {store : Option (MmapSearchStore D)} [FloatCast D K]

theorem noWorse_scorePages {query : List K} {pages more : List (Page K)} {k : ℕ}
    {hits hits' : List (ℕ × K)} (h : scorePages store query pages k = .ok hits)
    (h' : scorePages store query (pages ++ more) k = .ok hits') : NoWorse hits' hits := by
  obtain ⟨scored, hscored, rfl⟩ := scorePages_eq_ok.mp h
  obtain ⟨all, hall, rfl⟩ := scorePages_eq_ok.mp h'
  simp only [List.mapM_append, Outcome.bind_eq_ok, Outcome.pure_eq_ok, hscored,
    Except.ok.injEq, exists_eq_left'] at hall
  obtain ⟨rest, -, rfl⟩ := hall
  have hsub : scored.flatten.Subperm (scored ++ rest).flatten := by
    rw [List.flatten_append]
    exact (List.sublist_append_left _ _).subperm
  constructor
  · rw [length_topK, length_topK]
    exact min_le_min_left k hsub.length_le
  · intro j hj hj'
    obtain hlt | ⟨heq, -⟩ := scoredLe_iff.mp (getElem_topK_of_subperm ScoredLe hsub k hj' hj)
    · exact hlt.le
    · exact heq.le

theorem skip_refinement_noWorse (index : BpannIndex K) (query : List K) (k beamWidth : ℕ)
    (store : Option (MmapSearchStore D)) (hacyclic : index.Acyclic) :
    (∀ greedy refined,
      searchGreedyBlocksOnlyWithStore index query k beamWidth store = .ok greedy →
      searchWithSkipRefinementWithStore index query k beamWidth store = .ok refined →
      NoWorse refined greedy) ∧
    ((∀ p ∈ index.pages, p.BranchOk ∧ (scoreLeafPage store query p).returns = true) →
      (searchGreedyBlocksOnlyWithStore index query k beamWidth store).returns = true ∧
        (searchWithSkipRefinementWithStore index query k beamWidth store).returns = true) := by
  unfold searchGreedyBlocksOnlyWithStore searchWithSkipRefinementWithStore searchIndex
  split_ifs with hempty
  · refine ⟨?_, fun _ => ⟨rfl, rfl⟩⟩
    rintro _ _ ⟨⟩ ⟨⟩
    exact ⟨le_rfl, fun j h => absurd h (by simp)⟩
  constructor
  · intro greedy refined hgreedy hrefined
    obtain ⟨leaves, hleaves, hgreedy⟩ := Outcome.bind_eq_ok.mp hgreedy
    obtain ⟨extra, hextra⟩ := exists_candidateLeaves_skip hleaves
    obtain ⟨_, hall, hrefined⟩ := Outcome.bind_eq_ok.mp hrefined
    obtain rfl := Except.ok.inj (hextra.symm.trans hall)
    rw [List.filterMap_append] at hrefined
    exact noWorse_scorePages hgreedy hrefined
  · intro hpages
    obtain ⟨reached, hdescend, -⟩ :=
      BpannIndex.exists_descend (fun p hp => (hpages p hp).1) hacyclic query beamWidth
    have hscore : ∀ leaves : List ℕ,
        (scorePages store query (leaves.filterMap index.pageById) k).returns = true := by
      intro leaves
      apply returns_scorePages
      intro p hp
      obtain ⟨id, -, hid⟩ := List.mem_filterMap.mp hp
      exact (hpages p (BpannIndex.pageById_eq_some hid).1).2
    have hgreedy : candidateLeaves index query beamWidth false =
        .ok (truncateCandidateLeaves index query reached MAX_CANDIDATE_LEAVES) := by
      simp only [candidateLeaves, hdescend]
      rfl
    obtain ⟨extra, hextra⟩ := exists_candidateLeaves_skip hgreedy
    rw [hgreedy, hextra]
    exact ⟨hscore _, hscore _⟩

/-- Two leaves with a skip edge from the first to the second. -/
def twoLeaves : BpannIndex ℚ where
  header :=
    { numDim := 1, indexedRows := 2, rootPageId := 0, leafCapacity := 1, skipNeighbors := 1 }
  pages :=
    [.internal 0 [[0], [4]] [1, 2], .leaf 1 [0] none [[0]] none, .leaf 2 [1] none [[4]] none]
  skipEdges := [(1, [2])]

theorem searchable_twoLeaves : twoLeaves.Searchable where
  pageIds := by decide
  ordered := ⟨twoLeaves.pages, .refl _, rfl, by decide, parentsFirst_of_leaves (by decide)⟩
  leaves := by decide

/-- The beam reaches the near leaf only, the skip edge leads to the other one. -/
theorem noWorse_twoLeaves : NoWorse [(0, (1 : ℚ)), (1, 9)] [(0, 1)] :=
  (skip_refinement_noWorse twoLeaves [1] 2 1 (none : Option (MmapSearchStore ℚ))
    searchable_twoLeaves.acyclic).1 [(0, 1)] [(0, 1), (1, 9)] (by decide +kernel)
      (by decide +kernel)

end NeverHurts

end Ennbo
