import Ennbo.Arithmetic
import Ennbo.Index.Merge
import Ennbo.Index.Reachable
import Ennbo.Index.Searchable

/-! # What a merge keeps

The pages of a part get consecutive ids that no other part has, and whatever
names a page is renamed with it. So the parts hang unchanged below the new root.
-/

namespace Ennbo

variable {F : Type}

namespace Page

/-- The page under other ids. -/
def rename (f : ℕ → ℕ) : Page F → Page F
  | internal pageId centroids childPageIds => internal (f pageId) centroids (childPageIds.map f)
  | leaf pageId rowIds rowRange vectors storedCentroid =>
    leaf (f pageId) rowIds rowRange vectors storedCentroid

@[simp] theorem pageId_rename (f : ℕ → ℕ) (p : Page F) : (p.rename f).pageId = f p.pageId := by
  cases p <;> rfl

@[simp] theorem childPageIds_rename (f : ℕ → ℕ) (p : Page F) :
    (p.rename f).childPageIds = p.childPageIds.map f := by
  cases p <;> rfl

@[simp] theorem isLeaf_rename (f : ℕ → ℕ) (p : Page F) : (p.rename f).isLeaf = p.isLeaf := by
  cases p <;> rfl

@[simp] theorem rename_id (p : Page F) : p.rename id = p := by
  cases p <;> simp [rename]

end Page

def SkipEdges.rename (f : ℕ → ℕ) (edges : SkipEdges) : SkipEdges :=
  edges.map fun e => (f e.1, e.2.map f)

namespace BpannIndex

def leaves (idx : BpannIndex F) : List (Page F) := idx.pages.filter Page.isLeaf

/-- Ids name pages, every page hangs below the root, and the header counts the rows. -/
structure WellFormed (idx : BpannIndex F) : Prop where
  pageIds : idx.pageIds.Nodup
  root : idx.header.rootPageId ∈ idx.pageIds
  children : ∀ p ∈ idx.pages, ∀ c ∈ p.childPageIds, c ∈ idx.pageIds
  /-- A map has one entry for each key. -/
  keys : (idx.skipEdges.map Prod.fst).Nodup
  edges : ∀ e ∈ idx.skipEdges, e.1 ∈ idx.pageIds ∧ ∀ dest ∈ e.2, dest ∈ idx.pageIds
  reachable : ∀ p ∈ idx.pages, idx.Reachable p
  rows : idx.header.indexedRows = idx.leafRows.length

end BpannIndex

section Renumber

/-- The id that a known page gets when numbering continues at `n`. -/
def renumber (ids : List ℕ) (n id : ℕ) : ℕ := (idMap ids n id).getD 0

variable {ids : List ℕ} {n : ℕ}

theorem idMap_eq {id : ℕ} (h : id ∈ ids) : idMap ids n id = some (renumber ids n id) := by
  obtain ⟨i, hi⟩ := exists_lastIdx h
  unfold renumber idMap
  rw [hi]
  rfl

theorem filterMap_idMap {tos : List ℕ} (h : ∀ dest ∈ tos, dest ∈ ids) :
    tos.filterMap (idMap ids n) = tos.map (renumber ids n) := by
  induction tos with
  | nil => rfl
  | cons dest tos ih =>
    rw [List.forall_mem_cons] at h
    rw [List.filterMap_cons_some (idMap_eq h.1), List.map_cons, ih h.2]

theorem map_renumber (h : ids.Nodup) : ids.map (renumber ids n) = List.range' n ids.length := by
  apply List.ext_getElem
  · simp
  · intro i hi _
    have hi : i < ids.length := by simpa using hi
    rw [List.getElem_map, List.getElem_range', renumber, idMap, lastIdx_of_nodup h hi]
    simp

theorem renumber_bounds (h : ids.Nodup) {id : ℕ} (hid : id ∈ ids) :
    n ≤ renumber ids n id ∧ renumber ids n id < n + ids.length := by
  have hmem : renumber ids n id ∈ ids.map (renumber ids n) := List.mem_map_of_mem hid
  rw [map_renumber h] at hmem
  exact List.mem_range'_1.mp hmem

theorem remapPage_eq {p : Page F} (hp : p.pageId ∈ ids) (hc : ∀ c ∈ p.childPageIds, c ∈ ids) :
    remapPage (idMap ids n) p = some (p.rename (renumber ids n)) := by
  cases p with
  | internal pageId centroids childPageIds =>
    have hchildren : childPageIds.mapM (idMap ids n) =
        some (childPageIds.map (renumber ids n)) := by
      rw [mapM_eq_some, List.forall₂_map_right_iff, List.forall₂_same]
      exact fun c hmem => idMap_eq (hc c hmem)
    have hid : idMap ids n pageId = some (renumber ids n pageId) := idMap_eq hp
    simp only [remapPage, hid, hchildren, Option.bind_eq_bind, Option.bind_some, Option.pure_def]
    rfl
  | leaf pageId rowIds rowRange vectors storedCentroid =>
    have hid : idMap ids n pageId = some (renumber ids n pageId) := idMap_eq hp
    simp only [remapPage, hid, Option.bind_eq_bind, Option.bind_some, Option.pure_def]
    rfl

theorem mapM_remapPage {part : BpannIndex F}
    (h : ∀ p ∈ part.pages, ∀ c ∈ p.childPageIds, c ∈ part.pageIds) :
    part.pages.mapM (remapPage (idMap part.pageIds n)) =
      some (part.pages.map (Page.rename (renumber part.pageIds n))) := by
  rw [mapM_eq_some, List.forall₂_map_right_iff, List.forall₂_same]
  exact fun p hp => remapPage_eq (List.mem_map_of_mem hp) (h p hp)

def SkipEdges.filled (edges : SkipEdges) : SkipEdges := edges.filter fun e => !e.2.isEmpty

theorem insert_eq {edges : SkipEdges} {id : ℕ} {tos : List ℕ} (h : id ∉ edges.map Prod.fst) :
    edges.insert id tos = edges ++ [(id, tos)] := by
  have hself : edges.filter (fun e => e.1 != id) = edges := by
    rw [List.filter_eq_self]
    intro e he
    simp only [bne_iff_ne, ne_eq]
    rintro rfl
    exact h (List.mem_map_of_mem he)
  unfold SkipEdges.insert
  rw [hself]

/-- Edges between known pages are renamed, behind those that are there. -/
theorem remapEdges_eq (hids : ids.Nodup) {edges acc : SkipEdges}
    (hkeys : (edges.map Prod.fst).Nodup)
    (hedges : ∀ e ∈ edges, e.1 ∈ ids ∧ ∀ dest ∈ e.2, dest ∈ ids)
    (hacc : ∀ e ∈ edges, renumber ids n e.1 ∉ acc.map Prod.fst) :
    remapEdges (idMap ids n) edges acc = acc ++ edges.filled.rename (renumber ids n) := by
  induction edges generalizing acc with
  | nil => simp [remapEdges, SkipEdges.filled, SkipEdges.rename]
  | cons e edges ih =>
    obtain ⟨from_, tos⟩ := e
    rw [List.map_cons, List.nodup_cons] at hkeys
    rw [List.forall_mem_cons] at hedges hacc
    obtain ⟨⟨hfrom, htos⟩, hedges⟩ := hedges
    have hmap : tos.filterMap (idMap ids n) = tos.map (renumber ids n) := filterMap_idMap htos
    have hstep : remapEdges (idMap ids n) ((from_, tos) :: edges) acc =
        remapEdges (idMap ids n) edges
          (if tos.isEmpty then acc else acc ++ [(renumber ids n from_, tos.map (renumber ids n))])
        := by
      unfold remapEdges
      rw [List.foldl_cons]
      dsimp only
      rw [idMap_eq hfrom]
      dsimp only
      rw [hmap, List.isEmpty_map, insert_eq hacc.1]
    rw [hstep]
    cases tos with
    | nil => exact ih hkeys.2 hedges hacc.2
    | cons dest tos =>
      rw [if_neg (by simp), ih hkeys.2 hedges]
      · simp [SkipEdges.filled, SkipEdges.rename]
      · intro e he
        rw [List.map_append, List.mem_append, not_or]
        refine ⟨hacc.2 e he, ?_⟩
        intro hmem
        have heq : renumber ids n e.1 = renumber ids n from_ := by simpa using hmem
        have hinj := List.inj_on_of_nodup_map (by
          rw [map_renumber hids]
          exact List.nodup_range') (hedges e he).1 hfrom heq
        exact hkeys.1 (hinj ▸ List.mem_map_of_mem he)

end Renumber

section Placed

def newIds (placed : List (BpannIndex F × (ℕ → ℕ))) : List ℕ :=
  placed.flatMap fun q => q.1.pageIds.map q.2

/-- What a merge has collected when it has read these parts, each with the ids it gave them. -/
structure Merged.Keeps (placed : List (BpannIndex F × (ℕ → ℕ))) (m : Merged F) : Prop where
  wellFormed : ∀ q ∈ placed, q.1.WellFormed
  pages_eq : m.pages = placed.flatMap fun q => q.1.pages.map (Page.rename q.2)
  children_eq : m.childPageIds = placed.map fun q => q.2 q.1.header.rootPageId
  skipEdges_eq : m.skipEdges = placed.flatMap fun q => q.1.skipEdges.filled.rename q.2
  ids_eq : ∃ n, m.nextId = 1 + n ∧ newIds placed = List.range' 1 n

variable {placed : List (BpannIndex F × (ℕ → ℕ))} {m : Merged F} {part : BpannIndex F}

theorem mem_filled_rename {f : ℕ → ℕ} {edges : SkipEdges} {e : ℕ × List ℕ} :
    e ∈ edges.filled.rename f ↔ e ∈ edges.rename f ∧ e.2 ≠ [] := by
  simp only [SkipEdges.rename, SkipEdges.filled, List.mem_map, List.mem_filter]
  constructor
  · rintro ⟨a, ⟨ha, hne⟩, rfl⟩
    exact ⟨⟨a, ha, rfl⟩, by simpa using hne⟩
  · rintro ⟨⟨a, ha, rfl⟩, hne⟩
    exact ⟨a, ⟨ha, by simpa using hne⟩, rfl⟩

theorem BpannIndex.WellFormed.rename_edges (h : part.WellFormed) {f : ℕ → ℕ} {e : ℕ × List ℕ}
    (he : e ∈ part.skipEdges.rename f) :
    e.1 ∈ part.pageIds.map f ∧ ∀ dest ∈ e.2, dest ∈ part.pageIds.map f := by
  obtain ⟨a, ha, rfl⟩ := List.mem_map.mp he
  obtain ⟨hfrom, hdest⟩ := h.edges a ha
  constructor
  · exact List.mem_map_of_mem hfrom
  · rintro dest hmem
    obtain ⟨b, hb, rfl⟩ := List.mem_map.mp hmem
    exact List.mem_map_of_mem (hdest b hb)

theorem Merged.Keeps.key_lt (h : m.Keeps placed) {id : ℕ} (hid : id ∈ m.skipEdges.map Prod.fst) :
    id < m.nextId := by
  obtain ⟨n, hn, hids⟩ := h.ids_eq
  obtain ⟨e, he, rfl⟩ := List.mem_map.mp hid
  rw [h.skipEdges_eq, List.mem_flatMap] at he
  obtain ⟨q, hq, he⟩ := he
  have hmem : e.1 ∈ newIds placed :=
    List.mem_flatMap.mpr
      ⟨q, hq, ((h.wellFormed q hq).rename_edges (mem_filled_rename.mp he).1).1⟩
  rw [hids, List.mem_range'_1] at hmem
  omega

variable [Floating F]

/-- A well-formed part is read to its end, and stands behind the parts before it. -/
theorem Merged.Keeps.addPart (h : m.Keeps placed) (hpart : part.WellFormed) :
    ∃ m', m.addPart part = some m' ∧
      m'.Keeps (placed ++ [(part, renumber part.pageIds m.nextId)]) := by
  obtain ⟨n, hn, hids⟩ := h.ids_eq
  have hroot := idMap_eq (n := m.nextId) hpart.root
  have hpages := mapM_remapPage (n := m.nextId) hpart.children
  have hedges : remapEdges (idMap part.pageIds m.nextId) part.skipEdges m.skipEdges =
      m.skipEdges ++ part.skipEdges.filled.rename (renumber part.pageIds m.nextId) :=
    remapEdges_eq hpart.pageIds hpart.keys hpart.edges fun e he hmem =>
      absurd (h.key_lt hmem) (Nat.not_lt.mpr (renumber_bounds hpart.pageIds (hpart.edges e he).1).1)
  simp only [Merged.addPart, hroot, hpages, hedges, Option.bind_eq_bind, Option.bind_some,
    Option.pure_def, Option.some.injEq, exists_eq_left']
  constructor
  · simp only [List.mem_append, List.mem_singleton]
    rintro q (hq | rfl)
    · exact h.wellFormed q hq
    · exact hpart
  · simp [h.pages_eq]
  · simp [h.children_eq]
  · simp [h.skipEdges_eq]
  · refine ⟨n + part.pages.length, by dsimp only; omega, ?_⟩
    rw [newIds, List.flatMap_append, ← newIds, hids, List.flatMap_singleton, map_renumber hpart.pageIds, hn,
      BpannIndex.pageIds, List.length_map, List.range'_append_1]

theorem Merged.Keeps.foldlM {parts : List (BpannIndex F)} (h : m.Keeps placed)
    (hparts : ∀ part ∈ parts, part.WellFormed) :
    ∃ m' added, parts.foldlM Merged.addPart m = some m' ∧ added.map Prod.fst = parts ∧
      m'.Keeps (placed ++ added) := by
  induction parts generalizing m placed with
  | nil => exact ⟨m, [], rfl, rfl, by simpa using h⟩
  | cons part parts ih =>
    rw [List.forall_mem_cons] at hparts
    obtain ⟨m₁, h₁, hkeeps⟩ := h.addPart hparts.1
    obtain ⟨m', added, hm', rfl, hfinal⟩ := ih hkeeps hparts.2
    refine ⟨m', (part, renumber part.pageIds m.nextId) :: added, ?_, rfl, by simpa using hfinal⟩
    rw [List.foldlM_cons, h₁]
    exact hm'

end Placed

section Joined

/-- The merged index holds the parts, each under the ids it was given. -/
structure Joins (placed : List (BpannIndex F × (ℕ → ℕ))) (merged : BpannIndex F) : Prop where
  distinct : (newIds placed).Nodup
  leaves_eq : merged.leaves = placed.flatMap fun q => q.1.leaves.map (Page.rename q.2)
  indexedRows_eq :
    merged.header.indexedRows = (placed.map fun q => q.1.header.indexedRows).sum
  /-- Only an index that is alone keeps its entries without edges. -/
  mem_skipEdges : ∀ e, e ∈ merged.skipEdges ↔
    ∃ q ∈ placed, e ∈ q.1.skipEdges.rename q.2 ∧ (e.2 = [] → placed.length = 1)

theorem filter_isLeaf_rename (f : ℕ → ℕ) (ps : List (Page F)) :
    (ps.map (Page.rename f)).filter Page.isLeaf = (ps.filter Page.isLeaf).map (Page.rename f) := by
  rw [List.filter_map]
  congr 1
  apply List.filter_congr
  intro p _
  simp

theorem leafRows_rename (f : ℕ → ℕ) (p : Page F) : (p.rename f).leafRows = p.leafRows := by
  cases p with
  | internal => rfl
  | leaf pageId rowIds rowRange => cases rowRange <;> rfl

variable {placed : List (BpannIndex F × (ℕ → ℕ))} {m : Merged F} {header : IndexHeader}

namespace Merged

/-- The index of a merge: the collected pages and a root above them. -/
def underRoot (m : Merged F) (header : IndexHeader) : BpannIndex F :=
  { header := header
    pages := m.pages ++ [.internal 0 m.childCentroids m.childPageIds]
    skipEdges := m.skipEdges }

namespace Keeps

theorem pageIds_underRoot (h : m.Keeps placed) :
    (m.underRoot header).pageIds = newIds placed ++ [0] := by
  simp only [newIds, underRoot, BpannIndex.pageIds, h.pages_eq, List.map_append, List.map_flatMap,
    List.map_map]
  congr 2
  funext q
  apply List.map_congr_left
  intro p _
  simp

theorem mem_pageIds (h : m.Keeps placed) {q : BpannIndex F × (ℕ → ℕ)} (hq : q ∈ placed) {id : ℕ}
    (hid : id ∈ q.1.pageIds.map q.2) : id ∈ (m.underRoot header).pageIds := by
  rw [h.pageIds_underRoot]
  exact List.mem_append_left _ (List.mem_flatMap.mpr ⟨q, hq, hid⟩)

theorem nodup_ids (h : m.Keeps placed) : (newIds placed ++ [0]).Nodup := by
  obtain ⟨n, -, hids⟩ := h.ids_eq
  rw [hids]
  apply List.Nodup.append List.nodup_range' (List.nodup_singleton 0)
  simp

theorem distinct (h : m.Keeps placed) : (newIds placed).Nodup :=
  h.nodup_ids.of_append_left

/-- Different parts have different ids, so their edges have different keys. -/
theorem keys (h : m.Keeps placed) : (m.skipEdges.map Prod.fst).Nodup := by
  obtain ⟨heach, hdisjoint⟩ := List.nodup_flatMap.mp h.distinct
  rw [h.skipEdges_eq, List.map_flatMap, List.nodup_flatMap]
  constructor
  · intro q hq
    have hmap : ((q.1.skipEdges.filled.rename q.2).map Prod.fst) =
        (q.1.skipEdges.filled.map Prod.fst).map q.2 := by
      simp [SkipEdges.rename]
    rw [hmap]
    apply List.Nodup.map_on
    · intro a ha b hb hab
      obtain ⟨e, he, rfl⟩ := List.mem_map.mp ha
      obtain ⟨e', he', rfl⟩ := List.mem_map.mp hb
      have hedges := (h.wellFormed q hq).edges
      exact List.inj_on_of_nodup_map (heach q hq) (hedges e (List.mem_of_mem_filter he)).1
        (hedges e' (List.mem_of_mem_filter he')).1 hab
    · exact (h.wellFormed q hq).keys.sublist (List.filter_sublist.map _)
  · apply hdisjoint.imp_of_mem
    intro a b ha hb hab
    apply List.disjoint_of_subset_left _ (List.disjoint_of_subset_right _ hab)
    · intro id hid
      obtain ⟨e, he, rfl⟩ := List.mem_map.mp hid
      exact ((h.wellFormed a ha).rename_edges (mem_filled_rename.mp he).1).1
    · intro id hid
      obtain ⟨e, he, rfl⟩ := List.mem_map.mp hid
      exact ((h.wellFormed b hb).rename_edges (mem_filled_rename.mp he).1).1

theorem pageById_underRoot (h : m.Keeps placed) {p : Page F}
    (hp : p ∈ (m.underRoot header).pages) :
    (m.underRoot header).pageById p.pageId = some p := by
  apply BpannIndex.pageById_of_mem _ hp
  rw [h.pageIds_underRoot]
  exact h.nodup_ids

theorem pageById_rename (h : m.Keeps placed) {q : BpannIndex F × (ℕ → ℕ)} (hq : q ∈ placed)
    {id : ℕ} {p : Page F} (hp : q.1.pageById id = some p) :
    (m.underRoot header).pageById (q.2 id) = some (p.rename q.2) := by
  obtain ⟨hmem, rfl⟩ := BpannIndex.pageById_eq_some hp
  rw [← Page.pageId_rename q.2 p]
  apply h.pageById_underRoot
  simp only [underRoot, h.pages_eq, List.mem_append, List.mem_flatMap]
  exact .inl ⟨q, hq, List.mem_map_of_mem hmem⟩

theorem pageById_rootPageId (h : m.Keeps placed) (hroot : header.rootPageId = 0) :
    (m.underRoot header).pageById (m.underRoot header).header.rootPageId =
      some (.internal 0 m.childCentroids m.childPageIds) := by
  have hid : (m.underRoot header).header.rootPageId = 0 := hroot
  rw [hid]
  exact h.pageById_underRoot (p := .internal 0 m.childCentroids m.childPageIds)
    (by simp [underRoot])

theorem reachable_rename (h : m.Keeps placed) (hroot : header.rootPageId = 0)
    {q : BpannIndex F × (ℕ → ℕ)} (hq : q ∈ placed) {p : Page F} (hp : q.1.Reachable p) :
    (m.underRoot header).Reachable (p.rename q.2) := by
  obtain ⟨top, htop, hpath⟩ := hp
  refine ⟨.internal 0 m.childCentroids m.childPageIds, h.pageById_rootPageId hroot, ?_⟩
  induction hpath with
  | refl =>
    apply Relation.ReflTransGen.single
    refine ⟨q.2 q.1.header.rootPageId, ?_, h.pageById_rename hq htop⟩
    rw [Page.childPageIds, h.children_eq]
    exact List.mem_map_of_mem (f := fun q : BpannIndex F × (ℕ → ℕ) => _) hq
  | tail _ hstep ih =>
    obtain ⟨id, hid, hfound⟩ := hstep
    apply ih.tail
    refine ⟨q.2 id, ?_, h.pageById_rename hq hfound⟩
    rw [Page.childPageIds_rename]
    exact List.mem_map_of_mem hid

theorem leafRows_underRoot (h : m.Keeps placed) :
    (m.underRoot header).leafRows.length = (placed.map fun q => q.1.header.indexedRows).sum := by
  have hrows : (m.underRoot header).leafRows = placed.flatMap fun q => q.1.leafRows := by
    simp [underRoot, BpannIndex.leafRows, h.pages_eq, List.flatMap_assoc, List.flatMap_map,
      leafRows_rename]
  rw [hrows, List.length_flatMap]
  congr 1
  apply List.map_congr_left
  intro q hq
  exact (h.wellFormed q hq).rows.symm

theorem wellFormed_underRoot (h : m.Keeps placed) (hroot : header.rootPageId = 0)
    (hrows : header.indexedRows = (placed.map fun q => q.1.header.indexedRows).sum) :
    (m.underRoot header).WellFormed where
  pageIds := by
    rw [h.pageIds_underRoot]
    exact h.nodup_ids
  root := by
    rw [h.pageIds_underRoot]
    apply List.mem_append_right
    exact List.mem_singleton.mpr hroot
  children := by
    intro p hp c hc
    simp only [underRoot, h.pages_eq, List.mem_append, List.mem_flatMap, List.mem_map,
      List.mem_singleton] at hp
    obtain ⟨q, hq, p, hp, rfl⟩ | rfl := hp
    · rw [Page.childPageIds_rename] at hc
      obtain ⟨d, hd, rfl⟩ := List.mem_map.mp hc
      exact h.mem_pageIds hq (List.mem_map_of_mem ((h.wellFormed q hq).children p hp d hd))
    · rw [Page.childPageIds, h.children_eq] at hc
      obtain ⟨q, hq, rfl⟩ := List.mem_map.mp hc
      exact h.mem_pageIds hq (List.mem_map_of_mem (h.wellFormed q hq).root)
  keys := h.keys
  edges := by
    intro e he
    rw [underRoot, h.skipEdges_eq, List.mem_flatMap] at he
    obtain ⟨q, hq, he⟩ := he
    obtain ⟨hfrom, hdest⟩ := (h.wellFormed q hq).rename_edges (mem_filled_rename.mp he).1
    exact ⟨h.mem_pageIds hq hfrom, fun dest hmem => h.mem_pageIds hq (hdest dest hmem)⟩
  reachable := by
    intro p hp
    simp only [underRoot, h.pages_eq, List.mem_append, List.mem_flatMap, List.mem_map,
      List.mem_singleton] at hp
    obtain ⟨q, hq, p, hp, rfl⟩ | rfl := hp
    · exact h.reachable_rename hroot hq ((h.wellFormed q hq).reachable p hp)
    · exact ⟨_, h.pageById_rootPageId hroot, .refl⟩
  rows := by
    rw [h.leafRows_underRoot]
    exact hrows

theorem joins_underRoot (h : m.Keeps placed) (hlen : placed.length ≠ 1)
    (hrows : header.indexedRows = (placed.map fun q => q.1.header.indexedRows).sum) :
    Joins placed (m.underRoot header) where
  distinct := h.distinct
  leaves_eq := by
    simp only [BpannIndex.leaves, underRoot, h.pages_eq, List.filter_append, List.filter_flatMap,
      filter_isLeaf_rename]
    simp [Page.isLeaf]
  indexedRows_eq := hrows
  mem_skipEdges := by
    intro e
    rw [underRoot, h.skipEdges_eq, List.mem_flatMap]
    simp [mem_filled_rename, hlen]

end Keeps

end Merged

variable [Floating F]

omit [Floating F] in
theorem BpannIndex.joins_self (part : BpannIndex F) (h : part.pageIds.Nodup) :
    Joins [(part, id)] part where
  distinct := by simpa [newIds] using h
  leaves_eq := by
    have hid : (Page.rename id : Page F → Page F) = id := funext Page.rename_id
    simp [hid]
  indexedRows_eq := by simp
  mem_skipEdges := by
    intro e
    have hid : part.skipEdges.rename id = part.skipEdges := by simp [SkipEdges.rename]
    simp [hid]

/--
Well-formed parts merge into a well-formed index that holds their leaves, their rows
and their edges.
-/
theorem BpannIndex.joins_concatMerge (parts : List (BpannIndex F)) (hne : parts ≠ [])
    (hparts : ∀ part ∈ parts, part.WellFormed) :
    ∃ merged placed, BpannIndex.concatMerge parts = .ok merged ∧ merged.WellFormed ∧
      placed.map Prod.fst = parts ∧ Joins placed merged := by
  match parts, hne, hparts with
  | [single], _, hparts =>
    have hsingle := hparts single (by simp)
    exact ⟨single, [(single, id)], rfl, hsingle, rfl, single.joins_self hsingle.pageIds⟩
  | first :: second :: rest, _, hparts =>
    have hstart : ({} : Merged F).Keeps [] := by
      constructor
      all_goals simp [newIds]
    obtain ⟨m, placed, hm, hplaced, hkeeps⟩ := hstart.foldlM hparts
    rw [List.nil_append] at hkeeps
    have hlen : placed.length ≠ 1 := by
      have hlen := congrArg List.length hplaced
      simp only [List.length_map, List.length_cons] at hlen
      omega
    have htotal : m.totalRows = (placed.map fun q => q.1.header.indexedRows).sum := by
      have htotal := (keepsRows_foldlM hm).2
      rw [← hplaced, List.map_map] at htotal
      simpa [Function.comp_def] using htotal
    have hmerge : BpannIndex.concatMerge (first :: second :: rest) =
        .ok (m.underRoot
          { numDim := first.header.numDim
            indexedRows := m.totalRows
            rootPageId := 0
            leafCapacity := first.header.leafCapacity
            skipNeighbors := first.header.skipNeighbors }) := by
      simp only [BpannIndex.concatMerge, hm]
      rfl
    exact ⟨_, placed, hmerge, hkeeps.wellFormed_underRoot rfl htotal, hplaced,
      hkeeps.joins_underRoot hlen htotal⟩

omit [Floating F] in
theorem BpannIndex.wellFormed_buildSingleLeafFromRows (rowIds : List ℕ) (vectors : List (List F))
    (numDim : ℕ) : (buildSingleLeafFromRows rowIds vectors numDim).WellFormed where
  pageIds := by simp [buildSingleLeafFromRows, ofLeaf, pageIds]
  root := by simp [buildSingleLeafFromRows, ofLeaf, pageIds, Page.pageId]
  children := by simp [buildSingleLeafFromRows, ofLeaf, Page.childPageIds]
  keys := by simp [buildSingleLeafFromRows, ofLeaf]
  edges := by simp [buildSingleLeafFromRows, ofLeaf]
  reachable := (rootReachable_ofLeaf numDim rowIds.length rowIds vectors none).1
  rows := by simp [buildSingleLeafFromRows, ofLeaf, leafRows]

theorem BpannIndex.joins_concatMerge_two :
    ∃ merged placed,
      BpannIndex.concatMerge
          [buildSingleLeafFromRows [0] [[(0 : ℚ)]] 1, buildSingleLeafFromRows [1] [[1]] 1] =
        .ok merged ∧ merged.WellFormed ∧
      placed.map Prod.fst =
        [buildSingleLeafFromRows [0] [[(0 : ℚ)]] 1, buildSingleLeafFromRows [1] [[1]] 1] ∧
      Joins placed merged := by
  apply BpannIndex.joins_concatMerge
  · simp
  · intro part hpart
    obtain rfl | hpart := List.mem_cons.mp hpart
    · exact wellFormed_buildSingleLeafFromRows [0] [[0]] 1
    · obtain rfl := List.mem_singleton.mp hpart
      exact wellFormed_buildSingleLeafFromRows [1] [[1]] 1

/-- An index that is alone keeps an entry without edges. -/
theorem BpannIndex.not_joins_filled :
    ∃ part : BpannIndex ℚ, part.WellFormed ∧
      ¬ ∃ (merged : BpannIndex ℚ) (placed : List (BpannIndex ℚ × (ℕ → ℕ))),
        BpannIndex.concatMerge [part] = .ok merged ∧ placed.map Prod.fst = [part] ∧
        ∀ e, e ∈ merged.skipEdges ↔ ∃ q ∈ placed, e ∈ q.1.skipEdges.filled.rename q.2 := by
  refine ⟨{ buildSingleLeafFromRows [0] [[0]] 1 with skipEdges := [(0, [])] }, ?_, ?_⟩
  · have h := wellFormed_buildSingleLeafFromRows [0] [[(0 : ℚ)]] 1
    constructor
    · exact h.pageIds
    · exact h.root
    · exact h.children
    · simp
    · rintro e he
      obtain rfl := List.mem_singleton.mp he
      exact ⟨h.root, by simp⟩
    · exact h.reachable
    · exact h.rows
  · rintro ⟨merged, placed, hmerged, -, hedges⟩
    obtain rfl := Outcome.pure_eq_ok.mp hmerged
    obtain ⟨q, -, he⟩ := (hedges (0, [])).mp (by simp)
    exact (mem_filled_rename.mp he).2 rfl

end Joined

end Ennbo
