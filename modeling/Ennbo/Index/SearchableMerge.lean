import Ennbo.Index.Merge
import Ennbo.Index.Searchable
import Mathlib.Data.List.Perm.Basic

/-! # Searching merged and reloaded fragments

A merge renames the pages of its parts by their positions and puts a root in
front; a reload keeps ids and children. Both keep what a search needs, and so
does a synchronisation.
-/

namespace Ennbo

variable {F : Type}

section Remap

/-- What renaming keeps of a page. -/
structure Remapped (map : ℕ → Option ℕ) (p q : Page F) : Prop where
  pageId : map p.pageId = some q.pageId
  children : List.Forall₂ (fun c c' => map c = some c') p.childPageIds q.childPageIds
  centroids : q.centroids = p.centroids
  leafOk : p.LeafOk → q.LeafOk
  holds : ∀ data, p.Holds data → q.Holds data
  wide : ∀ numDim, p.Wide numDim → q.Wide numDim

theorem remapped_of_remapPage {map : ℕ → Option ℕ} {p q : Page F}
    (h : remapPage map p = some q) : Remapped map p q := by
  cases p with
  | internal pageId centroids childPageIds =>
    simp only [remapPage, Option.bind_eq_bind, Option.bind_eq_some_iff, Option.pure_def,
      Option.some.injEq] at h
    obtain ⟨id, hid, ids, hids, rfl⟩ := h
    exact
      { pageId := hid
        children := mapM_eq_some.mp hids
        centroids := rfl
        leafOk := fun _ => trivial
        holds := fun _ _ => trivial
        wide := fun _ _ => trivial }
  | leaf pageId rowIds rowRange vectors storedCentroid =>
    simp only [remapPage, Option.bind_eq_bind, Option.bind_eq_some_iff, Option.pure_def,
      Option.some.injEq] at h
    obtain ⟨newId, hid, rfl⟩ := h
    constructor
    · exact hid
    · exact .nil
    · rfl
    all_goals
      rcases rowRange with _ | ⟨_, _⟩ <;> cases vectors
      all_goals first | exact id | exact fun _ => id

theorem parentsFirst_remap {map : ℕ → Option ℕ} {ps qs : List (Page F)}
    (h : List.Forall₂ (Remapped map) ps qs) (hp : ParentsFirst ps) : ParentsFirst qs := by
  induction h with
  | nil => trivial
  | @cons p q ps qs hpq hrest ih =>
    obtain ⟨hb, hc, hps⟩ := hp
    refine ⟨?_, ?_, ih hps⟩
    · unfold Page.BranchOk at hb ⊢
      rw [hpq.centroids, hb, hpq.children.length_eq]
    · intro c' hc'
      obtain ⟨c, hcmem, hcc⟩ := exists_mem_left hpq.children hc'
      obtain ⟨r, hr, rfl⟩ := List.mem_map.mp (hc c hcmem)
      obtain ⟨r', hr', hrr⟩ := exists_mem_right hrest hr
      rw [hrr.pageId, Option.some.injEq] at hcc
      exact List.mem_map.mpr ⟨r', hr', hcc⟩

theorem pageIds_remap {part : BpannIndex F} {nextId : ℕ} {qs : List (Page F)}
    (hids : part.pageIds.Nodup)
    (h : List.Forall₂ (Remapped (idMap part.pageIds nextId)) part.pages qs) :
    qs.map Page.pageId = List.range' nextId part.pages.length := by
  apply List.ext_getElem
  · simp [h.length_eq]
  · intro i hi _
    rw [List.getElem_map, List.getElem_range']
    have hiq : i < qs.length := by simpa using hi
    have hip : i < part.pages.length := h.length_eq ▸ hiq
    have hmap := (h.get hip hiq).pageId
    have hipIds : i < part.pageIds.length := by simpa [BpannIndex.pageIds] using hip
    have hlast := lastIdx_of_nodup hids hipIds
    have hget : part.pageIds[i] = part.pages[i].pageId := by simp [BpannIndex.pageIds]
    rw [hget] at hlast
    simp only [List.get_eq_getElem] at hmap
    rw [idMap, hlast] at hmap
    have hid : nextId + i = qs[i].pageId := Option.some.inj hmap
    omega

end Remap

section Concat

variable [Floating F]

/-- What a merge has collected can be searched below a root that lists its children. -/
structure Merged.Searchable (acc : Merged F) : Prop where
  pageIds : acc.pages.map Page.pageId = List.range' 1 acc.pages.length
  nextId : acc.nextId = acc.pages.length + 1
  ordered : ∃ order : List (Page F), order.Perm acc.pages ∧ ParentsFirst order
  leaves : ∀ p ∈ acc.pages, p.LeafOk
  children : ∀ c ∈ acc.childPageIds, c ∈ acc.pages.map Page.pageId
  centroids : acc.childCentroids.length = acc.childPageIds.length

omit [Floating F] in
theorem Merged.searchable_empty : ({} : Merged F).Searchable where
  pageIds := rfl
  nextId := rfl
  ordered := ⟨[], .refl _, trivial⟩
  leaves := by simp
  children := by simp
  centroids := rfl

theorem Merged.Searchable.addPart {acc acc' : Merged F} {part : BpannIndex F}
    (hacc : acc.Searchable) (hpart : part.Searchable) (h : acc.addPart part = some acc') :
    acc'.Searchable := by
  obtain ⟨root, qs, hroot, hqs, rfl⟩ := Merged.addPart_eq_some h
  have hrel : List.Forall₂ (Remapped (idMap part.pageIds acc.nextId)) part.pages qs :=
    (mapM_eq_some.mp hqs).imp fun _ _ => remapped_of_remapPage
  have hids := pageIds_remap hpart.pageIds hrel
  have hlen := hrel.length_eq
  constructor
  · rw [List.map_append, hacc.pageIds, hids, hacc.nextId, List.length_append, ← hlen,
      Nat.add_comm acc.pages.length 1, List.range'_append_1]
  · dsimp only
    rw [hacc.nextId, List.length_append, hlen]
    omega
  · obtain ⟨order, hperm, horder⟩ := hacc.ordered
    obtain ⟨order₁, hperm₁, horder₁⟩ := hpart.ordered
    obtain ⟨order₂, hrel₂, hperm₂⟩ := List.perm_comp_forall₂ hperm₁ hrel
    exact ⟨order ++ order₂, hperm.append hperm₂, horder.append (parentsFirst_remap hrel₂ horder₁)⟩
  · intro q hq
    rcases List.mem_append.mp hq with hq | hq
    · exact hacc.leaves q hq
    · obtain ⟨p, hp, hpq⟩ := exists_mem_left hrel hq
      exact hpq.leafOk (hpart.leaves p hp)
  · intro c hc
    rw [List.map_append]
    rcases List.mem_append.mp hc with hc | hc
    · exact List.mem_append_left _ (hacc.children c hc)
    · obtain rfl := List.mem_singleton.mp hc
      apply List.mem_append_right
      obtain ⟨i, hi, rfl⟩ := Option.map_eq_some_iff.mp hroot
      have hilt : i < part.pages.length := by
        obtain ⟨hilt, -⟩ := List.getElem?_eq_some_iff.mp (lastIdx_eq_some hi)
        simpa [BpannIndex.pageIds] using hilt
      rw [hids, List.mem_range'_1]
      omega
  · simp [hacc.centroids]

theorem Merged.searchable_foldlM {parts : List (BpannIndex F)} {acc acc' : Merged F}
    (hacc : acc.Searchable) (hparts : ∀ part ∈ parts, part.Searchable)
    (h : parts.foldlM Merged.addPart acc = some acc') : acc'.Searchable := by
  induction parts generalizing acc with
  | nil =>
    obtain rfl := Option.some.inj h
    exact hacc
  | cons part parts ih =>
    rw [List.foldlM_cons, Option.bind_eq_bind, Option.bind_eq_some_iff] at h
    obtain ⟨acc₁, h₁, h⟩ := h
    rw [List.forall_mem_cons] at hparts
    exact ih (hacc.addPart hparts.1 h₁) hparts.2 h

theorem searchable_concatMerge {parts : List (BpannIndex F)} {merged : BpannIndex F}
    (hparts : ∀ part ∈ parts, part.Searchable) (h : BpannIndex.concatMerge parts = .ok merged) :
    merged.Searchable := by
  match parts, hparts, h with
  | [single], hparts, h =>
    obtain rfl := Outcome.pure_eq_ok.mp h
    exact hparts _ (List.mem_singleton_self _)
  | first :: second :: rest, hparts, h =>
    simp only [BpannIndex.concatMerge, Outcome.bind_eq_ok, Outcome.ofOption_eq_ok,
      Outcome.pure_eq_ok] at h
    obtain ⟨m, hm, rfl⟩ := h
    have hsearch := Merged.searchable_foldlM Merged.searchable_empty hparts hm
    obtain ⟨order, hperm, horder⟩ := hsearch.ordered
    constructor
    · change ((m.pages ++ [Page.internal 0 m.childCentroids m.childPageIds]).map
        Page.pageId).Nodup
      rw [List.map_append, hsearch.pageIds, List.nodup_append]
      refine ⟨List.nodup_range', by simp, ?_⟩
      intro a ha b hb
      obtain rfl : b = 0 := by simpa [Page.pageId] using hb
      have := List.mem_range'_1.mp ha
      omega
    · refine ⟨.internal 0 m.childCentroids m.childPageIds :: order, ?_, hsearch.centroids, ?_,
        horder⟩
      · exact (hperm.cons _).trans (List.perm_append_singleton _ _).symm
      · intro c hc
        exact (hperm.map Page.pageId).mem_iff.mpr (hsearch.children c hc)
    · intro p hp
      rcases List.mem_append.mp hp with hp | hp
      · exact hsearch.leaves p hp
      · obtain rfl := List.mem_singleton.mp hp
        trivial

/-- What all pages of the parts share with the merged index. -/
theorem forall_pages_foldlM {P : Page F → Prop} {parts : List (BpannIndex F)}
    {acc acc' : Merged F}
    (hP : ∀ map p q, Remapped map p q → P p → P q) (hacc : ∀ p ∈ acc.pages, P p)
    (hparts : ∀ part ∈ parts, ∀ p ∈ part.pages, P p)
    (h : parts.foldlM Merged.addPart acc = some acc') : ∀ p ∈ acc'.pages, P p := by
  induction parts generalizing acc with
  | nil =>
    obtain rfl := Option.some.inj h
    exact hacc
  | cons part parts ih =>
    rw [List.foldlM_cons, Option.bind_eq_bind, Option.bind_eq_some_iff] at h
    obtain ⟨acc₁, h₁, h⟩ := h
    rw [List.forall_mem_cons] at hparts
    refine ih ?_ hparts.2 h
    obtain ⟨root, qs, -, hqs, rfl⟩ := Merged.addPart_eq_some h₁
    have hrel : List.Forall₂ (Remapped (idMap part.pageIds acc.nextId)) part.pages qs :=
      (mapM_eq_some.mp hqs).imp fun _ _ => remapped_of_remapPage
    intro q hq
    rcases List.mem_append.mp hq with hq | hq
    · exact hacc q hq
    · obtain ⟨p, hp, hpq⟩ := exists_mem_left hrel hq
      exact hP _ p q hpq (hparts.1 p hp)

theorem holdsRows_concatMerge {numDim : ℕ} {data : ℕ → List F} {parts : List (BpannIndex F)}
    {merged : BpannIndex F} (hparts : ∀ part ∈ parts, part.HoldsRows numDim data)
    (h : BpannIndex.concatMerge parts = .ok merged) : merged.HoldsRows numDim data := by
  match parts, hparts, h with
  | [single], hparts, h =>
    obtain rfl := Outcome.pure_eq_ok.mp h
    exact hparts _ (List.mem_singleton_self _)
  | first :: second :: rest, hparts, h =>
    simp only [BpannIndex.concatMerge, Outcome.bind_eq_ok, Outcome.ofOption_eq_ok,
      Outcome.pure_eq_ok] at h
    obtain ⟨m, hm, rfl⟩ := h
    have hpages : ∀ p ∈ m.pages, p.Holds data ∧ p.Wide numDim :=
      forall_pages_foldlM (fun _ _ _ hpq hp => ⟨hpq.holds _ hp.1, hpq.wide _ hp.2⟩) (by simp)
        (fun part hpart p hp => ⟨(hparts part hpart).holds p hp, (hparts part hpart).wide p hp⟩) hm
    have hall : ∀ p ∈ m.pages ++ [Page.internal 0 m.childCentroids m.childPageIds],
        p.Holds data ∧ p.Wide numDim := by
      intro p hp
      rcases List.mem_append.mp hp with hp | hp
      · exact hpages p hp
      · obtain rfl := List.mem_singleton.mp hp
        exact ⟨trivial, trivial⟩
    exact ⟨(hparts first List.mem_cons_self).numDim_eq, fun p hp => (hall p hp).1,
      fun p hp => (hall p hp).2⟩

end Concat

section Reload

variable [Zero F] {numDim : ℕ}

theorem parentsFirst_reload {pages : List (Page F)} (h : ParentsFirst pages) :
    ParentsFirst (pages.map (Page.reload numDim)) := by
  induction pages with
  | nil => trivial
  | cons p pages ih =>
    obtain ⟨hb, hc, hrest⟩ := h
    have hids : (pages.map (Page.reload numDim)).map Page.pageId = pages.map Page.pageId := by
      simp [Function.comp_def]
    refine ⟨?_, ?_, ih hrest⟩
    · match p, hb with
      | .internal _ centroids childPageIds, hb =>
        change centroids.length = childPageIds.length at hb
        simp [Page.reload, Page.BranchOk, Page.centroids, Page.childPageIds, hb]
      | .leaf _ _ (some (_, _)) _ _, _ => rfl
      | .leaf _ _ none [] _, _ => rfl
      | .leaf _ _ none (_ :: _) _, _ => rfl
    · rw [hids]
      intro c hmem
      match p, hc, hmem with
      | .internal _ _ _, hc, hmem => exact hc c (List.mem_of_mem_take hmem)
      | .leaf _ _ (some (_, _)) _ _, _, hmem =>
        simp [Page.reload, Page.emptyRangeLeaf, Page.childPageIds] at hmem
      | .leaf _ _ none [] _, _, hmem => simp [Page.reload, Page.childPageIds] at hmem
      | .leaf _ _ none (_ :: _) _, _, hmem => simp [Page.reload, Page.childPageIds] at hmem

theorem Page.leafOk_reload {p : Page F} (h : p.LeafOk) : (p.reload numDim).LeafOk := by
  match p, h with
  | .internal _ _ _, _ => trivial
  | .leaf _ _ (some (_, _)) _ _, h => exact h
  | .leaf _ _ none [] _, _ => trivial
  | .leaf _ rowIds none (v :: vs) _, h =>
    refine leafOk_vectorLeaf ?_
    change (v :: vs).length = rowIds.length at h
    rw [List.length_map, List.length_take, h, min_self]

theorem Page.holds_reload {p : Page F} {data : ℕ → List F} (h : p.Holds data)
    (hw : p.Wide numDim) : (p.reload numDim).Holds data ∧ (p.reload numDim).Wide numDim := by
  match p, h, hw with
  | .internal _ _ _, _, _ => exact ⟨trivial, trivial⟩
  | .leaf _ _ (some (_, _)) _ _, _, _ => exact ⟨trivial, trivial⟩
  | .leaf _ _ none [] _, _, _ => exact ⟨trivial, by simp [Page.reload, Page.Wide]⟩
  | .leaf pageId rowIds none (v :: vs) c, h, hw =>
    have hlen : (v :: vs).length = rowIds.length := by
      change v :: vs = rowIds.map data at h
      rw [h, List.length_map]
    have hsame : (Page.leaf pageId rowIds none (v :: vs) c).reload numDim =
        .leaf pageId rowIds none (v :: vs) none := by
      rw [Page.reload, ← hlen, List.take_length, map_fitRow_of_length hw]
    rw [hsame]
    exact ⟨h, hw⟩

theorem BpannIndex.Searchable.reload {idx : BpannIndex F} (h : idx.Searchable) :
    idx.reload.Searchable where
  pageIds := by
    rw [pageIds_reload]
    exact h.pageIds
  ordered := by
    obtain ⟨order, hperm, horder⟩ := h.ordered
    exact ⟨_, hperm.map _, parentsFirst_reload horder⟩
  leaves := by
    intro q hq
    obtain ⟨p, hp, rfl⟩ := List.mem_map.mp hq
    exact Page.leafOk_reload (h.leaves p hp)

theorem BpannIndex.HoldsRows.reload {idx : BpannIndex F} {data : ℕ → List F}
    (h : idx.HoldsRows numDim data) : idx.reload.HoldsRows numDim data := by
  have hall : ∀ q ∈ idx.reload.pages, q.Holds data ∧ q.Wide numDim := by
    intro q hq
    obtain ⟨p, hp, rfl⟩ := List.mem_map.mp hq
    rw [h.numDim_eq]
    exact Page.holds_reload (h.holds p hp) (h.wide p hp)
  exact ⟨h.numDim_eq, fun q hq => (hall q hq).1, fun q hq => (hall q hq).2⟩

end Reload

section Sync

variable {D : Type} [Floating D] [Floating F] [FloatCast D F]
variable {env : Env F} {ctx : IndexBuildContext D} {stop : ℕ} {s s' : IndexState D F}

theorem searchable_ensureSync (h32 : stop < 2 ^ 32)
    (hs : ∀ idx ∈ s.index.indices, idx.Searchable)
    (h : (IndexState.ensureSync env ctx stop).Returns s () s') :
    ∀ idx ∈ s'.index.indices, idx.Searchable :=
  IndexState.forall_ensureSync (fun _ => searchable_builtFragment h32)
    (fun _ _ => searchable_concatMerge) hs h

theorem holdsRows_ensureSync (h32 : stop < 2 ^ 32)
    (hwide : ∀ i < stop, (ctx.data i : List F).length = ctx.numDim)
    (hs : ∀ idx ∈ s.index.indices, idx.HoldsRows ctx.numDim ctx.data)
    (h : (IndexState.ensureSync env ctx stop).Returns s () s') :
    ∀ idx ∈ s'.index.indices, idx.HoldsRows ctx.numDim ctx.data :=
  IndexState.forall_ensureSync
    (fun _ => holdsRows_builtFragment h32 fun i _ hi => hwide i hi)
    (fun _ _ => holdsRows_concatMerge) hs h

end Sync

end Ennbo
