import Ennbo.Index.Fragments
import Ennbo.Index.Partition

/-! # Fragments that can be searched

Page ids do not repeat and the pages can be listed with every child behind its
parent, so a descent ends; every leaf can be scored. Builders, merges and
persisting keep this, and they keep the vectors that leaves hold.
-/

namespace Ennbo

variable {F : Type}

/-- Every page comes before its children and has one centroid for each. -/
def ParentsFirst : List (Page F) → Prop
  | [] => True
  | p :: rest =>
    p.BranchOk ∧ (∀ c ∈ p.childPageIds, c ∈ rest.map Page.pageId) ∧ ParentsFirst rest

theorem ParentsFirst.append {xs ys : List (Page F)} (hx : ParentsFirst xs) (hy : ParentsFirst ys) :
    ParentsFirst (xs ++ ys) := by
  induction xs with
  | nil => exact hy
  | cons p xs ih =>
    obtain ⟨hb, hc, hrest⟩ := hx
    refine ⟨hb, fun c h => ?_, ih hrest⟩
    change c ∈ (xs ++ ys).map Page.pageId
    rw [List.map_append]
    exact List.mem_append_left _ (hc c h)

theorem parentsFirst_of_leaves {pages : List (Page F)} (h : ∀ p ∈ pages, p.isLeaf) :
    ParentsFirst pages := by
  induction pages with
  | nil => trivial
  | cons p pages ih =>
    rw [List.forall_mem_cons] at h
    refine ⟨?_, ?_, ih h.2⟩
    · cases p with
      | internal => simp [Page.isLeaf] at h
      | leaf => rfl
    · cases p with
      | internal => simp [Page.isLeaf] at h
      | leaf => simp [Page.childPageIds]

namespace Page

/-- A range in order, and as many vectors as rows when there are any. -/
def LeafOk : Page F → Prop
  | leaf _ _ (some (start, stop)) _ _ => start ≤ stop
  | leaf _ rowIds none (v :: vs) _ => (v :: vs).length = rowIds.length
  | _ => True

/-- The vectors of a leaf are those of its rows. -/
def Holds (data : ℕ → List F) : Page F → Prop
  | leaf _ rowIds none (v :: vs) _ => v :: vs = rowIds.map data
  | _ => True

instance : (p : Page F) → Decidable p.LeafOk
  | leaf _ _ (some (start, stop)) _ _ => inferInstanceAs (Decidable (start ≤ stop))
  | leaf _ rowIds none (v :: vs) _ => inferInstanceAs (Decidable ((v :: vs).length = rowIds.length))
  | leaf _ _ none [] _ => .isTrue trivial
  | internal .. => .isTrue trivial

instance [DecidableEq F] (data : ℕ → List F) : (p : Page F) → Decidable (p.Holds data)
  | leaf _ rowIds none (v :: vs) _ => inferInstanceAs (Decidable (v :: vs = rowIds.map data))
  | leaf _ _ none [] _ => .isTrue trivial
  | leaf _ _ (some _) _ _ => .isTrue trivial
  | internal .. => .isTrue trivial

/-- The vectors of a leaf have one width. -/
def Wide (numDim : ℕ) : Page F → Prop
  | leaf _ _ none vectors _ => ∀ v ∈ vectors, v.length = numDim
  | _ => True

end Page

/-- A search of the fragment ends and scores every row it reaches. -/
structure BpannIndex.Searchable (idx : BpannIndex F) : Prop where
  pageIds : idx.pageIds.Nodup
  ordered : ∃ order : List (Page F), order.Perm idx.pages ∧ ParentsFirst order
  leaves : ∀ p ∈ idx.pages, p.LeafOk

/-- The leaves of the fragment hold the vectors of their rows. -/
structure BpannIndex.HoldsRows (numDim : ℕ) (data : ℕ → List F) (idx : BpannIndex F) :
    Prop where
  numDim_eq : idx.header.numDim = numDim
  holds : ∀ p ∈ idx.pages, p.Holds data
  wide : ∀ p ∈ idx.pages, p.Wide numDim

section Congr

variable {data data' : ℕ → List F} {numDim : ℕ}

theorem Page.Holds.congr {p : Page F} (h : p.Holds data)
    (hdata : ∀ i ∈ p.leafRows, data i = data' i) : p.Holds data' := by
  match p, h, hdata with
  | .leaf _ rowIds none (v :: vs) _, h, hdata =>
    change v :: vs = rowIds.map data at h
    change v :: vs = rowIds.map data'
    rw [h]
    exact List.map_congr_left hdata
  | .leaf _ _ none [] _, _, _ => trivial
  | .leaf _ _ (some _) _ _, _, _ => trivial
  | .internal .., _, _ => trivial

theorem BpannIndex.HoldsRows.congr {idx : BpannIndex F} (h : idx.HoldsRows numDim data)
    (hdata : ∀ i ∈ idx.leafRows, data i = data' i) : idx.HoldsRows numDim data' where
  numDim_eq := h.numDim_eq
  holds p hp := (h.holds p hp).congr fun i hi => hdata i (List.mem_flatMap.mpr ⟨p, hp, hi⟩)
  wide := h.wide

end Congr

section PageMap

theorem lastIdx_of_nodup {ids : List ℕ} (h : ids.Nodup) {i : ℕ} (hi : i < ids.length) :
    lastIdx ids[i] ids = some i := by
  obtain ⟨j, hj⟩ := exists_lastIdx (List.getElem_mem hi)
  have hget := lastIdx_eq_some hj
  obtain ⟨hjlt, hget⟩ := List.getElem?_eq_some_iff.mp hget
  rw [hj, (List.Nodup.getElem_inj_iff h).mp hget]

theorem BpannIndex.pageById_of_mem {idx : BpannIndex F} (h : idx.pageIds.Nodup) {p : Page F}
    (hp : p ∈ idx.pages) : idx.pageById p.pageId = some p := by
  obtain ⟨i, hi, rfl⟩ := List.getElem_of_mem hp
  have hlen : i < idx.pageIds.length := by simpa [pageIds] using hi
  have hidx := lastIdx_of_nodup h hlen
  have hid : idx.pageIds[i] = idx.pages[i].pageId := by simp [pageIds]
  rw [hid] at hidx
  simp [pageById, hidx, hi]

end PageMap

section Leaf

theorem leafOk_vectorLeaf {pageId : ℕ} {rowIds : List ℕ} {vectors : List (List F)}
    {c : Option (List F)} (h : vectors.length = rowIds.length) :
    (Page.leaf pageId rowIds none vectors c).LeafOk := by
  cases vectors with
  | nil => trivial
  | cons v vs => exact h

theorem holds_vectorLeaf {pageId : ℕ} {rowIds : List ℕ} {data : ℕ → List F}
    {c : Option (List F)} : (Page.leaf pageId rowIds none (rowIds.map data) c).Holds data := by
  cases rowIds with
  | nil => trivial
  | cons i ids => rfl

theorem searchable_ofLeaf {numDim rows : ℕ} {p : Page F} (hp : p.isLeaf) (hok : p.LeafOk) :
    (BpannIndex.ofLeaf numDim rows p).Searchable where
  pageIds := by simp [BpannIndex.ofLeaf, BpannIndex.pageIds]
  ordered := ⟨[p], .refl _, parentsFirst_of_leaves (by simpa using hp)⟩
  leaves := by simpa [BpannIndex.ofLeaf] using hok

end Leaf

section Tree

/-- Pages numbered in preorder come before their children. -/
theorem Numbered.parentsFirst {entries : List (ℕ × List F)} {nextId lastId : ℕ}
    {pages : List (Page F)} (h : Numbered entries nextId lastId pages) : ParentsFirst pages := by
  have key : ∀ (before after : List (Page F)), pages = before ++ after → ParentsFirst after := by
    intro before after
    induction after generalizing before with
    | nil => exact fun _ => trivial
    | cons p after ih =>
      intro hp
      have hmem : p ∈ pages := by rw [hp]; simp
      refine ⟨h.branches p hmem, fun c hc => ?_, ih (before ++ [p]) (by rw [hp]; simp)⟩
      obtain ⟨hlt, hle⟩ := h.children p hmem c hc
      have hids := h.ids
      have hlast := h.last_eq
      rw [hp, List.map_append, List.map_cons, List.length_append, List.length_cons,
        ← List.range'_append_1, List.range'_succ] at hids
      obtain ⟨-, htail⟩ := List.append_inj hids (by simp)
      obtain ⟨hpid, hafter⟩ := List.cons.inj htail
      rw [hp, List.length_append, List.length_cons] at hlast
      rw [hafter, List.mem_range'_1]
      omega
  exact key [] pages rfl

variable [Floating F]

theorem searchable_buildFromRows {t : Tuning} {rowIds : List ℕ} {vectors : List (List F)}
    {numDim cap : ℕ} {rng : Rng F} {depth : ℕ} {idx : BpannIndex F}
    (hlen : vectors.length = rowIds.length)
    (h : BpannIndex.buildFromRowsWithPersist t rowIds vectors numDim cap rng depth = .ok idx) :
    idx.Searchable := by
  unfold BpannIndex.buildFromRowsWithPersist at h
  split at h
  · obtain rfl := Outcome.pure_eq_ok.mp h
    exact searchable_ofLeaf rfl (leafOk_vectorLeaf hlen)
  · simp only [Outcome.bind_eq_ok, Outcome.ofOption_eq_ok, Outcome.pure_eq_ok] at h
    obtain ⟨tree, -, rfl⟩ := h
    have hn := numbered_partitionToPagesId tree.root 0
    constructor
    · change ((partitionToPagesId tree.root 0).1.map Page.pageId).Nodup
      rw [hn.ids]
      exact List.nodup_range'
    · exact ⟨_, .refl _, hn.parentsFirst⟩
    · intro p hp
      cases hl : p.isLeaf with
      | true =>
        obtain ⟨es, -, he⟩ := hn.leaves p hp hl
        rw [he]
        exact leafOk_vectorLeaf (by simp)
      | false =>
        cases p with
        | internal => trivial
        | leaf => simp [Page.isLeaf] at hl

theorem holdsRows_buildFromRows {t : Tuning} {rowIds : List ℕ} {data : ℕ → List F}
    {numDim cap : ℕ} {rng : Rng F} {depth : ℕ} {idx : BpannIndex F}
    (hwide : ∀ i ∈ rowIds, (data i).length = numDim)
    (h : BpannIndex.buildFromRowsWithPersist t rowIds (rowIds.map data) numDim cap rng depth =
      .ok idx) : idx.HoldsRows numDim data := by
  unfold BpannIndex.buildFromRowsWithPersist at h
  split at h
  · obtain rfl := Outcome.pure_eq_ok.mp h
    constructor
    · rfl
    · simpa [BpannIndex.buildSingleLeafFromRows, BpannIndex.ofLeaf] using holds_vectorLeaf
    · simpa [BpannIndex.buildSingleLeafFromRows, BpannIndex.ofLeaf, Page.Wide] using hwide
  · simp only [Outcome.bind_eq_ok, Outcome.ofOption_eq_ok, Outcome.pure_eq_ok] at h
    obtain ⟨tree, htree, rfl⟩ := h
    have hn := numbered_partitionToPagesId tree.root 0
    have hentry : ∀ e ∈ tree.root.entries, e.1 ∈ rowIds ∧ e.2 = data e.1 := by
      intro e he
      have hmem := (PartitionTree.entries_perm htree).mem_iff.mp he
      rw [← List.map_prod_left_eq_zip, List.mem_map] at hmem
      obtain ⟨i, hi, rfl⟩ := hmem
      exact ⟨hi, rfl⟩
    have hleaf : ∀ p ∈ (partitionToPagesId tree.root 0).1, p.isLeaf → ∃ ids ⊆ rowIds,
        p = .leaf p.pageId ids none (ids.map data) none := by
      intro p hp hl
      obtain ⟨es, hsub, he⟩ := hn.leaves p hp hl
      refine ⟨es.map Prod.fst, ?_, ?_⟩
      · intro i hi
        obtain ⟨e, hmem, rfl⟩ := List.mem_map.mp hi
        exact (hentry e (hsub hmem)).1
      · have hdata : (es.map Prod.fst).map data = es.map Prod.snd := by
          rw [List.map_map]
          exact List.map_congr_left fun e hmem => (hentry e (hsub hmem)).2.symm
        rw [hdata]
        exact he
    constructor
    · rfl
    · intro p hp
      cases hl : p.isLeaf with
      | true =>
        obtain ⟨ids, -, he⟩ := hleaf p hp hl
        rw [he]
        exact holds_vectorLeaf
      | false =>
        cases p with
        | internal => trivial
        | leaf => simp [Page.isLeaf] at hl
    · intro p hp
      cases hl : p.isLeaf with
      | true =>
        obtain ⟨ids, hsub, he⟩ := hleaf p hp hl
        rw [he]
        simpa [Page.Wide] using fun i hi => hwide i (hsub hi)
      | false =>
        cases p with
        | internal => trivial
        | leaf => simp [Page.isLeaf] at hl

end Tree

section Forest

theorem forall_forestLeaves {leaf : ℕ → ℕ → ℕ → Outcome (Page F)} {P : Page F → Prop}
    {spans : List (ℕ × ℕ)} {nextId : ℕ} {leaves : List (Page F)}
    (hleaf : ∀ span ∈ spans, ∀ id page, leaf id span.1 span.2 = .ok page → P page)
    (h : forestLeaves leaf spans nextId = .ok leaves) : ∀ p ∈ leaves, P p := by
  induction spans generalizing nextId leaves with
  | nil =>
    obtain rfl := Outcome.pure_eq_ok.mp h
    simp
  | cons span spans ih =>
    simp only [forestLeaves, Outcome.bind_eq_ok, Outcome.pure_eq_ok] at h
    obtain ⟨page, hp, pages, hps, rfl⟩ := h
    rw [List.forall_mem_cons]
    exact ⟨hleaf span List.mem_cons_self _ _ hp,
      ih (fun s hs => hleaf s (List.mem_cons_of_mem _ hs)) hps⟩

theorem pageIds_forestLeaves {leaf : ℕ → ℕ → ℕ → Outcome (Page F)} {spans : List (ℕ × ℕ)}
    {nextId : ℕ} {leaves : List (Page F)}
    (hleaf : ∀ id cur stop page, leaf id cur stop = .ok page → page.pageId = id)
    (h : forestLeaves leaf spans nextId = .ok leaves) :
    leaves.map Page.pageId = List.range' nextId leaves.length := by
  induction spans generalizing nextId leaves with
  | nil =>
    obtain rfl := Outcome.pure_eq_ok.mp h
    rfl
  | cons span spans ih =>
    simp only [forestLeaves, Outcome.bind_eq_ok, Outcome.pure_eq_ok] at h
    obtain ⟨page, hp, pages, hps, rfl⟩ := h
    rw [List.map_cons, hleaf _ _ _ _ hp, ih hps, List.length_cons, List.range'_succ]

variable [Floating F]

theorem searchable_forest {leaf : ℕ → ℕ → ℕ → Outcome (Page F)}
    {numDim start stop leafRows : ℕ} {idx : BpannIndex F}
    (hid : ∀ id cur chunkEnd page, leaf id cur chunkEnd = .ok page → page.pageId = id)
    (hleaf : ∀ cur chunkEnd, cur < chunkEnd → chunkEnd ≤ stop → ∀ id page,
      leaf id cur chunkEnd = .ok page → page.isLeaf ∧ page.LeafOk)
    (h : buildLeafForestIndex leaf numDim start stop leafRows = .ok idx) : idx.Searchable := by
  obtain ⟨leaves, hl, rfl⟩ := buildLeafForestIndex_eq_ok.mp h
  have hids := pageIds_forestLeaves hid hl
  have hall : ∀ p ∈ leaves, p.isLeaf ∧ p.LeafOk := by
    refine forall_forestLeaves (fun span hs id page hp => ?_) hl
    obtain ⟨-, h₁, h₂, -⟩ := chunkSpans_bounds (by omega) span hs
    exact hleaf _ _ h₁ h₂ id page hp
  constructor
  · change ((forestPages leaves).map Page.pageId).Nodup
    rw [forestPages, List.map_append, hids, List.nodup_append]
    refine ⟨List.nodup_range', by simp, ?_⟩
    intro a ha b hb
    obtain rfl : b = 0 := by simpa [Page.pageId] using hb
    have := List.mem_range'_1.mp ha
    omega
  · refine ⟨.internal 0 (leaves.map Page.centroid) (leaves.map Page.pageId) :: leaves, ?_, ?_, ?_, ?_⟩
    · exact (List.perm_append_singleton _ leaves).symm
    · simp [Page.BranchOk, Page.centroids, Page.childPageIds]
    · exact fun c hc => hc
    · exact parentsFirst_of_leaves fun p hp => (hall p hp).1
  · intro p hp
    rcases List.mem_append.mp hp with hp | hp
    · exact (hall p hp).2
    · obtain rfl := List.mem_singleton.mp hp
      trivial

theorem holdsRows_forest {leaf : ℕ → ℕ → ℕ → Outcome (Page F)}
    {numDim start stop leafRows : ℕ} {data : ℕ → List F} {idx : BpannIndex F}
    (hleaf : ∀ cur chunkEnd, start ≤ cur → cur < chunkEnd → chunkEnd ≤ stop → ∀ id page,
      leaf id cur chunkEnd = .ok page → page.Holds data ∧ page.Wide numDim)
    (h : buildLeafForestIndex leaf numDim start stop leafRows = .ok idx) :
    idx.HoldsRows numDim data := by
  obtain ⟨leaves, hl, rfl⟩ := buildLeafForestIndex_eq_ok.mp h
  have hleaves : ∀ p ∈ leaves, p.Holds data ∧ p.Wide numDim := by
    refine forall_forestLeaves (fun span hs id page hp => ?_) hl
    obtain ⟨h₀, h₁, h₂, -⟩ := chunkSpans_bounds (by omega) span hs
    exact hleaf _ _ h₀ h₁ h₂ id page hp
  have hall : ∀ p ∈ forestPages leaves, p.Holds data ∧ p.Wide numDim := by
    intro p hp
    rcases List.mem_append.mp hp with hp | hp
    · exact hleaves p hp
    · obtain rfl := List.mem_singleton.mp hp
      exact ⟨trivial, trivial⟩
  exact ⟨rfl, fun p hp => (hall p hp).1, fun p hp => (hall p hp).2⟩

end Forest

section Built

variable {D : Type} [Floating D] [Floating F] [FloatCast D F]
variable {env : Env F} {ctx : IndexBuildContext D} {start stop : ℕ} {frag : BpannIndex F}

/-- Row `i` as the index sees it. -/
def rowData (rows : List (List D)) (scaleX : Bool) (xScale : List D) (i : ℕ) : List F :=
  bpannRowToF32 (rows.getD i []) scaleX xScale

def IndexBuildContext.data (ctx : IndexBuildContext D) : ℕ → List F :=
  rowData ctx.trainX.rows ctx.scaleX ctx.xScale

omit [Floating F] in
theorem loadVectorsFromMmap_eq_ok {vectors : List (List F)}
    (h : loadVectorsFromMmap ctx start stop = .ok vectors) :
    vectors = (List.range' start (stop - start)).map ctx.data := by
  unfold loadVectorsFromMmap at h
  rw [mapM_ok_iff] at h
  symm
  rw [← List.forall₂_eq_eq_eq, List.forall₂_map_left_iff]
  refine h.imp fun i v hv => ?_
  simp only [Outcome.bind_eq_ok, Outcome.pure_eq_ok] at hv
  obtain ⟨row, hrow, rfl⟩ := hv
  by_cases hi : i < ctx.trainX.nrows
  · rw [MmapColumnStore.mmapRowSlice_eq hi] at hrow
    rw [← Except.ok.inj hrow]
    rfl
  · simp [MmapColumnStore.mmapRowSlice, not_lt.mp hi] at hrow

theorem searchable_builtFragment (h32 : stop < 2 ^ 32)
    (h : BuiltFragment env ctx start stop frag) : frag.Searchable := by
  cases h with
  | rowIds centroid => exact searchable_ofLeaf rfl trivial
  | tree hv hidx =>
    refine searchable_buildFromRows ?_ hidx
    rw [loadVectorsFromMmap_eq_ok hv, length_spanIds, List.length_map, List.length_range']
  | emptyForest hidx =>
    refine searchable_forest ?_ ?_ hidx
    · intro id cur chunkEnd page hp
      simp only [emptyLeaf, Outcome.bind_eq_ok, Outcome.pure_eq_ok] at hp
      obtain ⟨_, -, rfl⟩ := hp
      rfl
    · intro cur chunkEnd h₁ h₂ id page hp
      simp only [emptyLeaf, Outcome.bind_eq_ok, Outcome.pure_eq_ok] at hp
      obtain ⟨_, -, rfl⟩ := hp
      refine ⟨rfl, ?_⟩
      change toU32 cur ≤ toU32 chunkEnd
      rw [toU32_of_lt (by omega), toU32_of_lt (by omega)]
      exact h₁.le
  | vectorForest hidx =>
    refine searchable_forest ?_ ?_ hidx
    · intro id cur chunkEnd page hp
      simp only [vectorLeaf, Outcome.bind_eq_ok, Outcome.pure_eq_ok] at hp
      obtain ⟨_, -, rfl⟩ := hp
      rfl
    · intro cur chunkEnd h₁ h₂ id page hp
      simp only [vectorLeaf, Outcome.bind_eq_ok, Outcome.pure_eq_ok] at hp
      obtain ⟨vectors, hv, rfl⟩ := hp
      refine ⟨rfl, leafOk_vectorLeaf ?_⟩
      rw [loadVectorsFromMmap_eq_ok hv, length_spanIds, List.length_map, List.length_range']

theorem holdsRows_builtFragment (h32 : stop < 2 ^ 32)
    (hwide : ∀ i, start ≤ i → i < stop → (ctx.data i : List F).length = ctx.numDim)
    (h : BuiltFragment env ctx start stop frag) : frag.HoldsRows ctx.numDim ctx.data := by
  cases h with
  | rowIds centroid =>
    constructor
    · rfl
    · simp [BpannIndex.buildRowIdsLeaf, BpannIndex.ofLeaf, Page.Holds]
    · simp [BpannIndex.buildRowIdsLeaf, BpannIndex.ofLeaf, Page.Wide]
  | tree hv hidx =>
    rw [loadVectorsFromMmap_eq_ok hv, ← spanIds_of_le h32.le] at hidx
    refine holdsRows_buildFromRows (fun i hi => ?_) hidx
    rw [spanIds_of_le h32.le, List.mem_range'_1] at hi
    exact hwide i hi.1 (by omega)
  | emptyForest hidx =>
    refine holdsRows_forest (fun cur chunkEnd h₀ h₁ h₂ id page hp => ?_) hidx
    simp only [emptyLeaf, Outcome.bind_eq_ok, Outcome.pure_eq_ok] at hp
    obtain ⟨_, -, rfl⟩ := hp
    exact ⟨trivial, trivial⟩
  | vectorForest hidx =>
    refine holdsRows_forest (fun cur chunkEnd h₀ h₁ h₂ id page hp => ?_) hidx
    simp only [vectorLeaf, Outcome.bind_eq_ok, Outcome.pure_eq_ok] at hp
    obtain ⟨vectors, hv, rfl⟩ := hp
    rw [loadVectorsFromMmap_eq_ok hv, ← spanIds_of_le (by omega : chunkEnd ≤ 2 ^ 32)]
    refine ⟨holds_vectorLeaf, ?_⟩
    intro v hv
    obtain ⟨i, hi, rfl⟩ := List.mem_map.mp hv
    rw [spanIds_of_le (by omega), List.mem_range'_1] at hi
    exact hwide i (by omega) (by omega)

end Built

end Ennbo
