import Ennbo.Index.Joined
import Ennbo.Index.SearchableMerge

/-! # Where compaction ends

Every round of compaction replaces two to four neighbouring fragments by their
merge, and never more of them than it has to. So it stops exactly at the
threshold, and the rows stay in their order.
-/

namespace Ennbo

variable {F : Type}

/-- The root and all children that pages name are pages of the index. -/
structure BpannIndex.Resolves (idx : BpannIndex F) : Prop where
  root : idx.header.rootPageId ∈ idx.pageIds
  children : ∀ p ∈ idx.pages, ∀ c ∈ p.childPageIds, c ∈ idx.pageIds

section Merge

/-- The pages collected so far have all their children among them. -/
structure Merged.Resolves (m : Merged F) : Prop where
  roots : ∀ c ∈ m.childPageIds, c ∈ m.pages.map Page.pageId
  children : ∀ p ∈ m.pages, ∀ c ∈ p.childPageIds, c ∈ m.pages.map Page.pageId

variable [Floating F]

/-- A part whose ids resolve is read to its end. -/
theorem Merged.Resolves.addPart {m : Merged F} {part : BpannIndex F} (h : m.Resolves)
    (hpart : part.Resolves) : ∃ m', m.addPart part = some m' ∧ m'.Resolves := by
  have hroot := idMap_eq (n := m.nextId) hpart.root
  have hpages := mapM_remapPage (n := m.nextId) hpart.children
  have hids : (part.pages.map (Page.rename (renumber part.pageIds m.nextId))).map Page.pageId =
      part.pageIds.map (renumber part.pageIds m.nextId) := by
    simp [BpannIndex.pageIds]
  simp only [Merged.addPart, hroot, hpages, Option.bind_eq_bind, Option.bind_some,
    Option.pure_def, Option.some.injEq, exists_eq_left']
  constructor
  · intro c hc
    rw [List.map_append, hids]
    obtain hc | hc := List.mem_append.mp hc
    · exact List.mem_append_left _ (h.roots c hc)
    · obtain rfl := List.mem_singleton.mp hc
      exact List.mem_append_right _ (List.mem_map_of_mem hpart.root)
  · intro p hp c hc
    rw [List.map_append, hids]
    obtain hp | hp := List.mem_append.mp hp
    · exact List.mem_append_left _ (h.children p hp c hc)
    · obtain ⟨q, hq, rfl⟩ := List.mem_map.mp hp
      rw [Page.childPageIds_rename] at hc
      obtain ⟨d, hd, rfl⟩ := List.mem_map.mp hc
      exact List.mem_append_right _ (List.mem_map_of_mem (hpart.children q hq d hd))

theorem Merged.Resolves.foldlM {m : Merged F} {parts : List (BpannIndex F)} (h : m.Resolves)
    (hparts : ∀ part ∈ parts, part.Resolves) :
    ∃ m', parts.foldlM Merged.addPart m = some m' ∧ m'.Resolves := by
  induction parts generalizing m with
  | nil => exact ⟨m, rfl, h⟩
  | cons part parts ih =>
    rw [List.forall_mem_cons] at hparts
    obtain ⟨m₁, h₁, hm₁⟩ := h.addPart hparts.1
    obtain ⟨m', h', hm'⟩ := ih hm₁ hparts.2
    exact ⟨m', by rw [List.foldlM_cons, h₁]; exact h', hm'⟩

/-- Fragments whose ids resolve have a merge, and its ids resolve. -/
theorem resolves_concatMerge {parts : List (BpannIndex F)} (hne : parts ≠ [])
    (hparts : ∀ part ∈ parts, part.Resolves) :
    ∃ merged, BpannIndex.concatMerge parts = .ok merged ∧ merged.Resolves := by
  match parts, hne, hparts with
  | [single], _, hparts => exact ⟨single, rfl, hparts single (by simp)⟩
  | first :: second :: rest, _, hparts =>
    have hstart : ({} : Merged F).Resolves := by
      constructor
      all_goals simp
    obtain ⟨m, hm, hres⟩ := hstart.foldlM hparts
    simp only [BpannIndex.concatMerge, hm, Outcome.ofOption]
    refine ⟨_, rfl, ?_, ?_⟩
    · simp [BpannIndex.pageIds, Page.pageId]
    · intro p hp c hc
      simp only [BpannIndex.pageIds, List.map_append]
      apply List.mem_append_left
      obtain hp | hp := List.mem_append.mp hp
      · exact hres.children p hp c hc
      · obtain rfl := List.mem_singleton.mp hp
        exact hres.roots c hc

end Merge

section Built

theorem BpannIndex.Resolves.reload [Zero F] {idx : BpannIndex F} (h : idx.Resolves) :
    idx.reload.Resolves where
  root := by
    rw [pageIds_reload]
    exact h.root
  children := by
    intro q hq c hc
    rw [pageIds_reload]
    obtain ⟨p, hp, rfl⟩ := List.mem_map.mp hq
    match p, hp, hc with
    | .internal .., hp, hc => exact h.children _ hp c (List.mem_of_mem_take hc)
    | .leaf _ _ (some (_, _)) _ _, _, hc =>
      simp [Page.reload, Page.emptyRangeLeaf, Page.childPageIds] at hc
    | .leaf _ _ none [] _, _, hc => simp [Page.reload, Page.childPageIds] at hc
    | .leaf _ _ none (_ :: _) _, _, hc => simp [Page.reload, Page.childPageIds] at hc

theorem resolves_ofLeaf {numDim rows : ℕ} {rowIds : List ℕ} {vectors : List (List F)}
    {c : Option (List F)} :
    (BpannIndex.ofLeaf numDim rows (.leaf 0 rowIds none vectors c)).Resolves where
  root := by simp [BpannIndex.ofLeaf, BpannIndex.pageIds, Page.pageId]
  children := by simp [BpannIndex.ofLeaf, Page.childPageIds]

variable [Floating F]

theorem resolves_buildFromRows {t : Tuning} {rowIds : List ℕ} {vectors : List (List F)}
    {numDim cap : ℕ} {rng : Rng F} {depth : ℕ} {idx : BpannIndex F}
    (h : BpannIndex.buildFromRowsWithPersist t rowIds vectors numDim cap rng depth = .ok idx) :
    idx.Resolves := by
  unfold BpannIndex.buildFromRowsWithPersist at h
  split at h
  · obtain rfl := Outcome.pure_eq_ok.mp h
    exact resolves_ofLeaf
  · simp only [Outcome.bind_eq_ok, Outcome.ofOption_eq_ok, Outcome.pure_eq_ok] at h
    obtain ⟨tree, -, rfl⟩ := h
    have hn := numbered_partitionToPagesId tree.root 0
    have hlast := hn.last_eq
    have hmem : ∀ id, id ∈ (partitionToPagesId tree.root 0).1.map Page.pageId ↔
        id < (partitionToPagesId tree.root 0).1.length := by
      intro id
      rw [hn.ids, List.mem_range'_1]
      omega
    constructor
    · apply (hmem _).mpr
      change (partitionToPagesId tree.root 0).2 < _
      omega
    · intro p hp c hc
      have hle := (hn.children p hp c hc).2
      apply (hmem _).mpr
      omega

theorem resolves_forest {leaf : ℕ → ℕ → ℕ → Outcome (Page F)}
    {numDim start stop leafRows : ℕ} {idx : BpannIndex F}
    (hleaf : ∀ id cur chunkEnd page, leaf id cur chunkEnd = .ok page → page.isLeaf)
    (h : buildLeafForestIndex leaf numDim start stop leafRows = .ok idx) : idx.Resolves := by
  obtain ⟨leaves, hl, rfl⟩ := buildLeafForestIndex_eq_ok.mp h
  have hall : ∀ p ∈ leaves, p.isLeaf := 
    forall_forestLeaves (fun span _ id => hleaf id span.1 span.2) hl
  constructor
  · simp [BpannIndex.pageIds, forestPages, Page.pageId]
  · intro p hp c hc
    simp only [BpannIndex.pageIds, forestPages, List.map_append]
    apply List.mem_append_left
    obtain hp | hp := List.mem_append.mp hp
    · have hpage := hall p hp
      cases p with
      | internal => simp [Page.isLeaf] at hpage
      | leaf => simp [Page.childPageIds] at hc
    · obtain rfl := List.mem_singleton.mp hp
      exact hc

variable {D : Type} [Floating D] [FloatCast D F]
variable {env : Env F} {ctx : IndexBuildContext D} {start stop : ℕ} {frag : BpannIndex F}

theorem resolves_builtFragment (h : BuiltFragment env ctx start stop frag) : frag.Resolves := by
  cases h with
  | rowIds centroid => exact resolves_ofLeaf
  | tree _ hidx => exact resolves_buildFromRows hidx
  | emptyForest hidx =>
    apply resolves_forest _ hidx
    intro id cur chunkEnd page hp
    simp only [emptyLeaf, Outcome.bind_eq_ok, Outcome.pure_eq_ok] at hp
    obtain ⟨_, -, rfl⟩ := hp
    rfl
  | vectorForest hidx =>
    apply resolves_forest _ hidx
    intro id cur chunkEnd page hp
    simp only [vectorLeaf, Outcome.bind_eq_ok, Outcome.pure_eq_ok] at hp
    obtain ⟨_, -, rfl⟩ := hp
    rfl

omit [Floating D] [FloatCast D F] in
theorem resolves_of_concatMerge {run : List (BpannIndex F)} {merged : BpannIndex F}
    (hrun : ∀ idx ∈ run, idx.Resolves) (hmerged : BpannIndex.concatMerge run = .ok merged) :
    merged.Resolves := by
  have hne : run ≠ [] := by
    rintro rfl
    cases hmerged
  obtain ⟨merged', hmerged', hres⟩ := resolves_concatMerge hne hrun
  rw [hmerged] at hmerged'
  obtain rfl := Except.ok.inj hmerged'
  exact hres

theorem resolves_ensureSync {s s' : IndexState D F}
    (hs : ∀ idx ∈ s.index.indices, idx.Resolves)
    (h : (IndexState.ensureSync env ctx stop).Returns s () s') :
    ∀ idx ∈ s'.index.indices, idx.Resolves := by
  apply IndexState.forall_ensureSync (fun _ => resolves_builtFragment) _ hs h
  exact fun _ _ => resolves_of_concatMerge

end Built

section Rows

/-- Each list of `groups` has become one fragment, which keeps its rows. -/
def MergedGroups (groups : List (List (BpannIndex F))) (ys : List (BpannIndex F)) : Prop :=
  List.Forall₂ (fun group frag =>
    group ≠ [] ∧ KeepsRows group frag.leafRows frag.header.indexedRows) groups ys

/-- The fragments of `ys` are merges of neighbouring fragments of `xs`, in their order. -/
def MergesNeighbours (xs ys : List (BpannIndex F)) : Prop :=
  ∃ groups, groups.flatten = xs ∧ MergedGroups groups ys

theorem MergesNeighbours.refl (xs : List (BpannIndex F)) : MergesNeighbours xs xs := by
  refine ⟨xs.map fun idx => [idx], ?_, ?_⟩
  · rw [← List.flatMap_def, List.flatMap_singleton']
  · rw [MergedGroups, List.forall₂_map_left_iff, List.forall₂_same]
    rintro idx -
    refine ⟨List.cons_ne_nil _ _, ?_, ?_⟩
    · rw [List.flatMap_singleton]
    · rw [List.map_singleton, List.sum_singleton]

theorem MergedGroups.keepsRows {groups : List (List (BpannIndex F))} {run : List (BpannIndex F)}
    (h : MergedGroups groups run) {rows : List ℕ} {total : ℕ} (hrun : KeepsRows run rows total) :
    KeepsRows groups.flatten rows total := by
  have key : groups.flatten.flatMap BpannIndex.leafRows = run.flatMap BpannIndex.leafRows ∧
      (groups.flatten.map fun part => part.header.indexedRows).sum =
        (run.map fun part => part.header.indexedRows).sum := by
    clear hrun
    induction h with
    | nil => exact ⟨rfl, rfl⟩
    | cons hfrag _ ih =>
      obtain ⟨-, hrows, htotal⟩ := hfrag
      constructor
      · rw [List.flatten_cons, List.flatMap_append, ih.1, List.flatMap_cons, hrows]
      · rw [List.flatten_cons, List.map_append, List.sum_append, ih.2, List.map_cons,
          List.sum_cons, htotal]
  exact ⟨hrun.rows_eq.trans key.1.symm, hrun.total_eq.trans key.2.symm⟩

theorem MergedGroups.split {groups : List (List (BpannIndex F))} {xs ys : List (BpannIndex F)}
    (h : MergedGroups groups (xs ++ ys)) :
    ∃ front back, groups = front ++ back ∧ MergedGroups front xs ∧ MergedGroups back ys :=
  ⟨_, _, (List.take_append_drop xs.length groups).symm, List.forall₂_take_append _ _ _ h,
    List.forall₂_drop_append _ _ _ h⟩

variable [Floating F]

theorem MergesNeighbours.step {xs ys zs : List (BpannIndex F)} (h : MergesNeighbours xs ys)
    (hstep : MergeStep ys zs) : MergesNeighbours xs zs := by
  obtain ⟨groups, rfl, hgroups⟩ := h
  obtain ⟨pre, run, post, merged, rfl, hmerged, rfl⟩ := hstep
  obtain ⟨rest, back, rfl, hrest, hback⟩ := hgroups.split
  obtain ⟨front, middle, rfl, hfront, hmiddle⟩ := hrest.split
  refine ⟨front ++ middle.flatten :: back, by simp, ?_⟩
  apply List.rel_append hfront
  constructor
  · constructor
    · intro hnil
      have hrun : run = [] := by
        cases hmiddle with
        | nil => rfl
        | cons hgroup _ => exact absurd (List.append_eq_nil_iff.mp hnil).1 hgroup.1
      subst hrun
      cases hmerged
    · exact hmiddle.keepsRows (keepsRows_concatMerge hmerged)
  · exact hback

theorem MergesNeighbours.of_merges {xs ys : List (BpannIndex F)}
    (h : Relation.ReflTransGen MergeStep xs ys) : MergesNeighbours xs ys := by
  induction h with
  | refl => exact .refl xs
  | tail _ hstep ih => exact ih.step hstep

omit [Floating F] in
theorem MergesNeighbours.keepsRows {xs ys : List (BpannIndex F)} (h : MergesNeighbours xs ys) :
    KeepsRows xs (ys.flatMap BpannIndex.leafRows)
      (ys.map fun part => part.header.indexedRows).sum := by
  obtain ⟨groups, rfl, hgroups⟩ := h
  exact hgroups.keepsRows ⟨rfl, rfl⟩

end Rows

namespace IncrementalIndex

variable {D : Type} {s s' : IncrementalIndex D F} {t : Tuning} {maxFragments : ℕ}

section Rank

variable {smallLimit : ℕ} {run : List (BpannIndex F)}

theorem runRank_le_of_sum_lt (h : (run.map fun idx => idx.header.indexedRows).sum < 2 ^ 34) :
    runRank smallLimit run ≤ USIZE_MAX := by
  unfold runRank USIZE_MAX
  dsimp only
  split <;> omega

theorem runRank_le (hlen : run.length ≤ 4)
    (h : ∀ idx ∈ run, idx.header.indexedRows < 2 ^ 32) : runRank smallLimit run ≤ USIZE_MAX := by
  apply runRank_le_of_sum_lt
  have hsum : (run.map fun idx => idx.header.indexedRows).sum ≤ run.length * (2 ^ 32 - 1) := by
    have hcard := List.sum_le_card_nsmul (run.map fun idx => idx.header.indexedRows) (2 ^ 32 - 1)
      (List.forall_mem_map.mpr fun idx hidx => Nat.le_sub_one_of_lt (h idx hidx))
    rwa [List.length_map, nsmul_eq_mul] at hcard
  omega

theorem sum_run_le {indices : List (BpannIndex F)} (h : run <:+: indices) :
    (run.map fun idx => idx.header.indexedRows).sum ≤
      (indices.map fun idx => idx.header.indexedRows).sum :=
  (h.sublist.map _).sum_le_sum fun _ _ => Nat.zero_le _

end Rank

section Rounds

variable [Floating F]

/-- One round of the loop of `compact`. -/
def Round (t : Tuning) (maxFragments : ℕ) (s s' : IncrementalIndex D F) : Prop :=
  maxFragments < s.indices.length ∧
    (amalgamateSmallestRun t
      (min (min (max (s.indices.length - maxFragments) 2) 4) s.indices.length)).Returns s () s'

theorem Round.compacted (hmax : 0 < maxFragments) (h : Round t maxFragments s s') :
    Compacted s s' ∧ maxFragments ≤ s'.indices.length ∧
      s'.indices.length < s.indices.length := by
  obtain ⟨hlt, h⟩ := h
  obtain ⟨hc, hlen⟩ := compacted_amalgamateSmallestRun (by omega) (min_le_right _ _) h
  refine ⟨hc, ?_, ?_⟩ <;> omega

/-- The best run of fragments whose ids resolve has a merge. -/
theorem exists_amalgamateSmallestRun (mergeN : ℕ) (hm : 2 ≤ mergeN)
    (hs : mergeN ≤ s.indices.length) (hres : ∀ idx ∈ s.indices, idx.Resolves) :
    ∃ s', (amalgamateSmallestRun t mergeN).Returns s () s' ∧ ∀ idx ∈ s'.indices, idx.Resolves := by
  have hle : bestRun t.1.smallFragmentMergeRows mergeN s.indices + mergeN ≤ s.indices.length :=
    bestRun_add_le hs
  obtain ⟨i, hi⟩ : ∃ i, i = bestRun t.1.smallFragmentMergeRows mergeN s.indices := ⟨_, rfl⟩
  rw [← hi] at hle
  have hne : (s.indices.drop i).take mergeN ≠ [] := by
    apply List.ne_nil_of_length_pos
    rw [List.length_take, List.length_drop]
    omega
  obtain ⟨merged, hmerged, hres'⟩ := resolves_concatMerge hne fun idx hidx =>
    hres idx (List.mem_of_mem_drop (List.mem_of_mem_take hidx))
  refine ⟨_, (returns_amalgamateSmallestRun hm hs hi).mpr ⟨merged, hmerged, rfl⟩, ?_⟩
  intro idx hidx
  obtain hidx | hidx := List.mem_append.mp hidx
  · exact hres idx (List.mem_of_mem_take hidx)
  · obtain rfl | hidx := List.mem_cons.mp hidx
    · exact hres'
    · exact hres idx (List.mem_of_mem_drop hidx)

theorem rounds_iff_of_le (hle : s.indices.length ≤ maxFragments) :
    Relation.ReflTransGen (Round t maxFragments) s s' ↔ s' = s := by
  constructor
  · intro hrounds
    obtain rfl | ⟨s₁, hround, -⟩ := hrounds.cases_head
    · rfl
    · exact absurd hround.1 (by omega)
  · rintro rfl
    exact .refl

theorem returns_compactLoop_succ {n : ℕ} (hlt : maxFragments < s.indices.length) :
    (compactLoop t maxFragments (n + 1)).Returns s () s' ↔
      ∃ s₁, Round t maxFragments s s₁ ∧ (compactLoop t maxFragments n).Returns s₁ () s' := by
  simp only [compactLoop, Call.returns_bind, Call.returns_get, Round]
  constructor
  · rintro ⟨_, _, ⟨rfl, rfl⟩, h⟩
    rw [if_pos hlt, Call.returns_bind] at h
    obtain ⟨_, s₁, h₁, h⟩ := h
    exact ⟨s₁, ⟨hlt, h₁⟩, h⟩
  · rintro ⟨s₁, ⟨-, h₁⟩, h⟩
    refine ⟨s, s, ⟨rfl, rfl⟩, ?_⟩
    rw [if_pos hlt, Call.returns_bind]
    exact ⟨(), s₁, h₁, h⟩

/-- The loop makes rounds until there are few enough fragments. -/
theorem returns_compactLoop_iff {n : ℕ} (hmax : 0 < maxFragments) (hn : s.indices.length ≤ n) :
    (compactLoop t maxFragments n).Returns s () s' ↔
      Relation.ReflTransGen (Round t maxFragments) s s' ∧ s'.indices.length ≤ maxFragments := by
  induction n generalizing s with
  | zero =>
    have hle : s.indices.length ≤ maxFragments := by omega
    rw [compactLoop, Call.returns_pure, rounds_iff_of_le hle]
    constructor
    · rintro ⟨-, rfl⟩
      exact ⟨rfl, hle⟩
    · rintro ⟨rfl, -⟩
      exact ⟨rfl, rfl⟩
  | succ n ih =>
    by_cases hlt : maxFragments < s.indices.length
    · rw [returns_compactLoop_succ hlt]
      constructor
      · rintro ⟨s₁, hround, h⟩
        have hshrinks := (hround.compacted hmax).2.2
        obtain ⟨hrounds, hle⟩ := (ih (by omega)).mp h
        exact ⟨hrounds.head hround, hle⟩
      · rintro ⟨hrounds, hle⟩
        obtain rfl | ⟨s₁, hround, hrounds⟩ := hrounds.cases_head
        · omega
        · have hshrinks := (hround.compacted hmax).2.2
          exact ⟨s₁, hround, (ih (by omega)).mpr ⟨hrounds, hle⟩⟩
    · have hle : s.indices.length ≤ maxFragments := by omega
      rw [rounds_iff_of_le hle]
      simp only [compactLoop, Call.returns_bind, Call.returns_get]
      constructor
      · rintro ⟨_, _, ⟨rfl, rfl⟩, h⟩
        rw [if_neg hlt, Call.returns_pure] at h
        exact ⟨h.2.symm, h.2 ▸ hle⟩
      · rintro ⟨rfl, -⟩
        refine ⟨_, _, ⟨rfl, rfl⟩, ?_⟩
        rw [if_neg hlt, Call.returns_pure]
        exact ⟨rfl, rfl⟩

theorem exists_rounds (hmax : 0 < maxFragments) (hres : ∀ idx ∈ s.indices, idx.Resolves) :
    ∃ s', Relation.ReflTransGen (Round t maxFragments) s s' ∧
      s'.indices.length ≤ maxFragments := by
  generalize hn : s.indices.length = n
  induction n using Nat.strong_induction_on generalizing s with
  | _ n ih =>
    by_cases hlt : maxFragments < s.indices.length
    · obtain ⟨s₁, h₁, hres₁⟩ := exists_amalgamateSmallestRun (t := t)
        (min (min (max (s.indices.length - maxFragments) 2) 4) s.indices.length)
        (by omega) (min_le_right _ _) hres
      have hround : Round t maxFragments s s₁ := ⟨hlt, h₁⟩
      have hshrinks := (hround.compacted hmax).2.2
      obtain ⟨s', hrounds, hle⟩ := ih _ (hn ▸ hshrinks) hres₁ rfl
      exact ⟨s', hrounds.head hround, hle⟩
    · exact ⟨s, .refl, by omega⟩

theorem compacted_of_rounds (hmax : 0 < maxFragments)
    (h : Relation.ReflTransGen (Round t maxFragments) s s') :
    Compacted s s' ∧ min s.indices.length maxFragments ≤ s'.indices.length ∧
      s'.indices.length ≤ s.indices.length := by
  induction h with
  | refl => exact ⟨.refl s, min_le_left _ _, le_rfl⟩
  | tail _ hround ih =>
    obtain ⟨hc, hge, hlt⟩ := hround.compacted hmax
    exact ⟨ih.1.trans hc, (min_le_right _ _).trans hge, hlt.le.trans ih.2.2⟩

end Rounds

section Ends

variable [Floating F]

/-- Where `compact` ends: rounds that merge neighbours have led to the threshold. -/
structure CompactedTo (t : Tuning) (s s' : IncrementalIndex D F) : Prop where
  rounds : Relation.ReflTransGen (Round t (indexCompactThreshold t s.indexedRows)) s s'
  length_eq : s'.indices.length =
    min s.indices.length (indexCompactThreshold t s.indexedRows)
  neighbours : MergesNeighbours s.indices s'.indices
  leafRows_eq : s'.indices.flatMap BpannIndex.leafRows = s.indices.flatMap BpannIndex.leafRows
  indexedRows_eq : s'.indexedRows = s.indexedRows

theorem returns_compact (hpos : 0 < s.indexedRows) :
    (compact t).Returns s () s' ↔
      Relation.ReflTransGen (Round t (indexCompactThreshold t s.indexedRows)) s s' ∧
        s'.indices.length ≤ indexCompactThreshold t s.indexedRows := by
  rw [← returns_compactLoop_iff (indexCompactThreshold_pos t _) le_rfl]
  simp only [compact, Call.returns_bind, Call.returns_get]
  constructor
  · rintro ⟨_, _, ⟨rfl, rfl⟩, h⟩
    rwa [if_neg hpos.ne'] at h
  · intro h
    refine ⟨s, s, ⟨rfl, rfl⟩, ?_⟩
    rwa [if_neg hpos.ne']

theorem compactedTo_of_returns (hpos : 0 < s.indexedRows)
    (h : (compact t).Returns s () s') : CompactedTo t s s' := by
  obtain ⟨hrounds, hle⟩ := (returns_compact hpos).mp h
  obtain ⟨⟨hsteps, hrows⟩, hge, hlen⟩ :=
    compacted_of_rounds (indexCompactThreshold_pos t s.indexedRows) hrounds
  have hneighbours := MergesNeighbours.of_merges hsteps
  exact
    { rounds := hrounds
      length_eq := le_antisymm (le_min hlen hle) hge
      neighbours := hneighbours
      leafRows_eq := hneighbours.keepsRows.rows_eq
      indexedRows_eq := hrows }

theorem runRank_le_of_rounds (hmax : 0 < maxFragments)
    (hrows : (s.indices.map fun idx => idx.header.indexedRows).sum < 2 ^ 32)
    (h : Relation.ReflTransGen (Round t maxFragments) s s') {run : List (BpannIndex F)}
    (hrun : run <:+: s'.indices) : runRank t.1.smallFragmentMergeRows run ≤ USIZE_MAX := by
  have hsum := (MergesNeighbours.of_merges (compacted_of_rounds hmax h).1.1).keepsRows.total_eq
  apply runRank_le_of_sum_lt
  have := sum_run_le hrun
  omega

/--
Compaction ends at the threshold, with neighbours merged and all rows in their order. It ends for
fragments whose ids resolve, and no rank on the way overflows.
-/
theorem compact_ends (t : Tuning) (s : IncrementalIndex D F) (hpos : 0 < s.indexedRows) :
    ((∀ idx ∈ s.indices, idx.Resolves) → ∃ s', (compact t).Returns s () s') ∧
    (∀ s', (compact t).Returns s () s' → CompactedTo t s s') ∧
    (∀ run : List (BpannIndex F), run.length ≤ 4 →
      (∀ idx ∈ run, idx.header.indexedRows < 2 ^ 32) →
      runRank t.1.smallFragmentMergeRows run ≤ USIZE_MAX) ∧
    ((s.indices.map fun idx => idx.header.indexedRows).sum < 2 ^ 32 →
      ∀ s₁, Relation.ReflTransGen (Round t (indexCompactThreshold t s.indexedRows)) s s₁ →
        ∀ run, run <:+: s₁.indices → runRank t.1.smallFragmentMergeRows run ≤ USIZE_MAX) := by
  refine ⟨?_, ?_, ?_, ?_⟩
  · intro hres
    obtain ⟨s', h⟩ := exists_rounds (t := t) (indexCompactThreshold_pos t s.indexedRows) hres
    exact ⟨s', (returns_compact hpos).mpr h⟩
  · exact fun s' h => compactedTo_of_returns hpos h
  · exact fun run => runRank_le
  · exact fun hrows s₁ h run hrun =>
      runRank_le_of_rounds (indexCompactThreshold_pos t _) hrows h hrun

/-- Two fragments become one. -/
theorem compact_ends_two :
    let s : IncrementalIndex ℚ ℚ :=
      { indices :=
          [BpannIndex.buildRowIdsLeaf [0] [0] 1, BpannIndex.buildRowIdsLeaf [1] [1] 1]
        indexedRows := 2 }
    ∃ s', (compact defaultEnv.tuning).Returns s () s' ∧ CompactedTo defaultEnv.tuning s s' := by
  intro s
  have h := compact_ends defaultEnv.tuning s (by decide)
  obtain ⟨s', hs'⟩ := h.1 (by
    simp only [s, List.forall_mem_cons]
    exact ⟨resolves_ofLeaf, resolves_ofLeaf, by simp⟩)
  exact ⟨s', hs', h.2.1 s' hs'⟩

end Ends

end IncrementalIndex

namespace IndexState

variable {D : Type} [Floating D] [Floating F] [FloatCast D F]

/-- The states of an index that starts empty. Opening finds the index on disk, or nothing. -/
inductive Reached : IndexState D F → Prop where
  | new (dir : WorkDir D F) : dir.index = none → Reached ⟨{}, dir⟩
  | ensureSync {s s' : IndexState D F} (env : Env F) (ctx : IndexBuildContext D) (stop : ℕ) :
      Reached s → (ensureSync env ctx stop).Returns s () s' → Reached s'
  | persistToDisk {s s' : IndexState D F} (env : Env F) (ctx : IndexBuildContext D) :
      Reached s → (persistToDisk env ctx).Returns s () s' → Reached s'
  | notePendingRows {s : IndexState D F} (x : Array2 D) (scaleX : Bool) (xScale : List D) :
      Reached s → Reached { s with index := s.index.notePendingRows x scaleX xScale }
  | reset {s : IndexState D F} : Reached s → Reached { s with index := s.index.reset }
  | opened {s : IndexState D F} (env : Env F) (indices : List (BpannIndex F)) (n : ℕ) :
      Reached s →
      (∀ idx ∈ indices, ∃ stored, s.dir.index = some stored ∧
        idx = { stored with skipEdges := env.order stored.skipEdges }) →
      Reached ⟨{ indices := indices, indexedRows := n }, s.dir⟩

theorem dir_index_ensureSync {env : Env F} {ctx : IndexBuildContext D} {stop : ℕ}
    {s s' : IndexState D F} (h : (ensureSync env ctx stop).Returns s () s') :
    s'.dir.index = s.dir.index := by
  obtain ⟨-, rfl⟩ | ⟨-, -, -, hdir⟩ := returns_ensureSync h
  · rfl
  · rw [hdir]
    rfl

theorem Reached.resolves {s : IndexState D F} (h : Reached s) :
    (∀ idx ∈ s.index.indices, idx.Resolves) ∧ ∀ idx, s.dir.index = some idx → idx.Resolves := by
  induction h with
  | new dir hdir => simp [hdir]
  | ensureSync env ctx stop _ h ih =>
    rw [dir_index_ensureSync h]
    exact ⟨resolves_ensureSync ih.1 h, ih.2⟩
  | persistToDisk env ctx _ h ih =>
    obtain ⟨s₁, hsync, h⟩ := returns_persistToDisk h
    have hindices := resolves_ensureSync ih.1 hsync
    have hdisk := ih.2
    rw [← dir_index_ensureSync hsync] at hdisk
    obtain ⟨-, -, rfl⟩ | ⟨-, -, rfl⟩ | ⟨merged, hne, hmerged, rfl⟩ := h
    · exact ⟨hindices, hdisk⟩
    · exact ⟨hindices, hdisk⟩
    · refine ⟨hindices, ?_⟩
      rintro idx hidx
      obtain rfl : merged.reload = idx := Option.some.inj hidx
      exact (resolves_of_concatMerge hindices hmerged).reload
  | @notePendingRows s x scaleX xScale _ ih =>
    refine ⟨?_, ih.2⟩
    rw [(IncrementalIndex.sameFragments_notePendingRows s.index x scaleX xScale).1]
    exact ih.1
  | reset _ ih => exact ⟨by simp [IncrementalIndex.reset], ih.2⟩
  | opened env indices n _ hindices ih =>
    refine ⟨?_, ih.2⟩
    intro idx hidx
    obtain ⟨stored, hstored, rfl⟩ := hindices idx hidx
    have hres := ih.2 stored hstored
    exact ⟨hres.root, hres.children⟩

theorem Reached.compact_returns {s : IndexState D F} (h : Reached s) (t : Tuning)
    (hpos : 0 < s.index.indexedRows) :
    ∃ index, (IncrementalIndex.compact t).Returns s.index () index ∧
      IncrementalIndex.CompactedTo t s.index index := by
  obtain ⟨index, hrounds⟩ := IncrementalIndex.exists_rounds (t := t)
    (IncrementalIndex.indexCompactThreshold_pos t s.index.indexedRows) h.resolves.1
  have hreturns := (IncrementalIndex.returns_compact hpos).mpr hrounds
  exact ⟨index, hreturns, IncrementalIndex.compactedTo_of_returns hpos hreturns⟩

end IndexState

end Ennbo
