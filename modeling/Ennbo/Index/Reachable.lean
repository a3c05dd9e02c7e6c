import Ennbo.Index.Partition
import Mathlib.Logic.Relation

/-! # Pages reachable from the root

The tree search starts at the page that the header names as the root and follows
child ids. For a partition with an internal root the header names the last page,
which is not the first.
-/

namespace Ennbo

variable {F : Type}

namespace BpannIndex

/-- `q` is the page found under one of the child ids of `p`. -/
def ChildOf (idx : BpannIndex F) (p q : Page F) : Prop :=
  ∃ id ∈ p.childPageIds, idx.pageById id = some q

/-- `q` is found by following child ids from the root. -/
def Reachable (idx : BpannIndex F) (q : Page F) : Prop :=
  ∃ root, idx.pageById idx.header.rootPageId = some root ∧
    Relation.ReflTransGen idx.ChildOf root q

def RootReachable (idx : BpannIndex F) (rowIds : List ℕ) : Prop :=
  (∀ p ∈ idx.pages, idx.Reachable p) ∧ ∀ row ∈ rowIds, ∃ p, idx.Reachable p ∧ row ∈ p.leafRows

theorem rootReachable_ofLeaf (numDim rows : ℕ) (rowIds : List ℕ) (vectors : List (List F))
    (c : Option (List F)) :
    (ofLeaf numDim rows (.leaf 0 rowIds none vectors c)).RootReachable rowIds := by
  have hr : (ofLeaf numDim rows (.leaf 0 rowIds none vectors c)).Reachable
      (.leaf 0 rowIds none vectors c) := ⟨_, rfl, .refl⟩
  refine ⟨fun p hp => ?_, fun row hrow => ⟨_, hr, hrow⟩⟩
  obtain rfl := List.mem_singleton.mp hp
  exact hr

theorem Reachable.pageId_pos {idx : BpannIndex F} {q : Page F} (h : idx.Reachable q)
    (hroot : 0 < idx.header.rootPageId)
    (hchild : ∀ p ∈ idx.pages, ∀ id ∈ p.childPageIds, p.pageId < id) : 0 < q.pageId := by
  obtain ⟨root, hr, hq⟩ := h
  have hmem : ∀ p, Relation.ReflTransGen idx.ChildOf root p → p ∈ idx.pages := by
    intro p hp
    rcases hp.cases_tail with rfl | ⟨_, -, id, -, hid⟩
    · exact (pageById_eq_some hr).1
    · exact (pageById_eq_some hid).1
  rcases hq.cases_tail with rfl | ⟨p, hp, id, hid, hq⟩
  · exact (pageById_eq_some hr).2 ▸ hroot
  · rw [(pageById_eq_some hq).2]
    exact (Nat.zero_le _).trans_lt (hchild p (hmem p hp) id hid)

end BpannIndex

section Build

variable [Floating F]

theorem lastId_pos {centroid : List F} {children : List (PartitionNode F)}
    (h : entriesOf children ≠ []) :
    0 < (partitionToPages (.internal centroid children)).2 := by
  have hn := numbered_partitionToPagesId (.internal centroid children) 0
  have hlast := hn.last_eq
  have hrows := hn.rows
  simp only [partitionToPagesId, PartitionNode.entries, List.flatMap_cons, Page.leafRows_internal,
    List.nil_append, List.length_cons] at hlast hrows
  have hpages : (childPages children (0 + 1) 0).pages ≠ [] := by
    intro he
    rw [he, List.flatMap_nil, eq_comm, List.map_eq_nil_iff] at hrows
    exact h hrows
  have := List.length_pos_iff.mpr hpages
  simp only [partitionToPages, partitionToPagesId]
  omega

/-- When the rows do not fit a leaf, the header names a page that does not lead to page `0`. -/
theorem not_rootReachable_of_lt {t : Tuning} {rowIds : List ℕ} {vectors : List (List F)}
    {numDim cap : ℕ} {rng : Rng F} {depth : ℕ} {idx : BpannIndex F}
    (h : BpannIndex.buildFromRowsWithPersist t rowIds vectors numDim cap rng depth = .ok idx)
    (hlt : cap < rowIds.length) : ¬ idx.RootReachable rowIds := by
  simp only [BpannIndex.buildFromRowsWithPersist, hlt.not_ge, if_false, Outcome.bind_eq_ok,
    Outcome.ofOption_eq_ok, Outcome.pure_eq_ok] at h
  obtain ⟨tree, htree, rfl⟩ := h
  obtain ⟨hl, _, hr⟩ := PartitionTree.build_eq_some htree
  have hlen : (rowIds.zip vectors).length = rowIds.length := by simp [hl]
  obtain ⟨centroid, children, he⟩ := exists_children_of_lt (hlen ▸ hlt) hr
  have hperm := PartitionTree.entries_perm htree
  have hpos : 0 < (partitionToPages tree.root).2 := by
    rw [he] at hperm ⊢
    refine lastId_pos fun hnil => ?_
    rw [PartitionNode.entries, hnil] at hperm
    have := hperm.length_eq
    simp at this
    omega
  obtain ⟨root, tail, hroot, hid⟩ := exists_rootPage tree.root 0
  intro hreach
  have h0 := (hreach.1 root (by simp [partitionToPages, hroot])).pageId_pos hpos
    fun p hp id hc => ((numbered_partitionToPagesId tree.root 0).children p hp id hc).1
  omega

/--
Every page and every input row is reachable from the root exactly when the rows fit one leaf.
-/
theorem rootReachable_buildFromRows_iff {t : Tuning} {rowIds : List ℕ}
    {vectors : List (List F)} {numDim cap : ℕ} {rng : Rng F} {depth : ℕ} {idx : BpannIndex F}
    (h : BpannIndex.buildFromRowsWithPersist t rowIds vectors numDim cap rng depth = .ok idx) :
    idx.RootReachable rowIds ↔ rowIds.length ≤ cap := by
  refine ⟨fun hreach => not_lt.mp fun hlt => not_rootReachable_of_lt h hlt hreach, fun hle => ?_⟩
  rw [BpannIndex.buildFromRowsWithPersist, if_pos hle, Outcome.pure_eq_ok] at h
  exact h ▸ BpannIndex.rootReachable_ofLeaf _ _ _ _ _

end Build

section TwoRows

/-- The index over two one-column rows with a leaf capacity of one. -/
def twoRowIndex : BpannIndex ℚ where
  header :=
    { numDim := 1, indexedRows := 2, rootPageId := 2, leafCapacity := 1, skipNeighbors := 3 }
  pages :=
    [.internal 0 [[0], [1]] [1, 2], .leaf 1 [0] none [[0]] none, .leaf 2 [1] none [[1]] none]
  skipEdges := []

theorem buildFromRows_twoRows :
    BpannIndex.buildFromRowsWithPersist ⟨{}, default_tuning_valid⟩ [0, 1] [[0], [1]] 1 1
      constRng 3 = .ok twoRowIndex := by
  decide +kernel

theorem exists_not_rootReachable :
    ∃ idx : BpannIndex ℚ,
      BpannIndex.buildFromRowsWithPersist ⟨{}, default_tuning_valid⟩ [0, 1] [[0], [1]] 1 1
        constRng 3 = .ok idx ∧ ¬ idx.RootReachable [0, 1] :=
  ⟨_, buildFromRows_twoRows, not_rootReachable_of_lt buildFromRows_twoRows (by decide)⟩

theorem rootReachable_twoRowIndex_iff :
    twoRowIndex.RootReachable [0, 1] ↔ [0, 1].length ≤ 1 :=
  rootReachable_buildFromRows_iff buildFromRows_twoRows

end TwoRows

end Ennbo
