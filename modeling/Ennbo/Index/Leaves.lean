import Ennbo.Index.Partition

/-! # The leaves of a partition

Every part of a split has rows and every leaf has room for its own, whatever the
clustering assigns. The pages of a partition repeat its shape: an internal page
names one page in the subtree of each of its children.
-/

namespace Ennbo

variable {F : Type}

mutual

/-- The entries of the leaves, leaf by leaf. -/
def PartitionNode.leaves : PartitionNode F → List (List (ℕ × List F))
  | .leaf entries _ => [entries]
  | .internal _ children => leavesOf children

def leavesOf : List (PartitionNode F) → List (List (ℕ × List F))
  | [] => []
  | node :: rest => node.leaves ++ leavesOf rest

end

mutual

theorem PartitionNode.flatten_leaves (node : PartitionNode F) :
    node.leaves.flatten = node.entries :=
  match node with
  | .leaf entries _ => by simp [PartitionNode.leaves, PartitionNode.entries]
  | .internal _ children => by
    rw [PartitionNode.leaves, PartitionNode.entries]
    exact flatten_leavesOf children

theorem flatten_leavesOf (nodes : List (PartitionNode F)) :
    (leavesOf nodes).flatten = entriesOf nodes :=
  match nodes with
  | [] => rfl
  | node :: rest => by
    rw [leavesOf, entriesOf, List.flatten_append, node.flatten_leaves, flatten_leavesOf rest]

end

mutual

/-- Pages that repeat the shape of a partition. -/
inductive Paged : PartitionNode F → List (Page F) → Prop where
  | leaf {entries : List (ℕ × List F)} {centroid : List F} (id : ℕ) :
      Paged (.leaf entries centroid)
        [.leaf id (entries.map Prod.fst) none (entries.map Prod.snd) none]
  | internal {children : List (PartitionNode F)} {centroid : List F} {ids : List ℕ}
      {parts : List (List (Page F))} (id : ℕ) (centroids : List (List F)) :
      PagedAll children ids parts → centroids.length = ids.length →
      Paged (.internal centroid children) (.internal id centroids ids :: parts.flatten)

/-- One id and one list of pages for each child; the id names one of these pages. -/
inductive PagedAll : List (PartitionNode F) → List ℕ → List (List (Page F)) → Prop where
  | nil : PagedAll [] [] []
  | cons {child : PartitionNode F} {children : List (PartitionNode F)} {id : ℕ} {ids : List ℕ}
      {pages : List (Page F)} {parts : List (List (Page F))} : Paged child pages →
      id ∈ pages.map Page.pageId → PagedAll children ids parts →
      PagedAll (child :: children) (id :: ids) (pages :: parts)

end

section Pages

variable [Floating F]

mutual

theorem paged_partitionToPagesId (node : PartitionNode F) (nextId : ℕ) :
    Paged node (partitionToPagesId node nextId).1 :=
  match node with
  | .leaf entries centroid => by
    rw [partitionToPagesId]
    exact .leaf nextId
  | .internal centroid children => by
    obtain ⟨parts, hparts, hall⟩ := pagedAll_childPages children (nextId + 1) nextId
    have h := numbered_childPages children (nextId + 1) nextId rfl
    rw [partitionToPagesId]
    dsimp only
    rw [hparts]
    exact .internal nextId _ hall h.centroids

theorem pagedAll_childPages (children : List (PartitionNode F)) (curId lastId : ℕ) :
    ∃ parts, (childPages children curId lastId).pages = parts.flatten ∧
      PagedAll children (childPages children curId lastId).ids parts :=
  match children with
  | [] => ⟨[], rfl, .nil⟩
  | child :: rest => by
    have hchild := paged_partitionToPagesId child curId
    obtain ⟨root, tail, hroot, -⟩ := exists_rootPage child curId
    obtain ⟨parts, hparts, hall⟩ := pagedAll_childPages rest
      ((partitionToPagesId child curId).2 + 1) (max lastId (partitionToPagesId child curId).2)
    rw [hroot] at hchild
    refine ⟨(root :: tail) :: parts, ?_, ?_⟩
    · simp only [childPages, hroot, hparts, List.flatten_cons]
    · simp only [childPages, hroot]
      exact .cons hchild (by simp) hall

end

end Pages

section Bounds

variable [Floating F] {cap depth : ℕ} {entries : List (ℕ × List F)} {rng rng' : Rng F}

omit [Floating F] in
theorem leavesOf_mapRng {P : List (ℕ × List F) → Prop}
    {f : List (ℕ × List F) → Rng F → Option (PartitionNode F × Rng F)}
    {parts : List (List (ℕ × List F))}
    (hf : ∀ part ∈ parts, ∀ rng r, f part rng = some r → ∀ leaf ∈ r.1.leaves, P leaf)
    {nodes : List (PartitionNode F)} (h : mapRng f parts rng = some (nodes, rng')) :
    ∀ leaf ∈ leavesOf nodes, P leaf := by
  induction parts generalizing rng nodes with
  | nil =>
    obtain rfl : [] = nodes := congrArg Prod.fst (Option.some.inj h)
    intro leaf hleaf
    cases hleaf
  | cons part parts ih =>
    rw [List.forall_mem_cons] at hf
    obtain ⟨node, rng₁, nodes', hn, hns, rfl⟩ := mapRng_cons h
    intro leaf hleaf
    rcases List.mem_append.mp hleaf with hleaf | hleaf
    · exact hf.1 _ _ hn leaf hleaf
    · exact ih hf.2 hns leaf hleaf

/-- Every leaf has room for its rows, and without rows there is only an empty root. -/
theorem leaves_partition {r : PartitionNode F × Rng F}
    (h : partitionRecursiveWithVectors cap depth entries rng = some r) :
    ∀ leaf ∈ r.1.leaves, leaf.length ≤ cap ∧ (entries ≠ [] → leaf ≠ []) := by
  induction depth generalizing entries rng r with
  | zero => simp [partitionRecursiveWithVectors] at h
  | succ depth ih =>
    simp only [partitionRecursiveWithVectors] at h
    split at h
    next hle =>
      obtain rfl := Option.some.inj h
      intro leaf hleaf
      obtain rfl := List.mem_singleton.mp hleaf
      exact ⟨hle, id⟩
    next =>
      obtain ⟨⟨children, rng₁⟩, hc, rfl⟩ := Option.map_eq_some_iff.mp h
      rw [PartitionNode.leaves]
      apply leavesOf_mapRng (P := fun leaf => leaf.length ≤ cap ∧ (entries ≠ [] → leaf ≠ [])) _ hc
      intro part hpart rng r hr leaf hleaf
      obtain ⟨hlen, hne⟩ := ih hr leaf hleaf
      -- clusters without rows are left out
      have hfilled : part ≠ [] := by
        have hnonempty := (List.mem_filter.mp hpart).2
        simpa using hnonempty
      exact ⟨hlen, fun _ => hne hfilled⟩

/--
A partition that returns keeps every row once, in leaves that have room for it, and its pages
have different ids and repeat its shape.
-/
theorem partition_exact {rowIds : List ℕ} {vectors : List (List F)} {tree : PartitionTree F}
    (h : PartitionTree.build rowIds vectors cap rng depth = some tree) :
    tree.root.leaves.flatten.Perm (rowIds.zip vectors) ∧
      (∀ leaf ∈ tree.root.leaves, leaf.length ≤ cap ∧ (rowIds ≠ [] → leaf ≠ [])) ∧
      ((partitionToPages tree.root).1.map Page.pageId).Nodup ∧
      (∀ p ∈ (partitionToPages tree.root).1, p.BranchOk) ∧
      Paged tree.root (partitionToPages tree.root).1 := by
  obtain ⟨hlen, rng', hr⟩ := PartitionTree.build_eq_some h
  have hnumbered := numbered_partitionToPagesId tree.root 0
  refine ⟨?_, ?_, ?_, hnumbered.branches, paged_partitionToPagesId tree.root 0⟩
  · rw [tree.root.flatten_leaves]
    exact PartitionTree.entries_perm h
  · intro leaf hleaf
    obtain ⟨hcap, hne⟩ := leaves_partition hr leaf hleaf
    refine ⟨hcap, fun hids => hne ?_⟩
    intro hzip
    have hzero := congrArg List.length hzip
    rw [List.length_zip, hlen, min_self, ← hlen] at hzero
    exact hids (List.eq_nil_of_length_eq_zero hzero)
  · unfold partitionToPages
    rw [hnumbered.ids]
    exact List.nodup_range'

theorem partition_exact_two_leaves :
    ∃ tree : PartitionTree ℚ,
      PartitionTree.build [4, 7] [[0], [1]] 1 constRng 2 = some tree ∧
        tree.root.leaves.flatten.Perm [(4, [0]), (7, [1])] ∧
        (∀ leaf ∈ tree.root.leaves, leaf.length ≤ 1 ∧ ([4, 7] ≠ [] → leaf ≠ [])) ∧
        ((partitionToPages tree.root).1.map Page.pageId).Nodup ∧
        (∀ p ∈ (partitionToPages tree.root).1, p.BranchOk) ∧
        Paged tree.root (partitionToPages tree.root).1 := by
  have h : (PartitionTree.build [4, 7] [[(0 : ℚ)], [1]] 1 constRng 2).isSome = true := by
    decide +kernel
  obtain ⟨tree, htree⟩ := Option.isSome_iff_exists.mp h
  exact ⟨tree, htree, partition_exact htree⟩

end Bounds

end Ennbo
