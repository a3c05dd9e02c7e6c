import Ennbo.Index.Build
import Mathlib.Data.List.Range

/-! # The pages of a partition

A partition keeps every entry once. Its pages are numbered in preorder without
gaps, every child has a larger id than its parent, and the returned id is the
last one used.
-/

namespace Ennbo

variable {F : Type}

namespace Page

def centroids : Page F → List (List F)
  | internal _ centroids _ => centroids
  | leaf .. => []

def BranchOk (p : Page F) : Prop := p.centroids.length = p.childPageIds.length

end Page

mutual

/-- The entries of the leaves of a partition, in order. -/
def PartitionNode.entries : PartitionNode F → List (ℕ × List F)
  | .leaf entries _ => entries
  | .internal _ children => entriesOf children

def entriesOf : List (PartitionNode F) → List (ℕ × List F)
  | [] => []
  | node :: rest => node.entries ++ entriesOf rest

end

/-- What numbering gives for a list of pages that holds `entries` and uses ids up to `lastId`. -/
structure Numbered (entries : List (ℕ × List F)) (nextId lastId : ℕ) (pages : List (Page F)) :
    Prop where
  ids : pages.map Page.pageId = List.range' nextId pages.length
  last_eq : lastId + 1 = nextId + pages.length
  rows : pages.flatMap Page.leafRows = entries.map Prod.fst
  children : ∀ p ∈ pages, ∀ c ∈ p.childPageIds, p.pageId < c ∧ c ≤ lastId
  branches : ∀ p ∈ pages, p.BranchOk
  leaves : ∀ p ∈ pages, p.isLeaf → ∃ es : List (ℕ × List F), es ⊆ entries ∧
    p = .leaf p.pageId (es.map Prod.fst) none (es.map Prod.snd) none

theorem Numbered.append {es₁ es₂ : List (ℕ × List F)} {a b c : ℕ} {ps₁ ps₂ : List (Page F)}
    (h₁ : Numbered es₁ a b ps₁) (h₂ : Numbered es₂ (b + 1) c ps₂) :
    Numbered (es₁ ++ es₂) a c (ps₁ ++ ps₂) where
  ids := by
    rw [List.map_append, h₁.ids, h₂.ids, h₁.last_eq, List.length_append, List.range'_append_1]
  last_eq := by
    have := h₁.last_eq; have := h₂.last_eq
    rw [List.length_append]; omega
  rows := by rw [List.flatMap_append, h₁.rows, h₂.rows, List.map_append]
  children p hp i hi := by
    have := h₂.last_eq
    rcases List.mem_append.mp hp with hp | hp
    · have := h₁.children p hp i hi; omega
    · exact h₂.children p hp i hi
  branches p hp := (List.mem_append.mp hp).elim (h₁.branches p) (h₂.branches p)
  leaves p hp hl := by
    rcases List.mem_append.mp hp with hp | hp
    · obtain ⟨es, hs, he⟩ := h₁.leaves p hp hl
      exact ⟨es, List.subset_append_of_subset_left _ hs, he⟩
    · obtain ⟨es, hs, he⟩ := h₂.leaves p hp hl
      exact ⟨es, List.subset_append_of_subset_right _ hs, he⟩

/-- What the loop over the children gives: their pages, and the ids of the roots among them. -/
structure ChildrenNumbered (entries : List (ℕ × List F)) (curId : ℕ) (c : ChildPages F) :
    Prop where
  pages : Numbered entries curId c.lastId c.pages
  ids : ∀ id ∈ c.ids, curId ≤ id ∧ id ≤ c.lastId
  centroids : c.centroids.length = c.ids.length

variable [Floating F]

theorem exists_rootPage (node : PartitionNode F) (nextId : ℕ) :
    ∃ root tail, (partitionToPagesId node nextId).1 = root :: tail ∧ root.pageId = nextId := by
  cases node with
  | leaf entries centroid => exact ⟨_, [], by rw [partitionToPagesId], rfl⟩
  | internal centroid children => exact ⟨_, _, by rw [partitionToPagesId], rfl⟩

mutual

theorem numbered_partitionToPagesId (node : PartitionNode F) (nextId : ℕ) :
    Numbered node.entries nextId (partitionToPagesId node nextId).2
      (partitionToPagesId node nextId).1 :=
  match node with
  | .leaf entries centroid =>
    { ids := rfl
      last_eq := rfl
      rows := by simp [partitionToPagesId, PartitionNode.entries]
      children := by simp [partitionToPagesId, Page.childPageIds]
      branches := by simp [partitionToPagesId, Page.BranchOk, Page.centroids, Page.childPageIds]
      leaves := by
        rintro p hp -
        obtain rfl := List.mem_singleton.mp hp
        exact ⟨entries, List.Subset.refl _, rfl⟩ }
  | .internal centroid children => by
    have h := numbered_childPages children (nextId + 1) nextId rfl
    have hlast := h.pages.last_eq
    have hmax : max (childPages children (nextId + 1) nextId).lastId nextId =
        (childPages children (nextId + 1) nextId).lastId := by omega
    simp only [partitionToPagesId, PartitionNode.entries, hmax]
    exact
      { ids := by
          rw [List.map_cons, h.pages.ids, List.length_cons, List.range'_succ, Page.pageId]
        last_eq := by rw [List.length_cons]; omega
        rows := by rw [List.flatMap_cons, h.pages.rows]; rfl
        children := by
          rintro p (_ | ⟨_, hp⟩) i hi
          · exact (h.ids i hi).imp Nat.lt_of_succ_le id
          · exact h.pages.children p hp i hi
        branches := by
          rintro p (_ | ⟨_, hp⟩)
          · exact h.centroids
          · exact h.pages.branches p hp
        leaves := by
          rintro p (_ | ⟨_, hp⟩) hl
          · simp [Page.isLeaf] at hl
          · exact h.pages.leaves p hp hl }

theorem numbered_childPages (children : List (PartitionNode F)) (curId lastId : ℕ)
    (hl : lastId + 1 = curId) :
    ChildrenNumbered (entriesOf children) curId (childPages children curId lastId) :=
  match children with
  | [] =>
    { pages :=
        { ids := rfl
          last_eq := by simpa [childPages] using hl
          rows := rfl
          children := by simp [childPages]
          branches := by simp [childPages]
          leaves := by simp [childPages] }
      ids := by simp [childPages]
      centroids := rfl }
  | child :: rest => by
    have h₁ := numbered_partitionToPagesId child curId
    obtain ⟨root, tail, hroot, hid⟩ := exists_rootPage child curId
    have hlast := h₁.last_eq
    rw [hroot, List.length_cons] at hlast
    have hmax : max lastId (partitionToPagesId child curId).2 =
        (partitionToPagesId child curId).2 := by omega
    have h₂ := numbered_childPages rest ((partitionToPagesId child curId).2 + 1)
      (partitionToPagesId child curId).2 rfl
    have hlast₂ := h₂.pages.last_eq
    simp only [childPages, hroot, hmax, entriesOf]
    exact
      { pages := by rw [← hroot]; exact h₁.append h₂.pages
        ids := by
          rintro i (_ | ⟨_, hi⟩) <;> dsimp only
          · omega
          · have := h₂.ids i hi
            omega
        centroids := congrArg Nat.succ h₂.centroids }

end

section Entries

omit [Floating F] in
theorem mapRng_cons {α β : Type} {f : α → Rng F → Option (β × Rng F)} {a : α} {as : List α}
    {rng rng' : Rng F} {bs : List β} (h : mapRng f (a :: as) rng = some (bs, rng')) :
    ∃ b rng₁ bs', f a rng = some (b, rng₁) ∧ mapRng f as rng₁ = some (bs', rng') ∧
      bs = b :: bs' := by
  obtain ⟨⟨b, rng₁⟩, hb, h⟩ := Option.bind_eq_some_iff.mp h
  obtain ⟨⟨bs', rng₂⟩, hbs, h⟩ := Option.map_eq_some_iff.mp h
  obtain ⟨rfl, rfl⟩ := Prod.mk.inj h
  exact ⟨b, rng₁, bs', hb, hbs, rfl⟩

omit [Floating F] in
theorem entriesOf_mapRng_perm
    {f : List (ℕ × List F) → Rng F → Option (PartitionNode F × Rng F)}
    (hf : ∀ part rng node rng', f part rng = some (node, rng') → node.entries.Perm part)
    {parts : List (List (ℕ × List F))} {rng rng' : Rng F} {nodes : List (PartitionNode F)}
    (h : mapRng f parts rng = some (nodes, rng')) : (entriesOf nodes).Perm parts.flatten := by
  induction parts generalizing rng nodes with
  | nil =>
    obtain rfl : [] = nodes := congrArg Prod.fst (Option.some.inj h)
    exact List.Perm.refl _
  | cons part parts ih =>
    obtain ⟨node, rng₁, nodes', hn, hns, rfl⟩ := mapRng_cons h
    rw [entriesOf, List.flatten_cons]
    exact (hf _ _ _ _ hn).append (ih hns)

theorem entries_partition_perm {leafCapacity depth : ℕ} {entries : List (ℕ × List F)}
    {rng rng' : Rng F} {node : PartitionNode F}
    (h : partitionRecursiveWithVectors leafCapacity depth entries rng = some (node, rng')) :
    node.entries.Perm entries := by
  induction depth generalizing entries rng node rng' with
  | zero => simp [partitionRecursiveWithVectors] at h
  | succ depth ih =>
    simp only [partitionRecursiveWithVectors] at h
    split at h
    · obtain rfl := congrArg Prod.fst (Option.some.inj h)
      exact List.Perm.refl _
    · obtain ⟨⟨children, rng₁⟩, hc, h⟩ := Option.map_eq_some_iff.mp h
      obtain rfl := congrArg Prod.fst h
      have hk : 0 < min (max ((entries.length + leafCapacity - 1) / leafCapacity) 2) 16 := by omega
      obtain ⟨hl, ha⟩ : Assigned (entries.map Prod.snd) _
          (kmeansRun (entries.map Prod.snd) _ 20 rng).2.1 := assigned_kmeansRun hk rng
      exact (entriesOf_mapRng_perm (fun _ _ _ _ h => ih h) hc).trans
        (clusters_flatten_perm (by rw [hl, List.length_map]) ha)

theorem exists_children_of_lt {leafCapacity depth : ℕ} {entries : List (ℕ × List F)}
    {rng rng' : Rng F} {node : PartitionNode F} (hlt : leafCapacity < entries.length)
    (h : partitionRecursiveWithVectors leafCapacity depth entries rng = some (node, rng')) :
    ∃ centroid children, node = .internal centroid children := by
  cases depth with
  | zero => simp [partitionRecursiveWithVectors] at h
  | succ depth =>
    simp only [partitionRecursiveWithVectors, hlt.not_ge, if_false] at h
    obtain ⟨⟨children, rng₁⟩, -, h⟩ := Option.map_eq_some_iff.mp h
    exact ⟨_, _, (congrArg Prod.fst h).symm⟩

end Entries

section Build

theorem PartitionTree.build_eq_some {rowIds : List ℕ} {vectors : List (List F)} {cap : ℕ}
    {rng : Rng F} {depth : ℕ} {tree : PartitionTree F}
    (h : PartitionTree.build rowIds vectors cap rng depth = some tree) :
    rowIds.length = vectors.length ∧ ∃ rng',
      partitionRecursiveWithVectors cap depth (rowIds.zip vectors) rng =
        some (tree.root, rng') := by
  rw [build] at h
  split at h
  next hl =>
    obtain ⟨⟨root, rng'⟩, hr, rfl⟩ := Option.map_eq_some_iff.mp h
    exact ⟨hl, rng', hr⟩
  next => simp at h

theorem PartitionTree.entries_perm {rowIds : List ℕ} {vectors : List (List F)} {cap : ℕ}
    {rng : Rng F} {depth : ℕ} {tree : PartitionTree F}
    (h : PartitionTree.build rowIds vectors cap rng depth = some tree) :
    tree.root.entries.Perm (rowIds.zip vectors) := by
  obtain ⟨-, _, hr⟩ := PartitionTree.build_eq_some h
  exact entries_partition_perm hr

end Build

end Ennbo
