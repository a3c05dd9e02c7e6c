import Ennbo.Trials.Codes
import Mathlib.Algebra.Order.BigOperators.Group.List

/-! # Tiles

A device works on tiles of the leaves, whose numbers have 32 bits. The tiles of a
layout that is accepted list every element of a row once, in order.
-/

namespace Ennbo.Trials

section Definitions

def TILE_ELEMENTS : ℕ := 65536

structure Tile where
  leaf : ℕ
  start : ℕ
  length : ℕ
  deriving DecidableEq

/-- `n as u32` -/
def asU32 (n : ℕ) : ℕ := n % 2 ^ 32

theorem tile_pos {start length : ℕ} (h : start < length) :
    0 < min (length - start) TILE_ELEMENTS :=
  lt_min (Nat.sub_pos_of_lt h) (by decide)

/-- The tiles of a leaf, from an element on. -/
def leafTiles (leafIndex length start : ℕ) : List Tile :=
  if h : start < length then
    let len := min (length - start) TILE_ELEMENTS
    have : length - (start + len) < length - start := by
      have hlen := tile_pos h
      omega
    ⟨asU32 leafIndex, asU32 start, asU32 len⟩ :: leafTiles leafIndex length (start + len)
  else []
termination_by length - start

variable {F : Type}

def makeTiles (leaves : List (Leaf F)) : List Tile :=
  leaves.zipIdx.flatMap fun e => leafTiles e.2 e.1.length 0

def Tile.elements (leaves : List (Leaf F)) (t : Tile) : List ℕ :=
  List.range' ((leaves[t.leaf]?.elim 0 Leaf.offset) + t.start) t.length

/-- A tile within its leaf, not larger than the limit. -/
def Tile.Fits (leaves : List (Leaf F)) (t : Tile) : Prop :=
  0 < t.length ∧ t.length ≤ TILE_ELEMENTS ∧
    ∃ leaf, leaves[t.leaf]? = some leaf ∧ t.start + t.length ≤ leaf.length

end Definitions

theorem asU32_of_le {n : ℕ} (h : n ≤ u32Max) : asU32 n = n :=
  Nat.mod_eq_of_lt (h.trans_lt (by decide))

theorem leafTiles_spec {leafIndex length start : ℕ} (hindex : leafIndex ≤ u32Max)
    (hlength : length ≤ u32Max) (hstart : start ≤ length) (offset : ℕ) :
    ((leafTiles leafIndex length start).flatMap fun t => List.range' (offset + t.start) t.length) =
        List.range' (offset + start) (length - start) ∧
      ∀ t ∈ leafTiles leafIndex length start, t.leaf = leafIndex ∧ 0 < t.length ∧
        t.length ≤ TILE_ELEMENTS ∧ t.start + t.length ≤ length := by
  fun_induction leafTiles leafIndex length start with
  | case1 start h len _ ih =>
    have hpos : 0 < len := tile_pos h
    have hle : len ≤ length - start := min_le_left _ _
    have hend : start + len ≤ length := by omega
    have hrest : len + (length - (start + len)) = length - start := by omega
    obtain ⟨hcover, hfits⟩ := ih hend
    rw [asU32_of_le hindex, asU32_of_le (hstart.trans hlength), asU32_of_le (by omega)]
    refine ⟨?_, List.forall_mem_cons.mpr ⟨⟨rfl, hpos, min_le_right _ _, hend⟩, hfits⟩⟩
    rw [List.flatMap_cons, hcover, ← Nat.add_assoc, List.range'_append_1, hrest]
  | case2 start h =>
    rw [Nat.sub_eq_zero_of_le (not_lt.mp h)]
    exact ⟨rfl, nofun⟩

section Layouts

variable {F : Type} {leaves : List (Leaf F)} {rowBytes : ℕ}

theorem fst_checkLeaves [TrialFloat F] {offset : ℕ} {result : ℕ × ℕ}
    (h : checkLeaves leaves offset rowBytes = .ok result) :
    result.1 = offset + (leaves.map Leaf.length).sum := by
  induction leaves generalizing offset rowBytes with
  | nil =>
    obtain rfl := Except.ok.inj h
    rfl
  | cons leaf leaves ih =>
    rw [checkLeaves] at h
    split at h
    · cases h
    split at h
    · cases h
    split at h
    · cases h
    · rw [ih h, List.map_cons, List.sum_cons, Nat.add_assoc]

/-- The tiles of the last leaves of a layout. -/
theorem tiles_of_checkLeaves [TrialFloat F] (before rest : List (Leaf F)) {offset : ℕ}
    {result : ℕ × ℕ} (h : checkLeaves rest offset rowBytes = .ok result)
    (hlength : ∀ leaf ∈ rest, leaf.length ≤ u32Max)
    (hcount : before.length + rest.length ≤ u32Max) :
    ((rest.zipIdx before.length).flatMap fun e => leafTiles e.2 e.1.length 0).flatMap
        (Tile.elements (before ++ rest)) =
        List.range' offset (rest.map Leaf.length).sum ∧
      ∀ t ∈ (rest.zipIdx before.length).flatMap fun e => leafTiles e.2 e.1.length 0,
        t.Fits (before ++ rest) := by
  induction rest generalizing before offset rowBytes with
  | nil => exact ⟨rfl, nofun⟩
  | cons leaf rest ih =>
    rw [List.forall_mem_cons] at hlength
    rw [List.length_cons] at hcount
    rw [checkLeaves] at h
    split at h
    · cases h
    next hoffset =>
      have hoffset : leaf.offset = offset := not_not.mp hoffset
      split at h
      · cases h
      split at h
      · cases h
      next =>
        have hget : (before ++ leaf :: rest)[before.length]? = some leaf := by simp
        have hindex : before.length ≤ u32Max := by omega
        obtain ⟨hcover, hfits⟩ := leafTiles_spec hindex hlength.1 (Nat.zero_le _) offset
        have hrest := ih (before ++ [leaf]) h hlength.2
          (by rw [List.length_append, List.length_singleton]; omega)
        rw [List.append_assoc, List.singleton_append, List.length_append,
          List.length_singleton] at hrest
        have helements : (leafTiles before.length leaf.length 0).flatMap
            (Tile.elements (before ++ leaf :: rest)) = List.range' offset leaf.length := by
          rw [Nat.add_zero, Nat.sub_zero] at hcover
          rw [← hcover]
          refine List.flatMap_congr fun t ht => ?_
          rw [Tile.elements, (hfits t ht).1, hget, Option.elim_some, hoffset]
        rw [List.zipIdx_cons, List.flatMap_cons, List.flatMap_append, helements, hrest.1,
          List.map_cons, List.sum_cons, List.range'_append_1]
        refine ⟨rfl, List.forall_mem_append.mpr ⟨fun t ht => ?_, hrest.2⟩⟩
        obtain ⟨hleaf, hpos, hle, hend⟩ := hfits t ht
        exact ⟨hpos, hle, leaf, hleaf ▸ hget, hend⟩

/-- Every element of a row lies in one tile, in order, and no tile is too large. -/
theorem tiles_cover [TrialFloat F] (hlayout : checkLayout leaves = .ok rowBytes)
    (hpos : ∀ leaf ∈ leaves, 0 < leaf.length) :
    (makeTiles leaves).flatMap (Tile.elements leaves) =
        List.range (leaves.map Leaf.length).sum ∧
      ∀ t ∈ makeTiles leaves, t.Fits leaves := by
  rw [checkLayout] at hlayout
  split at hlayout
  · cases hlayout
  cases hleaves : checkLeaves leaves 0 0 with
  | error e =>
    rw [hleaves] at hlayout
    cases hlayout
  | ok result =>
    rw [hleaves] at hlayout
    dsimp only at hlayout
    split at hlayout
    · cases hlayout
    next hfits =>
      have hsum : (leaves.map Leaf.length).sum ≤ u32Max := by
        have htotal := fst_checkLeaves hleaves
        omega
      have hlength : ∀ leaf ∈ leaves, leaf.length ≤ u32Max := fun leaf hleaf =>
        (List.single_le_sum (fun _ _ => Nat.zero_le _) _ (List.mem_map_of_mem hleaf)).trans hsum
      have hcount : leaves.length ≤ u32Max := by
        have hone := List.length_le_sum_of_one_le (leaves.map Leaf.length)
          (List.forall_mem_map.mpr hpos)
        rw [List.length_map] at hone
        exact hone.trans hsum
      rw [List.range_eq_range']
      exact tiles_of_checkLeaves [] leaves hleaves hlength (by simpa using hcount)

end Layouts

section Example

def tiledLeaves : List (Leaf ℚ) :=
  [⟨0, 65537, 8, .int8, 1, 1, 1, eight_eq_or⟩, ⟨65537, 3, 4, .int4, 1, 1, 1, four_eq_or⟩]

/-- A leaf of one element more than a tile holds, and a short one. -/
theorem tiles_cover_two :
    (makeTiles tiledLeaves).flatMap (Tile.elements tiledLeaves) =
        List.range (tiledLeaves.map Leaf.length).sum ∧
      ∀ t ∈ makeTiles tiledLeaves, t.Fits tiledLeaves :=
  tiles_cover (show checkLayout tiledLeaves = .ok 65539 by decide)
    (by simp [tiledLeaves])

end Example

end Ennbo.Trials
