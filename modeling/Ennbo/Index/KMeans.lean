import Ennbo.Index.Page
import Ennbo.Ranking.Grouping

/-! # The k-means partition

Rows are split by k-means until every part fits a leaf. The generator is any
stream of draws, and the arithmetic any `Floating` type. The recursion takes a
bound on its depth: it is not the case that every input is ever split.
-/

namespace Ennbo

/-- A random generator: the integers and floats it will return, and how many were drawn. -/
structure Rng (F : Type) where
  ints : ℕ → ℕ
  floats : ℕ → F
  drawn : ℕ := 0

namespace Rng

variable {F : Type}

/-- `gen_range(0..n)`. -/
def genRange (rng : Rng F) (n : ℕ) : ℕ × Rng F :=
  (rng.ints rng.drawn % n, { rng with drawn := rng.drawn + 1 })

/-- `gen::<f32>()`. -/
def gen (rng : Rng F) : F × Rng F :=
  (rng.floats rng.drawn, { rng with drawn := rng.drawn + 1 })

end Rng

/-- A generator that draws the integer `0` and the float `1 / 2`. -/
def constRng : Rng ℚ where
  ints _ := 0
  floats _ := 1 / 2

section KMeans

variable {F : Type} [Floating F]

/-- `a <= b` on floats. -/
def leB (a b : F) : Bool :=
  match partialCmp a b with
  | some .lt => true
  | some .eq => true
  | _ => false

/-- The index of the first smallest distance; later entries only win when strictly smaller. -/
def minByGo (best : ℕ) (bestDist : F) (i : ℕ) : List F → ℕ
  | [] => best
  | d :: ds =>
    if cmpOrEqual bestDist d = .gt then minByGo i d (i + 1) ds
    else minByGo best bestDist (i + 1) ds

/-- The nearest centroid, the first one among equals, `0` when there is none. -/
def closestCentroid (p : List F) (centroids : List (List F)) : ℕ :=
  match centroids.map (l2SqF32 p) with
  | [] => 0
  | d :: ds => minByGo 0 d 1 ds

def assignClusters (points centroids : List (List F)) : List ℕ :=
  points.map fun p => closestCentroid p centroids

/-- The first index at which the running `pick` drops to zero, `0` when it never does. -/
def pickIndex (pick : F) (i : ℕ) : List F → ℕ
  | [] => 0
  | d :: ds => if leB (pick - d) 0 then i else pickIndex (pick - d) (i + 1) ds

/-- Add `n` centroids to the ones chosen so far. -/
def extendCentroids (points : List (List F)) :
    ℕ → List (List F) → Rng F → List (List F) × Rng F
  | 0, centroids, rng => (centroids, rng)
  | n + 1, centroids, rng =>
    let dists := points.map fun p =>
      (centroids.map (l2SqF32 p)).foldl min infinity
    let sum := dists.foldl (· + ·) 0
    if leB sum 0 then
      let (i, rng) := rng.genRange points.length
      extendCentroids points n (centroids ++ [points.getD i []]) rng
    else
      let (x, rng) := rng.gen
      extendCentroids points n (centroids ++ [points.getD (pickIndex (x * sum) 0 dists) []]) rng

def kmeansPlusPlusInit (points : List (List F)) (k : ℕ) (rng : Rng F) :
    List (List F) × Rng F :=
  if points.isEmpty || k == 0 then ([], rng)
  else
    let k := min k points.length
    let (i, rng) := rng.genRange points.length
    extendCentroids points (k - 1) [points.getD i []] rng

def recomputeCentroids (points : List (List F)) (assignments : List ℕ) (k : ℕ) :
    List (List F) :=
  let dim := (points.head?.map List.length).getD 0
  (List.range k).map fun c =>
    let members := (points.zip assignments).filter (fun pa => pa.2 == c)
    if members.length == 0 then List.replicate dim 0
    else
      (members.foldl (fun acc pa => addInto acc pa.1) (List.replicate dim 0)).map
        (· / (members.length : F))

def kmeansLoop (points : List (List F)) (k : ℕ) :
    ℕ → List (List F) → List ℕ → List (List F) × List ℕ
  | 0, centroids, assignments => (centroids, assignments)
  | n + 1, _, assignments =>
    let newCentroids := recomputeCentroids points assignments k
    let newAssignments := assignClusters points newCentroids
    if newAssignments == assignments then (newCentroids, assignments)
    else kmeansLoop points k n newCentroids newAssignments

def kmeansRun (points : List (List F)) (k maxIters : ℕ) (rng : Rng F) :
    List (List F) × List ℕ × Rng F :=
  if points.isEmpty then ([], [], rng)
  else
    let k := max (min k points.length) 1
    let (centroids, rng) := kmeansPlusPlusInit points k rng
    let (centroids, assignments) :=
      kmeansLoop points k maxIters centroids (assignClusters points centroids)
    (centroids, assignments, rng)

end KMeans

/-- A node of the partition tree. -/
inductive PartitionNode (F : Type) where
  | leaf (entries : List (ℕ × List F)) (centroid : List F)
  | internal (centroid : List F) (children : List (PartitionNode F))

section Partition

variable {F : Type} [Floating F]

/-- Run `f` over a list, handing the generator on. -/
def mapRng {α β : Type} (f : α → Rng F → Option (β × Rng F)) :
    List α → Rng F → Option (List β × Rng F)
  | [], rng => some ([], rng)
  | a :: as, rng =>
    (f a rng).bind fun (b, rng) => (mapRng f as rng).map fun (bs, rng) => (b :: bs, rng)

/-- The rows assigned to each of the `k` clusters, in their order, without the empty clusters. -/
def clusters (entries : List (ℕ × List F)) (assignments : List ℕ) (k : ℕ) :
    List (List (ℕ × List F)) :=
  ((List.range k).map fun c =>
    (Ranking.group Prod.snd (entries.zip assignments) c).map Prod.fst).filter (!·.isEmpty)

/-- Split rows until every part has at most `leafCapacity` of them. -/
def partitionRecursiveWithVectors (leafCapacity : ℕ) :
    ℕ → List (ℕ × List F) → Rng F → Option (PartitionNode F × Rng F)
  | 0, _, _ => none
  | depth + 1, entries, rng =>
    let points := entries.map Prod.snd
    let centroid := meanVector points
    if entries.length ≤ leafCapacity then some (.leaf entries centroid, rng)
    else
      -- `div_ceil(leaf_capacity).clamp(2, 16)`
      let k := min (max ((entries.length + leafCapacity - 1) / leafCapacity) 2) 16
      let (_, assignments, rng) := kmeansRun points k 20 rng
      (mapRng (partitionRecursiveWithVectors leafCapacity depth)
        (clusters entries assignments k) rng).map fun (children, rng) =>
          (.internal centroid children, rng)

structure PartitionTree (F : Type) where
  leafCapacity : ℕ
  root : PartitionNode F

/-- `none` when the lists differ in length or the recursion needs more than `depth` levels. -/
def PartitionTree.build (rowIds : List ℕ) (vectors : List (List F)) (leafCapacity : ℕ)
    (rng : Rng F) (depth : ℕ) : Option (PartitionTree F) :=
  if rowIds.length = vectors.length then
    (partitionRecursiveWithVectors leafCapacity depth (rowIds.zip vectors) rng).map fun r =>
      ⟨leafCapacity, r.1⟩
  else none

end Partition

section Assignments

variable {F : Type} [Floating F]

theorem minByGo_lt {best i n : ℕ} {d : F} (ds : List F) (hb : best < n)
    (hi : i + ds.length ≤ n) : minByGo best d i ds < n := by
  induction ds generalizing best i d with
  | nil => exact hb
  | cons x ds ih =>
    rw [List.length_cons] at hi
    rw [minByGo]
    split
    · exact ih (by omega) (by omega)
    · exact ih hb (by omega)

theorem closestCentroid_lt (p : List F) {centroids : List (List F)} (h : centroids ≠ []) :
    closestCentroid p centroids < centroids.length := by
  cases centroids with
  | nil => exact absurd rfl h
  | cons c cs =>
    rw [closestCentroid, List.map_cons]
    exact minByGo_lt _ (by simp) (by simp [Nat.add_comm])

theorem length_recomputeCentroids (points : List (List F)) (assignments : List ℕ) (k : ℕ) :
    (recomputeCentroids points assignments k).length = k := by
  simp [recomputeCentroids]

theorem length_extendCentroids (points : List (List F)) (n : ℕ) (centroids : List (List F))
    (rng : Rng F) :
    (extendCentroids points n centroids rng).1.length = centroids.length + n := by
  induction n generalizing centroids rng with
  | zero => rfl
  | succ n ih =>
    simp only [extendCentroids]
    split <;> rw [ih, List.length_append, List.length_singleton] <;> omega

theorem length_kmeansPlusPlusInit {points : List (List F)} {k : ℕ} (hp : points ≠ [])
    (hk : 0 < k) (rng : Rng F) :
    (kmeansPlusPlusInit points k rng).1.length = min k points.length := by
  have hpos : 0 < points.length := List.length_pos_iff.mpr hp
  have hc : (points.isEmpty || k == 0) = false := by
    simp [hp]; omega
  simp only [kmeansPlusPlusInit, hc, Bool.false_eq_true, if_false, length_extendCentroids,
    List.length_singleton]
  omega

/-- Every point is assigned to one of the `k` clusters. -/
def Assigned (points : List (List F)) (k : ℕ) (assignments : List ℕ) : Prop :=
  assignments.length = points.length ∧ ∀ a ∈ assignments, a < k

theorem assigned_assignClusters (points : List (List F)) {centroids : List (List F)} {k : ℕ}
    (hk : 0 < k) (h : centroids.length = k) :
    Assigned points k (assignClusters points centroids) := by
  refine ⟨by simp [assignClusters], fun a ha => ?_⟩
  obtain ⟨p, -, rfl⟩ := List.mem_map.mp ha
  have hne : centroids ≠ [] := by rintro rfl; simp at h; omega
  exact h ▸ closestCentroid_lt p hne

theorem assigned_kmeansLoop {points : List (List F)} {k : ℕ} (hk : 0 < k) (n : ℕ)
    (centroids : List (List F)) {assignments : List ℕ} (h : Assigned points k assignments) :
    Assigned points k (kmeansLoop points k n centroids assignments).2 := by
  induction n generalizing centroids assignments with
  | zero => exact h
  | succ n ih =>
    simp only [kmeansLoop]
    split
    · exact h
    · exact ih _ (assigned_assignClusters points hk (length_recomputeCentroids _ _ _))

theorem assigned_kmeansRun {points : List (List F)} {k maxIters : ℕ} (hk : 0 < k) (rng : Rng F) :
    Assigned points k (kmeansRun points k maxIters rng).2.1 := by
  rw [kmeansRun]
  split
  next h =>
    obtain rfl := List.isEmpty_iff.mp h
    exact ⟨rfl, by simp⟩
  next h =>
    have hp : points ≠ [] := fun e => h (List.isEmpty_iff.mpr e)
    have hpos : 0 < points.length := List.length_pos_iff.mpr hp
    have hm : max (min k points.length) 1 = min k points.length := by omega
    have hk' : 0 < min k points.length := by omega
    have hc := length_kmeansPlusPlusInit hp hk' rng
    rw [min_assoc, min_self] at hc
    obtain ⟨hl, ha⟩ := assigned_kmeansLoop hk' maxIters
      (kmeansPlusPlusInit points (min k points.length) rng).1
      (assigned_assignClusters points hk' hc)
    simp only [hm]
    exact ⟨hl, fun a h => lt_of_lt_of_le (ha a h) (min_le_left _ _)⟩

omit [Floating F] in
theorem clusters_flatten_perm {entries : List (ℕ × List F)} {assignments : List ℕ} {k : ℕ}
    (hl : assignments.length = entries.length) (ha : ∀ a ∈ assignments, a < k) :
    (clusters entries assignments k).flatten.Perm entries := by
  have hg : (clusters entries assignments k).flatten =
      ((List.range k).flatMap (Ranking.group Prod.snd (entries.zip assignments))).map
        Prod.fst := by
    rw [clusters, List.flatten_filter_not_isEmpty, List.map_flatMap, List.flatMap_def]
  have hz : ∀ ea ∈ entries.zip assignments, ea.2 < k :=
    fun ea h => ha _ (List.of_mem_zip h).2
  rw [hg]
  refine ((Ranking.flatMap_group_perm Prod.snd hz).map Prod.fst).trans (List.Perm.of_eq ?_)
  rw [List.map_fst_zip hl.ge]

end Assignments

end Ennbo
