import Ennbo.Acquisition.Skyline
import Ennbo.Geometry.Staircase

/-! # Hypervolume in the plane

Points above a reference point in both values are sorted by the first value,
descending. A sweep over them adds up one slab for each point, as high as the
greatest second value so far. The sum is the area that the points dominate.
-/

namespace Ennbo

/-- A matrix always has two dimensions, so that their number is not an error here. -/
inductive HypervolumeError where
  | invalidColumnCount (shape : List ℕ)
  | invalidRefPoint (len : ℕ)
  deriving DecidableEq

section Sweep

variable {D : Type} [Floating D] [Analysis D]

def FirstDescending (a b : D × D) : Prop := totalCmp b.1 a.1 ≠ .gt

instance (a b : D × D) : Decidable (FirstDescending a b) :=
  inferInstanceAs (Decidable (_ ≠ _))

/-- The points above the reference in both values. -/
def dominating (ref0 ref1 : D) (rows : List (List D)) : List (D × D) :=
  (rows.map fun row => (row.getD 0 0, row.getD 1 0)).filter fun p =>
    ltB ref0 p.1 && ltB ref1 p.2

def nextFirst (ref0 : D) (points : List (D × D)) : D := (points.head?.map Prod.fst).getD ref0

/-- `best` is the greatest second value so far, and `hv` the area. -/
def walkFrontier (ref0 ref1 best hv : D) : List (D × D) → D
  | [] => hv
  | (x0, y1) :: points =>
    let best := if ltB best y1 then y1 else best
    walkFrontier ref0 ref1 best (hv + (x0 - nextFirst ref0 points) * (best - ref1)) points

def hypervolume2dMax (y : Array2 D) (refPoint : List D) : Except HypervolumeError D :=
  if y.ncols ≠ 2 then throw (.invalidColumnCount y.shape)
  else if refPoint.length ≠ 2 then throw (.invalidRefPoint refPoint.length)
  else if y.nrows = 0 then pure 0
  else
    let ref0 := refPoint.getD 0 0
    let ref1 := refPoint.getD 1 0
    let points := dominating ref0 ref1 y.rows
    if points.isEmpty then pure 0
    else pure (walkFrontier ref0 ref1 ref1 0 (points.insertionSort FirstDescending))

/-- Points as the rows of a matrix. -/
def Array2.ofPoints (points : List (D × D)) : Array2 D where
  ncols := 2
  rows := points.map fun p => [p.1, p.2]
  width := by
    intro row hrow
    obtain ⟨p, -, rfl⟩ := List.mem_map.mp hrow
    rfl

end Sweep

section Area

open MeasureTheory Staircase

def corner (p : ℚ × ℚ) : ℝ × ℝ := (p.1, p.2)

def above (ref : ℚ × ℚ) (points : List (ℚ × ℚ)) : List (ℚ × ℚ) :=
  points.filter fun p => ref.1 < p.1 ∧ ref.2 < p.2

def dominatedRegion (ref : ℚ × ℚ) (points : List (ℚ × ℚ)) : Set (ℝ × ℝ) :=
  region (corner ref) ((above ref points).map corner)

def sweepArea (ref : ℚ × ℚ) (points : List (ℚ × ℚ)) : ℚ :=
  walkFrontier ref.1 ref.2 ref.2 0 ((above ref points).insertionSort FirstDescending)

theorem dominating_ofPoints (ref : ℚ × ℚ) (points : List (ℚ × ℚ)) :
    dominating ref.1 ref.2 (Array2.ofPoints points).rows = above ref points := by
  have hrows : (points.map fun p => [p.1, p.2]).map (fun row => (row.getD 0 0, row.getD 1 0)) =
      points := by
    rw [List.map_map]
    exact List.map_id _
  unfold dominating above Array2.ofPoints
  rw [hrows]
  apply List.filter_congr
  intro p _
  simp [ltB_exact]

theorem hypervolume2dMax_ofPoints (ref : ℚ × ℚ) (points : List (ℚ × ℚ)) :
    hypervolume2dMax (.ofPoints points) [ref.1, ref.2] = .ok (sweepArea ref points) := by
  have hdominating := dominating_ofPoints ref points
  unfold hypervolume2dMax sweepArea
  rw [if_neg (by simp [Array2.ofPoints]), if_neg (by simp)]
  split
  next h0 =>
    have hnil : points = [] := by simpa [Array2.nrows, Array2.ofPoints] using h0
    subst hnil
    rfl
  next =>
    change (if (dominating ref.1 ref.2 _).isEmpty = true then _ else
      pure (walkFrontier ref.1 ref.2 ref.2 0 ((dominating ref.1 ref.2 _).insertionSort _))) = _
    rw [hdominating]
    split
    next hempty =>
      rw [List.isEmpty_iff.mp hempty]
      rfl
    next => rfl

theorem firstDescending_iff {a b : ℚ × ℚ} : FirstDescending a b ↔ b.1 ≤ a.1 := by
  unfold FirstDescending
  rw [ExactOrder.totalCmp_eq, Ne, compare_gt_iff_gt, not_lt]

instance : Std.Total (FirstDescending (D := ℚ)) where
  total a b := by
    rw [firstDescending_iff, firstDescending_iff]
    exact le_total b.1 a.1

instance : IsTrans (ℚ × ℚ) FirstDescending where
  trans a b c := by
    simp only [firstDescending_iff]
    exact fun h h' => h'.trans h

theorem walkFrontier_eq (ref0 ref1 best hv : ℚ) (points : List (ℚ × ℚ)) :
    walkFrontier ref0 ref1 best hv points = hv + walkFrontier ref0 ref1 best 0 points := by
  induction points generalizing best hv with
  | nil => exact (add_zero hv).symm
  | cons p points ih =>
    unfold walkFrontier
    dsimp only
    rw [ih, ih _ (0 + _)]
    ring

theorem greater_eq_max (a b : ℚ) : (if ltB a b then b else a) = max a b := by
  rw [ltB_exact]
  by_cases h : a < b
  · simp [h, h.le]
  · simp [h, not_lt.mp h]

theorem region_above_subset (ref : ℚ × ℚ) {q : ℚ × ℚ} {points : List (ℚ × ℚ)}
    (hsorted : (q :: points).Pairwise FirstDescending) :
    region (corner ref) ((q :: points).map corner) ⊆ Set.Iic (q.1 : ℝ) ×ˢ Set.univ := by
  apply region_subset
  intro z hz
  obtain ⟨p, hp, rfl⟩ := List.mem_map.mp hz
  rcases List.mem_cons.mp hp with rfl | hp
  · exact le_rfl
  · exact Rat.cast_le.mpr (firstDescending_iff.mp ((List.pairwise_cons.mp hsorted).1 p hp))

theorem region_first (ref : ℚ × ℚ) (best : ℚ) (p : ℚ × ℚ) (points : List (ℚ × ℚ)) :
    rectangle (corner ref) (p.1, best) ∪ region (corner ref) ((p :: points).map corner) =
      rectangle (corner ref) (p.1, (max best p.2 : ℚ)) ∪
        region (corner ref) (points.map corner) := by
  rw [List.map_cons, region_cons, ← Set.union_assoc, Rat.cast_max]
  exact congrArg (· ∪ _) (rectangle_union (corner ref) p.1 best p.2)

/-- The slabs over a sorted list make up the rectangle in front of it and the region below it. -/
theorem volume_walkFrontier (ref : ℚ × ℚ) {best : ℚ} (hbest : ref.2 ≤ best) {p : ℚ × ℚ}
    {points : List (ℚ × ℚ)} (hsorted : (p :: points).Pairwise FirstDescending)
    (habove : ∀ q ∈ p :: points, ref.1 < q.1) :
    0 ≤ walkFrontier ref.1 ref.2 best 0 (p :: points) ∧
      volume (rectangle (corner ref) (p.1, best) ∪
        region (corner ref) ((p :: points).map corner)) =
          ENNReal.ofReal (walkFrontier ref.1 ref.2 best 0 (p :: points) : ℚ) := by
  rw [region_first]
  induction points generalizing best p with
  | nil =>
    have hp : ref.1 ≤ p.1 := (habove p List.mem_cons_self).le
    have hwalk : walkFrontier ref.1 ref.2 best 0 [p] =
        (p.1 - ref.1) * (max best p.2 - ref.2) := by
      rw [walkFrontier, greater_eq_max, walkFrontier_eq, zero_add]
      exact add_zero _
    have hheight : ref.2 ≤ max best p.2 := hbest.trans (le_max_left _ _)
    rw [hwalk]
    constructor
    · exact mul_nonneg (sub_nonneg.mpr hp) (sub_nonneg.mpr hheight)
    · rw [List.map_nil, region_nil, Set.union_empty,
        volume_rectangle (corner ref) (Rat.cast_le.mpr hp), Rat.cast_mul, Rat.cast_sub,
        Rat.cast_sub]
      rfl
  | cons q points ih =>
    obtain ⟨hpq, hsorted'⟩ := List.pairwise_cons.mp hsorted
    have hqp : q.1 ≤ p.1 := firstDescending_iff.mp (hpq q List.mem_cons_self)
    have hq : ref.1 ≤ q.1 := (habove q (by simp)).le
    have hheight : ref.2 ≤ max best p.2 := hbest.trans (le_max_left _ _)
    have hslab : 0 ≤ (p.1 - q.1) * (max best p.2 - ref.2) :=
      mul_nonneg (sub_nonneg.mpr hqp) (sub_nonneg.mpr hheight)
    have hwalk : walkFrontier ref.1 ref.2 best 0 (p :: q :: points) =
        (p.1 - q.1) * (max best p.2 - ref.2) +
          walkFrontier ref.1 ref.2 (max best p.2) 0 (q :: points) := by
      rw [walkFrontier, greater_eq_max, walkFrontier_eq, zero_add]
      rfl
    obtain ⟨hrest, hvolume⟩ := ih hheight hsorted' fun z hz => habove z (List.mem_cons_of_mem _ hz)
    rw [hwalk]
    constructor
    · exact add_nonneg hslab hrest
    · rw [volume_slab (Rat.cast_le.mpr hq) (Rat.cast_le.mpr hqp)
        (region_above_subset ref hsorted'), region_first, hvolume, Rat.cast_add,
        ENNReal.ofReal_add (Rat.cast_nonneg.mpr hslab) (Rat.cast_nonneg.mpr hrest), Rat.cast_mul,
        Rat.cast_sub, Rat.cast_sub]
      rfl

theorem mem_above {ref p : ℚ × ℚ} {points : List (ℚ × ℚ)} :
    p ∈ above ref points ↔ p ∈ points ∧ ref.1 < p.1 ∧ ref.2 < p.2 := by
  simp [above]

/-- The sum of the slabs is the area that the points dominate. -/
theorem volume_dominatedRegion (ref : ℚ × ℚ) (points : List (ℚ × ℚ)) :
    0 ≤ sweepArea ref points ∧
      volume (dominatedRegion ref points) = ENNReal.ofReal (sweepArea ref points : ℚ) := by
  have hperm := List.perm_insertionSort FirstDescending (above ref points)
  have hsorted := List.pairwise_insertionSort FirstDescending (above ref points)
  have hregion : dominatedRegion ref points =
      region (corner ref) (((above ref points).insertionSort FirstDescending).map corner) := by
    ext z
    simp only [dominatedRegion, mem_region, List.mem_map, hperm.mem_iff]
  have hmem : ∀ p ∈ (above ref points).insertionSort FirstDescending,
      ref.1 < p.1 ∧ ref.2 < p.2 := fun p hp => (mem_above.mp (hperm.mem_iff.mp hp)).2
  rw [hregion, sweepArea]
  cases hsort : (above ref points).insertionSort FirstDescending with
  | nil => simp [walkFrontier]
  | cons p sorted =>
    rw [hsort] at hsorted hmem
    obtain ⟨hnonneg, hvolume⟩ := volume_walkFrontier ref le_rfl hsorted fun q hq => (hmem q hq).1
    refine ⟨hnonneg, ?_⟩
    -- in front of the list there is a rectangle of height zero
    have hflat : rectangle (corner ref) ((p.1 : ℝ), (ref.2 : ℝ)) ⊆
        region (corner ref) ((p :: sorted).map corner) := by
      have hle : ((p.1 : ℝ), (ref.2 : ℝ)) ≤ corner p :=
        ⟨le_rfl, Rat.cast_le.mpr (hmem p List.mem_cons_self).2.le⟩
      rw [List.map_cons, region_cons]
      exact (rectangle_mono hle).trans Set.subset_union_left
    rwa [Set.union_eq_self_of_subset_left hflat] at hvolume

theorem sweepArea_mono (ref : ℚ × ℚ) {points points' : List (ℚ × ℚ)}
    (h : ∀ p ∈ points, ∃ q ∈ points', p ≤ q) : sweepArea ref points ≤ sweepArea ref points' := by
  have hsubset : dominatedRegion ref points ⊆ dominatedRegion ref points' := by
    apply region_mono
    intro z hz
    obtain ⟨p, hp, rfl⟩ := List.mem_map.mp hz
    obtain ⟨hp, h0, h1⟩ := mem_above.mp hp
    obtain ⟨q, hq, hpq⟩ := h p hp
    exact ⟨corner q, List.mem_map_of_mem
      (mem_above.mpr ⟨hq, h0.trans_le hpq.1, h1.trans_le hpq.2⟩),
      Rat.cast_le.mpr hpq.1, Rat.cast_le.mpr hpq.2⟩
  obtain ⟨-, hvolume⟩ := volume_dominatedRegion ref points
  obtain ⟨hnonneg, hvolume'⟩ := volume_dominatedRegion ref points'
  have hle := measure_mono (μ := volume) hsubset
  rw [hvolume, hvolume', ENNReal.ofReal_le_ofReal_iff (Rat.cast_nonneg.mpr hnonneg)] at hle
  exact Rat.cast_le.mp hle

/--
The hypervolume is the area of the dominated region. It does not depend on the order of the points,
points that others dominate add nothing, and no point takes anything away.
-/
theorem hypervolume2dMax_area (ref : ℚ × ℚ) : ∃ area : List (ℚ × ℚ) → ℚ, ∀ points,
    hypervolume2dMax (.ofPoints points) [ref.1, ref.2] = .ok (area points) ∧
      0 ≤ area points ∧
      volume (dominatedRegion ref points) = ENNReal.ofReal (area points : ℚ) ∧
      (∀ points', points.Perm points' → area points' = area points) ∧
      (∀ p, (∃ q ∈ points, p ≤ q) → area (p :: points) = area points) ∧
      ∀ p, area points ≤ area (p :: points) := by
  refine ⟨sweepArea ref, fun points => ?_⟩
  have hself : ∀ p ∈ points, ∃ q ∈ points, p ≤ q := fun p hp => ⟨p, hp, le_rfl⟩
  have hcons : ∀ p, sweepArea ref points ≤ sweepArea ref (p :: points) := fun p =>
    sweepArea_mono ref fun q hq => ⟨q, List.mem_cons_of_mem _ hq, le_rfl⟩
  obtain ⟨hnonneg, hvolume⟩ := volume_dominatedRegion ref points
  refine ⟨hypervolume2dMax_ofPoints ref points, hnonneg, hvolume, ?_, ?_, hcons⟩
  · intro points' hperm
    apply le_antisymm
    · exact sweepArea_mono ref fun q hq => ⟨q, hperm.mem_iff.mpr hq, le_rfl⟩
    · exact sweepArea_mono ref fun q hq => ⟨q, hperm.mem_iff.mp hq, le_rfl⟩
  · intro p hp
    apply le_antisymm
    · exact sweepArea_mono ref (List.forall_mem_cons.mpr ⟨hp, hself⟩)
    · exact hcons p

example : hypervolume2dMax (.ofPoints [((1 : ℚ), 1 / 2), (1 / 2, 1), (1 / 2, 1 / 2)]) [0, 0] =
    .ok (3 / 4) := by decide +kernel

end Area

end Ennbo
