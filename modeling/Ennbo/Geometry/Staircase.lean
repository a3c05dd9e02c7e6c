import Mathlib.MeasureTheory.Measure.Lebesgue.Basic

/-! # Unions of rectangles with a common corner

The region below a list of points is the union of the rectangles from a corner
to each of them. Cut off at the first coordinate of a point that none of the
others passes, it loses a slab as high as the rectangles that reach beyond.
-/

namespace Ennbo.Staircase

open MeasureTheory Set

variable {r p q : ℝ × ℝ} {points points' : List (ℝ × ℝ)}

/-- The rectangle from the corner `r` to `p`. -/
def rectangle (r p : ℝ × ℝ) : Set (ℝ × ℝ) := Icc r.1 p.1 ×ˢ Icc r.2 p.2

def region (r : ℝ × ℝ) (points : List (ℝ × ℝ)) : Set (ℝ × ℝ) := ⋃ p ∈ points, rectangle r p

theorem mem_region : q ∈ region r points ↔ ∃ p ∈ points, q ∈ rectangle r p := by
  simp [region]

@[simp] theorem region_nil : region r [] = ∅ := by simp [region]

@[simp] theorem region_cons : region r (p :: points) = rectangle r p ∪ region r points := by
  ext q
  simp [mem_region]

theorem rectangle_mono (h : p ≤ q) : rectangle r p ⊆ rectangle r q :=
  prod_mono (Icc_subset_Icc_right h.1) (Icc_subset_Icc_right h.2)

theorem region_mono (h : ∀ p ∈ points, ∃ q ∈ points', p ≤ q) :
    region r points ⊆ region r points' := by
  intro z hz
  obtain ⟨p, hp, hz⟩ := mem_region.mp hz
  obtain ⟨q, hq, hpq⟩ := h p hp
  exact mem_region.mpr ⟨q, hq, rectangle_mono hpq hz⟩

theorem region_subset {x : ℝ} (h : ∀ p ∈ points, p.1 ≤ x) :
    region r points ⊆ Iic x ×ˢ univ := by
  intro z hz
  obtain ⟨p, hp, hz⟩ := mem_region.mp hz
  exact ⟨hz.1.2.trans (h p hp), trivial⟩

theorem volume_rectangle (r : ℝ × ℝ) {p : ℝ × ℝ} (h : r.1 ≤ p.1) :
    volume (rectangle r p) = ENNReal.ofReal ((p.1 - r.1) * (p.2 - r.2)) := by
  rw [rectangle, Measure.volume_eq_prod, Measure.prod_prod, Real.volume_Icc, Real.volume_Icc,
    ENNReal.ofReal_mul (sub_nonneg.mpr h)]

theorem rectangle_union (r : ℝ × ℝ) (x b c : ℝ) :
    rectangle r (x, b) ∪ rectangle r (x, c) = rectangle r (x, max b c) := by
  unfold rectangle
  rw [← prod_union]
  congr 1
  ext y
  simp only [mem_union, mem_Icc, le_max_iff]
  tauto

theorem volume_slab {s : Set (ℝ × ℝ)} {x x' b : ℝ} (hx' : r.1 ≤ x') (hx : x' ≤ x)
    (hs : s ⊆ Iic x' ×ˢ univ) :
    volume (rectangle r (x, b) ∪ s) =
      ENNReal.ofReal ((x - x') * (b - r.2)) + volume (rectangle r (x', b) ∪ s) := by
  have hsplit : rectangle r (x, b) ∪ s =
      Ioc x' x ×ˢ Icc r.2 b ∪ (rectangle r (x', b) ∪ s) := by
    rw [← union_assoc, rectangle, rectangle, ← union_prod, union_comm (Ioc x' x),
      Icc_union_Ioc_eq_Icc hx' hx]
  have hdisjoint : Disjoint (Ioc x' x ×ˢ Icc r.2 b) (rectangle r (x', b) ∪ s) := by
    rw [disjoint_left]
    rintro z ⟨hz, -⟩ (hz' | hz')
    · exact absurd hz'.1.2 (not_le.mpr hz.1)
    · exact absurd (hs hz').1 (not_le.mpr hz.1)
  rw [hsplit, measure_union' hdisjoint (measurableSet_Ioc.prod measurableSet_Icc),
    Measure.volume_eq_prod, Measure.prod_prod, Real.volume_Ioc, Real.volume_Icc,
    ENNReal.ofReal_mul (sub_nonneg.mpr hx)]

end Ennbo.Staircase
