import Mathlib.Algebra.BigOperators.Group.Finset.Basic
import Mathlib.Algebra.BigOperators.Group.List.Basic
import Mathlib.Algebra.BigOperators.Ring.Finset
import Mathlib.Algebra.Order.BigOperators.Ring.Finset
import Mathlib.Algebra.Order.Field.Basic

/-! # Totals of keyed entries

The total of a key is the sum of the weights of its entries. What is linear in the
weights only depends on the totals, and so does the squared distance of two lists.
-/

namespace Ennbo.Totals

open Finset

variable {α κ K : Type} [DecidableEq κ] (key : α → κ) (weight : α → K) {l m : List α}

section Sums

variable [CommRing K]

def total (l : List α) (k : κ) : K := ((l.filter fun a => key a = k).map weight).sum

@[simp] theorem total_nil (k : κ) : total key weight [] k = 0 := rfl

@[simp] theorem total_cons (a : α) (k : κ) :
    total key weight (a :: l) k = (if key a = k then weight a else 0) + total key weight l k := by
  unfold total
  by_cases h : key a = k
  · simp [h]
  · simp [h]

theorem total_eq_zero {k : κ} (h : ∀ a ∈ l, key a ≠ k) : total key weight l k = 0 := by
  induction l with
  | nil => rfl
  | cons a l ih =>
    rw [List.forall_mem_cons] at h
    rw [total_cons, if_neg h.1, ih h.2, zero_add]

theorem total_eq_of_not_mem {S : Finset κ} (hS : ∀ a ∈ l ++ m, key a ∈ S) {k : κ} (hk : k ∉ S) :
    total key weight l k = total key weight m k := by
  have hnot : ∀ a ∈ l ++ m, key a ≠ k := by
    rintro a ha rfl
    exact hk (hS a ha)
  rw [total_eq_zero key weight fun a ha => hnot a (List.mem_append_left m ha),
    total_eq_zero key weight fun a ha => hnot a (List.mem_append_right l ha)]

theorem total_perm (h : l.Perm m) : total key weight l = total key weight m := by
  ext k
  exact ((h.filter _).map weight).sum_eq

theorem sum_map_mul (f : κ → K) {S : Finset κ} (h : ∀ a ∈ l, key a ∈ S) :
    (l.map fun a => weight a * f (key a)).sum = ∑ k ∈ S, total key weight l k * f k := by
  induction l with
  | nil => simp
  | cons a l ih =>
    rw [List.forall_mem_cons] at h
    have hkey : ∑ k ∈ S, (if key a = k then weight a else 0) * f k = weight a * f (key a) := by
      simp [h.1]
    simp only [total_cons, add_mul, Finset.sum_add_distrib]
    rw [List.map_cons, List.sum_cons, ih h.2, hkey]

theorem sum_map_mul_congr (f : κ → K)
    (h : ∀ k, total key weight l k = total key weight m k) :
    (l.map fun a => weight a * f (key a)).sum = (m.map fun a => weight a * f (key a)).sum := by
  let S := ((l ++ m).map key).toFinset
  have hmem : ∀ a ∈ l ++ m, key a ∈ S := fun a ha =>
    List.mem_toFinset.mpr (List.mem_map_of_mem ha)
  rw [sum_map_mul key weight f fun a ha => hmem a (List.mem_append_left m ha),
    sum_map_mul key weight f fun a ha => hmem a (List.mem_append_right l ha)]
  simp only [h]

def distance (S : Finset κ) (l m : List α) : K :=
  ∑ k ∈ S, (total key weight l k - total key weight m k) ^ 2

theorem distance_eq {S T : Finset κ} (hS : ∀ a ∈ l ++ m, key a ∈ S)
    (hT : ∀ a ∈ l ++ m, key a ∈ T) :
    distance key weight S l m = distance key weight T l m := by
  have hunion : ∀ {S T : Finset κ}, (∀ a ∈ l ++ m, key a ∈ S) →
      distance key weight S l m = distance key weight (S ∪ T) l m := by
    intro S T hS
    apply Finset.sum_subset Finset.subset_union_left
    intro k _ hk
    rw [total_eq_of_not_mem key weight hS hk, sub_self]
    exact zero_pow two_ne_zero
  rw [hunion hS, hunion hT, Finset.union_comm]

theorem distance_comm (S : Finset κ) : distance key weight S l m = distance key weight S m l := by
  apply Finset.sum_congr rfl
  intro k _
  exact sub_sq_comm _ _

theorem distance_congr (S : Finset κ) {l' m' : List α}
    (hl : ∀ k, total key weight l k = total key weight l' k)
    (hm : ∀ k, total key weight m k = total key weight m' k) :
    distance key weight S l m = distance key weight S l' m' := by
  unfold distance
  simp only [hl, hm]

end Sums

section Ordered

variable [CommRing K] [LinearOrder K] [IsStrictOrderedRing K]

theorem distance_eq_zero_iff {S : Finset κ} (hS : ∀ a ∈ l ++ m, key a ∈ S) :
    distance key weight S l m = 0 ↔ ∀ k, total key weight l k = total key weight m k := by
  unfold distance
  rw [Finset.sum_eq_zero_iff_of_nonneg fun k _ => sq_nonneg _]
  simp only [sq_eq_zero_iff, sub_eq_zero]
  constructor
  · intro h k
    by_cases hk : k ∈ S
    · exact h k hk
    · exact total_eq_of_not_mem key weight hS hk
  · intro h k _
    exact h k

end Ordered

end Ennbo.Totals
