import Mathlib.Algebra.BigOperators.Group.List.Basic
import Mathlib.Algebra.CharZero.Defs
import Mathlib.Algebra.Order.BigOperators.Group.List
import Mathlib.Algebra.Order.Field.Basic
import Mathlib.Tactic.LinearCombination
import Mathlib.Tactic.Ring

/-! # Mean and variance of a list

The mean and the sum of squared deviations of a list, how both change when one
value is added at the end, and what they are of values that are put into bins.
-/

namespace Ennbo

variable {K : Type*} [Field K]

def mean (values : List K) : K := values.sum / values.length

def deviations (values : List K) : K :=
  (values.map fun v => (v - mean values) * (v - mean values)).sum

def sampleVariance (values : List K) : Option K :=
  if 1 < values.length then some (deviations values / ((values.length - 1 : ℕ) : K)) else none

theorem sum_deviations (values : List K) (c : K) :
    (values.map fun v => (v - c) * (v - c)).sum =
      (values.map fun v => v * v).sum - 2 * c * values.sum + values.length * (c * c) := by
  induction values with
  | nil => simp
  | cons v values ih =>
    simp only [List.map_cons, List.sum_cons, List.length_cons, ih, Nat.cast_add, Nat.cast_one]
    ring

variable [CharZero K]

theorem length_mul_mean (values : List K) : (values.length : K) * mean values = values.sum := by
  cases values with
  | nil => simp [mean]
  | cons v values =>
    have hne : ((v :: values).length : K) ≠ 0 := Nat.cast_ne_zero.mpr (by simp)
    rw [mean, mul_div_cancel₀ _ hne]

theorem mean_append_singleton (values : List K) (y : K) :
    mean (values ++ [y]) = mean values + (y - mean values) / ((values.length + 1 : ℕ) : K) := by
  have hne : ((values.length + 1 : ℕ) : K) ≠ 0 := Nat.cast_ne_zero.mpr (Nat.succ_ne_zero _)
  have hsum := length_mul_mean values
  rw [mean, List.sum_append, List.sum_singleton, List.length_append, List.length_singleton,
    div_eq_iff hne, add_mul, div_mul_cancel₀ _ hne, ← hsum]
  push_cast
  ring

theorem deviations_append_singleton (values : List K) (y : K) :
    deviations (values ++ [y]) =
      deviations values + (y - mean values) * (y - mean (values ++ [y])) := by
  have hsum := length_mul_mean values
  have hsum' := length_mul_mean (values ++ [y])
  rw [deviations, deviations, sum_deviations, sum_deviations]
  simp only [List.map_append, List.map_cons, List.map_nil, List.sum_append, List.sum_singleton,
    List.length_append, List.length_singleton, Nat.cast_add, Nat.cast_one] at hsum' ⊢
  linear_combination (mean (values ++ [y]) - mean values) * hsum +
    (mean (values ++ [y]) - mean values) * hsum'

theorem sum_deviations_eq (values : List K) (c : K) :
    (values.map fun v => (v - c) * (v - c)).sum =
      deviations values + values.length * ((mean values - c) * (mean values - c)) := by
  have hsum := length_mul_mean values
  rw [deviations, sum_deviations, sum_deviations]
  linear_combination 2 * (c - mean values) * hsum

theorem sum_squares_eq (values : List K) :
    (values.map fun v => v * v).sum =
      deviations values + values.length * (mean values * mean values) := by
  simpa using sum_deviations_eq values 0

section Bins

variable {bins : ℕ → ℕ} {numBins : ℕ}

/-- What is summed over the bins is summed over all. -/
theorem sum_bins {M : Type*} [AddCommMonoid M] (h : ℕ → M) {indices : List ℕ}
    (hbins : ∀ i ∈ indices, bins i < numBins) :
    ((List.range numBins).map fun b =>
      ((indices.filter fun i => bins i = b).map h).sum).sum = (indices.map h).sum := by
  have hsingle : ∀ (k b : ℕ) (v : M),
      ((List.range k).map fun b' => if b = b' then v else 0).sum = if b < k then v else 0 := by
    intro k b v
    induction k with
    | zero => simp
    | succ k ih =>
      rw [List.range_succ, List.map_append, List.sum_append, ih]
      rcases lt_trichotomy b k with hlt | rfl | hgt
      · simp [hlt, hlt.ne, hlt.trans (Nat.lt_succ_self k)]
      · simp
      · simp [hgt.not_gt, hgt.ne', Nat.not_lt.mpr (Nat.succ_le_of_lt hgt)]
  induction indices with
  | nil => simp
  | cons i indices ih =>
    rw [List.forall_mem_cons] at hbins
    have hcons : ∀ b, (((i :: indices).filter fun i => bins i = b).map h).sum =
        (if bins i = b then h i else 0) + ((indices.filter fun i => bins i = b).map h).sum := by
      intro b
      by_cases hb : bins i = b <;> simp [hb]
    simp only [hcons, List.sum_map_add, hsingle, if_pos hbins.1, ih hbins.2, List.map_cons,
      List.sum_cons]

theorem deviations_bins (values : ℕ → K) {indices : List ℕ}
    (hbins : ∀ i ∈ indices, bins i < numBins) :
    ((List.range numBins).map fun b =>
        deviations ((indices.filter fun i => bins i = b).map values)).sum +
      ((List.range numBins).map fun b =>
        let bin := (indices.filter fun i => bins i = b).map values
        (bin.length : K) * ((mean bin - mean (indices.map values)) *
          (mean bin - mean (indices.map values)))).sum =
      deviations (indices.map values) := by
  have hsum := sum_bins (fun i => (values i - mean (indices.map values)) *
    (values i - mean (indices.map values))) hbins
  rw [← List.sum_map_add]
  simp only [← sum_deviations_eq]
  rw [deviations]
  simpa only [List.map_map, Function.comp_def] using hsum

end Bins

section Order

variable [LinearOrder K] [IsStrictOrderedRing K]

omit [CharZero K] in
theorem deviations_nonneg (values : List K) : 0 ≤ deviations values := by
  refine List.sum_nonneg fun d hd => ?_
  obtain ⟨v, -, rfl⟩ := List.mem_map.mp hd
  exact mul_self_nonneg _

theorem mean_squares_sub (values : List K) (hne : values ≠ []) :
    max ((values.map fun v => v * v).sum / values.length - mean values * mean values) 0 =
      deviations values / values.length := by
  have hpos : (0 : K) < values.length := Nat.cast_pos.mpr (List.length_pos_of_ne_nil hne)
  rw [sum_squares_eq, add_div, mul_div_cancel_left₀ _ hpos.ne', add_sub_cancel_right,
    max_eq_left (div_nonneg (deviations_nonneg values) hpos.le)]

end Order

end Ennbo
