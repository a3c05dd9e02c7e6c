import Ennbo.Strategy.Candidates
import Mathlib.Algebra.BigOperators.Group.List.Basic
import Mathlib.Algebra.BigOperators.Ring.List
import Mathlib.Tactic.FieldSimp
import Mathlib.Tactic.Linarith

/-! # Coordinates that are drawn anew

The draw that picks a coordinate is cut into intervals, one for each coordinate,
whose widths are the shares of the lengthscales. A coordinate without a
lengthscale is never picked.
-/

namespace Ennbo

variable {K : Type} [ExactArith K] {lengthscales : Option (List K)} {probs : List K} {n : ℕ}

def cut (probs : List K) (j : ℕ) : K := (probs.take j).sum

@[simp] theorem cut_zero (probs : List K) : cut probs 0 = 0 := by simp [cut]

theorem cut_succ (probs : List K) (j : ℕ) : cut probs (j + 1) = cut probs j + probs.getD j 0 := by
  unfold cut
  by_cases hj : j < probs.length
  · rw [List.take_succ_eq_append_getElem hj, List.sum_append, List.sum_singleton,
      List.getD_eq_getElem _ _ hj]
  · have hle : probs.length ≤ j := by omega
    rw [List.take_of_length_le hle, List.take_of_length_le (by omega),
      List.getD_eq_default _ _ hle, add_zero]

theorem cut_length (probs : List K) : cut probs probs.length = probs.sum := by
  rw [cut, List.take_length]

theorem cut_mono (hnonneg : ∀ p ∈ probs, 0 ≤ p) : Monotone (cut probs) := by
  apply monotone_nat_of_le_succ
  intro j
  rw [cut_succ]
  apply le_add_of_nonneg_right
  by_cases hj : j < probs.length
  · rw [List.getD_eq_getElem _ _ hj]
    exact hnonneg _ (List.getElem_mem hj)
  · rw [List.getD_eq_default _ _ (by omega)]

def Picked (cuts : ℕ → K) (r : K) (j : ℕ) : Prop :=
  (cuts j < r ∨ r = 0 ∧ j = 0) ∧ r ≤ cuts (j + 1)

/-- The bisection finds the interval of a draw. -/
theorem raaspDimFromCdf_iff (hlen : probs.length = n) (hnonneg : ∀ p ∈ probs, 0 ≤ p)
    (hsum : probs.sum = 1) {r : K} (hpos : 0 ≤ r) (hle : r ≤ 1) {j : ℕ} (hj : j < n) :
    raaspDimFromCdf (raaspCdf probs n) r n = j ↔ Picked (cut probs) r j := by
  have hcdf : ∀ i < n, (raaspCdf probs n).getD i 0 = cut probs (i + 1) :=
    fun i hi => getD_raaspCdf probs hi
  have hmono := cut_mono hnonneg
  have hsorted : ∀ i k, i ≤ k → k < n →
      (raaspCdf probs n).getD i 0 ≤ (raaspCdf probs n).getD k 0 := by
    intro i k hik hk
    rw [hcdf i (by omega), hcdf k hk]
    exact hmono (by omega)
  obtain ⟨hlt, hbefore, hlast⟩ := raaspDimFromCdf_spec r hsorted (by omega)
  generalize raaspDimFromCdf (raaspCdf probs n) r n = d at hlt hbefore hlast
  have hupper : r ≤ cut probs (d + 1) := by
    rcases hlast with hd | hd
    · rwa [hd, ← hlen, cut_length, hsum]
    · rwa [hcdf d hlt] at hd
  have hlower : cut probs d < r ∨ r = 0 ∧ d = 0 := by
    cases d with
    | zero =>
      rcases hpos.eq_or_lt with hzero | hpos
      · exact .inr ⟨hzero.symm, rfl⟩
      · exact .inl (by simpa using hpos)
    | succ d => exact .inl (hcdf d (by omega) ▸ hbefore d (by omega))
  constructor
  · rintro rfl
    exact ⟨hlower, hupper⟩
  · rintro ⟨hlow, hup⟩
    -- an interval further on starts above the draw
    have hnot : ∀ {i k : ℕ}, i < k → r ≤ cut probs (i + 1) →
        ¬(cut probs k < r ∨ r = 0 ∧ k = 0) := by
      rintro i k hik hi (hk | ⟨-, rfl⟩)
      · exact absurd (hi.trans (hmono hik)) (not_le.mpr hk)
      · exact absurd hik (Nat.not_lt_zero i)
    rcases lt_trichotomy d j with h | h | h
    · exact absurd hlow (hnot h hupper)
    · exact h
    · exact absurd hlower (hnot h hup)

section Shares

theorem raaspProbs_some {ls : List K} (hsum : 0 < ls.sum) :
    raaspProbs (some ls) n = ls.map fun v => v / ls.sum := by
  unfold raaspProbs
  dsimp only
  rw [← List.sum_eq_foldl, if_pos (by simpa using hsum)]

theorem raaspProbs_none : raaspProbs (none : Option (List K)) n = List.replicate n (1 / (n : K)) :=
  rfl

/-- The shares are not negative and make up the whole. -/
theorem raaspProbs_shares (hls : Sized n lengthscales)
    (hnonneg : ∀ ls ∈ lengthscales, ∀ v ∈ ls, 0 ≤ v) (hn : 0 < n) :
    (∀ p ∈ raaspProbs lengthscales n, 0 ≤ p) ∧ (raaspProbs lengthscales n).sum = 1 := by
  have heven : (∀ p ∈ List.replicate n (1 / (n : K)), 0 ≤ p) ∧
      (List.replicate n (1 / (n : K))).sum = 1 := by
    have hne : (n : K) ≠ 0 := Nat.cast_ne_zero.mpr hn.ne'
    refine ⟨fun p hp => ?_, ?_⟩
    · rw [List.eq_of_mem_replicate hp]
      positivity
    · rw [List.sum_replicate, nsmul_eq_mul]
      exact mul_one_div_cancel hne
  cases lengthscales with
  | none => exact heven
  | some ls =>
    by_cases hsum : 0 < ls.sum
    · rw [raaspProbs_some hsum]
      refine ⟨fun p hp => ?_, ?_⟩
      · obtain ⟨v, hv, rfl⟩ := List.mem_map.mp hp
        exact div_nonneg (hnonneg ls rfl v hv) hsum.le
      · simp only [div_eq_mul_inv]
        rw [List.sum_map_mul_right, List.map_id', mul_inv_cancel₀ hsum.ne']
    · have heq : raaspProbs (some ls) n = List.replicate n (1 / (n : K)) := by
        unfold raaspProbs
        dsimp only
        rw [← List.sum_eq_foldl, if_neg (by simpa using hsum)]
      rwa [heq]

end Shares

/-- What a draw picks, and how much of the draws picks each coordinate. -/
theorem raasp_picks_by_share (hls : Sized n lengthscales)
    (hnonneg : ∀ ls ∈ lengthscales, ∀ v ∈ ls, 0 ≤ v) (hn : 0 < n) :
    ∃ cuts : ℕ → K, cuts 0 = 0 ∧ cuts n = 1 ∧
      (∀ r, 0 ≤ r → r ≤ 1 → ∀ j < n,
        raaspDimFromCdf (raaspCdf (raaspProbs lengthscales n) n) r n = j ↔ Picked cuts r j) ∧
      (∀ ls ∈ lengthscales, 0 < ls.sum → ∀ j < n,
        (cuts (j + 1) - cuts j) * ls.sum = ls.getD j 0) ∧
      (lengthscales = none → ∀ j < n, (cuts (j + 1) - cuts j) * n = 1) := by
  obtain ⟨hprobs, hsum⟩ := raaspProbs_shares hls hnonneg hn
  have hlen := length_raaspProbs hls
  refine ⟨cut (raaspProbs lengthscales n), cut_zero _, ?_, ?_, ?_, ?_⟩
  · have htotal := cut_length (raaspProbs lengthscales n)
    rwa [hlen, hsum] at htotal
  · intro r hpos hle j hj
    exact raaspDimFromCdf_iff hlen hprobs hsum hpos hle hj
  · rintro ls rfl hpos j hj
    have hj' : j < ls.length := (hls ls rfl).symm ▸ hj
    rw [cut_succ, add_sub_cancel_left, raaspProbs_some hpos,
      List.getD_eq_getElem _ _ (by simpa using hj'), List.getElem_map,
      List.getD_eq_getElem _ _ hj', div_mul_cancel₀ _ hpos.ne']
  · rintro rfl j hj
    have hne : (n : K) ≠ 0 := Nat.cast_ne_zero.mpr hn.ne'
    rw [cut_succ, add_sub_cancel_left, raaspProbs_none,
      List.getD_eq_getElem _ _ (by simpa using hj), List.getElem_replicate,
      one_div_mul_cancel hne]

/-- Three lengthscales, one of which is zero. -/
theorem raasp_picks_by_share_three :
    ∃ cuts : ℕ → ℚ, cuts 0 = 0 ∧ cuts 3 = 1 ∧
      (∀ r, 0 ≤ r → r ≤ 1 → ∀ j < 3,
        raaspDimFromCdf (raaspCdf (raaspProbs (some [1, 0, 3]) 3) 3) r 3 = j ↔
          Picked cuts r j) ∧
      (∀ ls ∈ some [(1 : ℚ), 0, 3], 0 < ls.sum → ∀ j < 3,
        (cuts (j + 1) - cuts j) * ls.sum = ls.getD j 0) ∧
      (some [(1 : ℚ), 0, 3] = none → ∀ j < 3, (cuts (j + 1) - cuts j) * (3 : ℕ) = 1) :=
  @raasp_picks_by_share ℚ _ (some [1, 0, 3]) 3 (by simp [Sized]) (by simp) (by decide)

example : raaspDimFromCdf (raaspCdf (raaspProbs (some [1, 0, 3]) 3) 3) (1 / 2 : ℚ) 3 = 2 := by
  decide +kernel

end Ennbo
