import Mathlib.Data.List.Basic
import Mathlib.Data.List.Range

/-! # Grouping a list by a bounded key

Collecting the entries with key `0`, then those with key `1`, and so on below a
bound permutes the list.
-/

namespace Ennbo.Ranking

open List

variable {α : Type*} (key : α → ℕ)

/-- The entries of `l` with key `c`. -/
def group (l : List α) (c : ℕ) : List α := l.filter fun a => key a == c

theorem flatMap_group_perm_filter (l : List α) (k : ℕ) :
    (range k).flatMap (group key l) ~ l.filter fun a => key a < k := by
  induction k with
  | zero => simp
  | succ k ih =>
    rw [range_succ, flatMap_append, flatMap_singleton]
    have hsplit := filter_append_perm (fun a => decide (key a < k))
      (l.filter fun a => decide (key a < k + 1))
    rw [filter_filter, filter_filter] at hsplit
    refine Perm.trans (ih.append_right _) (Perm.trans (Perm.of_eq ?_) hsplit)
    congr 1
    · exact filter_congr fun a _ => by simp; omega
    · exact filter_congr fun a _ => by
        rw [Bool.eq_iff_iff]; simp; omega

theorem flatMap_group_perm {l : List α} {k : ℕ} (h : ∀ a ∈ l, key a < k) :
    (range k).flatMap (group key l) ~ l := by
  have hl : (l.filter fun a => decide (key a < k)) = l :=
    filter_eq_self.mpr fun a ha => by simpa using h a ha
  exact (flatMap_group_perm_filter key l k).trans (Perm.of_eq hl)

end Ennbo.Ranking
