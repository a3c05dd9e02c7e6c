import Mathlib.Data.List.NodupEquivFin
import Ennbo.Ranking.TopK

/-! # Pools of candidates

A pool holds as many entries of a list as it has places, and none that is left
out has a smaller key. Which entries of one key are in the pool is open. A
ranking that refines the order of the keys finds its first entries in a pool
when all entries up to a key that is not before them fit into it.
-/

namespace Ennbo.Ranking

open List

variable {α K : Type*} [LinearOrder K] {key : α → K} {l pool : List α}

/-- Distinct entries of a list, and no entry that is left out has a smaller key. -/
structure Pool (key : α → K) (l pool : List α) : Prop where
  nodup : pool.Nodup
  subset : pool ⊆ l
  nearest : ∀ a ∈ l, a ∉ pool → ∀ b ∈ pool, key b ≤ key a

theorem Pool.perm {pool' : List α} (h : Pool key l pool) (hp : pool' ~ pool) :
    Pool key l pool' where
  nodup := hp.nodup_iff.mpr h.nodup
  subset := fun _ ha => h.subset (hp.subset ha)
  nearest a ha hnot b hb := h.nearest a ha (fun hmem => hnot (hp.mem_iff.mpr hmem)) b (hp.subset hb)

/-- When the entries up to a key are no more than the places, they are all in the pool. -/
theorem Pool.filter_perm (h : Pool key l pool) (hl : l.Nodup) {c : K}
    (hle : (l.filter fun a => key a ≤ c).length ≤ pool.length) :
    pool.filter (fun a => key a ≤ c) ~ l.filter fun a => key a ≤ c := by
  have hsub : pool.filter (fun a => key a ≤ c) <+~ l.filter fun a => key a ≤ c :=
    subperm_of_subset (h.nodup.filter _) fun a ha => by
      rw [mem_filter] at ha ⊢
      exact ⟨h.subset ha.1, ha.2⟩
  apply hsub.perm_of_length_le
  apply Subperm.length_le
  apply subperm_of_subset (hl.filter _)
  intro a ha
  obtain ⟨hal, hac⟩ := mem_filter.mp ha
  by_cases hmem : a ∈ pool
  · exact mem_filter.mpr ⟨hmem, hac⟩
  · -- an entry that is left out is behind all of the pool, which is too long then
    exfalso
    have hall : pool ⊆ (l.filter fun a => key a ≤ c) := by
      intro b hb
      rw [mem_filter, decide_eq_true_eq]
      exact ⟨h.subset hb, (h.nearest a hal hmem b hb).trans (of_decide_eq_true hac)⟩
    have hcons : a :: pool <+~ l.filter fun a => key a ≤ c :=
      subperm_of_subset (nodup_cons.mpr ⟨hmem, h.nodup⟩) (cons_subset.mpr ⟨ha, hall⟩)
    have hlen := hcons.length_le
    rw [length_cons] at hlen
    omega

theorem exists_perm_of_getElem? {a : α} {i j : ℕ} (hij : i < j) (hi : l[i]? = some a)
    (hj : l[j]? = some a) : ∃ rest, l ~ a :: a :: rest := by
  obtain ⟨hilt, hi⟩ := List.getElem?_eq_some_iff.mp hi
  obtain ⟨hjlt, hj⟩ := List.getElem?_eq_some_iff.mp hj
  have htwice : Duplicate a l := duplicate_iff_exists_distinct_get.mpr
    ⟨⟨i, hilt⟩, ⟨j, hjlt⟩, hij, hi.symm, hj.symm⟩
  obtain ⟨rest, hrest⟩ := (duplicate_iff_sublist.mp htwice).exists_perm_append
  exact ⟨rest, hrest⟩

section Linear

variable (r : α → α → Prop) [DecidableRel r] [Std.Total r] [IsTrans α r] [Std.Antisymm r] {k : ℕ}

theorem Pool.topK_eq (h : Pool key l pool) (hl : l.Nodup)
    (hr : ∀ a b, r a b → key a ≤ key b) {c : K} (hk : k ≤ (l.filter fun a => key a ≤ c).length)
    (hle : (l.filter fun a => key a ≤ c).length ≤ pool.length) :
    topK r k pool = topK r k l := by
  have hperm := h.filter_perm hl hle
  have hdown : ∀ a b, r a b → decide (key b ≤ c) = true → decide (key a ≤ c) = true := by
    intro a b hab hb
    exact decide_eq_true ((hr a b hab).trans (of_decide_eq_true hb))
  rw [← topK_filter r hdown hk, ← topK_congr r hperm, topK_filter r hdown]
  exact hk.trans hperm.length_eq.ge

theorem pool_topK (hl : l.Nodup) (hr : ∀ a b, r a b → key a ≤ key b) (k : ℕ) :
    Pool key l (topK r k l) where
  nodup := ((perm_insertionSort r l).nodup_iff.mpr hl).sublist (take_sublist k _)
  subset _ ha := mem_of_mem_topK r ha
  nearest a ha hnot b hb := by
    apply hr
    by_contra hba
    have hab : r a b := (Std.Total.total a b).resolve_right hba
    exact hnot (mem_topK_of_rel r hab ha hb)

/-- Two sorted lists of entries, the second with the first ones of all, are equal when they are
equal behind their first places. -/
theorem eq_topK_of_drop {l' : List α} (hsub : l' ⊆ l) (hnodup : l'.Nodup) (hsorted : l'.Pairwise r)
    (h2 : 2 ≤ k) (hk : k ≤ l.length) (h : l'.drop 1 = (topK r k l).drop 1) : l' = topK r k l := by
  have hlen : (topK r k l).length = k := by rw [length_topK, min_eq_left hk]
  obtain ⟨e₀, e₁, es, hes⟩ : ∃ e₀ e₁ es, topK r k l = e₀ :: e₁ :: es := by
    cases htop : topK r k l with
    | nil =>
      rw [htop, length_nil] at hlen
      omega
    | cons e₀ rest =>
      cases rest with
      | nil =>
        rw [htop, length_singleton] at hlen
        omega
      | cons e₁ es => exact ⟨e₀, e₁, es, rfl⟩
  rw [hes, drop_one, drop_one, tail_cons] at h
  cases l' with
  | nil => cases h
  | cons a l' =>
    rw [tail_cons] at h
    subst h
    have hae : r a e₁ := (pairwise_cons.mp hsorted).1 e₁ mem_cons_self
    have htwo : topK r 2 l = [e₀, e₁] := by
      rw [← take_topK r h2, hes]
      rfl
    have hmem : a ∈ topK r 2 l :=
      mem_topK_of_rel r hae (hsub mem_cons_self) (by rw [htwo]; simp)
    rw [htwo, mem_pair] at hmem
    rcases hmem with rfl | rfl
    · exact hes.symm
    · exact absurd mem_cons_self (nodup_cons.mp hnodup).1

theorem topK_one {a : α} (ha : a ∈ l) (hleast : ∀ b ∈ l, r a b) : topK r 1 l = [a] := by
  have hmem : a ∈ topK r 1 l := by
    rw [mem_topK]
    refine ⟨ha, ?_⟩
    rw [filter_eq_nil_iff.mpr]
    · exact Nat.one_pos
    · intro b hb
      simpa using hleast b hb
  obtain ⟨b, hb⟩ : ∃ b, topK r 1 l = [b] := by
    rw [← length_eq_one_iff, length_topK, min_eq_left]
    exact length_pos_of_mem ha
  rw [hb, mem_singleton] at hmem
  rw [hb, hmem]

theorem topK_cons_cons {a : α} {l' : List α} (hperm : l ~ a :: a :: l') (hleast : ∀ b ∈ l', r a b)
    (h2 : 2 ≤ k) : ∃ rest, topK r k l = a :: a :: rest := by
  have haa : r a a := (Std.Total.total a a).elim id id
  have hsorted : (a :: a :: l'.insertionSort r).Pairwise r := by
    have hall : ∀ b ∈ l'.insertionSort r, r a b :=
      fun b hb => hleast b ((mem_insertionSort r).mp hb)
    apply Pairwise.cons
    · intro b hb
      rcases mem_cons.mp hb with rfl | hb
      · exact haa
      · exact hall b hb
    · exact (pairwise_insertionSort r l').cons hall
  have hsort : l.insertionSort r = a :: a :: l'.insertionSort r := by
    rw [← insertionSort_of_pairwise r hsorted]
    exact insertionSort_congr r (hperm.trans
      (((perm_insertionSort r l').symm.cons a).cons a))
  obtain ⟨n, rfl⟩ : ∃ n, k = n + 2 := ⟨k - 2, by omega⟩
  exact ⟨(l'.insertionSort r).take n, by rw [topK, hsort, take_succ_cons, take_succ_cons]⟩

end Linear

end Ennbo.Ranking
