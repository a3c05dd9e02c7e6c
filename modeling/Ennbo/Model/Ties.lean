import Ennbo.Acquisition.Skyline
import Ennbo.Model.Neighbors
import Ennbo.Ranking.TopK

/-! # Ties at the last place

The candidates of the index are sorted by their distances in `f64`, and ties at
the last place that is wanted are resolved in one of four ways. Each of them
gives the first candidates, or the first of all rows.
-/

namespace Ennbo

open Ranking

namespace TieBreak

section Rows

variable {K : Type}

def rowPairs (dists : List K) : List (K × ℤ) := dists.zipIdx.map fun p => (p.1, (p.2 : ℤ))

@[simp] theorem length_rowPairs (dists : List K) : (rowPairs dists).length = dists.length := by
  simp [rowPairs]

theorem rowPairs_eq_ofFn (dists : List K) :
    rowPairs dists = List.ofFn fun i : Fin dists.length => (dists[i], (i : ℤ)) := by
  apply List.ext_getElem
  · simp
  · intro i h₁ h₂
    simp [rowPairs]

theorem mem_rowPairs {dists : List K} {p : K × ℤ} :
    p ∈ rowPairs dists ↔ ∃ i : Fin dists.length, (dists[i], (i : ℤ)) = p := by
  rw [rowPairs_eq_ofFn, List.mem_ofFn]

theorem snd_nonneg_of_mem_rowPairs {dists : List K} {p : K × ℤ} (h : p ∈ rowPairs dists) :
    0 ≤ p.2 := by
  obtain ⟨i, rfl⟩ := mem_rowPairs.mp h
  exact Int.natCast_nonneg _

theorem nodup_rowPairs (dists : List K) : (rowPairs dists).Nodup := by
  rw [rowPairs_eq_ofFn, List.nodup_ofFn]
  intro i j hij
  exact Fin.ext (Int.ofNat_inj.mp (Prod.mk.inj hij).2)

theorem map_fst_rowPairs (dists : List K) : (rowPairs dists).map Prod.fst = dists := by
  rw [rowPairs, List.map_map]
  exact List.zipIdx_map_fst 0 dists

theorem length_filter_rowPairs (dists : List K) (p : K → Bool) :
    ((rowPairs dists).filter fun a => p a.1).length = (dists.filter p).length := by
  conv_rhs => rw [← map_fst_rowPairs dists, List.filter_map, List.length_map]
  rfl

end Rows

section Order

variable {K : Type} [ExactArith K] [Analysis K] [ExactOrder K] {I : Type} [LinearOrder I]

theorem pairLe_iff {a b : K × I} : PairLe a b ↔ a.1 < b.1 ∨ a.1 = b.1 ∧ a.2 ≤ b.2 := by
  unfold PairLe
  rw [ExactOrder.totalCmp_eq]
  rcases lt_trichotomy a.1 b.1 with h | h | h
  · simp [compare_lt_iff_lt.mpr h, h]
  · simp [h, Ordering.then, compare_le_iff_le]
  · simp [compare_gt_iff_gt.mpr h, h.not_gt, h.ne']

instance : Std.Total (PairLe (D := K) (I := I)) where
  total a b := by
    rw [pairLe_iff, pairLe_iff]
    rcases lt_trichotomy a.1 b.1 with h | h | h
    · exact .inl (.inl h)
    · exact (le_total a.2 b.2).imp (fun hid => .inr ⟨h, hid⟩) fun hid => .inr ⟨h.symm, hid⟩
    · exact .inr (.inl h)

instance : IsTrans (K × I) PairLe where
  trans a b c := by
    simp only [pairLe_iff]
    rintro (h | ⟨h, hid⟩) (h' | ⟨h', hid'⟩)
    · exact .inl (h.trans h')
    · exact .inl (h' ▸ h)
    · exact .inl (h ▸ h')
    · exact .inr ⟨h.trans h', hid.trans hid'⟩

instance : Std.Antisymm (PairLe (D := K) (I := I)) where
  antisymm a b := by
    simp only [pairLe_iff]
    rintro (h | ⟨h, hid⟩) (h' | ⟨h', hid'⟩)
    · exact absurd h' h.not_gt
    · exact absurd h (h' ▸ lt_irrefl _)
    · exact absurd h' (h ▸ lt_irrefl _)
    · exact Prod.ext h (hid.antisymm hid')

theorem least_rowPairs (n : ℕ) (d : K) : ∀ a ∈ rowPairs (List.replicate n d), PairLe (d, 0) a := by
  intro a ha
  obtain ⟨i, rfl⟩ := mem_rowPairs.mp ha
  rw [pairLe_iff]
  exact .inr ⟨by simp, Int.natCast_nonneg _⟩

theorem fst_le_of_pairLe {a b : K × I} (h : PairLe a b) : a.1 ≤ b.1 := by
  obtain hlt | ⟨heq, -⟩ := pairLe_iff.mp h
  · exact hlt.le
  · exact heq.le

def HighLe (a b : K × ℤ) : Prop := PairLe (a.1, -a.2) (b.1, -b.2)

instance : DecidableRel (HighLe (K := K)) := fun a b =>
  inferInstanceAs (Decidable (PairLe (a.1, -a.2) (b.1, -b.2)))

instance : Std.Total (HighLe (K := K)) where
  total _ _ := Std.Total.total (r := PairLe) _ _

instance : IsTrans (K × ℤ) HighLe where
  trans _ _ _ := IsTrans.trans (r := PairLe) _ _ _

instance : Std.Antisymm (HighLe (K := K)) where
  antisymm a b hab hba := by
    have h := Std.Antisymm.antisymm (r := PairLe) _ _ hab hba
    obtain ⟨hfst, hsnd⟩ := Prod.mk.inj h
    exact Prod.ext hfst (neg_inj.mp hsnd)

end Order

section Ties

variable {K : Type} [ExactArith K] [Analysis K] [ExactOrder K] {pairs : List (K × ℤ)} {k : ℕ}

omit [Analysis K] [ExactOrder K] in
theorem distAt_eq {i : ℕ} (hi : i < pairs.length) : distAt pairs i = pairs[i].1 := by
  unfold distAt
  rw [List.getD_eq_getElem _ _ (by rwa [List.length_map]), List.getElem_map]

/-- The pairs below a distance, those at it and those above it. -/
theorem split_at_dist (hsorted : pairs.Pairwise PairLe) (c : K) :
    pairs.filter (fun p => p.1 < c) ++ (pairs.filter (fun p => p.1 = c) ++
      pairs.filter fun p => c < p.1) = pairs := by
  have hlow := filter_append_filter_not PairLe (p := fun p => p.1 < c)
    (fun a b hab hb => by
      simp only [decide_eq_true_eq] at hb ⊢
      exact (fst_le_of_pairLe hab).trans_lt hb) hsorted
  have hhigh := filter_append_filter_not PairLe (p := fun p => p.1 ≤ c)
    (fun a b hab hb => by
      simp only [decide_eq_true_eq] at hb ⊢
      exact (fst_le_of_pairLe hab).trans hb) (hsorted.filter fun p => !decide (p.1 < c))
  rw [List.filter_filter, List.filter_filter] at hhigh
  rw [← hhigh] at hlow
  conv_rhs => rw [← hlow]
  congr 2
  · apply List.filter_congr
    intro p _
    rw [Bool.eq_iff_iff]
    simp only [Bool.and_eq_true, Bool.not_eq_true', decide_eq_false_iff_not, decide_eq_true_eq,
      not_lt]
    exact le_antisymm_iff
  · apply List.filter_congr
    intro p _
    rw [Bool.eq_iff_iff]
    simp only [Bool.and_eq_true, Bool.not_eq_true', decide_eq_false_iff_not, decide_eq_true_eq,
      not_le, not_lt]
    exact ⟨fun h => ⟨h, h.le⟩, fun h => h.1⟩

/-- The last place is not below its distance, and the next one is not above it. -/
theorem lengths_at_tie (hsorted : pairs.Pairwise PairLe) {c : K} (hk : 0 < k)
    (hlen : k < pairs.length) (hlast : pairs[k - 1].1 = c) (hnext : pairs[k].1 = c) :
    (pairs.filter fun p => p.1 < c).length < k ∧
      k < (pairs.filter fun p => p.1 < c).length + (pairs.filter fun p => p.1 = c).length := by
  have hsplit := split_at_dist hsorted c
  constructor
  · by_contra hmany
    have hget : pairs[k - 1]? = (pairs.filter fun p => p.1 < c)[k - 1]? := by
      conv_lhs => rw [← hsplit]
      exact List.getElem?_append_left (by omega)
    rw [List.getElem?_eq_getElem (by omega)] at hget
    have hmem := (List.mem_filter.mp (List.mem_of_getElem? hget.symm)).2
    rw [decide_eq_true_eq, hlast] at hmem
    exact lt_irrefl c hmem
  · by_contra hfew
    have hget : pairs[k]? = (pairs.filter fun p => c < p.1)[k -
        (pairs.filter fun p => p.1 < c).length - (pairs.filter fun p => p.1 = c).length]? := by
      conv_lhs => rw [← hsplit]
      rw [List.getElem?_append_right (by omega), List.getElem?_append_right (by omega)]
    rw [List.getElem?_eq_getElem hlen] at hget
    have hmem := (List.mem_filter.mp (List.mem_of_getElem? hget.symm)).2
    rw [decide_eq_true_eq, hnext] at hmem
    exact lt_irrefl c hmem

theorem pairwise_id_at_dist (hsorted : pairs.Pairwise PairLe) (c : K) :
    (pairs.filter fun p => p.1 = c).Pairwise fun a b => a.2 ≤ b.2 := by
  apply (hsorted.filter _).imp_of_mem
  intro a b ha hb hab
  have hac : a.1 = c := by simpa using (List.mem_filter.mp ha).2
  have hbc : b.1 = c := by simpa using (List.mem_filter.mp hb).2
  obtain hlt | ⟨-, hid⟩ := pairLe_iff.mp hab
  · exact absurd (hac.trans hbc.symm) hlt.ne
  · exact hid

/-- A tie between the last place and the next one is resolved to the first `k` pairs. -/
theorem tryResolveBoundaryTieInPool_eq (hsorted : pairs.Pairwise PairLe) (hk : 0 < k)
    (htied : tiedAtCutoff pairs k = true) :
    tryResolveBoundaryTieInPool pairs k = some (pairs.take k) := by
  have hlt : k < pairs.length ∧ totalCmp (distAt pairs (k - 1)) (distAt pairs k) = .eq := by
    simpa [tiedAtCutoff] using htied
  obtain ⟨hlen, hcmp⟩ := hlt
  have hlast : distAt pairs (k - 1) = pairs[k - 1].1 := distAt_eq (by omega)
  rw [ExactOrder.totalCmp_eq, compare_eq_iff_eq, distAt_eq hlen] at hcmp
  generalize hc : distAt pairs (k - 1) = c at hlast hcmp
  obtain ⟨hfew, hmany⟩ := lengths_at_tie hsorted hk hlen hlast.symm hcmp.symm
  have hbelow : (pairs.filter fun p => totalCmp p.1 c == .lt) =
      pairs.filter fun p => p.1 < c := by
    apply List.filter_congr
    intro p _
    rw [ExactOrder.totalCmp_eq, Bool.eq_iff_iff]
    simp [compare_lt_iff_lt]
  have hatCut : (pairs.filter fun p => totalCmp p.1 c == .eq) =
      pairs.filter fun p => p.1 = c := by
    apply List.filter_congr
    intro p _
    rw [ExactOrder.totalCmp_eq, Bool.eq_iff_iff]
    simp
  have htake : (pairs.filter fun p => p.1 < c) ++ (pairs.filter fun p => p.1 = c).take
      (k - (pairs.filter fun p => p.1 < c).length) = pairs.take k := by
    conv_rhs => rw [← split_at_dist hsorted c, List.take_append, List.take_append]
    rw [List.take_of_length_le hfew.le, Nat.sub_eq_zero_of_le (by omega : k -
      (pairs.filter fun p => p.1 < c).length ≤ (pairs.filter fun p => p.1 = c).length),
      List.take_zero, List.append_nil]
  unfold tryResolveBoundaryTieInPool
  dsimp only
  rw [if_neg (by simp [htied]; omega), hc, hbelow, hatCut, if_neg (by omega),
    (pairwise_id_at_dist hsorted c).insertionSort_eq, htake,
    insertionSort_of_pairwise PairLe (hsorted.sublist (List.take_sublist _ _))]

omit [Analysis K] [ExactOrder K] in
theorem tieStart_le (pairs : List (K × ℤ)) (k : ℕ) : tieStart pairs k ≤ k := by
  unfold tieStart
  have h : ((pairs.take k).takeWhile fun p => ltB p.1 (distAt pairs (k - 1))).Sublist
      (pairs.take k) := List.takeWhile_sublist _
  exact h.length_le.trans (List.length_take_le _ _)

theorem resolvePoolTieBreakAtCutoff_eq (hsorted : pairs.Pairwise PairLe) (k : ℕ) :
    resolvePoolTieBreakAtCutoff pairs k = pairs := by
  have hperm : (applyIndexTieBreakAtCutoff pairs k).Perm pairs := by
    unfold applyIndexTieBreakAtCutoff
    split
    · exact .refl _
    · have hfront : pairs.take (tieStart pairs k) ++ (pairs.take k).drop (tieStart pairs k) =
          pairs.take k := by
        have htake : pairs.take (tieStart pairs k) = (pairs.take k).take (tieStart pairs k) := by
          rw [List.take_take, min_eq_left (tieStart_le pairs k)]
        rw [htake, List.take_append_drop]
      dsimp only
      conv_rhs => rw [← List.take_append_drop k pairs, ← hfront]
      exact ((List.perm_insertionSort _ _).append_left _).append_right _
  unfold resolvePoolTieBreakAtCutoff
  split
  · rw [insertionSort_congr PairLe hperm, insertionSort_of_pairwise PairLe hsorted]
  · rfl

theorem totalCmp_ne_gt_iff {a b : K} : totalCmp a b ≠ .gt ↔ a ≤ b := by
  rw [ExactOrder.totalCmp_eq, Ne, compare_gt_iff_gt, not_lt]

theorem cutoff_eq (dists : List K) (k : ℕ) :
    cutoff dists k = (dists.insertionSort (· ≤ ·)).getD (k - 1) 0 := by
  have hsort := List.map_insertionSort (r := fun a b : K => totalCmp a b ≠ .gt) (s := (· ≤ ·)) id
    dists fun a _ b _ => totalCmp_ne_gt_iff
  rw [List.map_id, List.map_id] at hsort
  rw [cutoff, hsort]

/-- At least `k` distances are no greater than the `k`-th smallest one. -/
theorem le_length_filter_cutoff {dists : List K} (hk : 0 < k) (hle : k ≤ dists.length) :
    k ≤ (dists.filter fun d => d ≤ cutoff dists k).length := by
  have hperm := List.perm_insertionSort (· ≤ ·) dists
  have hsorted := List.pairwise_insertionSort (· ≤ ·) dists
  rw [cutoff_eq, ← (hperm.filter _).length_eq]
  generalize dists.insertionSort (· ≤ ·) = s at hperm hsorted ⊢
  rw [← hperm.length_eq] at hle
  have hlast : k - 1 < s.length := by omega
  rw [List.getD_eq_getElem _ _ hlast]
  have hfront : (s.take k).filter (fun d => d ≤ s[k - 1]) = s.take k := by
    rw [List.filter_eq_self]
    intro d hd
    obtain ⟨i, hi, rfl⟩ := List.getElem_of_mem hd
    rw [List.length_take] at hi
    rw [decide_eq_true_eq, List.getElem_take]
    obtain rfl | hne := eq_or_ne i (k - 1)
    · exact le_rfl
    · exact List.pairwise_iff_getElem.mp hsorted i (k - 1) (by omega) hlast (by omega)
  have hlen := ((List.take_sublist k s).filter fun d => d ≤ s[k - 1]).length_le
  rwa [hfront, List.length_take, min_eq_left hle] at hlen

theorem length_filter_cutoff_lt {dists : List K} (hk : 0 < k) (hle : k ≤ dists.length) :
    (dists.filter fun d => d < cutoff dists k).length < k := by
  have hperm := List.perm_insertionSort (· ≤ ·) dists
  have hsorted := List.pairwise_insertionSort (· ≤ ·) dists
  rw [cutoff_eq, ← (hperm.filter _).length_eq]
  generalize dists.insertionSort (· ≤ ·) = s at hperm hsorted ⊢
  rw [← hperm.length_eq] at hle
  have hlast : k - 1 < s.length := by omega
  rw [List.getD_eq_getElem _ _ hlast]
  by_contra hmany
  have hsplit := filter_append_filter_not (· ≤ ·) (p := fun d => d < s[k - 1])
    (fun a b hab hb => decide_eq_true (hab.trans_lt (of_decide_eq_true hb))) hsorted
  have hget : s[k - 1]? = (s.filter fun d => d < s[k - 1])[k - 1]? := by
    conv_lhs => rw [← hsplit]
    exact List.getElem?_append_left (by omega)
  rw [List.getElem?_eq_getElem hlast] at hget
  have hmem := (List.mem_filter.mp (List.mem_of_getElem? hget.symm)).2
  exact lt_irrefl _ (of_decide_eq_true hmem)

/-- When no pair is above a distance and fewer than `k` are below it, the last place is tied. -/
theorem tiedAtCutoff_of_le (hsorted : pairs.Pairwise PairLe) (hk : 0 < k) (hlen : k < pairs.length)
    {c : K} (hall : ∀ p ∈ pairs, p.1 ≤ c) (hfew : (pairs.filter fun p => p.1 < c).length < k) :
    tiedAtCutoff pairs k = true := by
  have hsplit := filter_append_filter_not PairLe (p := fun p => p.1 < c)
    (fun a b hab hb => decide_eq_true ((fst_le_of_pairLe hab).trans_lt (of_decide_eq_true hb)))
    hsorted
  have hat : ∀ i (hi : i < pairs.length), k - 1 ≤ i → pairs[i].1 = c := by
    intro i hi hki
    have hget : pairs[i]? = (pairs.filter fun p => !decide (p.1 < c))[i -
        (pairs.filter fun p => p.1 < c).length]? := by
      conv_lhs => rw [← hsplit]
      exact List.getElem?_append_right (by omega)
    rw [List.getElem?_eq_getElem hi] at hget
    have hmem := (List.mem_filter.mp (List.mem_of_getElem? hget.symm)).2
    rw [Bool.not_eq_true', decide_eq_false_iff_not, not_lt] at hmem
    exact le_antisymm (hall _ (List.getElem_mem hi)) hmem
  have hlast : distAt pairs (k - 1) = c := (distAt_eq (by omega)).trans (hat _ _ le_rfl)
  have hnext : distAt pairs k = c := (distAt_eq hlen).trans (hat _ hlen (Nat.sub_le k 1))
  unfold tiedAtCutoff
  rw [hlast, hnext, ExactOrder.totalCmp_eq, compare_eq_iff_eq.mpr rfl]
  simpa using hlen

theorem topkIndicesFromRowDists_eq {dists : List K} (hk : 0 < k) (hle : k ≤ dists.length) :
    (topkIndicesFromRowDists dists k).map (fun p => (p.1, (p.2 : ℤ))) =
      topK PairLe k (rowPairs dists) := by
  have hfilter : (dists.zipIdx.filter fun p => totalCmp p.1 (cutoff dists k) ≠ .gt) =
      dists.zipIdx.filter fun p => p.1 ≤ cutoff dists k := by
    apply List.filter_congr
    intro p _
    exact decide_eq_decide.mpr totalCmp_ne_gt_iff
  have hmany : k ≤ (dists.zipIdx.filter fun p => p.1 ≤ cutoff dists k).length := by
    have hmap : (dists.zipIdx.filter fun p => p.1 ≤ cutoff dists k).map Prod.fst =
        dists.filter fun d => d ≤ cutoff dists k := by
      generalize cutoff dists k = c
      conv_rhs => rw [← List.zipIdx_map_fst 0 dists, List.filter_map]
      rfl
    rw [← List.length_map Prod.fst, hmap]
    exact le_length_filter_cutoff hk hle
  unfold topkIndicesFromRowDists
  rw [if_neg hk.ne', hfilter, ← topK, topK_filter PairLe _ hmany, topK, topK, rowPairs,
    List.map_take,
    List.map_insertionSort (r := PairLe) (s := PairLe)]
  · intro a _ b _
    simp [pairLe_iff]
  · intro a b hab hb
    simp only [decide_eq_true_eq] at hb ⊢
    exact (fst_le_of_pairLe hab).trans hb

omit [ExactArith K] [ExactOrder K] in
theorem faissPairsFromRow_eq {hits : List (K × ℤ)} (hids : ∀ p ∈ hits, 0 ≤ p.2) :
    faissPairsFromRow hits = hits.insertionSort PairLe := by
  unfold faissPairsFromRow
  rw [List.filter_eq_self.mpr]
  intro p hp
  exact decide_eq_true (hids p hp)

variable {hits : List (K × ℤ)} {dists : List K}

theorem topkRow_of_tied (hids : ∀ p ∈ hits, 0 ≤ p.2) (hk : 0 < k)
    (htied : tiedAtCutoff (hits.insertionSort PairLe) k = true) (rowDists : Outcome (List K)) :
    topkRow rowDists hits k true = .ok (topK PairLe k hits) := by
  have hresolve := tryResolveBoundaryTieInPool_eq (List.pairwise_insertionSort PairLe hits) hk htied
  unfold topkRow finalizeFaissPoolTopk
  rw [faissPairsFromRow_eq hids, if_neg (by simp), if_pos htied, hresolve]
  rfl

/-- Without a tie the candidates are cut off, unless all rows are scanned. -/
theorem topkRow_eq (hids : ∀ p ∈ hits, 0 ≤ p.2) (hk : 0 < k) (hle : k ≤ dists.length) :
    topkRow (.ok dists) hits k true = .ok (topK PairLe k hits) ∨
      k < dists.length ∧
        topkRow (.ok dists) hits k true = .ok (topK PairLe k (rowPairs dists)) := by
  have hsorted := pairwise_topK PairLe k hits
  have hresolve : resolvePoolTieBreakAtCutoff ((hits.insertionSort PairLe).take k) k =
      topK PairLe k hits := resolvePoolTieBreakAtCutoff_eq hsorted k
  have hscan := topkIndicesFromRowDists_eq hk hle
  cases htied : tiedAtCutoff (hits.insertionSort PairLe) k with
  | true => exact .inl (topkRow_of_tied hids hk htied _)
  | false =>
    unfold topkRow finalizeFaissPoolTopk
    rw [faissPairsFromRow_eq hids, if_neg (by simp), if_neg (by simp [htied])]
    split
    · cases hneeds : faissPoolNeedsFullRowScanFromRow dists k with
      | true =>
        right
        constructor
        · by_contra hall
          rw [faissPoolNeedsFullRowScanFromRow, if_pos (.inr (not_lt.mp hall))] at hneeds
          cases hneeds
        · simp [bind, Except.bind, hneeds, hscan, pure, Except.pure]
      | false =>
        left
        simp [bind, Except.bind, hneeds, hresolve, pure, Except.pure]
    · exact .inl rfl

section Highest

variable {c : K}

omit [ExactArith K] [Analysis K] [ExactOrder K] in
theorem pairwise_snd_rowPairs (dists : List K) :
    (rowPairs dists).Pairwise fun a b => a.2 < b.2 := by
  rw [rowPairs_eq_ofFn, List.pairwise_ofFn]
  intro i j hij
  exact Int.ofNat_lt.mpr hij

/-- The first of the rows at a distance that fewer than `k` rows stay below, while more than `k + 1`
rows are not above it, is one of the first `k` and is left out of `k + 1` that end with the last. -/
theorem exists_mem_not_mem (hfew : ((rowPairs dists).filter fun a => a.1 < c).length < k)
    (hmany : k + 1 < ((rowPairs dists).filter fun a => a.1 ≤ c).length) :
    ∃ e ∈ topK PairLe k (rowPairs dists), e ∉ topK HighLe (k + 1) (rowPairs dists) := by
  have hids := (pairwise_snd_rowPairs dists).filter fun a => a.1 = c
  cases hat : (rowPairs dists).filter fun a => a.1 = c with
  | nil =>
    -- then no row is at this distance, and both counts are the same
    have hsame : ((rowPairs dists).filter fun a => a.1 ≤ c) =
        (rowPairs dists).filter fun a => a.1 < c := by
      apply List.filter_congr
      intro a ha
      have hne := List.filter_eq_nil_iff.mp hat a ha
      rw [decide_eq_true_eq] at hne
      exact decide_eq_decide.mpr ⟨fun h => h.lt_of_ne hne, le_of_lt⟩
    rw [hsame] at hmany
    omega
  | cons e rest =>
    rw [hat] at hids
    have hmem : e ∈ (rowPairs dists).filter fun a => a.1 = c := hat ▸ List.mem_cons_self
    obtain ⟨hrow, hec⟩ := List.mem_filter.mp hmem
    have hec : e.1 = c := of_decide_eq_true hec
    have hlowest : ∀ a ∈ rowPairs dists, a.1 = c → a = e ∨ e.2 < a.2 := by
      intro a ha hac
      have hmem : a ∈ (rowPairs dists).filter fun a => a.1 = c :=
        List.mem_filter.mpr ⟨ha, decide_eq_true hac⟩
      rw [hat] at hmem
      exact (List.mem_cons.mp hmem).imp_right fun h => (List.pairwise_cons.mp hids).1 a h
    refine ⟨e, ?_, ?_⟩
    · rw [mem_topK]
      refine ⟨hrow, lt_of_eq_of_lt (congrArg List.length ?_) hfew⟩
      apply List.filter_congr
      intro a ha
      rw [Bool.eq_iff_iff, Bool.not_eq_true', decide_eq_false_iff_not, decide_eq_true_eq,
        pairLe_iff, hec]
      constructor
      · intro hnot
        by_contra hge
        rcases (not_lt.mp hge).lt_or_eq with hlt | heq
        · exact hnot (.inl hlt)
        · rcases hlowest a ha heq.symm with rfl | hid
          · exact hnot (.inr ⟨heq, le_rfl⟩)
          · exact hnot (.inr ⟨heq, hid.le⟩)
      · rintro hlt (h | ⟨h, -⟩)
        · exact lt_asymm hlt h
        · exact hlt.ne h.symm
    · rw [mem_topK, not_and, not_lt]
      intro
      have hsub : ((rowPairs dists).filter fun a => a.1 ≤ c).Subperm
          (e :: (rowPairs dists).filter fun a => !decide (HighLe e a)) := by
        apply List.subperm_of_subset ((nodup_rowPairs dists).filter _)
        intro a ha
        obtain ⟨ha, hac⟩ := List.mem_filter.mp ha
        rw [List.mem_cons, List.mem_filter, Bool.not_eq_true', decide_eq_false_iff_not, HighLe,
          pairLe_iff, hec]
        rcases (of_decide_eq_true hac).lt_or_eq with hlt | heq
        · exact .inr ⟨ha, not_or.mpr ⟨hlt.not_gt, fun h => hlt.ne h.1.symm⟩⟩
        · rcases hlowest a ha heq with rfl | hid
          · exact .inl rfl
          · exact .inr ⟨ha, not_or.mpr ⟨heq.not_gt, fun h => by omega⟩⟩
      have hlen := hsub.length_le
      rw [List.length_cons] at hlen
      omega

/-- None of so few rows is above the distance, and fewer than `k` are below it. -/
theorem tiedAtCutoff_topK_highLe (hk : 0 < k)
    (hfew : ((rowPairs dists).filter fun a => a.1 < c).length < k)
    (hmany : k + 1 < ((rowPairs dists).filter fun a => a.1 ≤ c).length) :
    tiedAtCutoff ((topK HighLe (k + 1) (rowPairs dists)).insertionSort PairLe) k = true := by
  have hperm := List.perm_insertionSort PairLe (topK HighLe (k + 1) (rowPairs dists))
  have hlen := List.length_filter_le (fun a : K × ℤ => decide (a.1 ≤ c)) (rowPairs dists)
  apply tiedAtCutoff_of_le (List.pairwise_insertionSort PairLe _) hk (c := c)
  · rw [hperm.length_eq, length_topK]
    omega
  · intro a ha
    have ha := hperm.subset ha
    by_contra hac
    have hcount := (mem_topK HighLe).mp ha
    apply hcount.2.not_ge
    apply le_trans hmany.le
    apply List.Sublist.length_le
    apply List.monotone_filter_right
    intro y hy
    rw [decide_eq_true_eq] at hy
    rw [Bool.not_eq_true', decide_eq_false_iff_not]
    intro h
    exact hac ((fst_le_of_pairLe h).trans hy)
  · rw [(hperm.filter _).length_eq]
    have hsub := (subperm_topK HighLe (k + 1) (rowPairs dists)).filter fun a => decide (a.1 < c)
    exact hsub.length_le.trans_lt hfew

end Highest

end Ties

end TieBreak

end Ennbo
