import Ennbo.Distance
import Ennbo.Ranking.TopK
import Ennbo.Store.Mmap

/-! # Ranking and merging candidates

Candidates are row ids with a squared distance, ranked by distance and then by
id. Two legs are merged by keeping the first entry of every id; the map that
holds them is listed in the order of insertion, which sorting makes irrelevant.
-/

namespace Ennbo

open Ranking

section Order

variable {F : Type} [Floating F]

def ScoredLe (a b : ℕ × F) : Prop := (cmpOrEqual a.2 b.2).then (compare a.1 b.1) ≠ .gt

instance : DecidableRel (ScoredLe (F := F)) := fun _ _ => inferInstanceAs (Decidable (_ ≠ _))

variable {D : Type} [Floating D] [FloatCast D F]

/-- The first entry of every id, with the distance that `value` gives it. -/
def firstSeen (value : ℕ × F → Outcome D) (hits : List (ℕ × F)) : Outcome (List (ℕ × D)) :=
  hits.foldlM (fun seen hit =>
    if hit.1 ∈ seen.map Prod.fst then pure seen
    else do
      let dist ← value hit
      return seen ++ [(hit.1, dist)]) []

/-- Rank the collected entries, drop the nearest when it is excluded, and cut. -/
def rankMerged (kOut poolK : ℕ) (excludeNearest : Bool) (seen : List (ℕ × D)) : List (ℕ × D) :=
  let ranked := seen.insertionSort ScoredLe
  let ranked := if excludeNearest && 1 < ranked.length then ranked.drop 1 else ranked
  (ranked.take (min poolK ranked.length)).take kOut

/-- Distances are computed again from the stored rows. -/
def bpannMergeTopkCandidates (trainX : MmapColumnStore D) (query : List D)
    (legA legB : List (ℕ × F)) (kOut poolK : ℕ) (excludeNearest scaleX : Bool)
    (xScale : List D) : Outcome (List (ℕ × D)) := do
  let seen ← firstSeen (fun hit => do
    return rowSqL2 query (← trainX.mmapRowSlice hit.1) scaleX xScale) (legA ++ legB)
  return rankMerged kOut poolK excludeNearest seen

def mergeTopkPrecomputedDist (legA legB : List (ℕ × F)) (kOut poolK : ℕ)
    (excludeNearest : Bool) : Outcome (List (ℕ × D)) := do
  let seen ← firstSeen (fun hit => pure (toF64 hit.2)) (legA ++ legB)
  return rankMerged kOut poolK excludeNearest seen

def resultRow (kEff : ℕ) (merged : List (ℕ × D)) : List (ℕ × D) :=
  merged ++ List.replicate (kEff - merged.length) (0, 0)

omit [Floating F] [FloatCast D F] in
theorem resultRow_of_length {kEff : ℕ} {merged : List (ℕ × D)} (h : merged.length = kEff) :
    resultRow kEff merged = merged := by
  rw [resultRow, h, Nat.sub_self, List.replicate_zero, List.append_nil]

omit [Floating F] [Floating D] [FloatCast D F] in
theorem foldlM_firstSeen {value : ℕ × F → Outcome D} {f : ℕ × F → D} {hits : List (ℕ × F)}
    {seen : List (ℕ × D)} (hids : (seen.map Prod.fst ++ hits.map Prod.fst).Nodup)
    (hvalue : ∀ hit ∈ hits, value hit = .ok (f hit)) :
    hits.foldlM (fun seen hit =>
      if hit.1 ∈ seen.map Prod.fst then pure seen
      else do
        let dist ← value hit
        return seen ++ [(hit.1, dist)]) seen =
      (.ok (seen ++ hits.map fun hit => (hit.1, f hit)) : Outcome _) := by
  induction hits generalizing seen with
  | nil => simp [pure, Except.pure]
  | cons hit hits ih =>
    rw [List.forall_mem_cons] at hvalue
    have hnew : hit.1 ∉ seen.map Prod.fst := by
      intro hmem
      exact (List.nodup_append.mp hids).2.2 _ hmem _ (by simp) rfl
    have hids' : ((seen ++ [(hit.1, f hit)]).map Prod.fst ++ hits.map Prod.fst).Nodup := by
      simpa using hids
    rw [List.foldlM_cons, if_neg hnew, hvalue.1]
    exact (ih hids' hvalue.2).trans (by simp)

omit [Floating F] [Floating D] [FloatCast D F] in
theorem firstSeen_of_nodup {value : ℕ × F → Outcome D} {f : ℕ × F → D} {hits : List (ℕ × F)}
    (hids : (hits.map Prod.fst).Nodup) (hvalue : ∀ hit ∈ hits, value hit = .ok (f hit)) :
    firstSeen value hits = .ok (hits.map fun hit => (hit.1, f hit)) := by
  unfold firstSeen
  rw [foldlM_firstSeen (by simpa using hids) hvalue, List.nil_append]

end Order

section Exact

variable {K : Type} [ExactArith K]

theorem scoredLe_iff {a b : ℕ × K} : ScoredLe a b ↔ a.2 < b.2 ∨ a.2 = b.2 ∧ a.1 ≤ b.1 := by
  unfold ScoredLe
  rw [cmpOrEqual_exact]
  rcases lt_trichotomy a.2 b.2 with h | h | h
  · simp [compare_lt_iff_lt.mpr h, h]
  · simp [h, Ordering.then, compare_le_iff_le]
  · simp [compare_gt_iff_gt.mpr h, h.not_gt, h.ne']

instance : Std.Total (ScoredLe (F := K)) where
  total a b := by
    rw [scoredLe_iff, scoredLe_iff]
    rcases lt_trichotomy a.2 b.2 with h | h | h
    · exact .inl (.inl h)
    · rcases le_total a.1 b.1 with hid | hid
      · exact .inl (.inr ⟨h, hid⟩)
      · exact .inr (.inr ⟨h.symm, hid⟩)
    · exact .inr (.inl h)

instance : IsTrans (ℕ × K) ScoredLe where
  trans a b c := by
    simp only [scoredLe_iff]
    rintro (h | ⟨h, hid⟩) (h' | ⟨h', hid'⟩)
    · exact .inl (h.trans h')
    · exact .inl (h' ▸ h)
    · exact .inl (h ▸ h')
    · exact .inr ⟨h.trans h', hid.trans hid'⟩

instance : Std.Antisymm (ScoredLe (F := K)) where
  antisymm a b := by
    simp only [scoredLe_iff]
    rintro (h | ⟨h, hid⟩) (h' | ⟨h', hid'⟩)
    · exact absurd h' h.not_gt
    · exact absurd h (h' ▸ lt_irrefl _)
    · exact absurd h' (h ▸ lt_irrefl _)
    · exact Prod.ext (hid.antisymm hid') h

theorem nodup_ids_topK {hits : List (ℕ × K)} (h : (hits.map Prod.fst).Nodup) (k : ℕ) :
    ((topK ScoredLe k hits).map Prod.fst).Nodup :=
  ((List.take_sublist k _).map Prod.fst).nodup
    (((List.perm_insertionSort ScoredLe hits).map Prod.fst).nodup_iff.mpr h)

theorem topK_topK {k m : ℕ} (h : k ≤ m) (hits : List (ℕ × K)) :
    topK ScoredLe k (topK ScoredLe m hits) = topK ScoredLe k hits := by
  have ht := topK_topK_append ScoredLe h hits []
  rwa [List.append_nil, List.append_nil] at ht

theorem mergeTopkPrecomputedDist_eq {legA legB : List (ℕ × K)}
    (hids : ((legA ++ legB).map Prod.fst).Nodup) (kOut poolK : ℕ) (excludeNearest : Bool) :
    mergeTopkPrecomputedDist legA legB kOut poolK excludeNearest =
      (.ok (rankMerged kOut poolK excludeNearest (legA ++ legB)) : Outcome (List (ℕ × K))) := by
  have hseen := firstSeen_of_nodup (f := fun hit : ℕ × K => hit.2) hids
    fun hit _ => (rfl : (pure (toF64 hit.2) : Outcome K) = .ok hit.2)
  unfold mergeTopkPrecomputedDist
  rw [hseen]
  simp [bind, Except.bind, pure, Except.pure]

def excluded (excludeNearest : Bool) (n : ℕ) : ℕ := if excludeNearest && 1 < n then 1 else 0

theorem rankMerged_eq (kOut poolK : ℕ) (excludeNearest : Bool) (seen : List (ℕ × K)) :
    rankMerged kOut poolK excludeNearest seen =
      (topK ScoredLe (excluded excludeNearest seen.length + min poolK kOut) seen).drop
        (excluded excludeNearest seen.length) := by
  have hdrop : (if excludeNearest && 1 < (seen.insertionSort ScoredLe).length then
        (seen.insertionSort ScoredLe).drop 1 else seen.insertionSort ScoredLe) =
      (seen.insertionSort ScoredLe).drop (excluded excludeNearest seen.length) := by
    unfold excluded
    rw [List.length_insertionSort]
    split <;> rfl
  unfold rankMerged topK
  dsimp only
  rw [hdrop, List.take_take, ← List.take_drop]
  apply List.take_eq_take_iff.mpr
  omega

theorem length_rankMerged (kOut poolK : ℕ) (excludeNearest : Bool) (seen : List (ℕ × K)) :
    (rankMerged kOut poolK excludeNearest seen).length =
      min (min poolK kOut) (seen.length - excluded excludeNearest seen.length) := by
  rw [rankMerged_eq, List.length_drop, length_topK]
  omega

theorem rankMerged_sublist (kOut poolK : ℕ) (excludeNearest : Bool) (seen : List (ℕ × K)) :
    (rankMerged kOut poolK excludeNearest seen).Sublist (seen.insertionSort ScoredLe) := by
  rw [rankMerged_eq]
  exact (List.drop_sublist _ _).trans (List.take_sublist _ _)

def scored (dist : ℕ → K) (rows : List ℕ) : List (ℕ × K) := rows.map fun i => (i, dist i)

omit [ExactArith K] in
@[simp] theorem ids_scored (dist : ℕ → K) (rows : List ℕ) :
    (scored dist rows).map Prod.fst = rows := by
  simp [scored, Function.comp_def]

omit [ExactArith K] in
theorem scored_ids {dist : ℕ → K} {seen : List (ℕ × K)}
    (h : ∀ hit ∈ seen, hit.2 = dist hit.1) : scored dist (seen.map Prod.fst) = seen := by
  have hid : ∀ hit ∈ seen, (hit.1, dist hit.1) = id hit := fun hit hmem =>
    Prod.ext rfl (h hit hmem).symm
  rw [scored, List.map_map]
  exact (List.map_congr_left hid).trans (List.map_id _)

omit [ExactArith K] in
theorem snd_of_mem_scored {dist : ℕ → K} {rows : List ℕ} {hit : ℕ × K}
    (h : hit ∈ scored dist rows) : hit.2 = dist hit.1 := by
  obtain ⟨i, -, rfl⟩ := List.mem_map.mp h
  rfl

/-- The first `n` rows with their distances. -/
def scoredRows (dist : ℕ → K) (n : ℕ) : List (ℕ × K) := scored dist (List.range n)

omit [ExactArith K] in
theorem nodup_ids_scoredRows (dist : ℕ → K) (n : ℕ) :
    ((scoredRows dist n).map Prod.fst).Nodup := by
  rw [scoredRows, ids_scored]
  exact List.nodup_range

/-- The abstract answer: the `k` first rows in the order, after the nearest when it is excluded. -/
def nearestRows (dist : ℕ → K) (n k : ℕ) (excludeNearest : Bool) : List (ℕ × K) :=
  (topK ScoredLe (excludeNearest.toNat + k) (scoredRows dist n)).drop excludeNearest.toNat

theorem length_nearestRows {dist : ℕ → K} {n k : ℕ} {excludeNearest : Bool}
    (h : excludeNearest.toNat + k ≤ n) : (nearestRows dist n k excludeNearest).length = k := by
  unfold nearestRows
  rw [List.length_drop, length_topK, scoredRows, scored, List.length_map, List.length_range]
  omega

theorem dist_eq_of_nearestRows_eq {dist dist' : ℕ → K} {n : ℕ}
    (h : nearestRows dist n n false = nearestRows dist' n n false) {i : ℕ} (hi : i < n) :
    dist i = dist' i := by
  have hlen : ∀ d : ℕ → K, (scoredRows d n).length ≤ false.toNat + n := by
    intro d
    simp [scoredRows, scored]
  unfold nearestRows at h
  rw [topK_of_length_le _ (hlen dist), topK_of_length_le _ (hlen dist')] at h
  have hmem : (i, dist i) ∈ (scoredRows dist n).insertionSort ScoredLe :=
    (List.mem_insertionSort _).mpr (List.mem_map_of_mem (List.mem_range.mpr hi))
  rw [show (scoredRows dist n).insertionSort ScoredLe =
    (scoredRows dist' n).insertionSort ScoredLe from h] at hmem
  exact snd_of_mem_scored ((List.mem_insertionSort _).mp hmem)

theorem rankMerged_topK (k : ℕ) (hits : List (ℕ × K)) :
    rankMerged k k false (topK ScoredLe k hits) = topK ScoredLe k hits := by
  rw [rankMerged_eq, excluded, Bool.false_and, if_neg Bool.false_ne_true, List.drop_zero,
    Nat.zero_add, min_self, topK_topK le_rfl]

/-- Two legs that together list all rows are merged to the nearest of all rows. -/
theorem rankMerged_eq_nearestRows {dist : ℕ → K} {n k m p : ℕ} {excludeNearest : Bool}
    {as bs : List ℕ} (hrows : (as ++ bs).Perm (List.range n)) (hk : 0 < k)
    (hn : excludeNearest.toNat + k ≤ n) (hm : excludeNearest.toNat + k ≤ m)
    (hp : excludeNearest.toNat + k ≤ p) :
    rankMerged k p excludeNearest
        (topK ScoredLe m (scored dist as) ++ topK ScoredLe p (scored dist bs)) =
      nearestRows dist n k excludeNearest := by
  have hperm : (scored dist as ++ scored dist bs).Perm (scoredRows dist n) := by
    unfold scoredRows scored
    rw [← List.map_append]
    exact hrows.map _
  have hlen : as.length + bs.length = n := by
    have := hrows.length_eq
    rwa [List.length_append, List.length_range] at this
  have hexcluded : excluded excludeNearest
      (topK ScoredLe m (scored dist as) ++ topK ScoredLe p (scored dist bs)).length =
      excludeNearest.toNat := by
    rw [List.length_append, length_topK, length_topK]
    unfold excluded scored
    rw [List.length_map, List.length_map]
    cases excludeNearest with
    | false => rfl
    | true =>
      rw [Bool.toNat_true] at *
      rw [if_pos]
      simp only [Bool.true_and, decide_eq_true_eq]
      omega
  rw [rankMerged_eq, hexcluded, topK_topK_append _ (by omega), topK_append_topK _ (by omega),
    topK_congr _ hperm, min_eq_right (by omega)]
  rfl

/-- Different rows below `n` with their distances, nearest first, `k` in all. -/
structure Neighbours (dist : ℕ → K) (n k : ℕ) (row : List (ℕ × K)) : Prop where
  length_eq : row.length = k
  nodup : (row.map Prod.fst).Nodup
  hits : ∀ hit ∈ row, hit.1 < n ∧ hit.2 = dist hit.1
  sorted : row.Pairwise fun a b => a.2 ≤ b.2

/-- Enough candidates fill a row with neighbours. -/
theorem neighbours_resultRow (dist : ℕ → K) {n : ℕ} (k poolK : ℕ) (excludeNearest : Bool)
    {seen : List (ℕ × K)} (hids : (seen.map Prod.fst).Nodup)
    (hhits : ∀ hit ∈ seen, hit.1 < n ∧ hit.2 = dist hit.1) (hpool : k ≤ poolK)
    (hlen : k + excluded excludeNearest seen.length ≤ seen.length) :
    Neighbours dist n k (resultRow k (rankMerged k poolK excludeNearest seen)) := by
  have hk : (rankMerged k poolK excludeNearest seen).length = k := by
    rw [length_rankMerged]
    omega
  have hsub := rankMerged_sublist k poolK excludeNearest seen
  have hperm := List.perm_insertionSort ScoredLe seen
  rw [resultRow_of_length hk]
  constructor
  · exact hk
  · exact (hsub.map Prod.fst).nodup ((hperm.map Prod.fst).nodup_iff.mpr hids)
  · intro hit hmem
    exact hhits hit (hperm.mem_iff.mp (hsub.subset hmem))
  · refine ((List.pairwise_insertionSort ScoredLe seen).sublist hsub).imp fun h => ?_
    rcases scoredLe_iff.mp h with h | ⟨h, -⟩
    · exact h.le
    · exact h.le

end Exact

end Ennbo
