import Ennbo.Index.Draws
import Mathlib.Data.List.GetD
import Mathlib.Tactic.FieldSimp
import Mathlib.Tactic.LinearCombination

/-! # When k-means splits

A centroid is the mean of its points, and the difference of the squared
distances to two centroids is an affine function of a point. So the clusters of
nearest points have different means, and once there are two of them, no further
round of k-means brings them together.
-/

namespace Ennbo

section Means

variable {K : Type} [ExactArith K] {d : ℕ}

/-- `∑ wᵢ pᵢ` -/
def weighted (w p : List K) : K := (List.zipWith (· * ·) w p).sum

theorem weighted_addInto {w acc v : List K} (hw : w.length = acc.length)
    (hv : v.length = acc.length) :
    weighted w (addInto acc v) = weighted w acc + weighted w v := by
  induction acc generalizing w v with
  | nil =>
    obtain rfl := List.eq_nil_of_length_eq_zero hw
    simp [weighted]
  | cons a acc ih =>
    obtain ⟨y, w, rfl⟩ := List.exists_cons_of_length_eq_add_one hw
    obtain ⟨x, v, rfl⟩ := List.exists_cons_of_length_eq_add_one hv
    have h := ih (w := w) (v := v) (by simpa using hw) (by simpa using hv)
    simp only [weighted, addInto, List.zipWith_cons_cons, List.sum_cons] at h ⊢
    rw [h]
    ring

theorem length_foldl_addInto (vs : List (List K)) (acc : List K) :
    (vs.foldl addInto acc).length = acc.length := by
  induction vs generalizing acc with
  | nil => rfl
  | cons v vs ih => rw [List.foldl_cons, ih, length_addInto]

theorem weighted_foldl_addInto {w acc : List K} {vs : List (List K)} (hw : w.length = acc.length)
    (hvs : ∀ v ∈ vs, v.length = acc.length) :
    weighted w (vs.foldl addInto acc) = weighted w acc + (vs.map (weighted w)).sum := by
  induction vs generalizing acc with
  | nil => simp
  | cons v vs ih =>
    rw [List.forall_mem_cons] at hvs
    have hlen := length_addInto acc v
    rw [List.foldl_cons, ih (hw.trans hlen.symm) (by rw [hlen]; exact hvs.2),
      weighted_addInto hw hvs.1, List.map_cons, List.sum_cons, add_assoc]

theorem weighted_div (w v : List K) (n : K) :
    weighted w (v.map (· / n)) = weighted w v / n := by
  induction v generalizing w with
  | nil => simp [weighted]
  | cons x v ih =>
    cases w with
    | nil => simp [weighted]
    | cons y w =>
      have h := ih w
      simp only [weighted, List.map_cons, List.zipWith_cons_cons, List.sum_cons] at h ⊢
      rw [h]
      ring

theorem weighted_replicate_zero (w : List K) (n : ℕ) : weighted w (List.replicate n 0) = 0 := by
  induction n generalizing w with
  | zero => simp [weighted]
  | succ n ih =>
    cases w with
    | nil => simp [weighted]
    | cons y w =>
      have h := ih w
      simp only [weighted, List.replicate_succ, List.zipWith_cons_cons, List.sum_cons] at h ⊢
      rw [h, mul_zero, add_zero]

theorem exists_sqDist_sub {c c' : List K} (hc : c.length = d) (hc' : c'.length = d) :
    ∃ w : List K, ∃ e : K, w.length = d ∧
      ∀ p : List K, p.length = d → sqDist p c - sqDist p c' = weighted w p + e := by
  induction d generalizing c c' with
  | zero =>
    refine ⟨[], 0, rfl, fun p hp => ?_⟩
    obtain rfl := List.eq_nil_of_length_eq_zero hp
    simp [sqDist, weighted]
  | succ d ih =>
    obtain ⟨x, c, rfl⟩ := List.exists_cons_of_length_eq_add_one hc
    obtain ⟨x', c', rfl⟩ := List.exists_cons_of_length_eq_add_one hc'
    obtain ⟨w, e, hw, h⟩ := ih (Nat.succ.inj hc) (Nat.succ.inj hc')
    refine ⟨2 * (x' - x) :: w, e + (x * x - x' * x'), by simp [hw], fun p hp => ?_⟩
    obtain ⟨y, p, rfl⟩ := List.exists_cons_of_length_eq_add_one hp
    have hp := h p (Nat.succ.inj hp)
    simp only [sqDist, weighted, List.zipWith_cons_cons, List.sum_cons] at hp ⊢
    linear_combination hp

/-- The mean of vectors of width `d`. -/
def meanOf (d : ℕ) (vs : List (List K)) : List K :=
  (vs.foldl addInto (List.replicate d 0)).map (· / (vs.length : K))

variable {vs : List (List K)}

theorem length_meanOf (d : ℕ) (vs : List (List K)) : (meanOf d vs).length = d := by
  rw [meanOf, List.length_map, length_foldl_addInto, List.length_replicate]

theorem sum_sqDist_sub (hvs : ∀ v ∈ vs, v.length = d) (hne : vs ≠ []) {c c' : List K}
    (hc : c.length = d) (hc' : c'.length = d) :
    (vs.map fun p => sqDist p c - sqDist p c').sum =
      (vs.length : K) * (sqDist (meanOf d vs) c - sqDist (meanOf d vs) c') := by
  obtain ⟨w, e, hw, h⟩ := exists_sqDist_sub hc hc'
  have hpos : (vs.length : K) ≠ 0 := by
    rw [Ne, Nat.cast_eq_zero, List.length_eq_zero_iff]
    exact hne
  have hmap : vs.map (fun p => sqDist p c - sqDist p c') = vs.map fun p => weighted w p + e :=
    List.map_congr_left fun p hp => h p (hvs p hp)
  have hsum : (vs.map fun p => weighted w p + e).sum =
      (vs.map (weighted w)).sum + (vs.length : K) * e := by
    rw [List.sum_map_add, List.map_const', List.sum_replicate, nsmul_eq_mul]
  have hfold : weighted w (vs.foldl addInto (List.replicate d 0)) =
      weighted w (List.replicate d 0) + (vs.map (weighted w)).sum :=
    weighted_foldl_addInto (by simp [hw]) (by simpa using hvs)
  rw [weighted_replicate_zero, zero_add] at hfold
  rw [hmap, hsum, h _ (length_meanOf d vs), meanOf, weighted_div, hfold]
  field_simp

theorem meanOf_le (hvs : ∀ v ∈ vs, v.length = d) (hne : vs ≠ []) {c c' : List K}
    (hc : c.length = d) (hc' : c'.length = d) (h : ∀ v ∈ vs, sqDist v c ≤ sqDist v c') :
    sqDist (meanOf d vs) c ≤ sqDist (meanOf d vs) c' := by
  have hsum := sum_sqDist_sub hvs hne hc' hc
  have hpos : (0 : K) < vs.length := Nat.cast_pos.mpr (List.length_pos_iff.mpr hne)
  have hnonneg : 0 ≤ (vs.map fun p => sqDist p c' - sqDist p c).sum := by
    apply List.sum_nonneg
    intro x hx
    obtain ⟨v, hv, rfl⟩ := List.mem_map.mp hx
    exact sub_nonneg.mpr (h v hv)
  rw [hsum] at hnonneg
  exact sub_nonneg.mp (nonneg_of_mul_nonneg_right hnonneg hpos)

theorem meanOf_lt (hvs : ∀ v ∈ vs, v.length = d) (hne : vs ≠ []) {c c' : List K}
    (hc : c.length = d) (hc' : c'.length = d) (h : ∀ v ∈ vs, sqDist v c < sqDist v c') :
    sqDist (meanOf d vs) c < sqDist (meanOf d vs) c' := by
  have hsum := sum_sqDist_sub hvs hne hc' hc
  have hpos : (0 : K) < vs.length := Nat.cast_pos.mpr (List.length_pos_iff.mpr hne)
  have hgt : 0 < (vs.map fun p => sqDist p c' - sqDist p c).sum := by
    apply List.sum_pos
    · intro x hx
      obtain ⟨v, hv, rfl⟩ := List.mem_map.mp hx
      exact sub_pos.mpr (h v hv)
    · simpa using hne
  rw [hsum] at hgt
  exact sub_pos.mp (pos_of_mul_pos_right hgt hpos.le)

end Means

section Nearest

variable {K : Type} [ExactArith K] {d k : ℕ} {points centroids : List (List K)}

/-- The first smallest entry, when `dist` is the smallest one before place `i`. -/
theorem minByGo_spec (best i : ℕ) (dist : K) (ds : List K) (hb : best < i) :
    (minByGo best dist i ds = best ∧ ∀ x ∈ ds, dist ≤ x) ∨
      ∃ t x, ds[t]? = some x ∧ minByGo best dist i ds = i + t ∧ x < dist ∧
        (∀ y ∈ ds, x ≤ y) ∧ ∀ y ∈ ds.take t, x < y := by
  induction ds generalizing best i dist with
  | nil => exact .inl ⟨rfl, by simp⟩
  | cons x ds ih =>
    rw [minByGo]
    split
    next hgt =>
      have hlt : x < dist := by simpa [compare_gt_iff_gt] using hgt
      refine .inr ?_
      rcases ih i (i + 1) x (by omega) with ⟨heq, hall⟩ | h
      · exact ⟨0, x, rfl, heq, hlt, by simpa using hall, by simp⟩
      · obtain ⟨t, y, hy, heq, hyx, hall, htake⟩ := h
        refine ⟨t + 1, y, hy, by omega, hyx.trans hlt, ?_, ?_⟩
        · rw [List.forall_mem_cons]
          exact ⟨hyx.le, hall⟩
        · rw [List.take_succ_cons, List.forall_mem_cons]
          exact ⟨hyx, htake⟩
    next hgt =>
      have hle : dist ≤ x := by simpa [compare_gt_iff_gt] using hgt
      rcases ih best (i + 1) dist (by omega) with ⟨heq, hall⟩ | h
      · refine .inl ⟨heq, ?_⟩
        rw [List.forall_mem_cons]
        exact ⟨hle, hall⟩
      · obtain ⟨t, y, hy, heq, hyd, hall, htake⟩ := h
        refine .inr ⟨t + 1, y, hy, by omega, hyd, ?_, ?_⟩
        · rw [List.forall_mem_cons]
          exact ⟨hyd.le.trans hle, hall⟩
        · rw [List.take_succ_cons, List.forall_mem_cons]
          exact ⟨hyd.trans_le hle, htake⟩

/-- The first of the centroids at the smallest distance. -/
structure Nearest (centroids : List (List K)) (p : List K) (i : ℕ) : Prop where
  lt : i < centroids.length
  le : ∀ j < centroids.length, sqDist p (centroids.getD i []) ≤ sqDist p (centroids.getD j [])
  first : ∀ j < i, sqDist p (centroids.getD i []) < sqDist p (centroids.getD j [])

theorem nearest_closestCentroid {p : List K} (hp : p.length = d)
    (hc : ∀ c ∈ centroids, c.length = d) (hne : centroids ≠ []) :
    Nearest centroids p (closestCentroid p centroids) := by
  obtain ⟨c, cs, rfl⟩ := List.exists_cons_of_ne_nil hne
  have hdist : (c :: cs).map (l2SqF32 p) = (c :: cs).map (sqDist p) :=
    List.map_congr_left fun x hx => l2SqF32_eq (hp.trans (hc x hx).symm)
  unfold closestCentroid
  rw [hdist]
  change Nearest (c :: cs) p (minByGo 0 (sqDist p c) 1 (cs.map (sqDist p)))
  rcases minByGo_spec 0 1 (sqDist p c) (cs.map (sqDist p)) (by omega)
    with ⟨heq, hall⟩ | ⟨t, x, hx, heq, hlt, hall, htake⟩
  · rw [heq]
    refine ⟨by simp, fun j hj => ?_, by omega⟩
    cases j with
    | zero => exact le_rfl
    | succ j =>
      have hj : j < cs.length := by simpa using hj
      rw [List.getD_cons_zero, List.getD_cons_succ, List.getD_eq_getElem _ _ hj]
      exact hall _ (List.mem_map_of_mem (List.getElem_mem hj))
  · rw [heq, Nat.add_comm]
    obtain ⟨ht, rfl⟩ := List.getElem?_eq_some_iff.mp hx
    rw [List.length_map] at ht
    have hmem : ∀ j (hj : j < cs.length), sqDist p (cs.getD j []) = sqDist p cs[j] := fun j hj => by
      rw [List.getD_eq_getElem _ _ hj]
    rw [List.getElem_map] at hlt hall htake
    refine ⟨by simpa using ht, fun j hj => ?_, fun j hj => ?_⟩
    · rw [List.getD_cons_succ, hmem t ht]
      cases j with
      | zero => exact hlt.le
      | succ j =>
        have hj : j < cs.length := by simpa using hj
        rw [List.getD_cons_succ, hmem j hj]
        exact hall _ (List.mem_map_of_mem (List.getElem_mem hj))
    · rw [List.getD_cons_succ, hmem t ht]
      cases j with
      | zero => exact hlt
      | succ j =>
        have hj' : j < cs.length := by omega
        rw [List.getD_cons_succ, hmem j hj']
        apply htake
        rw [List.mem_take_iff_getElem]
        exact ⟨j, by simp; omega, by simp⟩

def cluster (points : List (List K)) (f : List K → ℕ) (c : ℕ) : List (List K) :=
  points.filter fun p => f p == c

omit [ExactArith K] in
theorem zip_map_self {α β : Type} (f : α → β) (as : List α) :
    as.zip (as.map f) = as.map fun a => (a, f a) := by
  induction as with
  | nil => rfl
  | cons a as ih => rw [List.map_cons, List.zip_cons_cons, ih, List.map_cons]

theorem getD_recomputeCentroids (hd : ∀ p ∈ points, p.length = d) {f : List K → ℕ} {c : ℕ}
    (hc : c < k) (hne : cluster points f c ≠ []) :
    (recomputeCentroids points (points.map f) k).getD c [] = meanOf d (cluster points f c) := by
  obtain ⟨q, hq⟩ := List.exists_mem_of_ne_nil _ hne
  obtain ⟨p, ps, rfl⟩ := List.exists_cons_of_ne_nil
    (List.ne_nil_of_mem (List.mem_filter.mp hq).1)
  have hp : p.length = d := hd p List.mem_cons_self
  have hmembers : (((p :: ps).zip ((p :: ps).map f)).filter fun pa => pa.2 == c) =
      (cluster (p :: ps) f c).map fun p => (p, f p) := by
    rw [zip_map_self, List.filter_map]
    rfl
  unfold recomputeCentroids
  rw [List.getD_eq_getElem _ _ (by simpa using hc), List.getElem_map, List.getElem_range,
    hmembers, if_neg (by simpa using hne), List.foldl_map, List.length_map]
  change (List.foldl addInto (List.replicate p.length 0) _).map _ = _
  rw [hp]
  rfl

theorem length_of_mem_recomputeCentroids (hd : ∀ p ∈ points, p.length = d) (hne : points ≠ [])
    (f : List K → ℕ) : ∀ c ∈ recomputeCentroids points (points.map f) k, c.length = d := by
  obtain ⟨p, ps, rfl⟩ := List.exists_cons_of_ne_nil hne
  have hp : p.length = d := hd p List.mem_cons_self
  intro c hc
  unfold recomputeCentroids at hc
  obtain ⟨i, hi, rfl⟩ := List.mem_map.mp hc
  have hi : i < k := List.mem_range.mp hi
  by_cases h : cluster (p :: ps) f i = []
  · have hmembers : (((p :: ps).zip ((p :: ps).map f)).filter fun pa => pa.2 == i) = [] := by
      rw [zip_map_self, List.filter_map]
      exact congrArg (List.map _) h
    rw [hmembers]
    exact (List.length_replicate).trans hp
  · have hmean := getD_recomputeCentroids hd hi h
    unfold recomputeCentroids at hmean
    rw [List.getD_eq_getElem _ _ (by simpa using hi), List.getElem_map, List.getElem_range]
      at hmean
    exact (congrArg List.length hmean).trans
      (length_meanOf _ _)

def Split (assignments : List ℕ) : Prop := ∃ a ∈ assignments, ∃ b ∈ assignments, a ≠ b

/-- Another round keeps two clusters apart. -/
theorem Split.recompute (hd : ∀ p ∈ points, p.length = d) (hc : ∀ c ∈ centroids, c.length = d)
    (h : Split (assignClusters points centroids)) :
    Split (assignClusters points
      (recomputeCentroids points (assignClusters points centroids) centroids.length)) := by
  let f := fun p => closestCentroid p centroids
  let new := recomputeCentroids points (points.map f) centroids.length
  by_contra hnot
  obtain ⟨a, ha, b, hb, hab⟩ := h
  have hpoints : points ≠ [] := by
    rintro rfl
    cases ha
  have hcne : centroids ≠ [] := by
    rintro rfl
    obtain ⟨p, -, rfl⟩ := List.mem_map.mp ha
    obtain ⟨q, -, rfl⟩ := List.mem_map.mp hb
    exact hab rfl
  have hlen : new.length = centroids.length := length_recomputeCentroids _ _ _
  have hnew : ∀ c ∈ new, c.length = d := length_of_mem_recomputeCentroids hd hpoints f
  have hnewne : new ≠ [] := by
    rw [← List.length_pos_iff, hlen]
    exact List.length_pos_iff.mpr hcne
  have hgetD : ∀ (cs : List (List K)), (∀ c ∈ cs, c.length = d) → ∀ i < cs.length,
      (cs.getD i []).length = d := fun cs hcs i hi => by
    rw [List.getD_eq_getElem _ _ hi]
    exact hcs _ (List.getElem_mem hi)
  obtain ⟨p₀, hp₀⟩ := List.exists_mem_of_ne_nil _ hpoints
  let j := closestCentroid p₀ new
  have hj : ∀ p ∈ points, Nearest new p j := by
    intro p hp
    have hsame : closestCentroid p new = j := by
      by_contra hne
      exact hnot ⟨_, List.mem_map_of_mem hp, _, List.mem_map_of_mem hp₀, hne⟩
    rw [← hsame]
    exact nearest_closestCentroid (hd p hp) hnew hnewne
  -- all points are nearest to one centroid, so every cluster has its mean there
  have hmean : ∀ i ∈ points.map f, i < centroids.length ∧ cluster points f i ≠ [] ∧
      meanOf d (cluster points f i) = new.getD j [] := by
    intro i hi
    obtain ⟨p, hp, rfl⟩ := List.mem_map.mp hi
    have hlt := (nearest_closestCentroid (hd p hp) hc hcne).lt
    have hne : cluster points f (f p) ≠ [] :=
      List.ne_nil_of_mem (List.mem_filter.mpr ⟨hp, by simp⟩)
    have hwidth : ∀ v ∈ cluster points f (f p), v.length = d :=
      fun v hv => hd v (List.mem_filter.mp hv).1
    refine ⟨hlt, hne, ?_⟩
    have hjlen := hgetD new hnew j (hj p hp).lt
    have hle := meanOf_le hwidth hne hjlen (length_meanOf _ _) fun v hv => by
      have hle := (hj v (List.mem_filter.mp hv).1).le (f p) (by rw [hlen]; exact hlt)
      rw [getD_recomputeCentroids hd hlt hne] at hle
      exact hle
    rw [sqDist_self] at hle
    exact eq_of_sqDist_eq_zero ((length_meanOf _ _).trans hjlen.symm)
      (le_antisymm hle (sqDist_nonneg _ _))
  -- but the old centroids tell the means of two clusters apart
  have key : ∀ a ∈ points.map f, ∀ b ∈ points.map f, a < b → False := by
    intro a ha b hb hlt
    obtain ⟨hak, hane, hma⟩ := hmean a ha
    obtain ⟨hbk, hbne, hmb⟩ := hmean b hb
    have hnear : ∀ i, ∀ v ∈ cluster points f i, v.length = d ∧ Nearest centroids v i := by
      intro i v hv
      obtain ⟨hv, hi⟩ := List.mem_filter.mp hv
      have hi : closestCentroid v centroids = i := by simpa using hi
      refine ⟨hd v hv, ?_⟩
      rw [← hi]
      exact nearest_closestCentroid (hd v hv) hc hcne
    have hle := meanOf_le (fun v hv => (hnear a v hv).1) hane (hgetD _ hc a hak)
      (hgetD _ hc b hbk) fun v hv => (hnear a v hv).2.le b hbk
    have hlt := meanOf_lt (fun v hv => (hnear b v hv).1) hbne (hgetD _ hc b hbk)
      (hgetD _ hc a hak) fun v hv => (hnear b v hv).2.first a hlt
    rw [hma] at hle
    rw [hmb] at hlt
    exact absurd hle (not_le.mpr hlt)
  rcases lt_or_gt_of_ne hab with hlt | hgt
  · exact key a ha b hb hlt
  · exact key b hb a ha hgt

theorem Split.kmeansLoop (hd : ∀ p ∈ points, p.length = d) (n : ℕ) (centroids' : List (List K))
    (hc : ∀ c ∈ centroids, c.length = d) (hk : centroids.length = k)
    (h : Split (assignClusters points centroids)) :
    Split (kmeansLoop points k n centroids' (assignClusters points centroids)).2 := by
  induction n generalizing centroids centroids' with
  | zero => exact h
  | succ n ih =>
    have hpoints : points ≠ [] := by
      rintro rfl
      obtain ⟨a, ha, -⟩ := h
      cases ha
    have hnext := h.recompute hd hc
    rw [hk] at hnext
    unfold Ennbo.kmeansLoop
    dsimp only
    split
    · exact h
    · exact ih _ (length_of_mem_recomputeCentroids hd hpoints fun p => closestCentroid p centroids)
        (length_recomputeCentroids _ _ _) hnext

theorem split_assignClusters (hd : ∀ p ∈ points, p.length = d)
    (hc : ∀ c ∈ centroids, c ∈ points) {p q : List K} (hp : p ∈ centroids) (hq : q ∈ centroids)
    (hpq : p ≠ q) : Split (assignClusters points centroids) := by
  have hwidth : ∀ c ∈ centroids, c.length = d := fun c h => hd c (hc c h)
  have hself : ∀ p ∈ centroids, centroids.getD (closestCentroid p centroids) [] = p := by
    intro p hp
    have hnear := nearest_closestCentroid (hwidth p hp) hwidth (List.ne_nil_of_mem hp)
    obtain ⟨i, hi, rfl⟩ := List.getElem_of_mem hp
    have hle := hnear.le i hi
    rw [List.getD_eq_getElem _ _ hi, sqDist_self] at hle
    have hmem : centroids.getD (closestCentroid centroids[i] centroids) [] ∈ centroids := by
      rw [List.getD_eq_getElem _ _ hnear.lt]
      exact List.getElem_mem _
    exact (eq_of_sqDist_eq_zero ((hwidth _ (List.getElem_mem hi)).trans (hwidth _ hmem).symm)
      (le_antisymm hle (sqDist_nonneg _ _))).symm
  refine ⟨_, List.mem_map_of_mem (hc p hp), _, List.mem_map_of_mem (hc q hq), fun heq => hpq ?_⟩
  rw [← hself p hp, ← hself q hq, heq]

end Nearest

section Draws

variable {K : Type} [ExactArith K] {d k : ℕ} {points centroids : List (List K)}

theorem leB_exact (a b : K) : leB a b = decide (a ≤ b) := by
  unfold leB
  rw [ExactArith.partialCmp_eq]
  rcases lt_trichotomy a b with h | rfl | h
  · rw [compare_lt_iff_lt.mpr h]
    simp [h.le]
  · rw [compare_eq_iff_eq.mpr rfl]
    simp
  · rw [compare_gt_iff_gt.mpr h]
    simp [h]

/-- A point away from the only centroid has a positive distance, the centroid itself has none. -/
theorem drawDist_of_forall_eq (hinf : (0 : K) < infinity) {c : List K} (hc : c.length = d)
    (hne : centroids ≠ []) (hall : ∀ x ∈ centroids, x = c) {p : List K} (hp : p.length = d) :
    0 ≤ drawDist centroids p ∧ (drawDist centroids p = 0 ↔ p = c) := by
  have hfold : ∀ (cs : List (List K)) (m : K), (∀ x ∈ cs, x = c) → m ≤ sqDist p c →
      (cs.map (l2SqF32 p)).foldl min m = m := by
    intro cs
    induction cs with
    | nil => exact fun m _ _ => rfl
    | cons x cs ih =>
      intro m hall hm
      rw [List.forall_mem_cons] at hall
      obtain ⟨rfl, hall⟩ := hall
      rw [List.map_cons, List.foldl_cons, l2SqF32_eq (hp.trans hc.symm), min_eq_left hm]
      exact ih m hall hm
  obtain ⟨x, cs, rfl⟩ := List.exists_cons_of_ne_nil hne
  rw [List.forall_mem_cons] at hall
  obtain ⟨rfl, hall⟩ := hall
  have hval : drawDist (x :: cs) p = min infinity (sqDist p x) := by
    unfold drawDist
    rw [List.map_cons, List.foldl_cons, l2SqF32_eq (hp.trans hc.symm)]
    exact hfold cs _ hall (min_le_right _ _)
  have hnonneg := sqDist_nonneg p x
  rw [hval]
  refine ⟨le_min hinf.le hnonneg, ?_, ?_⟩
  · intro h0
    apply eq_of_sqDist_eq_zero (hp.trans hc.symm)
    rcases min_choice infinity (sqDist p x) with h | h
    · exact absurd (h.symm.trans h0) hinf.ne'
    · exact h.symm.trans h0
  · rintro rfl
    rw [sqDist_self]
    exact min_eq_right hinf.le

/-- A positive draw below the sum picks an entry that is positive. -/
theorem pickIndex_spec {ds : List K} (hds : ∀ x ∈ ds, 0 ≤ x) {pick : K} (hpos : 0 < pick)
    (hlt : pick ≤ ds.sum) (i : ℕ) :
    ∃ t x, pickIndex pick i ds = i + t ∧ ds[t]? = some x ∧ 0 < x := by
  induction ds generalizing pick i with
  | nil => exact absurd hlt (not_le.mpr (by simpa using hpos))
  | cons x ds ih =>
    rw [List.forall_mem_cons] at hds
    rw [List.sum_cons] at hlt
    rw [pickIndex]
    split
    next hle =>
      have hle : pick - x ≤ 0 := by
        rw [leB_exact] at hle
        simpa using hle
      exact ⟨0, x, rfl, rfl, by linarith⟩
    next hle =>
      have hgt : 0 < pick - x := by
        rw [leB_exact] at hle
        simpa using hle
      obtain ⟨t, y, heq, hy, hpos'⟩ := ih hds.2 hgt (by linarith) (i + 1)
      exact ⟨t + 1, y, by omega, hy, hpos'⟩

variable {rng : Rng K}

/-- While there is one centroid only, a positive draw takes a point away from it. -/
theorem nextCentroid_ne (hinf : (0 : K) < infinity) (hd : ∀ p ∈ points, p.length = d)
    {centroids : List (List K)} {c : List K} (hc : c.length = d) (hne : centroids ≠ [])
    (hall : ∀ x ∈ centroids, x = c) {q : List K} (hq : q ∈ points) (hqc : q ≠ c)
    (hpos : 0 < rng.floats rng.drawn) (hlt : rng.floats rng.drawn < 1) :
    nextCentroid points centroids rng ≠ c := by
  have hdist : ∀ p ∈ points, 0 ≤ drawDist centroids p ∧ (drawDist centroids p = 0 ↔ p = c) :=
    fun p hp => drawDist_of_forall_eq hinf hc hne hall (hd p hp)
  have hnonneg : ∀ x ∈ points.map (drawDist centroids), 0 ≤ x := by
    intro x hx
    obtain ⟨p, hp, rfl⟩ := List.mem_map.mp hx
    exact (hdist p hp).1
  have hsum : 0 < (points.map (drawDist centroids)).sum := by
    have hle := List.single_le_sum hnonneg _ (List.mem_map_of_mem hq)
    have hqpos : 0 < drawDist centroids q :=
      lt_of_le_of_ne (hdist q hq).1 fun h => hqc ((hdist q hq).2.mp h.symm)
    exact hqpos.trans_le hle
  unfold nextCentroid
  dsimp only
  rw [foldl_add, zero_add, leB_exact, if_neg (by simpa using hsum)]
  have hle : rng.floats rng.drawn * (points.map (drawDist centroids)).sum ≤
      (points.map (drawDist centroids)).sum := mul_le_of_le_one_left hsum.le hlt.le
  obtain ⟨t, x, heq, hx, hxpos⟩ := pickIndex_spec hnonneg (mul_pos hpos hsum) hle 0
  change points.getD (pickIndex (rng.floats rng.drawn * _) 0 _) [] ≠ c
  rw [heq, Nat.zero_add]
  obtain ⟨p, hp, rfl⟩ := Option.map_eq_some_iff.mp ((List.getElem?_map).symm.trans hx)
  obtain ⟨ht, rfl⟩ := List.getElem?_eq_some_iff.mp hp
  rw [List.getD_eq_getElem _ _ ht]
  intro h
  rw [(hdist _ (List.getElem_mem ht)).2.mpr h] at hxpos
  exact lt_irrefl _ hxpos

/-- One positive draw gives two different centroids. -/
theorem exists_ne_extendCentroids (hinf : (0 : K) < infinity) (hd : ∀ p ∈ points, p.length = d)
    {p q : List K} (hp : p ∈ points) (hq : q ∈ points) (hpq : p ≠ q) (n : ℕ)
    {centroids : List (List K)} (hc : ∀ c ∈ centroids, c ∈ points) (hne : centroids ≠ [])
    (rng : Rng K) {i : ℕ} (hi : i < n) (hpos : 0 < rng.floats (rng.drawn + i))
    (hlt : rng.floats (rng.drawn + i) < 1) :
    ∃ a ∈ (extendCentroids points n centroids rng).1,
      ∃ b ∈ (extendCentroids points n centroids rng).1, a ≠ b := by
  have hpoints := List.ne_nil_of_mem hp
  induction n generalizing centroids rng i with
  | zero => omega
  | succ n ih =>
    obtain ⟨-, hstay⟩ := mem_extendCentroids hpoints (n + 1) hc rng
    by_cases hdiff : ∃ a ∈ centroids, ∃ b ∈ centroids, a ≠ b
    · obtain ⟨a, ha, b, hb, hab⟩ := hdiff
      exact ⟨a, hstay a ha, b, hstay b hb, hab⟩
    · obtain ⟨c, hcmem⟩ := List.exists_mem_of_ne_nil _ hne
      have hall : ∀ x ∈ centroids, x = c := by
        intro x hx
        by_contra hxc
        exact hdiff ⟨x, hx, c, hcmem, hxc⟩
      have hnext : ∀ c ∈ centroids ++ [nextCentroid points centroids rng], c ∈ points := by
        intro c h
        rcases List.mem_append.mp h with h | h
        · exact hc c h
        · rw [List.mem_singleton.mp h]
          exact nextCentroid_mem hpoints centroids rng
      rw [extendCentroids_succ] at hstay ⊢
      cases i with
      | zero =>
        obtain ⟨r, hr, hrc⟩ : ∃ r ∈ points, r ≠ c := by
          by_cases h : p = c
          · exact ⟨q, hq, fun hqc => hpq (h.trans hqc.symm)⟩
          · exact ⟨p, hp, h⟩
        have hother := nextCentroid_ne hinf hd (hd c (hc c hcmem)) hne hall hr hrc hpos hlt
        obtain ⟨-, hstay'⟩ := mem_extendCentroids hpoints n hnext (rng.skip 1)
        exact ⟨_, hstay' _ (List.mem_append_right _ (List.mem_singleton_self _)), c,
          hstay c hcmem, hother⟩
      | succ i =>
        have hdrawn : (rng.skip 1).drawn + i = rng.drawn + (i + 1) := by
          change rng.drawn + 1 + i = _
          omega
        exact ih hnext (by simp) (rng.skip 1) (i := i) (by omega) (by rw [hdrawn]; exact hpos)
          (by rw [hdrawn]; exact hlt)

/-- One positive draw and two different points split the points. -/
theorem split_kmeansRun (hinf : (0 : K) < infinity) (hd : ∀ p ∈ points, p.length = d)
    {p q : List K} (hp : p ∈ points) (hq : q ∈ points) (hpq : p ≠ q) (n : ℕ)
    (rng : Rng K) {i : ℕ} (hi₀ : 0 < i) (hi : i < min k points.length)
    (hpos : 0 < rng.floats (rng.drawn + i)) (hlt : rng.floats (rng.drawn + i) < 1) :
    Split (kmeansRun points k n rng).2.1 := by
  have hpoints := List.ne_nil_of_mem hp
  have hlen : 0 < points.length := List.length_pos_iff.mpr hpoints
  have hmax : max (min k points.length) 1 = min k points.length := by omega
  have hfirst : ∀ c ∈ [points.getD (rng.genRange points.length).1 []], c ∈ points := by
    intro c hc
    have hmod : (rng.genRange points.length).1 < points.length := Nat.mod_lt _ hlen
    rw [List.mem_singleton.mp hc, List.getD_eq_getElem _ _ hmod]
    exact List.getElem_mem hmod
  have hdrawn : (rng.skip 1).drawn + (i - 1) = rng.drawn + i := by
    change rng.drawn + 1 + (i - 1) = _
    omega
  obtain ⟨a, ha, b, hb, hab⟩ := exists_ne_extendCentroids hinf hd hp hq hpq
    (min k points.length - 1) hfirst (by simp) (rng.skip 1) (i := i - 1) (by omega)
    (by rw [hdrawn]; exact hpos) (by rw [hdrawn]; exact hlt)
  obtain ⟨hmem, -⟩ := mem_extendCentroids hpoints (min k points.length - 1) hfirst (rng.skip 1)
  have hsplit := split_assignClusters hd hmem ha hb hab
  have hcount := length_kmeansPlusPlusInit hpoints (k := min k points.length) (by omega) rng
  rw [min_assoc, min_self, kmeansPlusPlusInit_eq hpoints (by omega), min_assoc, min_self] at hcount
  unfold kmeansRun
  rw [if_neg (by simpa using hpoints)]
  dsimp only
  rw [hmax, kmeansPlusPlusInit_eq hpoints (by omega), min_assoc, min_self]
  exact Split.kmeansLoop hd n _ (fun c hc => hd c (hmem c hc)) hcount hsplit

end Draws

end Ennbo
