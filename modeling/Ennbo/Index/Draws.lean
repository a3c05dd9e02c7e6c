import Ennbo.Index.KMeans
import Mathlib.Data.List.GetD

/-! # What a clustering draws

A clustering into `k` parts draws one integer and `k - 1` integers or floats, and nothing
else of the generator decides what it gives. Generators that agree on these draws may
thus be put together from parts of others.
-/

namespace Ennbo

variable {F : Type} {m n k : ℕ} {rng rng' rng'' : Rng F}

namespace Rng

/-- After `n` draws. -/
def skip (rng : Rng F) (n : ℕ) : Rng F := { rng with drawn := rng.drawn + n }

/-- The next `n` draws are the same. -/
def Agree (n : ℕ) (rng rng' : Rng F) : Prop :=
  ∀ t < n, rng.ints (rng.drawn + t) = rng'.ints (rng'.drawn + t) ∧
    rng.floats (rng.drawn + t) = rng'.floats (rng'.drawn + t)

/-- All floats are possible ones. -/
def Within (U : Set F) (rng : Rng F) : Prop := ∀ t, rng.floats t ∈ U

/-- The next `n` draws of one generator and then those of another. -/
def splice (n : ℕ) (rng rng' : Rng F) : Rng F where
  ints t := if t < n then rng.ints (rng.drawn + t) else rng'.ints (rng'.drawn + (t - n))
  floats t := if t < n then rng.floats (rng.drawn + t) else rng'.floats (rng'.drawn + (t - n))

/-- The next `n` draws of a generator again and again. -/
def repeating (n : ℕ) (rng : Rng F) : Rng F where
  ints t := rng.ints (rng.drawn + t % n)
  floats t := rng.floats (rng.drawn + t % n)

theorem skip_skip (rng : Rng F) (m n : ℕ) : (rng.skip m).skip n = rng.skip (m + n) := by
  unfold skip
  simp only [mk.injEq, true_and]
  omega

@[simp] theorem skip_zero (rng : Rng F) : rng.skip 0 = rng := rfl

theorem Agree.symm (h : Agree n rng rng') : Agree n rng' rng := fun t ht =>
  ⟨(h t ht).1.symm, (h t ht).2.symm⟩

theorem Agree.mono (h : Agree n rng rng') (hle : m ≤ n) : Agree m rng rng' := fun t ht =>
  h t (ht.trans_le hle)

theorem Agree.skip (h : Agree (m + n) rng rng') : Agree n (rng.skip m) (rng'.skip m) := by
  intro t ht
  have hm := h (m + t) (by omega)
  rw [← Nat.add_assoc, ← Nat.add_assoc] at hm
  exact hm

variable {U : Set F}

theorem Within.skip (h : rng.Within U) (n : ℕ) : (rng.skip n).Within U := h

theorem Within.splice (h : rng.Within U) (h' : rng'.Within U) (n : ℕ) :
    (rng.splice n rng').Within U := by
  intro t
  unfold Rng.splice
  dsimp only
  split
  · exact h _
  · exact h' _

theorem Within.repeating (h : rng.Within U) (n : ℕ) : (rng.repeating n).Within U := fun _ => h _

theorem agree_splice (n : ℕ) (rng rng' : Rng F) : Agree n rng (rng.splice n rng') := by
  intro t ht
  unfold splice
  simp only [Nat.zero_add, if_pos ht, and_self]

theorem agree_skip_splice (m n : ℕ) (rng rng' : Rng F) :
    Agree m rng' ((rng.splice n rng').skip n) := by
  intro t _
  unfold splice skip
  dsimp only
  rw [if_neg (by omega), if_neg (by omega), show 0 + n + t - n = t by omega]
  exact ⟨rfl, rfl⟩

theorem agree_repeating (n j : ℕ) (rng : Rng F) :
    Agree n rng ((rng.repeating n).skip (j * n)) := by
  intro t ht
  unfold repeating skip
  dsimp only
  rw [show 0 + j * n + t = t + n * j by rw [Nat.mul_comm]; omega, Nat.add_mul_mod_self_left,
    Nat.mod_eq_of_lt ht]
  exact ⟨rfl, rfl⟩

end Rng

variable [Floating F] {points : List (List F)}

open Rng (Agree)

section Centroids

def drawDist (centroids : List (List F)) (p : List F) : F :=
  (centroids.map (l2SqF32 p)).foldl min infinity

/-- The point that is drawn as the next centroid. -/
def nextCentroid (points centroids : List (List F)) (rng : Rng F) : List F :=
  let dists := points.map (drawDist centroids)
  let sum := dists.foldl (· + ·) 0
  if leB sum 0 then points.getD (rng.genRange points.length).1 []
  else points.getD (pickIndex (rng.gen.1 * sum) 0 dists) []

theorem extendCentroids_succ (points : List (List F)) (n : ℕ) (centroids : List (List F))
    (rng : Rng F) :
    extendCentroids points (n + 1) centroids rng =
      extendCentroids points n (centroids ++ [nextCentroid points centroids rng])
        (rng.skip 1) := by
  rw [extendCentroids]
  unfold nextCentroid
  dsimp only
  change (if leB ((points.map (drawDist centroids)).foldl (· + ·) 0) 0 = true then _ else _) = _
  split
  · rfl
  · rfl

theorem nextCentroid_congr (h : Agree 1 rng rng') (centroids : List (List F)) :
    nextCentroid points centroids rng = nextCentroid points centroids rng' := by
  obtain ⟨hint, hfloat⟩ := h 0 one_pos
  unfold nextCentroid Rng.genRange Rng.gen
  dsimp only
  rw [Nat.add_zero, Nat.add_zero] at hint hfloat
  rw [hint, hfloat]

theorem extendCentroids_rng (points : List (List F)) (n : ℕ) (centroids : List (List F))
    (rng : Rng F) : (extendCentroids points n centroids rng).2 = rng.skip n := by
  induction n generalizing centroids rng with
  | zero => rfl
  | succ n ih => rw [extendCentroids_succ, ih, Rng.skip_skip, Nat.add_comm]

theorem extendCentroids_congr (h : Agree n rng rng') (centroids : List (List F)) :
    (extendCentroids points n centroids rng).1 = (extendCentroids points n centroids rng').1 := by
  induction n generalizing centroids rng rng' with
  | zero => rfl
  | succ n ih =>
    rw [extendCentroids_succ, extendCentroids_succ, nextCentroid_congr (h.mono (by omega))]
    exact ih (Agree.skip (m := 1) (by rwa [Nat.add_comm])) _

theorem kmeansPlusPlusInit_eq (hpoints : points ≠ []) (hk : 0 < k) (rng : Rng F) :
    kmeansPlusPlusInit points k rng =
      extendCentroids points (min k points.length - 1)
        [points.getD (rng.genRange points.length).1 []] (rng.skip 1) := by
  unfold kmeansPlusPlusInit
  rw [if_neg (by simp [hpoints]; omega)]
  rfl

theorem kmeansPlusPlusInit_congr (hpoints : points ≠ []) (hk : 0 < k)
    (h : Agree (min k points.length) rng rng') :
    (kmeansPlusPlusInit points k rng).1 = (kmeansPlusPlusInit points k rng').1 := by
  have hlen : 0 < points.length := List.length_pos_iff.mpr hpoints
  have hfirst : (rng.genRange points.length).1 = (rng'.genRange points.length).1 :=
    congrArg (· % points.length) (h 0 (by omega)).1
  rw [kmeansPlusPlusInit_eq hpoints hk, kmeansPlusPlusInit_eq hpoints hk, hfirst]
  exact extendCentroids_congr (Agree.skip (h.mono (by omega))) _

theorem pickIndex_lt (pick : F) (i : ℕ) (ds : List F) :
    pickIndex pick i ds = 0 ∨ pickIndex pick i ds < i + ds.length := by
  induction ds generalizing pick i with
  | nil => exact .inl rfl
  | cons x ds ih =>
    rw [pickIndex, List.length_cons]
    split
    · exact .inr (by omega)
    · rcases ih (pick - x) (i + 1) with h | h
      · exact .inl h
      · exact .inr (by omega)

theorem nextCentroid_mem (hpoints : points ≠ []) (centroids : List (List F)) (rng : Rng F) :
    nextCentroid points centroids rng ∈ points := by
  have hpos : 0 < points.length := List.length_pos_iff.mpr hpoints
  have hmem : ∀ i < points.length, points.getD i [] ∈ points := fun i hi => by
    rw [List.getD_eq_getElem _ _ hi]
    exact List.getElem_mem hi
  unfold nextCentroid
  dsimp only
  split
  · exact hmem _ (Nat.mod_lt _ hpos)
  · apply hmem
    rcases pickIndex_lt (rng.gen.1 * _) 0 (points.map (drawDist centroids)) with h | h
    · rw [h]
      exact hpos
    · simpa using h

theorem mem_extendCentroids (hpoints : points ≠ []) (n : ℕ) {centroids : List (List F)}
    (hc : ∀ c ∈ centroids, c ∈ points) (rng : Rng F) :
    (∀ c ∈ (extendCentroids points n centroids rng).1, c ∈ points) ∧
      ∀ c ∈ centroids, c ∈ (extendCentroids points n centroids rng).1 := by
  induction n generalizing centroids rng with
  | zero => exact ⟨hc, fun c h => h⟩
  | succ n ih =>
    rw [extendCentroids_succ]
    have hnext : ∀ c ∈ centroids ++ [nextCentroid points centroids rng], c ∈ points := by
      intro c h
      rcases List.mem_append.mp h with h | h
      · exact hc c h
      · rw [List.mem_singleton.mp h]
        exact nextCentroid_mem hpoints centroids rng
    obtain ⟨h₁, h₂⟩ := ih hnext (rng.skip 1)
    exact ⟨h₁, fun c h => h₂ c (List.mem_append_left _ h)⟩

end Centroids

section Run

theorem kmeansRun_rng (hpoints : points ≠ []) (hk : 0 < k) (n : ℕ) (rng : Rng F) :
    (kmeansRun points k n rng).2.2 = rng.skip (min k points.length) := by
  have hlen : 0 < points.length := List.length_pos_iff.mpr hpoints
  have hmax : max (min k points.length) 1 = min k points.length := by omega
  unfold kmeansRun
  rw [if_neg (by simpa using hpoints)]
  dsimp only
  rw [hmax, kmeansPlusPlusInit_eq hpoints (by omega), extendCentroids_rng, Rng.skip_skip]
  congr 1
  omega

theorem kmeansRun_congr (hpoints : points ≠ []) (hk : 0 < k) (n : ℕ)
    (h : Agree (min k points.length) rng rng') :
    (kmeansRun points k n rng).2.1 = (kmeansRun points k n rng').2.1 := by
  have hlen : 0 < points.length := List.length_pos_iff.mpr hpoints
  have hmax : max (min k points.length) 1 = min k points.length := by omega
  unfold kmeansRun
  rw [if_neg (by simpa using hpoints), if_neg (by simpa using hpoints)]
  dsimp only
  rw [hmax, kmeansPlusPlusInit_congr hpoints (by omega) (h.mono (by omega))]

theorem exists_kmeansLoop (points : List (List F)) (k n : ℕ) (centroids' : List (List F))
    (centroids : List (List F)) :
    ∃ cs, (kmeansLoop points k n centroids' (assignClusters points centroids)).2 =
      assignClusters points cs := by
  induction n generalizing centroids centroids' with
  | zero => exact ⟨centroids, rfl⟩
  | succ n ih =>
    rw [kmeansLoop]
    split
    · exact ⟨centroids, rfl⟩
    · exact ih _ _

theorem exists_kmeansRun (points : List (List F)) (k n : ℕ) (rng : Rng F) :
    ∃ cs, (kmeansRun points k n rng).2.1 = assignClusters points cs := by
  unfold kmeansRun
  split
  next h =>
    refine ⟨[], ?_⟩
    rw [List.isEmpty_iff.mp h]
    rfl
  next => exact exists_kmeansLoop _ _ _ _ _

end Run

end Ennbo
