import Ennbo.Fixed
import Ennbo.Index.Partition
import Ennbo.Index.Splitting

/-! # When the partition returns

The recursion has no measure of its own: a part that k-means leaves in one piece
is partitioned again, with the draws that come next. The partition returns for all
draws exactly when k-means leaves no list in one piece that is too long for a leaf
and that clusterings of the rows lead to. In exact arithmetic these are the lists in
which no vector is repeated too often.
-/

namespace Ennbo

open Rng (Agree)

variable {F : Type} {k cap depth : ℕ} {U : Set F} {rng rng' : Rng F}
  {entries : List (ℕ × List F)}

section Clusters

variable {assignments : List ℕ}

theorem mem_clusters {part : List (ℕ × List F)} :
    part ∈ clusters entries assignments k ↔ part ≠ [] ∧ ∃ c < k,
      part = ((entries.zip assignments).filter fun ea => ea.2 == c).map Prod.fst := by
  unfold clusters Ranking.group
  simp only [List.mem_filter, List.mem_map, List.mem_range]
  constructor
  · rintro ⟨⟨c, hc, rfl⟩, hne⟩
    exact ⟨by simpa using hne, c, hc, rfl⟩
  · rintro ⟨hne, c, hc, rfl⟩
    exact ⟨⟨c, hc, rfl⟩, by simpa using hne⟩

theorem sublist_of_mem_clusters (hl : assignments.length = entries.length)
    {part : List (ℕ × List F)} (h : part ∈ clusters entries assignments k) :
    part.Sublist entries := by
  obtain ⟨-, c, -, rfl⟩ := mem_clusters.mp h
  have hsub : ((entries.zip assignments).filter fun ea => ea.2 == c).Sublist
      (entries.zip assignments) := List.filter_sublist
  have hmap := hsub.map Prod.fst
  rwa [List.map_fst_zip hl.ge] at hmap

theorem length_lt_of_mem_clusters (hl : assignments.length = entries.length)
    (hs : Split assignments) {part : List (ℕ × List F)}
    (h : part ∈ clusters entries assignments k) : part.length < entries.length := by
  obtain ⟨-, c, -, rfl⟩ := mem_clusters.mp h
  obtain ⟨a, ha, b, hb, hab⟩ := hs
  obtain ⟨x, hx, hxc⟩ : ∃ x ∈ assignments, x ≠ c := by
    by_cases h : a = c
    · exact ⟨b, hb, fun hbc => hab (h.trans hbc.symm)⟩
    · exact ⟨a, ha, h⟩
  have hzip : (entries.zip assignments).length = entries.length := by
    rw [List.length_zip, hl, min_self]
  obtain ⟨i, hi, rfl⟩ := List.getElem_of_mem hx
  rw [List.length_map, ← hzip, List.length_filter_lt_length_iff_exists]
  have hi' : i < (entries.zip assignments).length := by omega
  refine ⟨(entries.zip assignments)[i], List.getElem_mem hi', ?_⟩
  simpa using hxc

/-- Without a split there is one part with all entries. -/
theorem clusters_of_not_split (hl : assignments.length = entries.length)
    (ha : ∀ a ∈ assignments, a < k) (hs : ¬ Split assignments) (hne : entries ≠ []) :
    clusters entries assignments k = [entries] := by
  have hpos : 0 < assignments.length := by
    rw [hl]
    exact List.length_pos_iff.mpr hne
  obtain ⟨a, hmem⟩ := List.exists_mem_of_length_pos hpos
  have hall : ∀ x ∈ assignments, x = a := by
    intro x hx
    by_contra hxa
    exact hs ⟨x, hx, a, hmem, hxa⟩
  have hpart : ∀ c, ((entries.zip assignments).filter fun ea => ea.2 == c).map Prod.fst =
      if c = a then entries else [] := by
    intro c
    split
    next h =>
      have hself : (entries.zip assignments).filter (fun ea => ea.2 == c) =
          entries.zip assignments := by
        rw [List.filter_eq_self]
        intro ea hea
        simp [hall _ (List.of_mem_zip hea).2, h]
      rw [hself, List.map_fst_zip hl.ge]
    next h =>
      have hnil : (entries.zip assignments).filter (fun ea => ea.2 == c) = [] := by
        rw [List.filter_eq_nil_iff]
        intro ea hea
        rw [hall _ (List.of_mem_zip hea).2]
        simpa using fun hac : a = c => h hac.symm
      rw [hnil]
      rfl
  have hrange : ∀ n, a < n → ((List.range n).map fun c =>
      if c = a then entries else []).filter (!·.isEmpty) = [entries] := by
    intro n hn
    induction n with
    | zero => omega
    | succ n ih =>
      have hempty : ∀ n, n ≤ a → ((List.range n).map fun c =>
          if c = a then entries else []).filter (!·.isEmpty) = [] := by
        intro n hn
        rw [List.filter_eq_nil_iff]
        intro part hpart
        obtain ⟨c, hc, rfl⟩ := List.mem_map.mp hpart
        have hc := List.mem_range.mp hc
        rw [if_neg (by omega)]
        simp
      rw [List.range_succ, List.map_append, List.filter_append]
      by_cases h : a = n
      · subst h
        rw [hempty a le_rfl]
        simp [hne]
      · rw [ih (by omega)]
        simp [Ne.symm h]
  unfold clusters Ranking.group
  simp only [hpart]
  exact hrange k (ha a hmem)

end Clusters

section Recursion

theorem mapRng_mono {α β : Type} {f g : α → Rng F → Option (β × Rng F)}
    (hfg : ∀ a rng r, f a rng = some r → g a rng = some r) {as : List α} {r : List β × Rng F}
    (h : mapRng f as rng = some r) : mapRng g as rng = some r := by
  induction as generalizing rng r with
  | nil => exact h
  | cons a as ih =>
    obtain ⟨bs, rng'⟩ := r
    obtain ⟨b, rng₁, bs', hb, hbs, rfl⟩ := mapRng_cons h
    simp only [mapRng, hfg _ _ _ hb, ih hbs, Option.bind_some, Option.map_some]

variable [Floating F]

theorem partition_succ {r : PartitionNode F × Rng F}
    (h : partitionRecursiveWithVectors cap depth entries rng = some r) :
    partitionRecursiveWithVectors cap (depth + 1) entries rng = some r := by
  induction depth generalizing entries rng r with
  | zero => simp [partitionRecursiveWithVectors] at h
  | succ depth ih =>
    rw [partitionRecursiveWithVectors] at h ⊢
    dsimp only at h ⊢
    split at h
    next hle =>
      rw [if_pos hle]
      exact h
    next hle =>
      rw [if_neg hle]
      obtain ⟨c, hc, h⟩ := Option.map_eq_some_iff.mp h
      rw [mapRng_mono (fun _ _ _ hf => ih hf) hc]
      exact congrArg some h

theorem partition_mono {depth' : ℕ} (hle : depth ≤ depth') {r : PartitionNode F × Rng F}
    (h : partitionRecursiveWithVectors cap depth entries rng = some r) :
    partitionRecursiveWithVectors cap depth' entries rng = some r := by
  induction hle with
  | refl => exact h
  | step _ ih => exact partition_succ ih

def partCount (cap n : ℕ) : ℕ := min (max ((n + cap - 1) / cap) 2) 16

omit [Floating F] in
theorem partCount_bounds (cap n : ℕ) : 2 ≤ partCount cap n ∧ partCount cap n ≤ 16 := by
  unfold partCount
  omega

def assignmentsOf (cap : ℕ) (entries : List (ℕ × List F)) (rng : Rng F) : List ℕ :=
  (kmeansRun (entries.map Prod.snd) (partCount cap entries.length) 20 rng).2.1

def partsOf (cap : ℕ) (entries : List (ℕ × List F)) (rng : Rng F) : List (List (ℕ × List F)) :=
  clusters entries (assignmentsOf cap entries rng) (partCount cap entries.length)

def drawCount (cap : ℕ) (entries : List (ℕ × List F)) : ℕ :=
  min (partCount cap entries.length) entries.length

theorem assigned_assignmentsOf (cap : ℕ) (entries : List (ℕ × List F)) (rng : Rng F) :
    (assignmentsOf cap entries rng).length = entries.length ∧
      ∀ a ∈ assignmentsOf cap entries rng, a < partCount cap entries.length := by
  obtain ⟨hk, -⟩ := partCount_bounds cap entries.length
  obtain ⟨hl, ha⟩ : Assigned (entries.map Prod.snd) (partCount cap entries.length)
      (assignmentsOf cap entries rng) := assigned_kmeansRun (by omega) rng
  exact ⟨hl.trans (List.length_map _), ha⟩

theorem partition_step (hlt : cap < entries.length) (depth : ℕ) (rng : Rng F) :
    partitionRecursiveWithVectors cap (depth + 1) entries rng =
      (mapRng (partitionRecursiveWithVectors cap depth) (partsOf cap entries rng)
        (rng.skip (drawCount cap entries))).map
          fun r => (.internal (meanVector (entries.map Prod.snd)) r.1, r.2) := by
  obtain ⟨hk, -⟩ := partCount_bounds cap entries.length
  have hne : entries.map Prod.snd ≠ [] := by
    rw [← List.length_pos_iff, List.length_map]
    omega
  have hrng := kmeansRun_rng hne (k := partCount cap entries.length) (by omega) 20 rng
  rw [List.length_map] at hrng
  unfold drawCount
  rw [partitionRecursiveWithVectors, ← hrng]
  dsimp only
  rw [if_neg (by omega)]
  rfl

theorem partsOf_congr (hlt : cap < entries.length)
    (h : Agree (drawCount cap entries) rng rng') :
    partsOf cap entries rng = partsOf cap entries rng' := by
  obtain ⟨hk, -⟩ := partCount_bounds cap entries.length
  have hne : entries.map Prod.snd ≠ [] := by
    rw [← List.length_pos_iff, List.length_map]
    omega
  unfold partsOf assignmentsOf
  rw [kmeansRun_congr hne (by omega) 20 (by rwa [List.length_map])]

/-- A list that returns has drawn some values, and they alone decide about it. -/
def Draws {α β : Type} (f : α → Rng F → Option (β × Rng F)) (a : α) : Prop :=
  ∀ rng b rng', f a rng = some (b, rng') → ∃ m, rng' = rng.skip m ∧
    ∀ rng'', Agree m rng rng'' → f a rng'' = some (b, rng''.skip m)

omit [Floating F] in
theorem draws_mapRng {α β : Type} {f : α → Rng F → Option (β × Rng F)} {as : List α}
    (hf : ∀ a, Draws f a) : Draws (mapRng f) as := by
  intro rng bs rng' h
  induction as generalizing rng bs rng' with
  | nil =>
    obtain ⟨rfl, rfl⟩ := Prod.mk.inj (Option.some.inj h)
    exact ⟨0, rfl, fun _ _ => rfl⟩
  | cons a as ih =>
    obtain ⟨b, rng₁, bs', hb, hbs, rfl⟩ := mapRng_cons h
    obtain ⟨m, rfl, hm⟩ := hf a _ _ _ hb
    obtain ⟨n, rfl, hn⟩ := ih _ _ _ hbs
    refine ⟨m + n, Rng.skip_skip _ _ _, fun rng'' hagree => ?_⟩
    simp only [mapRng, hm rng'' (hagree.mono (by omega)), hn _ hagree.skip, Option.bind_some,
      Option.map_some, Rng.skip_skip]

theorem draws_partition (cap depth : ℕ) (entries : List (ℕ × List F)) :
    Draws (partitionRecursiveWithVectors cap depth) entries := by
  induction depth generalizing entries with
  | zero =>
    intro rng node rng' h
    simp [partitionRecursiveWithVectors] at h
  | succ depth ih =>
    intro rng node rng' h
    by_cases hlt : cap < entries.length
    · rw [partition_step hlt] at h
      obtain ⟨⟨nodes, rng₁⟩, hnodes, h⟩ := Option.map_eq_some_iff.mp h
      obtain ⟨rfl, rfl⟩ := Prod.mk.inj h
      obtain ⟨m, rfl, hm⟩ := draws_mapRng ih _ _ _ hnodes
      refine ⟨drawCount cap entries + m, Rng.skip_skip _ _ _, fun rng'' hagree => ?_⟩
      rw [partition_step hlt, ← partsOf_congr hlt (hagree.mono (by omega)), hm _ hagree.skip,
        Option.map_some, Rng.skip_skip]
    · rw [partitionRecursiveWithVectors, if_pos (not_lt.mp hlt)] at h
      obtain ⟨rfl, rfl⟩ := Prod.mk.inj (Option.some.inj h)
      refine ⟨0, rfl, fun rng'' _ => ?_⟩
      rw [partitionRecursiveWithVectors, if_pos (not_lt.mp hlt)]
      rfl

theorem partition_unique {depth' : ℕ} {r r' : PartitionNode F × Rng F}
    (h : partitionRecursiveWithVectors cap depth entries rng = some r)
    (h' : partitionRecursiveWithVectors cap depth' entries rng = some r') : r = r' :=
  Option.some.inj ((partition_mono (le_max_left depth depth') h).symm.trans
    (partition_mono (le_max_right depth depth') h'))

end Recursion

section Stuck

variable [Floating F] {part : List (ℕ × List F)} {parts : List (List (ℕ × List F))}

/-- For some draws no depth is enough. -/
def Stuck (U : Set F) (cap : ℕ) (entries : List (ℕ × List F)) : Prop :=
  ∃ rng : Rng F, rng.Within U ∧
    ∀ depth, partitionRecursiveWithVectors cap depth entries rng = none

theorem stuck_of_not_split (hlt : cap < entries.length) (hrng : rng.Within U)
    (h : ¬ Split (assignmentsOf cap entries rng)) : Stuck U cap entries := by
  obtain ⟨hl, ha⟩ := assigned_assignmentsOf cap entries rng
  have hne : entries ≠ [] := List.length_pos_iff.mp (Nat.zero_lt_of_lt hlt)
  have hparts : partsOf cap entries rng = [entries] := clusters_of_not_split hl ha h hne
  suffices hnone : ∀ depth j, partitionRecursiveWithVectors cap depth entries
      ((rng.repeating (drawCount cap entries)).skip (j * drawCount cap entries)) = none from
    ⟨rng.repeating (drawCount cap entries), hrng.repeating _, fun depth => by
      simpa using hnone depth 0⟩
  intro depth
  induction depth with
  | zero => exact fun _ => rfl
  | succ depth ih =>
    intro j
    rw [partition_step hlt, ← partsOf_congr hlt (Rng.agree_repeating _ j rng), hparts,
      Rng.skip_skip, ← Nat.succ_mul]
    simp only [mapRng, ih, Option.bind_none, Option.map_none]

/-- Parts before the one that is stuck return or are stuck themselves. -/
theorem exists_mapRng_eq_none (hpart : part ∈ parts) (h : Stuck U cap part) :
    ∃ rng : Rng F, rng.Within U ∧
      ∀ depth, mapRng (partitionRecursiveWithVectors cap depth) parts rng = none := by
  induction parts with
  | nil => cases hpart
  | cons first parts ih =>
    cases hpart with
    | head =>
      obtain ⟨rng, hrng, hnone⟩ := h
      refine ⟨rng, hrng, fun depth => ?_⟩
      rw [mapRng, hnone, Option.bind_none]
    | tail _ hpart =>
      obtain ⟨rng, hrng, hnone⟩ := ih hpart
      by_cases hreturns : ∃ depth r, partitionRecursiveWithVectors cap depth first rng = some r
      · obtain ⟨depth₀, ⟨node, rng₁⟩, hnode⟩ := hreturns
        obtain ⟨m, rfl, hm⟩ := draws_partition cap depth₀ first _ _ _ hnode
        have hspliced := hm _ (Rng.agree_splice m rng rng)
        refine ⟨rng.splice m rng, hrng.splice hrng m, fun depth => ?_⟩
        rw [mapRng, Option.bind_eq_none_iff]
        rintro r hr
        obtain rfl := partition_unique hr hspliced
        rw [Option.map_eq_none_iff, Option.eq_none_iff_forall_ne_some]
        rintro ⟨nodes, rng₂⟩ hnodes
        obtain ⟨n, -, hn⟩ := draws_mapRng (draws_partition cap depth) _ _ _ hnodes
        have hsome := hn rng (Rng.agree_skip_splice n m rng rng).symm
        rw [hnone depth] at hsome
        cases hsome
      · refine ⟨rng, hrng, fun depth => ?_⟩
        rw [mapRng, Option.bind_eq_none_iff]
        exact fun r hr => absurd ⟨depth, r, hr⟩ hreturns

theorem Stuck.of_part (hlt : cap < entries.length) (hrng : rng.Within U)
    (hpart : part ∈ partsOf cap entries rng) (h : Stuck U cap part) : Stuck U cap entries := by
  obtain ⟨rng', hrng', hnone⟩ := exists_mapRng_eq_none hpart h
  refine ⟨rng.splice (drawCount cap entries) rng', hrng.splice hrng' _, fun depth => ?_⟩
  cases depth with
  | zero => rfl
  | succ depth =>
    rw [partition_step hlt, ← partsOf_congr hlt (Rng.agree_splice _ rng rng'),
      Option.map_eq_none_iff, Option.eq_none_iff_forall_ne_some]
    rintro ⟨nodes, rng₁⟩ hnodes
    obtain ⟨n, -, hn⟩ := draws_mapRng (draws_partition cap depth) _ _ _ hnodes
    have hsome := hn rng' (Rng.agree_skip_splice n _ rng rng').symm
    rw [hnone depth] at hsome
    cases hsome

end Stuck

section Returns

variable [Floating F]

/-- The lists that clusterings lead to. -/
inductive Met (U : Set F) (cap : ℕ) (entries : List (ℕ × List F)) : List (ℕ × List F) → Prop
  | rows : Met U cap entries entries
  | part {whole part : List (ℕ × List F)} {rng : Rng F} : Met U cap entries whole →
      cap < whole.length → rng.Within U → part ∈ partsOf cap whole rng → Met U cap entries part

/-- No clustering leaves a list in one piece that is too long for a leaf. -/
def AllSplit (U : Set F) (cap : ℕ) (entries : List (ℕ × List F)) : Prop :=
  ∀ part, Met U cap entries part → cap < part.length →
    ∀ rng : Rng F, rng.Within U → Split (assignmentsOf cap part rng)

def Returns (cap : ℕ) (entries : List (ℕ × List F)) (rng : Rng F) : Prop :=
  ∃ depth r, partitionRecursiveWithVectors cap depth entries rng = some r

theorem exists_mapRng {parts : List (List (ℕ × List F))}
    (h : ∀ part ∈ parts, ∀ rng : Rng F, rng.Within U → Returns cap part rng)
    (hrng : rng.Within U) :
    ∃ depth r, mapRng (partitionRecursiveWithVectors cap depth) parts rng = some r := by
  induction parts generalizing rng with
  | nil => exact ⟨0, ([], rng), rfl⟩
  | cons part parts ih =>
    rw [List.forall_mem_cons] at h
    obtain ⟨depth₁, ⟨node, rng₁⟩, hnode⟩ := h.1 rng hrng
    obtain ⟨m, rfl, -⟩ := draws_partition cap depth₁ part _ _ _ hnode
    obtain ⟨depth₂, ⟨nodes, rng₂⟩, hnodes⟩ := ih h.2 (hrng.skip m)
    refine ⟨max depth₁ depth₂, (node :: nodes, rng₂), ?_⟩
    have hnode' := partition_mono (le_max_left depth₁ depth₂) hnode
    have hnodes' := mapRng_mono (fun _ _ _ hf => partition_mono (le_max_right depth₁ depth₂) hf)
      hnodes
    simp only [mapRng, hnode', hnodes', Option.bind_some, Option.map_some]

theorem AllSplit.returns (h : AllSplit U cap entries) {part : List (ℕ × List F)}
    (hmet : Met U cap entries part) (hrng : rng.Within U) : Returns cap part rng := by
  induction hn : part.length using Nat.strong_induction_on generalizing part rng with
  | _ n ih =>
    subst hn
    by_cases hlt : cap < part.length
    · obtain ⟨hl, -⟩ := assigned_assignmentsOf cap part rng
      have hparts : ∀ p ∈ partsOf cap part rng, ∀ rng' : Rng F, rng'.Within U →
          Returns cap p rng' := fun p hp rng' hrng' =>
        ih p.length (length_lt_of_mem_clusters hl (h part hmet hlt rng hrng) hp)
          (.part hmet hlt hrng hp) hrng' rfl
      obtain ⟨depth, r, hr⟩ := exists_mapRng hparts (hrng.skip (drawCount cap part))
      exact ⟨depth + 1, _, by rw [partition_step hlt, hr]; rfl⟩
    · refine ⟨1, (.leaf part (meanVector (part.map Prod.snd)), rng), ?_⟩
      rw [partitionRecursiveWithVectors]
      exact if_pos (not_lt.mp hlt)

theorem Stuck.of_met {part : List (ℕ × List F)} (hmet : Met U cap entries part)
    (h : Stuck U cap part) : Stuck U cap entries := by
  induction hmet with
  | rows => exact h
  | part _ hlt hrng hpart ih => exact ih (h.of_part hlt hrng hpart)

theorem returns_iff_allSplit :
    (∀ rng : Rng F, rng.Within U → Returns cap entries rng) ↔ AllSplit U cap entries := by
  constructor
  · intro hreturns part hmet hlt rng hrng
    by_contra hsplit
    obtain ⟨rng', hrng', hnone⟩ := (stuck_of_not_split hlt hrng hsplit).of_met hmet
    obtain ⟨depth, r, hr⟩ := hreturns rng' hrng'
    rw [hnone depth] at hr
    cases hr
  · exact fun h rng hrng => h.returns .rows hrng

end Returns

section Repeated

theorem mapRng_eq_none {α β : Type} {f : α → Rng F → Option (β × Rng F)} {a : α} {as : List α}
    (ha : a ∈ as) (hf : ∀ rng, f a rng = none) (rng : Rng F) : mapRng f as rng = none := by
  induction as generalizing rng with
  | nil => cases ha
  | cons x as ih =>
    rw [mapRng]
    cases ha with
    | head => rw [hf rng, Option.bind_none]
    | tail _ ha =>
      cases f x rng with
      | none => rfl
      | some r => simp only [Option.bind_some, ih ha, Option.map_none]

variable [Floating F] [DecidableEq F]

/-- All copies of a vector are in the part of its nearest centroid. -/
theorem exists_part_count (cap : ℕ) (rng : Rng F) {v : List F}
    (hv : v ∈ entries.map Prod.snd) : ∃ part ∈ partsOf cap entries rng,
      (part.map Prod.snd).count v = (entries.map Prod.snd).count v := by
  obtain ⟨-, ha⟩ := assigned_assignmentsOf cap entries rng
  obtain ⟨cs, hcs⟩ :=
    exists_kmeansRun (entries.map Prod.snd) (partCount cap entries.length) 20 rng
  let f := fun p => closestCentroid p cs
  let part := entries.filter fun e => f e.2 == f v
  have hpart : ((entries.zip ((entries.map Prod.snd).map f)).filter
      fun ea => ea.2 == f v).map Prod.fst = part := by
    rw [List.map_map, zip_map_self, List.filter_map, List.map_map]
    exact List.map_id _
  have hvectors : part.map Prod.snd = (entries.map Prod.snd).filter fun p => f p == f v := by
    rw [List.filter_map]
    rfl
  have hcount : (part.map Prod.snd).count v = (entries.map Prod.snd).count v := by
    rw [hvectors]
    exact List.count_filter (by simp)
  have hne : part ≠ [] := by
    rintro h
    rw [h, List.map_nil, List.count_nil] at hcount
    exact absurd hcount (List.count_pos_iff.mpr hv).ne
  refine ⟨part, ?_, hcount⟩
  unfold partsOf
  unfold assignmentsOf at ha ⊢
  rw [hcs] at ha ⊢
  exact mem_clusters.mpr ⟨hne, f v, ha _ (List.mem_map_of_mem hv), hpart.symm⟩

theorem partition_eq_none {v : List F} (hcount : cap < (entries.map Prod.snd).count v)
    (depth : ℕ) (rng : Rng F) : partitionRecursiveWithVectors cap depth entries rng = none := by
  induction depth generalizing entries rng with
  | zero => rfl
  | succ depth ih =>
    have hle : (entries.map Prod.snd).count v ≤ entries.length :=
      List.count_le_length.trans (List.length_map _).le
    have hv : v ∈ entries.map Prod.snd := List.count_pos_iff.mp (Nat.zero_lt_of_lt hcount)
    obtain ⟨part, hpart, hsame⟩ := exists_part_count cap rng hv
    rw [partition_step (hcount.trans_le hle), mapRng_eq_none hpart
      (fun rng => ih (by rw [hsame]; exact hcount) rng), Option.map_none]

theorem AllSplit.count_le (h : AllSplit U cap entries) (hU : U.Nonempty) (v : List F) :
    (entries.map Prod.snd).count v ≤ cap := by
  by_contra hcount
  obtain ⟨u, hu⟩ := hU
  let rng : Rng F := ⟨fun _ => 0, fun _ => u, 0⟩
  have hrng : rng.Within U := fun _ => hu
  obtain ⟨depth, r, hr⟩ := h.returns .rows hrng
  rw [partition_eq_none (v := v) (not_le.mp hcount)] at hr
  cases hr

end Repeated

section Exact

variable {K : Type} [ExactArith K] {d : ℕ} {points : List (List K)} {entries : List (ℕ × List K)}
  {U : Set K}

theorem exists_ne_of_count (hcount : ∀ v, points.count v ≤ cap) (hlt : cap < points.length) :
    ∃ p ∈ points, ∃ q ∈ points, p ≠ q := by
  by_contra hnot
  obtain ⟨p, hp⟩ := List.exists_mem_of_length_pos (Nat.zero_lt_of_lt hlt)
  have hall : ∀ q ∈ points, p = q := by
    intro q hq
    by_contra hpq
    exact hnot ⟨p, hp, q, hq, hpq⟩
  have hlen := List.count_eq_length.mpr hall
  have hle := hcount p
  omega

theorem Met.sublist {part : List (ℕ × List K)} (h : Met U cap entries part) : part.Sublist entries := by
  induction h with
  | rows => exact List.Sublist.refl _
  | part _ _ _ hpart ih =>
    exact (sublist_of_mem_clusters (assigned_assignmentsOf _ _ _).1 hpart).trans ih

/-- In exact arithmetic, and with positive draws, only vectors that are repeated too often are
left in one piece. -/
theorem allSplit_iff_count (hcap : 0 < cap) (hinf : (0 : K) < infinity) (hne : U.Nonempty)
    (hU : ∀ u ∈ U, 0 < u ∧ u < 1) (hd : ∀ e ∈ entries, e.2.length = d) :
    AllSplit U cap entries ↔ ∀ v, (entries.map Prod.snd).count v ≤ cap := by
  refine ⟨fun h => h.count_le hne, fun hcount part hmet hlt rng hrng => ?_⟩
  have hsub := hmet.sublist
  have hmap : (part.map Prod.snd).length = part.length := List.length_map _
  obtain ⟨hk, -⟩ := partCount_bounds cap part.length
  obtain ⟨p, hp, q, hq, hpq⟩ := exists_ne_of_count
    (fun v => ((hsub.map Prod.snd).count_le v).trans (hcount v)) (by rw [hmap]; exact hlt)
  refine split_kmeansRun hinf (fun p hp => ?_) hp hq hpq 20 rng (d := d) (i := 1)
    one_pos (by rw [hmap]; omega) (hU _ (hrng _)).1 (hU _ (hrng _)).2
  obtain ⟨e, he, rfl⟩ := List.mem_map.mp hp
  exact hd e (hsub.subset he)

end Exact

section Build

theorem half_mem_unit : (1 / 2 : ℚ) ∈ Set.Ioo (0 : ℚ) 1 := by
  rw [Set.mem_Ioo]
  norm_num

variable [Floating F]

/-- Two vectors whose distance underflows are left in one piece too. -/
example : assignmentsOf 1 [(0, [Fixed.ofInt 1]), (1, [Fixed.ofInt 2])]
    ⟨fun _ => 0, fun _ => .ofInt 500, 0⟩ = [0, 0] := by
  decide +kernel

end Build

end Ennbo
