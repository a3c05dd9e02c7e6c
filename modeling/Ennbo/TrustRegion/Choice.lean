import Ennbo.Ranking.Greedy
import Ennbo.TrustRegion.Regions

/-! # Choosing among the candidates of all regions

Candidates are ranked together. A first pass chooses those whose seeds are far
from each other, and a second pass fills up with the best of the others, which
it tells apart by their index.
-/

namespace Ennbo

open Greedy

structure RegionCandidate (D : Type) where
  index : ℕ
  region : ℕ
  seed : BitVec 64
  score : D
  deriving DecidableEq

variable {D : Type} [Floating D] [Analysis D] {M : ℕ}

def RegionCandidate.RankLe (a b : RegionCandidate D) : Prop :=
  (totalCmp b.score a.score).then (compare a.index b.index) ≠ .gt

instance : DecidableRel (RegionCandidate.RankLe (D := D)) :=
  fun _ _ => inferInstanceAs (Decidable (_ ≠ _))

namespace MultiTrustRegionState

variable (s : MultiTrustRegionState D M)

def seedDistance (a b : BitVec 64) : Bool :=
  leB s.config.minSeedDistance (((a ^^^ b).cpop.toNat : D) / (64 : ℕ))

def far (selected : List (RegionCandidate D)) (candidate : RegionCandidate D) : Bool :=
  selected.all fun other => s.seedDistance candidate.seed other.seed

def select (candidates : List (RegionCandidate D)) (numArms : ℕ) :
    Except TrustRegionError (List (RegionCandidate D)) :=
  if numArms = 0 ∨ candidates.length < numArms then
    .error (.invalidParameter s!"num_arms {numArms} is outside 1..={candidates.length}")
  else if candidates.any fun c => decide (M ≤ c.region) || !isFinite c.score then
    .error (.invalidParameter "candidate has an invalid region or score")
  else
    let ranked := candidates.insertionSort RegionCandidate.RankLe
    let selected := greedyUpTo s.far numArms [] ranked
    if selected.length = numArms then .ok selected
    else .ok (greedyUpTo (fresh RegionCandidate.index) numArms selected ranked)

section Specification

variable (candidates : List (RegionCandidate D)) (numArms : ℕ)

def rankedPlaces : List (RegionCandidate D × ℕ) :=
  candidates.zipIdx.insertionSort fun a b => a.1.RankLe b.1

def diverse : List (RegionCandidate D × ℕ) :=
  greedy (fun kept e => s.far (kept.map Prod.fst) e.1) [] (rankedPlaces candidates)

def others : List (RegionCandidate D × ℕ) :=
  (rankedPlaces candidates).filter fun e => decide (e.2 ∉ (s.diverse candidates).map Prod.snd)

def choice : List (RegionCandidate D × ℕ) :=
  (s.diverse candidates ++ s.others candidates).take numArms

/-- The selection is the choice, which is full and has no position twice. -/
structure FullAndDiverse (selected : List (RegionCandidate D)) : Prop where
  eq_choice : selected = (s.choice candidates numArms).map Prod.fst
  length_eq : selected.length = numArms
  nodup : ((s.choice candidates numArms).map Prod.snd).Nodup
  place : ∀ e ∈ s.choice candidates numArms, candidates[e.2]? = some e.1

/-- Those that fill up have an index of their own, apart from all that are selected before. -/
def FillersDistinct : Prop :=
  FreshUpTo (fun e : RegionCandidate D × ℕ => e.1.index) (s.diverse candidates)
    (s.others candidates) (numArms - (s.diverse candidates).length)

end Specification

section Choice

variable {s} {candidates : List (RegionCandidate D)} {numArms : ℕ} {e : RegionCandidate D × ℕ}

omit [Floating D] in
theorem perm_rankedPlaces (candidates : List (RegionCandidate D)) :
    (rankedPlaces candidates).Perm candidates.zipIdx := List.perm_insertionSort _ _

omit [Floating D] in
theorem mem_rankedPlaces : e ∈ rankedPlaces candidates ↔ candidates[e.2]? = some e.1 := by
  rw [(perm_rankedPlaces candidates).mem_iff, List.mem_zipIdx_iff_getElem?]

omit [Floating D] in
theorem nodup_rankedPlaces (candidates : List (RegionCandidate D)) :
    ((rankedPlaces candidates).map Prod.snd).Nodup := by
  rw [((perm_rankedPlaces candidates).map Prod.snd).nodup_iff, List.zipIdx_map_snd]
  exact List.nodup_range'

omit [Floating D] in
theorem map_fst_rankedPlaces (candidates : List (RegionCandidate D)) :
    (rankedPlaces candidates).map Prod.fst =
      candidates.insertionSort RegionCandidate.RankLe := by
  unfold rankedPlaces
  rw [List.map_insertionSort _ _ (s := RegionCandidate.RankLe) _ fun a _ b _ => Iff.rfl]
  rw [List.zipIdx_map_fst]

theorem diverse_sublist (s : MultiTrustRegionState D M) (candidates : List (RegionCandidate D)) :
    (s.diverse candidates).Sublist (rankedPlaces candidates) := greedy_sublist [] _

theorem mem_diverse_of_place (he : e ∈ rankedPlaces candidates)
    (hplace : e.2 ∈ (s.diverse candidates).map Prod.snd) : e ∈ s.diverse candidates := by
  obtain ⟨e', he', heq⟩ := List.mem_map.mp hplace
  have hranked := mem_rankedPlaces.mp ((s.diverse_sublist candidates).subset he')
  rw [heq, mem_rankedPlaces.mp he] at hranked
  have hsame : e' = e := Prod.ext (Option.some.inj hranked).symm heq
  exact hsame ▸ he'

theorem nodup_diverse_append_others :
    ((s.diverse candidates ++ s.others candidates).map Prod.snd).Nodup := by
  rw [List.map_append, List.nodup_append]
  refine ⟨(nodup_rankedPlaces candidates).sublist ((s.diverse_sublist candidates).map _),
    (nodup_rankedPlaces candidates).sublist (List.filter_sublist.map _), ?_⟩
  rintro _ hplace _ hother rfl
  obtain ⟨e, he, rfl⟩ := List.mem_map.mp hother
  exact absurd hplace (by simpa using (List.mem_filter.mp he).2)

theorem perm_diverse_append_others (s : MultiTrustRegionState D M)
    (candidates : List (RegionCandidate D)) :
    (s.diverse candidates ++ s.others candidates).Perm (rankedPlaces candidates) := by
  apply (List.perm_ext_iff_of_nodup nodup_diverse_append_others.of_map
    (nodup_rankedPlaces candidates).of_map).mpr
  intro e
  rw [List.mem_append]
  constructor
  · rintro (he | he)
    · exact (s.diverse_sublist candidates).subset he
    · exact (List.mem_filter.mp he).1
  · intro he
    by_cases hplace : e.2 ∈ (s.diverse candidates).map Prod.snd
    · exact .inl (mem_diverse_of_place he hplace)
    · exact .inr (List.mem_filter.mpr ⟨he, decide_eq_true hplace⟩)

theorem length_diverse_append_others (s : MultiTrustRegionState D M)
    (candidates : List (RegionCandidate D)) :
    (s.diverse candidates).length + (s.others candidates).length = candidates.length := by
  have hlen := (perm_diverse_append_others s candidates).length_eq
  rw [(perm_rankedPlaces candidates).length_eq, List.length_zipIdx, List.length_append] at hlen
  exact hlen

theorem fullAndDiverse_iff (hlen : numArms ≤ candidates.length)
    {selected : List (RegionCandidate D)} : s.FullAndDiverse candidates numArms selected ↔
      selected = (s.choice candidates numArms).map Prod.fst := by
  refine ⟨FullAndDiverse.eq_choice, fun h => ⟨h, ?_, ?_, fun e he => ?_⟩⟩
  · rw [h, List.length_map]
    unfold choice
    rw [List.length_take, List.length_append, length_diverse_append_others, min_eq_left hlen]
  · exact nodup_diverse_append_others.sublist ((List.take_sublist _ _).map _)
  · exact mem_rankedPlaces.mp ((s.perm_diverse_append_others candidates).subset
      (List.mem_of_mem_take he))

theorem greedyUpTo_far (hpos : 0 < numArms) :
    greedyUpTo s.far numArms [] (candidates.insertionSort RegionCandidate.RankLe) =
      ((s.diverse candidates).take numArms).map Prod.fst := by
  have hmap : greedy s.far [] ((rankedPlaces candidates).map Prod.fst) =
      (s.diverse candidates).map Prod.fst :=
    greedy_map (f := Prod.fst) (fun _ _ => rfl) [] (rankedPlaces candidates)
  rw [greedyUpTo_eq hpos, ← map_fst_rankedPlaces, hmap, List.map_take]

theorem greedyUpTo_fresh (hlt : (s.diverse candidates).length < numArms) :
    greedyUpTo (fresh RegionCandidate.index) numArms ((s.diverse candidates).map Prod.fst)
        (candidates.insertionSort RegionCandidate.RankLe) =
      ((greedy (fresh fun e : RegionCandidate D × ℕ => e.1.index) (s.diverse candidates)
        (s.others candidates)).take numArms).map Prod.fst := by
  have hpassed : greedy (fresh fun e : RegionCandidate D × ℕ => e.1.index) (s.diverse candidates)
      (s.others candidates) = greedy (fresh fun e : RegionCandidate D × ℕ => e.1.index)
        (s.diverse candidates) (rankedPlaces candidates) := by
    apply greedy_fresh_filter
    intro e he hplace
    exact List.mem_map_of_mem (mem_diverse_of_place he (by simpa using hplace))
  rw [greedyUpTo_eq (by rwa [List.length_map]), ← map_fst_rankedPlaces, hpassed, List.map_take]
  congr 1
  apply greedy_map
  intro kept e
  unfold fresh
  rw [List.map_map]
  rfl

theorem fillersDistinct_of_nodup (h : (candidates.map RegionCandidate.index).Nodup) :
    s.FillersDistinct candidates numArms := by
  apply freshUpTo_of_nodup
  have hperm := ((s.perm_diverse_append_others candidates).trans
    (perm_rankedPlaces candidates)).map fun e => e.1.index
  rw [hperm.nodup_iff]
  have hindex : candidates.zipIdx.map (fun e => e.1.index) =
      candidates.map RegionCandidate.index := by
    rw [← List.zipIdx_map_fst 0 candidates, List.map_map, List.zipIdx_map_fst]
    rfl
  rwa [hindex]

/-- What is selected is full and greedily diverse exactly when no candidate that fills up has the
index of one selected before it. -/
theorem select_iff {selected : List (RegionCandidate D)}
    (h : s.select candidates numArms = .ok selected) :
    s.FullAndDiverse candidates numArms selected ↔ s.FillersDistinct candidates numArms := by
  unfold select at h
  split at h
  next => cases h
  next hnum =>
  split at h
  next => cases h
  next =>
  have hlen : numArms ≤ candidates.length := by omega
  have hpos : 0 < numArms := by omega
  rw [fullAndDiverse_iff hlen]
  unfold choice FillersDistinct
  dsimp only at h
  rw [greedyUpTo_far hpos] at h
  rcases Nat.lt_or_ge (s.diverse candidates).length numArms with hlt | hge
  · rw [List.take_of_length_le hlt.le, if_neg (by rw [List.length_map]; omega),
      greedyUpTo_fresh hlt] at h
    obtain rfl := Except.ok.inj h
    have hsum : (s.diverse candidates).length + (numArms - (s.diverse candidates).length) =
        numArms := by omega
    have hothers : numArms - (s.diverse candidates).length ≤ (s.others candidates).length := by
      have hall := length_diverse_append_others s candidates
      omega
    have htake : (s.diverse candidates ++ s.others candidates).take numArms =
        s.diverse candidates ++
          (s.others candidates).take (numArms - (s.diverse candidates).length) := by
      rw [List.take_append, List.take_of_length_le hlt.le]
    rw [htake]
    constructor
    · intro heq
      apply freshUpTo_of_take hothers
      rw [hsum]
      have hindex := congrArg (List.map RegionCandidate.index) heq
      simpa only [List.map_map, Function.comp_def] using hindex
    · intro hfresh
      have hkept := take_greedy_fresh hfresh hothers
      rw [hsum] at hkept
      rw [hkept]
  · rw [if_pos (by rw [List.length_map, List.length_take]; omega)] at h
    obtain rfl := Except.ok.inj h
    rw [Nat.sub_eq_zero_of_le hge, List.take_append_of_le_length hge]
    exact ⟨fun _ => freshUpTo_zero, fun _ => rfl⟩

end Choice

section Example

/-- Two regions, whose seeds should differ in a quarter of their bits. -/
def twoRegions : MultiTrustRegionState ℚ 2 where
  numDim := 1
  regions _ := freshRegion ⟨⟨1, 1 / 2, 2⟩, 3, 4, .independent, 1, 1 / 4⟩ [0]
  config := ⟨⟨1, 1 / 2, 2⟩, 3, 4, .independent, 1, 1 / 4⟩

theorem fullAndDiverse_three :
    twoRegions.FullAndDiverse [⟨0, 0, 0, 9⟩, ⟨1, 0, 1, 8⟩, ⟨2, 1, -1, 7⟩] 2
      [⟨0, 0, 0, 9⟩, ⟨2, 1, -1, 7⟩] :=
  (select_iff (by decide +kernel)).mpr (fillersDistinct_of_nodup (by decide))

/-- Two candidates of one index and close seeds: one of two is selected. -/
theorem not_fullAndDiverse_two : ∃ selected,
    twoRegions.select [⟨0, 0, 0, 9⟩, ⟨0, 0, 1, 8⟩] 2 = .ok selected ∧
      ¬ twoRegions.FullAndDiverse [⟨0, 0, 0, 9⟩, ⟨0, 0, 1, 8⟩] 2 selected := by
  refine ⟨[⟨0, 0, 0, 9⟩], by decide +kernel, fun h => ?_⟩
  exact absurd h.length_eq (by decide)

end Example

end MultiTrustRegionState

end Ennbo
