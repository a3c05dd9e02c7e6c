import Ennbo.Moments
import Ennbo.TrustRegion.Regions

/-! # Statistics of the regions

Every observation that is told with its generating region enters the statistics
of that region in its turn, and a region that is inactive has no turn. So the
statistics are those of what was told while the region was active.
-/

namespace Ennbo.MultiTrustRegionState

variable {D : Type} [Floating D] [Analysis D] {M : ℕ}

section Runs

/-- What is told with each generating region, and whether the region is active. -/
def logTell (s : MultiTrustRegionState D M) (observations : List (Observation D))
    (log : Fin M → List (D × Bool)) (r : Fin M) : List (D × Bool) :=
  log r ++ (observations.filter fun o => o.region == some r.val).map fun o =>
    (o.y, (s.regions r).active)

/-- The states after accepted calls, with what each region was told since its last restart. -/
inductive Ran : MultiTrustRegionState D M → (Fin M → List (D × Bool)) → Prop where
  | new {s : MultiTrustRegionState D M} (numDim : ℕ) (config : MultiTrustRegionConfig D)
      (initialCenters : Option (Array2 D)) (draws : Fin M → List D) :
      MultiTrustRegionState.new numDim config initialCenters draws = .ok s → Ran s fun _ => []
  | tell {s s' : MultiTrustRegionState D M} {log : Fin M → List (D × Bool)} (x : Array2 D)
      (y : List D) (regions : Option (List ℕ)) : Ran s log → s.tell x y regions = .ok s' →
      Ran s' (s.logTell (observationsOf x y regions) log)
  | restart {s s' : MultiTrustRegionState D M} {log : Fin M → List (D × Bool)} (r : Fin M)
      (newCenter : List D) : Ran s log → s.restartRegion r newCenter = .ok s' →
      Ran s' (Function.update log r [])

end Runs

section Turn

variable {s : MultiTrustRegionState D M} {observations : List (Observation D)} {r : Fin M}

def stats (region : Region D) : ℕ × D × D := (region.trialCount, region.meanY, region.m2Y)

omit [Analysis D] in
theorem stats_improve (config : MultiTrustRegionConfig D) (region : Region D) (o : Observation D) :
    stats (improve config region o) = stats region := by
  unfold improve
  dsimp only
  split <;> rfl

theorem stats_decline (config : MultiTrustRegionConfig D) (region : Region D) :
    stats (decline config region) = stats region := by
  unfold decline
  dsimp only
  split
  · split <;> rfl
  · rfl

def recorded (region : Region D) (values : List D) : Region D := values.foldl record region

theorem fst_foldl_observations (current : D) (region : Region D)
    (best : D × Option (Observation D)) :
    (observations.foldl (fun (acc : Region D × D × Option (Observation D)) o =>
        (if o.region == some r.val then record acc.1 o.y else acc.1,
          better current acc.2 (s.accepts r o) o)) (region, best)).1 =
      recorded region ((observations.filter fun o => o.region == some r.val).map Observation.y) := by
  induction observations generalizing region best with
  | nil => rfl
  | cons o observations ih =>
    rw [List.foldl_cons, ih, List.filter_cons]
    split <;> rfl

theorem stats_tellRegion :
    stats ((tellRegion observations s r).regions r) =
      if (s.regions r).active then
        stats (recorded (s.regions r)
          ((observations.filter fun o => o.region == some r.val).map Observation.y))
      else stats (s.regions r) := by
  unfold tellRegion
  cases hactive : (s.regions r).active with
  | false => simp
  | true =>
    simp only [Bool.not_true, Bool.false_eq_true, if_false, if_true, Function.update_self]
    rw [← fst_foldl_observations (s := s) (s.regions r).incumbentY (s.regions r) (negInfinity, none)]
    split
    · exact stats_improve _ _ _
    · exact stats_decline _ _

theorem stats_tell (observations : List (Observation D)) (s : MultiTrustRegionState D M)
    (r : Fin M) :
    stats (((List.finRange M).foldl (tellRegion observations) s).regions r) =
      if (s.regions r).active then
        stats (recorded (s.regions r)
          ((observations.filter fun o => o.region == some r.val).map Observation.y))
      else stats (s.regions r) := by
  obtain ⟨before, after, hsplit⟩ := List.append_of_mem (List.mem_finRange r)
  have hnodup := List.nodup_finRange M
  rw [hsplit, List.nodup_append] at hnodup
  obtain ⟨-, hafter, hbefore⟩ := hnodup
  have hr : r ∉ before := fun h => hbefore r h r List.mem_cons_self rfl
  rw [hsplit, List.foldl_append, List.foldl_cons,
    foldl_tellRegion_of_notMem (List.nodup_cons.mp hafter).1, stats_tellRegion,
    foldl_tellRegion_of_notMem hr]

end Turn

section Exact

variable {K : Type} [ExactArith K] [Analysis K] {s : MultiTrustRegionState K M}
  {log : Fin M → List (K × Bool)} {region : Region K} {values : List K}

/-- The statistics are those of the values. -/
structure StatsOf (region : Region K) (values : List K) : Prop where
  trialCount : region.trialCount = values.length
  meanY : region.meanY = mean values
  m2Y : region.m2Y = deviations values

omit [Analysis K] in
theorem StatsOf.record (h : StatsOf region values) (y : K) :
    StatsOf (record region y) (values ++ [y]) := by
  have hcount : region.trialCount + 1 = values.length + 1 := by rw [h.trialCount]
  have hmean : region.meanY + (y - region.meanY) / ((region.trialCount + 1 : ℕ) : K) =
      mean (values ++ [y]) := by
    rw [mean_append_singleton, h.meanY, hcount]
  constructor
  · rw [List.length_append, List.length_singleton, ← h.trialCount]
    rfl
  · exact hmean
  · rw [deviations_append_singleton, ← hmean, ← h.m2Y, ← h.meanY]
    rfl

omit [Analysis K] in
theorem StatsOf.recorded (h : StatsOf region values) (more : List K) :
    StatsOf (recorded region more) (values ++ more) := by
  induction more generalizing region values with
  | nil => rwa [List.append_nil]
  | cons y more ih =>
    have hstep := ih (h.record y)
    rwa [List.append_assoc, List.singleton_append] at hstep

theorem statsOf_fresh (config : MultiTrustRegionConfig K) (center : List K) :
    StatsOf (freshRegion config center) [] :=
  ⟨rfl, by simp [freshRegion, mean], by simp [freshRegion, deviations]⟩

omit [Analysis K] in
theorem StatsOf.congr {region' : Region K} (h : StatsOf region values)
    (hstats : stats region' = stats region) : StatsOf region' values := by
  simp only [stats, Prod.mk.injEq] at hstats
  obtain ⟨hcount, hmean, hm2⟩ := hstats
  exact ⟨hcount.trans h.trialCount, hmean.trans h.meanY, hm2.trans h.m2Y⟩

/-- In every run the statistics are those of what was told while the region was active. -/
theorem Ran.statsOf (h : Ran s log) (r : Fin M) :
    StatsOf (s.regions r) (((log r).filter Prod.snd).map Prod.fst) := by
  induction h with
  | new numDim config initialCenters draws hnew =>
    obtain ⟨center, hcenter⟩ := exists_freshRegion_of_new hnew r
    rw [hcenter]
    exact statsOf_fresh config center
  | @tell s s' log x y regions _ htell ih =>
    obtain ⟨h0, rfl⟩ | ⟨-, rfl⟩ := tell_eq_ok htell
    · rw [logTell, observationsOf_of_nrows h0, List.filter_nil, List.map_nil, List.append_nil]
      exact ih
    · have hstats := stats_tell (observationsOf x y regions) s r
      rw [logTell, List.filter_append, List.map_append]
      cases hactive : (s.regions r).active with
      | false =>
        rw [if_neg (by simp [hactive])] at hstats
        apply StatsOf.congr _ hstats
        simpa [List.filter_map, Function.comp_def] using ih
      | true =>
        rw [if_pos hactive] at hstats
        apply StatsOf.congr _ hstats
        have hmore := ih.recorded (((observationsOf x y regions).filter fun o =>
          o.region == some r.val).map Observation.y)
        simpa [List.filter_map, Function.comp_def] using hmore
  | @restart s s' log q newCenter _ hrestart ih =>
    rw [restartRegion_eq_ok hrestart]
    dsimp only
    by_cases hr : r = q
    · subst hr
      rw [Function.update_self, Function.update_self]
      exact statsOf_fresh _ _
    · rw [Function.update_of_ne hr, Function.update_of_ne hr]
      exact ih

omit [Analysis K] in
theorem StatsOf.variance_eq {r : Fin M} (h : StatsOf (s.regions r) values) :
    s.variance r = sampleVariance values := by
  unfold variance sampleVariance
  rw [h.trialCount, h.m2Y]

/-- The statistics that a region should have after these values. -/
structure ExactStats (s : MultiTrustRegionState K M) (r : Fin M) (values : List K) : Prop where
  trialCount : (s.regions r).trialCount = values.length
  meanY : (s.regions r).meanY = mean values
  variance : s.variance r = sampleVariance values

/-- In every run, the statistics of a region are those of all that it was told since its last
restart exactly when it was active each time. -/
theorem Ran.exactStats_iff (h : Ran s log) (r : Fin M) :
    ExactStats s r ((log r).map Prod.fst) ↔ ∀ p ∈ log r, p.2 = true := by
  have hstats := h.statsOf r
  constructor
  · intro hexact
    have hlen := hexact.trialCount
    rw [hstats.trialCount, List.length_map, List.length_map] at hlen
    exact List.filter_eq_self.mp (List.filter_sublist.eq_of_length hlen)
  · intro hactive
    rw [List.filter_eq_self.mpr hactive] at hstats
    exact ⟨hstats.trialCount, hstats.meanY, hstats.variance_eq⟩

/-- One region, with a tolerance of one failure and a length that may not be halved. -/
def oneFailure : MultiTrustRegionConfig ℚ where
  length := ⟨4 / 5, 1 / 2, 8 / 5⟩
  succTolerance := 3
  failTolerance := 1
  sharingPolicy := .independent
  exploration := 1
  minSeedDistance := 0

/-- The region fails in the second call, and the third one brings a result of its own. -/
theorem not_exactStats_outstanding :
    ∃ (s : MultiTrustRegionState ℚ 1) (log : Fin 1 → List (ℚ × Bool)), Ran s log ∧
      (log 0).map Prod.fst = [3, 1, 5] ∧ ¬ ExactStats s 0 [3, 1, 5] :=
  ⟨_, _, .tell (.column [1 / 2]) [5] (some [0]) (.tell (.column [1 / 2]) [1] (some [0])
    (.tell (.column [1 / 2]) [3] (some [0]) (.new 1 oneFailure none (fun _ => [1 / 2]) rfl) rfl)
      rfl) rfl, rfl, fun h => absurd h.trialCount (by decide +kernel)⟩

theorem exactStats_two :
    ∃ (s : MultiTrustRegionState ℚ 1) (log : Fin 1 → List (ℚ × Bool)), Ran s log ∧
      ExactStats s 0 [3, 5] :=
  ⟨_, _, .tell (.column [1 / 2]) [5] (some [0])
    (.tell (.column [1 / 2]) [3] (some [0]) (.new 1 oneFailure none (fun _ => [1 / 2]) rfl) rfl)
      rfl, (Ran.exactStats_iff (.tell (.column [1 / 2]) [5] (some [0])
        (.tell (.column [1 / 2]) [3] (some [0]) (.new 1 oneFailure none (fun _ => [1 / 2]) rfl) rfl)
          rfl) 0).mpr (by decide +kernel)⟩

end Exact

end Ennbo.MultiTrustRegionState
