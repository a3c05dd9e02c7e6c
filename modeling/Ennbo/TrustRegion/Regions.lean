import Ennbo.Model.Posterior
import Ennbo.TrustRegion.Turbo

/-! # Several trust regions

A number of regions run at the same time, each with its own centre, length and
statistics. Observations are shared by a policy, and a budget of candidates is
divided by a bound on the values that a region may still reach.
-/

namespace Ennbo

inductive SharingPolicy where
  | shared
  | nearestCenter
  | independent
  deriving DecidableEq

structure MultiTrustRegionConfig (D : Type) where
  length : TRLengthConfig D
  succTolerance : ℤ
  failTolerance : ℤ
  sharingPolicy : SharingPolicy
  exploration : D
  minSeedDistance : D

/-- What the arrays hold for one region. -/
structure Region (D : Type) where
  center : List D
  length : D
  incumbentY : D
  succCount : ℤ
  failCount : ℤ
  active : Bool
  trialCount : ℕ
  meanY : D
  m2Y : D

/-- The arrays have one entry for each of the `M` regions. -/
structure MultiTrustRegionState (D : Type) (M : ℕ) where
  numDim : ℕ
  regions : Fin M → Region D
  config : MultiTrustRegionConfig D

structure RegionBatch (M : ℕ) where
  region : Fin M
  start : ℕ
  len : ℕ
  deriving DecidableEq

variable {D : Type} [Floating D] [Analysis D] {M : ℕ}

namespace MultiTrustRegionState

/-- A region that has not been told anything. -/
def freshRegion (config : MultiTrustRegionConfig D) (center : List D) : Region D where
  center := center
  length := config.length.lengthInit
  incumbentY := negInfinity
  succCount := 0
  failCount := 0
  active := true
  trialCount := 0
  meanY := 0
  m2Y := 0

/-- Centers that are not given are drawn uniformly from the unit cube. -/
def new (numDim : ℕ) (config : MultiTrustRegionConfig D) (initialCenters : Option (Array2 D))
    (draws : Fin M → List D) : Except TrustRegionError (MultiTrustRegionState D M) :=
  if M = 0 then .error (.invalidParameter "num_regions must be > 0")
  else if !isFinite config.exploration || ltB config.exploration 0 then
    .error (.invalidParameter "exploration must be finite and non-negative")
  else if !isFinite config.minSeedDistance ||
      !(leB 0 config.minSeedDistance && leB config.minSeedDistance 1) then
    .error (.invalidParameter "min_seed_distance must be in [0, 1]")
  else
    match initialCenters with
    | none => .ok ⟨numDim, fun r => freshRegion config (draws r), config⟩
    | some init =>
      if init.nrows ≠ M ∨ init.ncols ≠ numDim then
        .error (.invalidParameter
          s!"initial_centers shape {(init.nrows, init.ncols)} does not match [{M}, {numDim}]")
      else .ok ⟨numDim, fun r => freshRegion config (init.rows.getD r []), config⟩

section Allocate

variable (s : MultiTrustRegionState D M)

def activeRegions : List (Fin M) := (List.finRange M).filter fun r => (s.regions r).active

def totalTrials : D :=
  ((max ((List.finRange M).map fun r => (s.regions r).trialCount).sum 1 : ℕ) : D)

def priority (region : Fin M) (queued : ℕ) (utility : D) : D :=
  let trials : D := ((s.regions region).trialCount : D)
  let effectiveTrials := trials + (queued : D)
  let uncertainty := sqrt (ln (s.totalTrials + (M : D) + 1) / effectiveTrials)
  utility + s.config.exploration * uncertainty

/-- The order of a small budget: by priority, descending, and then by index. -/
def RankLe (utility : Fin M → D) (a b : Fin M) : Prop :=
  (totalCmp (s.priority b 0 (utility b)) (s.priority a 0 (utility a))).then
    (compare a.val b.val) ≠ .gt

instance (utility : Fin M → D) : DecidableRel (s.RankLe utility) :=
  fun _ _ => inferInstanceAs (Decidable (_ ≠ _))

/-- Whether `max_by` prefers `b` to `a`: a lower index counts as greater. -/
def PreferLe (utility : Fin M → D) (counts : Fin M → ℕ) (a b : Fin M) : Prop :=
  (totalCmp (s.priority a (counts a) (utility a)) (s.priority b (counts b) (utility b))).then
    (compare b.val a.val) ≠ .gt

instance (utility : Fin M → D) (counts : Fin M → ℕ) : DecidableRel (s.PreferLe utility counts) :=
  fun _ _ => inferInstanceAs (Decidable (_ ≠ _))

/-- `max_by`: the last of the greatest. -/
def preferred (utility : Fin M → D) (counts : Fin M → ℕ) : List (Fin M) → Option (Fin M)
  | [] => none
  | r :: rs => some (rs.foldl (fun best r => if s.PreferLe utility counts best r then r else best) r)

/-- One more candidate for the region that is preferred. -/
def queue (utility : Fin M → D) (active : List (Fin M)) (counts : Fin M → ℕ) : Fin M → ℕ :=
  match s.preferred utility counts active with
  | none => counts
  | some region => Function.update counts region (counts region + 1)

/-- The batches of some regions, one behind the other. -/
def batches (len : Fin M → ℕ) : ℕ → List (Fin M) → List (RegionBatch M)
  | _, [] => []
  | start, region :: rest => ⟨region, start, len region⟩ :: batches len (start + len region) rest

def allocateWith (budget : ℕ) (utility : List D) :
    Except TrustRegionError (List (RegionBatch M)) :=
  if utility.length ≠ M ∨ utility.any fun value => !isFinite value then
    .error (.invalidParameter "region utility must contain one finite value per region")
  else if s.activeRegions.isEmpty then .error (.invalidState "no active trust regions")
  else if budget = 0 then .error (.invalidParameter "candidate budget must be > 0")
  else
    let utilityOf (r : Fin M) : D := utility.getD r 0
    if budget < s.activeRegions.length then
      .ok (batches (fun _ => 1) 0
        ((s.activeRegions.insertionSort (s.RankLe utilityOf)).take budget))
    else
      let counts := (s.queue utilityOf s.activeRegions)^[budget - s.activeRegions.length] fun _ => 1
      .ok (batches counts 0 s.activeRegions)

/-- The sample variance of the objectives of a region. -/
def variance (region : Fin M) : Option D :=
  let count := (s.regions region).trialCount
  if 1 < count then some ((s.regions region).m2Y / ((count - 1 : ℕ) : D)) else none

end Allocate

section Tell

/-- `a >= b` on floats. -/
def geB (a b : D) : Bool := leB b a

/-- The bounds of a region without lengthscales. -/
def computeBounds1d (region : Region D) : List D × List D :=
  let half := literal 5 1 * region.length
  (region.center.map fun c => clamp (c - half) 0 1, region.center.map fun c => clamp (c + half) 0 1)

def contains (x lb ub : List D) : Bool :=
  (List.zipWith (fun x lb => geB x lb) x lb).all id &&
    (List.zipWith (fun x ub => leB x ub) x ub).all id

def distanceTo (region : Region D) (x : List D) : D :=
  (List.zipWith (fun x c => (x - c) * (x - c)) x region.center).foldl (· + ·) 0

/-- An observation: its row and value, and the region that generated it. -/
structure Observation (D : Type) where
  x : List D
  y : D
  region : Option ℕ

/-- Whether a region may take an observation. -/
def accepts (s : MultiTrustRegionState D M) (r : Fin M) (o : Observation D) : Bool :=
  match s.config.sharingPolicy with
  | .shared =>
    let (lb, ub) := computeBounds1d (s.regions r)
    contains o.x lb ub
  | .independent => o.region == some r.val
  | .nearestCenter =>
    let distance := distanceTo (s.regions r) o.x
    ((List.finRange M).filter fun other => decide (other ≠ r) && (s.regions other).active).all
      fun other => geB (distanceTo (s.regions other) o.x) distance

/-- Welford's update of the statistics. -/
def record (region : Region D) (y : D) : Region D :=
  let trialCount := region.trialCount + 1
  let delta := y - region.meanY
  let meanY := region.meanY + delta / (trialCount : D)
  { region with
    trialCount := trialCount
    meanY := meanY
    m2Y := region.m2Y + delta * (y - meanY) }

/-- The best observation so far that improves on the incumbent. -/
def better (currentBest : D) (best : D × Option (Observation D)) (inside : Bool)
    (o : Observation D) : D × Option (Observation D) :=
  if inside && ltB currentBest o.y && ltB best.1 o.y then (o.y, some o) else best

/-- A region that is improved by an observation. -/
def improve (config : MultiTrustRegionConfig D) (region : Region D) (o : Observation D) :
    Region D :=
  let region :=
    { region with
      incumbentY := o.y
      center := o.x
      succCount := region.succCount + 1
      failCount := 0 }
  if config.succTolerance ≤ region.succCount then
    { region with
      length := min (((2 : ℕ) : D) * region.length) config.length.lengthMax
      succCount := 0 }
  else region

/-- A region that no observation improves. -/
def decline (config : MultiTrustRegionConfig D) (region : Region D) : Region D :=
  let region := { region with succCount := 0, failCount := region.failCount + 1 }
  if config.failTolerance ≤ region.failCount then
    let region := { region with length := region.length * literal 5 1, failCount := 0 }
    if ltB region.length config.length.lengthMin then { region with active := false } else region
  else region

/-- The turn of one region in a call. -/
def tellRegion (observations : List (Observation D)) (s : MultiTrustRegionState D M) (r : Fin M) :
    MultiTrustRegionState D M :=
  if !(s.regions r).active then s
  else
    let currentBest := (s.regions r).incumbentY
    let (recorded, best) := observations.foldl (fun (acc : Region D × D × Option (Observation D)) o =>
      (if o.region == some r.val then record acc.1 o.y else acc.1,
        better currentBest acc.2 (s.accepts r o) o)) (s.regions r, negInfinity, none)
    let region :=
      match best.2 with
      | some o => improve s.config recorded o
      | none => decline s.config recorded
    { s with regions := Function.update s.regions r region }

/-- The rows with their values and the regions that generated them. -/
def observationsOf (x : Array2 D) (y : List D) (regions : Option (List ℕ)) :
    List (Observation D) :=
  match regions with
  | none => List.zipWith (fun x y => ⟨x, y, none⟩) x.rows y
  | some ids => List.zipWith (fun x (p : D × ℕ) => ⟨x, p.1, some p.2⟩) x.rows (y.zip ids)

def tell (x : Array2 D) (y : List D) (regions : Option (List ℕ))
    (s : MultiTrustRegionState D M) : Except TrustRegionError (MultiTrustRegionState D M) :=
  if x.nrows = 0 then .ok s
  else if x.ncols ≠ s.numDim ∨ y.length ≠ x.nrows then
    .error (.invalidParameter
      s!"Batch shapes mismatched: x {(x.nrows, x.ncols)}, y len {y.length}")
  else
    let check : Except TrustRegionError Unit :=
      match regions with
      | some ids =>
        if ids.length ≠ x.nrows ∨ ids.any fun r => decide (M ≤ r) then
          .error (.invalidParameter "generating regions do not match the observation batch")
        else .ok ()
      | none =>
        if s.config.sharingPolicy = .independent then
          .error (.invalidParameter "independent sharing requires generating regions")
        else .ok ()
    check.map fun _ => (List.finRange M).foldl (tellRegion (observationsOf x y regions)) s

def restartRegion (r : ℕ) (newCenter : List D) (s : MultiTrustRegionState D M) :
    Except TrustRegionError (MultiTrustRegionState D M) :=
  if h : r < M then
    if newCenter.length ≠ s.numDim then
      .error (.invalidParameter s!"new_center len {newCenter.length} != num_dim {s.numDim}")
    else
      .ok { s with
        regions := Function.update s.regions ⟨r, h⟩
          (freshRegion s.config (newCenter.map fun c => clamp c 0 1)) }
  else .error (.invalidParameter s!"region_idx {r} out of bounds {M}")

end Tell

section Turns

variable {s : MultiTrustRegionState D M} {observations : List (Observation D)} {r q : Fin M}

theorem tellRegion_of_ne (h : q ≠ r) :
    (tellRegion observations s r).regions q = s.regions q := by
  unfold tellRegion
  split
  · rfl
  · exact Function.update_of_ne h _ _

@[simp] theorem tellRegion_config : (tellRegion observations s r).config = s.config := by
  unfold tellRegion
  split <;> rfl

theorem foldl_tellRegion_of_notMem {rs : List (Fin M)} (h : q ∉ rs) :
    (rs.foldl (tellRegion observations) s).regions q = s.regions q := by
  induction rs generalizing s with
  | nil => rfl
  | cons r rs ih =>
    rw [List.mem_cons, not_or] at h
    rw [List.foldl_cons, ih h.2, tellRegion_of_ne h.1]

@[simp] theorem foldl_tellRegion_config {rs : List (Fin M)} :
    (rs.foldl (tellRegion observations) s).config = s.config := by
  induction rs generalizing s with
  | nil => rfl
  | cons r rs ih => rw [List.foldl_cons, ih, tellRegion_config]

theorem exists_freshRegion_of_new {numDim : ℕ} {config : MultiTrustRegionConfig D}
    {initialCenters : Option (Array2 D)} {draws : Fin M → List D}
    (h : new numDim config initialCenters draws = .ok s) (r : Fin M) :
    ∃ center, s.regions r = freshRegion config center := by
  unfold new at h
  split at h
  next => cases h
  next =>
    split at h
    next => cases h
    next =>
      split at h
      next => cases h
      next =>
        cases initialCenters with
        | none =>
          cases h
          exact ⟨_, rfl⟩
        | some init =>
          dsimp only at h
          split at h
          next => cases h
          next =>
            cases h
            exact ⟨_, rfl⟩

theorem restartRegion_eq_ok {newCenter : List D} {s' : MultiTrustRegionState D M}
    (h : s.restartRegion r newCenter = .ok s') :
    s' = { s with
      regions := Function.update s.regions r
        (freshRegion s.config (newCenter.map fun c => clamp c 0 1)) } := by
  unfold restartRegion at h
  rw [dif_pos r.isLt] at h
  split at h
  next => cases h
  next => exact (Except.ok.inj h).symm

omit [Floating D] [Analysis D] in
theorem observationsOf_of_nrows {x : Array2 D} (h : x.nrows = 0) (y : List D)
    (regions : Option (List ℕ)) : observationsOf x y regions = [] := by
  have hrows : x.rows = [] := List.eq_nil_of_length_eq_zero h
  cases regions <;> simp [observationsOf, hrows]

/-- What a call does with its observations once they are accepted. -/
theorem tell_eq_ok {x : Array2 D} {y : List D} {regions : Option (List ℕ)}
    {s' : MultiTrustRegionState D M} (h : s.tell x y regions = .ok s') :
    x.nrows = 0 ∧ s' = s ∨
      0 < x.nrows ∧ s' = (List.finRange M).foldl (tellRegion (observationsOf x y regions)) s := by
  unfold tell at h
  split at h
  next h0 => exact .inl ⟨h0, (Except.ok.inj h).symm⟩
  next h0 =>
    right
    refine ⟨Nat.pos_of_ne_zero h0, ?_⟩
    split at h
    next => cases h
    next =>
      cases regions with
      | none =>
        dsimp only at h
        split at h
        next => cases h
        next => exact (Except.ok.inj h).symm
      | some ids =>
        dsimp only at h
        split at h
        next => cases h
        next => exact (Except.ok.inj h).symm

end Turns

end MultiTrustRegionState

end Ennbo
