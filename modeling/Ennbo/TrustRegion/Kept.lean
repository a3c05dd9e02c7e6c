import Ennbo.Index.Splitting
import Ennbo.TrustRegion.Allocation
import Ennbo.TrustRegion.Credit
import Mathlib.Tactic.Linarith
import Mathlib.Tactic.NormNum
import Mathlib.Tactic.Positivity

/-! # What regions keep

Whatever a region is told, its centre stays in the unit cube, its length within
the limits and its counters below the tolerances. A region that falls below the
least length is inactive until it is restarted.
-/

namespace Ennbo

/-- A literal is the number that it is written as. -/
class ExactLiteral (K : Type) [ExactArith K] [Analysis K] : Prop where
  literal_eq : ∀ m e : ℕ, (literal m e : K) = (m : K) / ((10 ^ e : ℕ) : K)

instance : ExactLiteral ℚ where
  literal_eq m e := by
    change (m : ℚ) / 10 ^ e = _
    rw [Nat.cast_pow, Nat.cast_ofNat]

section Bounds

variable {D : Type} [Floating D] [Analysis D]

namespace MultiTrustRegionState

/-- The bounds of a region, stretched by the lengthscales; too few of them panic. -/
def regionBounds (region : Region D) (lengthscales : Option (List D)) :
    Outcome (List D × List D) :=
  match lengthscales with
  | none => pure (computeBounds1d region)
  | some ls =>
    if ls.length < region.center.length then throw .panic
    else
      let lsMean := if ls.length = 0 then 1 else ls.foldl (· + ·) 0 / (ls.length : D)
      let half (l : D) := literal 5 1 * region.length * (l / lsMean)
      pure (List.zipWith (fun c l => clamp (c - half l) 0 1) region.center ls,
        List.zipWith (fun c l => clamp (c + half l) 0 1) region.center ls)

end MultiTrustRegionState

end Bounds

namespace MultiTrustRegionConfig

variable {K : Type} [ExactArith K]

/-- Limits and tolerances that fit together. -/
structure Valid (config : MultiTrustRegionConfig K) : Prop where
  lengthMin_pos : 0 < config.length.lengthMin
  lengthMin_le : config.length.lengthMin ≤ config.length.lengthInit
  lengthInit_le : config.length.lengthInit ≤ config.length.lengthMax
  succTolerance_pos : 0 < config.succTolerance
  failTolerance_pos : 0 < config.failTolerance

end MultiTrustRegionConfig

/-- What holds of a region at any time. -/
structure Region.Kept {K : Type} [ExactArith K] (config : MultiTrustRegionConfig K) (n : ℕ)
    (region : Region K) : Prop where
  width : region.center.length = n
  center_mem : ∀ c ∈ region.center, 0 ≤ c ∧ c ≤ 1
  length_pos : 0 < region.length
  length_le : region.length ≤ config.length.lengthMax
  lengthMin_le : region.active = true → config.length.lengthMin ≤ region.length
  succCount_mem : 0 ≤ region.succCount ∧ region.succCount < config.succTolerance
  failCount_mem : 0 ≤ region.failCount ∧ region.failCount < config.failTolerance

namespace MultiTrustRegionState

variable {K : Type} [ExactArith K] [Analysis K] {config : MultiTrustRegionConfig K} {n M : ℕ}
  {region : Region K} {center : List K}

section Literals

variable [ExactLiteral K]

theorem half_pos : (0 : K) < literal 5 1 := by
  rw [ExactLiteral.literal_eq]
  norm_num

theorem half_le_one : (literal 5 1 : K) ≤ 1 := by
  rw [ExactLiteral.literal_eq]
  norm_num

end Literals

section Clamps

variable {v w : K}

omit [Analysis K] in
theorem clamp_mem (v : K) : 0 ≤ clamp v 0 1 ∧ clamp v 0 1 ≤ 1 := by
  unfold clamp
  simp only [ltB_exact, decide_eq_true_eq]
  split
  · exact ⟨le_rfl, zero_le_one⟩
  · split
    · exact ⟨zero_le_one, le_rfl⟩
    · exact ⟨not_lt.mp ‹_›, not_lt.mp ‹_›⟩

omit [Analysis K] in
theorem clamp_eq_max_min (v : K) : clamp v 0 1 = max 0 (min v 1) := by
  unfold clamp
  simp only [ltB_exact, decide_eq_true_eq]
  split
  next h => rw [min_eq_left (h.le.trans zero_le_one), max_eq_left h.le]
  next h =>
    split
    next h' => rw [min_eq_right h'.le, max_eq_right zero_le_one]
    next h' => rw [min_eq_left (not_lt.mp h'), max_eq_right (not_lt.mp h)]

omit [Analysis K] in
theorem clamp_sub_lt_clamp_add (hv : 0 ≤ v ∧ v ≤ 1) (hw : 0 < w) :
    clamp (v - w) 0 1 < clamp (v + w) 0 1 ∧ clamp (v - w) 0 1 ≤ v ∧ v ≤ clamp (v + w) 0 1 := by
  have hlow : clamp (v - w) 0 1 = max 0 (v - w) := by
    rw [clamp_eq_max_min, min_eq_left (by linarith)]
  have hhigh : clamp (v + w) 0 1 = min (v + w) 1 := by
    rw [clamp_eq_max_min, max_eq_right (le_min (by linarith) zero_le_one)]
  rw [hlow, hhigh]
  refine ⟨lt_min (max_lt (by linarith) (by linarith)) (max_lt one_pos (by linarith)), ?_, ?_⟩
  · exact max_le hv.1 (by linarith)
  · exact le_min (by linarith) hv.2

theorem mem_of_contains {x : List K} (hwidth : region.center.length = n) (hx : x.length = n)
    (h : contains x (computeBounds1d region).1 (computeBounds1d region).2 = true) :
    ∀ c ∈ x, 0 ≤ c ∧ c ≤ 1 := by
  unfold contains computeBounds1d at h
  simp only [Bool.and_eq_true, List.all_eq_true, id] at h
  obtain ⟨hlow, hhigh⟩ := h
  intro c hc
  obtain ⟨j, hj, rfl⟩ := List.getElem_of_mem hc
  have hj' : j < region.center.length := by omega
  have hge := hlow (geB x[j] (clamp (region.center[j] - literal 5 1 * region.length) 0 1))
    (List.mem_iff_getElem.mpr ⟨j, by simpa using ⟨hj, hj'⟩, by simp⟩)
  have hle := hhigh (leB x[j] (clamp (region.center[j] + literal 5 1 * region.length) 0 1))
    (List.mem_iff_getElem.mpr ⟨j, by simpa using ⟨hj, hj'⟩, by simp⟩)
  unfold geB at hge
  rw [leB_exact, decide_eq_true_eq] at hge hle
  exact ⟨(clamp_mem _).1.trans hge, hle.trans (clamp_mem _).2⟩

end Clamps

section Steps

theorem kept_freshRegion (hvalid : config.Valid) (hwidth : center.length = n)
    (hmem : ∀ c ∈ center, 0 ≤ c ∧ c ≤ 1) : (freshRegion config center).Kept config n where
  width := hwidth
  center_mem := hmem
  length_pos := hvalid.lengthMin_pos.trans_le hvalid.lengthMin_le
  length_le := hvalid.lengthInit_le
  lengthMin_le _ := hvalid.lengthMin_le
  succCount_mem := ⟨le_rfl, hvalid.succTolerance_pos⟩
  failCount_mem := ⟨le_rfl, hvalid.failTolerance_pos⟩

omit [Analysis K] in
theorem kept_record (h : region.Kept config n) (y : K) : (record region y).Kept config n :=
  ⟨h.width, h.center_mem, h.length_pos, h.length_le, h.lengthMin_le, h.succCount_mem,
    h.failCount_mem⟩

omit [Analysis K] in
/-- An improvement moves the centre, and from time to time doubles the length. -/
theorem kept_improve (hvalid : config.Valid) (h : region.Kept config n)
    {o : Observation K} (hwidth : o.x.length = n) (hmem : ∀ c ∈ o.x, 0 ≤ c ∧ c ≤ 1) :
    (improve config region o).Kept config n := by
  obtain ⟨hnonneg, hlt⟩ := h.succCount_mem
  have hgrow : region.length ≤ ((2 : ℕ) : K) * region.length := by
    have := h.length_pos
    push_cast
    linarith
  unfold improve
  dsimp only
  split
  · refine ⟨hwidth, hmem, ?_, min_le_right _ _, fun hactive => ?_, ⟨le_rfl, ?_⟩, ⟨le_rfl, ?_⟩⟩
    · exact lt_min (h.length_pos.trans_le hgrow) (h.length_pos.trans_le h.length_le)
    · exact le_min ((h.lengthMin_le hactive).trans hgrow)
        (hvalid.lengthMin_le.trans hvalid.lengthInit_le)
    · exact hvalid.succTolerance_pos
    · exact hvalid.failTolerance_pos
  · refine ⟨hwidth, hmem, h.length_pos, h.length_le, h.lengthMin_le, ⟨?_, ?_⟩, ⟨le_rfl, ?_⟩⟩
    · exact hnonneg.trans (Int.le_add_one le_rfl)
    · exact not_le.mp ‹_›
    · exact hvalid.failTolerance_pos

/-- Without an improvement the length is halved from time to time, until the region is inactive. -/
theorem kept_decline [ExactLiteral K] (hvalid : config.Valid) (h : region.Kept config n) :
    (decline config region).Kept config n := by
  obtain ⟨hnonneg, hlt⟩ := h.failCount_mem
  have hpos : 0 < region.length * literal 5 1 := mul_pos h.length_pos half_pos
  have hle : region.length * literal 5 1 ≤ config.length.lengthMax :=
    (mul_le_of_le_one_right h.length_pos.le half_le_one).trans h.length_le
  unfold decline
  dsimp only
  split
  next =>
    split
    next =>
      refine ⟨h.width, h.center_mem, hpos, hle, nofun, ⟨le_rfl, ?_⟩, ⟨le_rfl, ?_⟩⟩
      · exact hvalid.succTolerance_pos
      · exact hvalid.failTolerance_pos
    next hmin =>
      rw [ltB_exact, decide_eq_true_eq, not_lt] at hmin
      refine ⟨h.width, h.center_mem, hpos, hle, fun _ => hmin, ⟨le_rfl, ?_⟩, ⟨le_rfl, ?_⟩⟩
      · exact hvalid.succTolerance_pos
      · exact hvalid.failTolerance_pos
  next hlt' =>
    refine ⟨h.width, h.center_mem, h.length_pos, h.length_le, h.lengthMin_le, ⟨le_rfl, ?_⟩,
      ⟨?_, ?_⟩⟩
    · exact hvalid.succTolerance_pos
    · exact hnonneg.trans (Int.le_add_one le_rfl)
    · exact not_le.mp hlt'

end Steps

def Kept (s : MultiTrustRegionState K M) : Prop := ∀ r, (s.regions r).Kept s.config s.numDim

section Tells

variable {s s' : MultiTrustRegionState K M} {observations : List (Observation K)} {r : Fin M}

omit [Analysis K] in
theorem kept_recorded (h : region.Kept config n) (values : List K) :
    (recorded region values).Kept config n := by
  unfold recorded
  induction values generalizing region with
  | nil => exact h
  | cons y values ih => exact ih (kept_record h y)

theorem mem_of_pick {o : Observation K} (h : s.pick observations r = some o) :
    o ∈ observations ∧ s.accepts r o = true := by
  unfold pick at h
  induction observations using List.reverseRecOn with
  | nil => cases h
  | append_singleton observations p ih =>
    rw [bestOf_concat] at h
    rcases better_cases (s.regions r).incumbentY (bestOf (s.regions r).incumbentY (s.accepts r)
      observations) (s.accepts r p) p with ⟨htakes, -, -, heq⟩ | ⟨-, heq⟩
    · rw [heq] at h
      obtain rfl := Option.some.inj h
      exact ⟨by simp, htakes⟩
    · rw [heq] at h
      exact ⟨List.mem_append_left _ (ih h).1, (ih h).2⟩

theorem tellRegion_numDim : (tellRegion observations s r).numDim = s.numDim := by
  rw [tellRegion_eq]

variable [ExactLiteral K]

theorem kept_turn (hvalid : s.config.Valid) (hshared : s.config.sharingPolicy = .shared)
    (hwidth : ∀ o ∈ observations, o.x.length = s.numDim)
    (h : (s.regions r).Kept s.config s.numDim) :
    (s.turn observations r).Kept s.config s.numDim := by
  cases hactive : (s.regions r).active with
  | false => exact turn_of_inactive hactive ▸ h
  | true =>
    rw [turn_of_active hactive]
    have hrecorded := kept_recorded h (toldOf observations r)
    cases hpick : s.pick observations r with
    | none => exact kept_decline hvalid hrecorded
    | some o =>
      obtain ⟨hmem, haccepts⟩ := mem_of_pick hpick
      have hcontains : contains o.x (computeBounds1d (s.regions r)).1
          (computeBounds1d (s.regions r)).2 = true := by
        rw [accepts, hshared] at haccepts
        exact haccepts
      exact kept_improve hvalid hrecorded (hwidth o hmem)
        (mem_of_contains h.width (hwidth o hmem) hcontains)

theorem kept_tellRegion (hvalid : s.config.Valid) (hshared : s.config.sharingPolicy = .shared)
    (hwidth : ∀ o ∈ observations, o.x.length = s.numDim) (h : s.Kept) :
    (tellRegion observations s r).Kept := by
  intro q
  rw [tellRegion_config, tellRegion_numDim]
  by_cases hq : q = r
  · subst hq
    rw [tellRegion_eq]
    dsimp only
    rw [Function.update_self]
    exact kept_turn hvalid hshared hwidth (h q)
  · rw [tellRegion_of_ne hq]
    exact h q

theorem kept_foldl_tellRegion (hvalid : s.config.Valid)
    (hshared : s.config.sharingPolicy = .shared)
    (hwidth : ∀ o ∈ observations, o.x.length = s.numDim) (h : s.Kept) (rs : List (Fin M)) :
    (rs.foldl (tellRegion observations) s).Kept := by
  induction rs generalizing s with
  | nil => exact h
  | cons r rs ih =>
    apply ih
    · rw [tellRegion_config]
      exact hvalid
    · rw [tellRegion_config]
      exact hshared
    · rw [tellRegion_numDim]
      exact hwidth
    · exact kept_tellRegion hvalid hshared hwidth h

omit [ExactArith K] [Analysis K] [ExactLiteral K] in
theorem mem_observationsOf {x : Array2 K} {y : List K} {regions : Option (List ℕ)}
    {o : Observation K} (h : o ∈ observationsOf x y regions) : o.x ∈ x.rows ∧ o.y ∈ y := by
  cases regions with
  | none =>
    obtain ⟨i, hi, rfl⟩ := List.getElem_of_mem h
    simp only [observationsOf, List.getElem_zipWith]
    exact ⟨List.getElem_mem _, List.getElem_mem _⟩
  | some ids =>
    obtain ⟨i, hi, rfl⟩ := List.getElem_of_mem h
    simp only [observationsOf, List.getElem_zipWith, List.getElem_zip]
    exact ⟨List.getElem_mem _, List.getElem_mem _⟩

omit [ExactLiteral K] in
theorem ncols_of_tell {x : Array2 K} {y : List K} {regions : Option (List ℕ)}
    (h : s.tell x y regions = .ok s') (hpos : 0 < x.nrows) : x.ncols = s.numDim := by
  unfold tell at h
  rw [if_neg hpos.ne'] at h
  by_contra hne
  rw [if_pos (.inl hne)] at h
  cases h

theorem Kept.tell (h : s.Kept) (hvalid : s.config.Valid)
    (hshared : s.config.sharingPolicy = .shared) {x : Array2 K} {y : List K}
    {regions : Option (List ℕ)} (htell : s.tell x y regions = .ok s') : s'.Kept := by
  obtain ⟨-, rfl⟩ | ⟨hpos, rfl⟩ := tell_eq_ok htell
  · exact h
  · apply kept_foldl_tellRegion hvalid hshared _ h
    intro o ho
    exact (x.width _ (mem_observationsOf ho).1).trans (ncols_of_tell htell hpos)

omit [ExactLiteral K] in
theorem Kept.restartRegion (h : s.Kept) (hvalid : s.config.Valid)
    (hrestart : s.restartRegion r center = .ok s') : s'.Kept := by
  have hwidth : center.length = s.numDim := by
    by_contra hne
    unfold MultiTrustRegionState.restartRegion at hrestart
    rw [dif_pos r.isLt, if_pos hne] at hrestart
    cases hrestart
  rw [restartRegion_eq_ok hrestart]
  intro q
  dsimp only
  by_cases hq : q = r
  · subst hq
    rw [Function.update_self]
    apply kept_freshRegion hvalid (by simpa using hwidth)
    simp only [List.mem_map, forall_exists_index, and_imp]
    rintro _ c - rfl
    exact clamp_mem c
  · rw [Function.update_of_ne hq]
    exact h q

end Tells

section Means

/-- Zero is finite, and so is what lies between finite numbers. -/
class FiniteInterval (K : Type) [ExactArith K] [Analysis K] : Prop where
  isFinite_zero : isFinite (0 : K) = true
  isFinite_between : ∀ a b c : K, isFinite a = true → isFinite b = true → a ≤ c → c ≤ b →
    isFinite c = true

instance : FiniteInterval ℚ where
  isFinite_zero := by decide
  isFinite_between a b c ha hb hac hcb := by
    have ha : -(10 : ℚ) ^ 40 < a ∧ a < 10 ^ 40 := of_decide_eq_true ha
    have hb : -(10 : ℚ) ^ 40 < b ∧ b < 10 ^ 40 := of_decide_eq_true hb
    exact decide_eq_true (p := -(10 : ℚ) ^ 40 < c ∧ c < 10 ^ 40)
      ⟨ha.1.trans_le hac, hcb.trans_lt hb.2⟩

variable [FiniteInterval K] {s s' : MultiTrustRegionState K M}

theorem isFinite_meanY_record (h : isFinite region.meanY = true) {y : K} (hy : isFinite y = true) :
    isFinite (record region y).meanY = true := by
  have hcount : (1 : K) ≤ ((region.trialCount + 1 : ℕ) : K) :=
    Nat.one_le_cast.mpr (Nat.le_add_left 1 _)
  have hpos : (0 : K) < ((region.trialCount + 1 : ℕ) : K) := one_pos.trans_le hcount
  change isFinite (region.meanY + (y - region.meanY) / ((region.trialCount + 1 : ℕ) : K)) = true
  rcases le_total region.meanY y with hle | hle
  · apply FiniteInterval.isFinite_between region.meanY y _ h hy
    · have := div_nonneg (sub_nonneg.mpr hle) hpos.le
      linarith
    · have := div_le_self (sub_nonneg.mpr hle) hcount
      linarith
  · apply FiniteInterval.isFinite_between y region.meanY _ hy h
    · have := div_le_self (sub_nonneg.mpr hle) hcount
      rw [← neg_sub y, neg_div] at this
      linarith
    · have := div_nonpos_of_nonpos_of_nonneg (sub_nonpos.mpr hle) hpos.le
      linarith

theorem isFinite_meanY_recorded (h : isFinite region.meanY = true) {values : List K}
    (hvalues : ∀ y ∈ values, isFinite y = true) :
    isFinite (recorded region values).meanY = true := by
  unfold recorded
  induction values generalizing region with
  | nil => exact h
  | cons y values ih =>
    rw [List.forall_mem_cons] at hvalues
    exact ih (isFinite_meanY_record h hvalues.1) hvalues.2

def FiniteMeans (s : MultiTrustRegionState K M) : Prop :=
  ∀ r, isFinite (s.regions r).meanY = true

theorem FiniteMeans.tell (h : s.FiniteMeans) {x : Array2 K} {y : List K}
    {regions : Option (List ℕ)} (hy : ∀ v ∈ y, isFinite v = true)
    (htell : s.tell x y regions = .ok s') : s'.FiniteMeans := by
  obtain ⟨-, rfl⟩ | ⟨-, rfl⟩ := tell_eq_ok htell
  · exact h
  · intro r
    have hstats := stats_tell (observationsOf x y regions) s r
    simp only [stats] at hstats
    split at hstats
    · rw [(Prod.mk.inj (Prod.mk.inj hstats).2).1]
      apply isFinite_meanY_recorded (h r)
      intro v hv
      obtain ⟨o, ho, rfl⟩ := List.mem_map.mp hv
      exact hy _ (mem_observationsOf (List.mem_of_mem_filter ho)).2
    · rw [(Prod.mk.inj (Prod.mk.inj hstats).2).1]
      exact h r

end Means

section Budgets

variable {D : Type} [Floating D] [Analysis D] {s : MultiTrustRegionState D M}

/-- A budget that is divided among distinct active regions, with a candidate for each. -/
structure Shares (s : MultiTrustRegionState D M) (budget : ℕ) (batches : List (RegionBatch M)) :
    Prop where
  active : ∀ b ∈ batches, (s.regions b.region).active = true
  nodup : (batches.map RegionBatch.region).Nodup
  len_pos : ∀ b ∈ batches, 0 < b.len
  sum_eq : (batches.map RegionBatch.len).sum = budget

omit [Floating D] [Analysis D] in
theorem shares_batches {rs : List (Fin M)} {len : Fin M → ℕ} {budget : ℕ}
    (hactive : ∀ r ∈ rs, (s.regions r).active = true) (hnodup : rs.Nodup)
    (hpos : ∀ r ∈ rs, 0 < len r) (hsum : (rs.map len).sum = budget) (start : ℕ) :
    s.Shares budget (batches len start rs) where
  active b hb := by
    have hmem : b.region ∈ (batches len start rs).map RegionBatch.region := List.mem_map_of_mem hb
    rw [region_batches] at hmem
    exact hactive _ hmem
  nodup := region_batches ▸ hnodup
  len_pos b hb := by
    have hmem : b.len ∈ (batches len start rs).map RegionBatch.len := List.mem_map_of_mem hb
    rw [len_batches] at hmem
    obtain ⟨r, hr, hlen⟩ := List.mem_map.mp hmem
    exact hlen ▸ hpos r hr
  sum_eq := len_batches ▸ hsum

/-- A positive budget is divided in full, when a region is active and the utilities are finite. -/
theorem allocateWith_eq_ok {budget : ℕ} (hpos : 0 < budget) {us : List D} (hlen : us.length = M)
    (hfinite : ∀ u ∈ us, isFinite u = true) {r : Fin M} (hr : (s.regions r).active = true) :
    ∃ bs, s.allocateWith budget us = .ok bs ∧ s.Shares budget bs := by
  have hnodup := s.nodup_activeRegions
  have hne : s.activeRegions ≠ [] := List.ne_nil_of_mem (mem_activeRegions.mpr hr)
  unfold allocateWith
  rw [if_neg (by simpa [hlen] using hfinite), if_neg (by simpa using hne), if_neg hpos.ne']
  dsimp only
  split
  next hlt =>
    refine ⟨_, rfl, shares_batches ?_ ?_ (fun _ _ => one_pos) ?_ 0⟩
    · intro q hq
      exact mem_activeRegions.mp ((List.mem_insertionSort _).mp (List.mem_of_mem_take hq))
    · exact ((List.perm_insertionSort _ _).nodup_iff.mpr hnodup).sublist (List.take_sublist _ _)
    · simp only [List.map_const', List.sum_replicate, smul_eq_mul, mul_one, List.length_take,
        List.length_insertionSort]
      omega
  next hle =>
    have hspec := s.queue_iterate_spec (fun r => us.getD r 0) hne hnodup
      (budget - s.activeRegions.length)
    refine ⟨_, rfl, shares_batches (fun q => mem_activeRegions.mp) hnodup (fun q _ => hspec.1 q) ?_ 0⟩
    rw [hspec.2]
    omega

end Budgets

end MultiTrustRegionState

end Ennbo
