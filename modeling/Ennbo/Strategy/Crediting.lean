import Ennbo.Strategy.Proposals

/-! # Credit for arms

After an ask of the regions a tell is taken in exactly when it has a row for each
arm. Then every region counts the values of its own arms, unless it is given up
and starts again. A tell of another size is refused by the regions, although the
optimizer has kept its rows.
-/

namespace Ennbo

open MultiTrustRegionState

section Trials

variable {D : Type} [Floating D] [Analysis D] {M : ℕ} {s : MultiTrustRegionState D M}

omit [Floating D] [Analysis D] in
theorem length_filter_observationsOf {x : Array2 D} {y : List D} {ids : List ℕ}
    (hy : y.length = x.nrows) (hids : ids.length = x.nrows) (r : ℕ) :
    ((observationsOf x y (some ids)).filter fun o => o.region == some r).length = ids.count r := by
  have hmap : (observationsOf x y (some ids)).map Observation.region = ids.map some := by
    apply List.ext_getElem
    · simp [observationsOf, hy, hids, Array2.nrows]
    · intro i hi hi'
      simp [observationsOf]
  rw [← List.countP_eq_length_filter, List.count_eq_countP]
  have hcount := congrArg (List.countP (· == some r)) hmap
  rw [List.countP_map, List.countP_map] at hcount
  simpa [Function.comp_def] using hcount

omit [Analysis D] in
theorem trialCount_recorded (region : Region D) (values : List D) :
    (recorded region values).trialCount = region.trialCount + values.length := by
  unfold recorded
  induction values generalizing region with
  | nil => rfl
  | cons y values ih =>
    rw [List.foldl_cons, ih, List.length_cons]
    change region.trialCount + 1 + values.length = _
    omega

theorem tell_some_eq {x : Array2 D} {y : List D} {ids : List ℕ} (hpos : 0 < x.nrows)
    (hcols : x.ncols = s.numDim) (hy : y.length = x.nrows) (hids : ∀ id ∈ ids, id < M) :
    s.tell x y (some ids) = if ids.length = x.nrows
      then .ok ((List.finRange M).foldl (tellRegion (observationsOf x y (some ids))) s)
      else .error
        (.invalidParameter "generating regions do not match the observation batch") := by
  have hnone : (ids.any fun r => decide (M ≤ r)) = false := by
    rw [List.any_eq_false]
    intro id hid
    simpa using hids id hid
  unfold MultiTrustRegionState.tell
  rw [if_neg hpos.ne', if_neg (by simp [hcols, hy])]
  dsimp only
  rw [hnone]
  by_cases hlen : ids.length = x.nrows
  · rw [if_pos hlen, if_neg (by simp [hlen])]
    rfl
  · rw [if_neg hlen, if_pos (.inl hlen)]
    rfl

theorem trialCount_tell {x : Array2 D} {y : List D} {ids : List ℕ} (hy : y.length = x.nrows)
    (hids : ids.length = x.nrows) {r : Fin M} (hactive : (s.regions r).active = true) :
    (((List.finRange M).foldl (tellRegion (observationsOf x y (some ids))) s).regions
      r).trialCount = (s.regions r).trialCount + ids.count r.val := by
  have hstats := stats_tell (observationsOf x y (some ids)) s r
  rw [if_pos hactive] at hstats
  have hcount := congrArg Prod.fst hstats
  simp only [stats] at hcount
  rw [hcount, trialCount_recorded, List.length_map, length_filter_observationsOf hy hids]

end Trials

section Updates

variable {D : Type} [Floating D] [Analysis D] {M : ℕ} {s s' : MultiTrustRegionState D M}
  {x : Array2 D} {y center : List D} {regions : Option (List ℕ)}

theorem update_of_ok (h : s.tell x y regions = .ok s') (hwidth : center.length = s'.numDim) :
    update x y regions center s = (.ok (), revived s' center) := by
  have htell : tellCall x y regions s = (.ok (), s') := by
    unfold tellCall
    rw [Call.get_bind_apply, MorboTrustRegion.ofExcept_eq_ok.mpr h]
    rfl
  unfold update
  rw [Call.bind_apply_of_ok _ htell]
  exact returns_restartInactive hwidth

theorem update_of_error {e : TrustRegionError} (h : s.tell x y regions = .error e) :
    update x y regions center s = (.error e.failure, s) := by
  have htell : tellCall x y regions s = (.error e.failure, s) := by
    unfold tellCall
    rw [Call.get_bind_apply, h]
    rfl
  exact Call.bind_apply_of_error _ htell

end Updates

theorem Optimizer.nrows_of_tellCommon {D : Type} [Floating D] [Analysis D] [Rounding D]
    {o o' : Optimizer D} {t : Tell D} (h : Call.Returns (tellCommon t) o () o') :
    t.x.nrows = t.y.nrows ∧ 0 < t.y.nrows := by
  simp only [tellCommon, Call.returns_bind, Call.returns_get, Call.returns_ofOutcome] at h
  obtain ⟨_, _, ⟨rfl, rfl⟩, _, _, -, counts, _, ⟨hprepare, -⟩, -⟩ := h
  obtain ⟨hrows, hpos, -⟩ := prepareObservations_eq_ok hprepare
  exact ⟨hrows, hpos⟩

namespace Session

section Telling

variable {D ρ : Type} [Floating D] [Analysis D] [Rounding D] {M : ℕ} {s : Session D ρ M}
  {t : ExperimentalTell D ρ} {o : Optimizer D}

/-- The session in which the optimizer has taken a tell, before the regions hear of it. -/
def heard (t : ExperimentalTell D ρ) (o : Optimizer D) (s : Session D ρ M) : Session D ρ M :=
  { s with
    surrogate := t.surrogate
    incumbentXUnit := t.incumbentX
    optimizer := o
    strategy := { s.strategy.completeInit t.x.nrows with pendingRegions := none } }

omit [Rounding D] in
theorem tell_eq (hcols : t.y.ncols = 1)
    (hcommon : Call.Returns (Optimizer.tellCommon t.toTell) s.optimizer () o) :
    tell t s = onRegions (update t.x t.y.zerothColumn s.strategy.pendingRegions
      (s.heard t o).restartCenter) (s.heard t o) := by
  unfold Session.tell
  rw [if_neg (not_not.mpr hcols), Call.modify_bind_apply]
  have honOptimizer : onOptimizer (Optimizer.tellCommon t.toTell)
      { s with surrogate := t.surrogate, incumbentXUnit := t.incumbentX } =
        (.ok (), { s with
          surrogate := t.surrogate
          incumbentXUnit := t.incumbentX
          optimizer := o }) := by
    unfold onOptimizer Call.on
    dsimp only
    rw [show Optimizer.tellCommon t.toTell s.optimizer = _ from hcommon]
  rw [Call.bind_apply_of_ok _ honOptimizer]
  rfl

omit [Rounding D] in
theorem tell_of_ok (hcols : t.y.ncols = 1)
    (hcommon : Call.Returns (Optimizer.tellCommon t.toTell) s.optimizer () o)
    {m : MultiTrustRegionState D M}
    (htell : s.strategy.multiTr.tell t.x t.y.zerothColumn s.strategy.pendingRegions = .ok m)
    (hwidth : (s.heard t o).restartCenter.length = m.numDim) :
    tell t s = (.ok (), { s.heard t o with
      strategy := { (s.heard t o).strategy with
        multiTr := revived m (s.heard t o).restartCenter } }) := by
  rw [tell_eq hcols hcommon]
  unfold onRegions onStrategy Call.on
  dsimp only
  rw [show (s.heard t o).strategy.multiTr = s.strategy.multiTr from rfl, update_of_ok htell hwidth]

omit [Rounding D] in
theorem tell_of_error (hcols : t.y.ncols = 1)
    (hcommon : Call.Returns (Optimizer.tellCommon t.toTell) s.optimizer () o)
    {e : TrustRegionError}
    (htell : s.strategy.multiTr.tell t.x t.y.zerothColumn s.strategy.pendingRegions = .error e) :
    tell t s = (.error e.failure, s.heard t o) := by
  rw [tell_eq hcols hcommon]
  unfold onRegions onStrategy Call.on
  dsimp only
  rw [show (s.heard t o).strategy.multiTr = s.strategy.multiTr from rfl, update_of_error htell]
  rfl

end Telling

section Runs

variable {K ρ : Type} [ExactArith K] [Analysis K] [Rounding K] [FloatToUsize K] [FloatRem K]
  [ExactOrder K] [ExactLiteral K] [FiniteInterval K] [ExactRem K] [RandomGenerator K ρ]
  [LawfulGenerator K ρ] {M n : ℕ} {s s' : Session K ρ M} {config : AskConfig K}
  {numArms : ℕ} {rows : List (List K)}

/-- Each region counts its arms, unless it is given up and starts again. -/
def Counted (ids : List ℕ) (s s' : Session K ρ M) : Prop :=
  ∀ r, (s'.strategy.multiTr.regions r).trialCount =
      (s.strategy.multiTr.regions r).trialCount + ids.count r.val ∨
    ∃ center, s'.strategy.multiTr.regions r = freshRegion s.strategy.multiTr.config center

omit [FloatToUsize K] [FloatRem K] [ExactOrder K] [ExactLiteral K] [FiniteInterval K]
  [ExactRem K] [RandomGenerator K ρ] [LawfulGenerator K ρ] in
theorem counted_of_tell (h : s.Serving n) {t : ExperimentalTell K ρ} {o : Optimizer K}
    (hfit : t.Fits n) (hcols : t.y.ncols = 1) (hwidth : t.x.ncols = n)
    (hcommon : Call.Returns (Optimizer.tellCommon t.toTell) s.optimizer () o) {ids : List ℕ}
    (hpending : s.strategy.pendingRegions = some ids) (hids : ∀ id ∈ ids, id < M) :
    (t.x.nrows = ids.length → ∃ s', Call.Returns (tell t) s () s' ∧ Counted ids s s') ∧
      (t.x.nrows ≠ ids.length → tell t s = (.error (.error (.invalidParameter
        "Invalid parameter: generating regions do not match the observation batch")),
          s.heard t o)) := by
  obtain ⟨hrows, hpos⟩ := Optimizer.nrows_of_tellCommon hcommon
  have hy : t.y.zerothColumn.length = t.x.nrows := (List.length_map _).trans hrows.symm
  have htell := tell_some_eq (s := s.strategy.multiTr) (hrows ▸ hpos)
    (hwidth.trans h.regions.numDim_eq.symm) hy hids
  rw [← hpending] at htell
  constructor
  · intro hlen
    rw [if_pos hlen.symm] at htell
    have hfits : Fits n (s.heard t o).numDim (s.heard t o).surrogate
        (s.heard t o).incumbentXUnit := ⟨h.frame.1, hfit.surrogate, hfit.incumbentX⟩
    have hcenter := length_restartCenter hfits
    refine ⟨_, tell_of_ok hcols hcommon htell ?_, fun r => ?_⟩
    · rw [hcenter, foldl_tellRegion_eq]
      exact h.regions.numDim_eq.symm
    · dsimp only [revived, revive]
      split
      · left
        rw [hpending, trialCount_tell hy hlen.symm (h.regions.active r)]
      · right
        rw [foldl_tellRegion_config]
        exact ⟨_, rfl⟩
  · intro hlen
    rw [if_neg (Ne.symm hlen)] at htell
    exact tell_of_error hcols hcommon htell

end Runs

end Session

end Ennbo
