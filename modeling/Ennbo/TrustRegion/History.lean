import Ennbo.TrustRegion.Optimizer

/-! # Bounded history

A TuRBO region scales an improvement by the range of earlier values, of which it
keeps the extremes. They start with the first value that the region itself takes
in, and again at a restart, so earlier values are missing. A reference region
that looks at all values told before follows the same course as long as the two
scales lead to the same verdicts.
-/

namespace Ennbo

variable {D : Type} [Floating D] [Analysis D] [Rounding D]

def Array2.firstColumn (y : Array2 D) : List D := y.rows.map fun row => row.getD 0 0

namespace TurboTrustRegion

/-- What a region has come to. -/
structure SameProgress (t r : TurboTrustRegion D) : Prop where
  length_eq : t.length = r.length
  failureCounter_eq : t.failureCounter = r.failureCounter
  successCounter_eq : t.successCounter = r.successCounter
  bestValue_eq : t.bestValue = r.bestValue

/-- Other observations behind the region. -/
def withHistory (n : ℕ) (lo hi : D) (t : TurboTrustRegion D) : TurboTrustRegion D :=
  { t with
    prevNumObs := n
    histYmin := lo
    histYmax := hi }

/-- The regions differ in the observations behind them and in the arms of the last batch. -/
def Follows (t r : TurboTrustRegion D) : Prop :=
  ∃ n lo hi numArms tolerance, t =
    { r.withHistory n lo hi with
      numArms := numArms
      failureTolerance := tolerance }

def watermark (n : ℕ) (t : TurboTrustRegion D) : TurboTrustRegion D :=
  if t.prevNumObs = 0 then t.setPrevNumObs n else t

/-- A tell to the reference region, which scales by all values told before. -/
def tellOver (earlier : List D) (numArms : ℕ) (value : D) (r : TurboTrustRegion D) :
    TurboTrustRegion D :=
  let r := (r.setNumArms numArms).advance (observedScale earlier) value
  if r.needsRestart then r.restart else r

/-- The region of a new optimizer. -/
def ofConfig (numDim : ℕ) (config : TRLengthConfig D) (dim : Option D) : TurboTrustRegion D :=
  match dim with
  | none => new numDim config
  | some dim => (new numDim config).setFailureToleranceDim dim

variable {t r : TurboTrustRegion D}

omit [Floating D] [Analysis D] [Rounding D] in
theorem Follows.refl (t : TurboTrustRegion D) : t.Follows t :=
  ⟨_, _, _, _, _, rfl⟩

omit [Floating D] [Analysis D] [Rounding D] in
theorem Follows.sameProgress (h : t.Follows r) : t.SameProgress r := by
  obtain ⟨n, lo, hi, numArms, tolerance, rfl⟩ := h
  constructor <;> rfl

omit [Floating D] [Analysis D] [Rounding D] in
theorem Follows.watermark (h : t.Follows r) (n : ℕ) : (t.watermark n).Follows r := by
  obtain ⟨n', lo, hi, numArms, tolerance, rfl⟩ := h
  unfold TurboTrustRegion.watermark
  split
  · exact ⟨n, lo, hi, numArms, tolerance, rfl⟩
  · exact ⟨n', lo, hi, numArms, tolerance, rfl⟩

omit [Rounding D] in
theorem Follows.restart (h : t.Follows r) : t.restart.Follows r.restart := by
  obtain ⟨n, lo, hi, numArms, tolerance, rfl⟩ := h
  exact ⟨n, infinity, negInfinity, numArms, tolerance, rfl⟩

omit [Analysis D] [Rounding D] in
theorem Follows.needsRestart_eq (h : t.Follows r) : t.needsRestart = r.needsRestart := by
  obtain ⟨n, lo, hi, numArms, tolerance, rfl⟩ := h
  rfl

omit [Analysis D] in
theorem Follows.setNumArms (h : t.Follows r) (numArms : ℕ) :
    ∃ n lo hi, t.setNumArms numArms = (r.setNumArms numArms).withHistory n lo hi := by
  obtain ⟨n, lo, hi, numArms', tolerance, rfl⟩ := h
  exact ⟨n, lo, hi, rfl⟩

omit [Analysis D] in
theorem Follows.arms (h : t.Follows r) (numArms : ℕ) : (t.setNumArms numArms).Follows r := by
  obtain ⟨n, lo, hi, numArms', tolerance, rfl⟩ := h
  exact ⟨n, lo, hi, _, _, rfl⟩

omit [Analysis D] in
theorem watermark_setNumArms (t : TurboTrustRegion D) (numArms n : ℕ) :
    (t.setNumArms numArms).watermark n = (t.watermark n).setNumArms numArms := by
  unfold TurboTrustRegion.watermark
  change (if t.prevNumObs = 0 then _ else _) = _
  split <;> rfl

omit [Floating D] [Analysis D] [Rounding D] in
theorem count_withHistory (r : TurboTrustRegion D) (n : ℕ) (lo hi : D) (improved : Bool) :
    (r.withHistory n lo hi).count improved = (r.count improved).withHistory n lo hi := by
  cases improved <;> rfl

omit [Rounding D] in
theorem adaptLength_withHistory (r : TurboTrustRegion D) (n : ℕ) (lo hi : D) :
    (r.withHistory n lo hi).adaptLength = r.adaptLength.withHistory n lo hi := by
  unfold adaptLength
  change (if r.successTolerance ≤ r.successCounter then _ else
    if r.failureTolerance.getD 4 ≤ r.failureCounter then _ else _) = _
  split
  · rfl
  · split <;> rfl

omit [Rounding D] in
theorem advance_withHistory (r : TurboTrustRegion D) (n : ℕ) (lo hi : D) {scale scale' value : D}
    (h : isFinite r.bestValue = true → r.improves scale value = r.improves scale' value) :
    (r.withHistory n lo hi).advance scale value =
      (r.advance scale' value).withHistory n lo hi := by
  unfold advance
  change (if !isFinite r.bestValue then _ else _) = _
  cases hfinite : isFinite r.bestValue with
  | false => rfl
  | true =>
    have hcount : (r.withHistory n lo hi).count ((r.withHistory n lo hi).improves scale value) =
        (r.count (r.improves scale' value)).withHistory n lo hi := by
      rw [← h hfinite]
      exact count_withHistory r n lo hi _
    simp only [hcount, adaptLength_withHistory]
    rfl

omit [Rounding D] in
theorem updateWithIncumbentNewBatch_eq_ok {t t' : TurboTrustRegion D}
    {yNew : List D} {numObs : ℕ} {value : D} (hne : 0 < yNew.length)
    (h : t.updateWithIncumbentNewBatch yNew numObs value = .ok t') :
    ∃ n lo hi, t' = (t.advance t.scaleFromHist value).withHistory n lo hi := by
  unfold updateWithIncumbentNewBatch at h
  dsimp only at h
  rw [if_neg hne.ne'] at h
  split at h
  next => cases h
  next =>
    cases h
    exact ⟨_, _, _, rfl⟩

/-- A batch moves both regions alike when the verdict is the same. -/
theorem Follows.update {t' : TurboTrustRegion D} (h : t.Follows r) {numArms n numObs : ℕ}
    {earlier yNew : List D} {value : D} (hne : 0 < yNew.length)
    (hverdict : isFinite t.bestValue = true →
      t.improves (t.watermark n).scaleFromHist value = t.improves (observedScale earlier) value)
    (hupdate : ((t.setNumArms numArms).watermark n).updateWithIncumbentNewBatch yNew numObs value =
      .ok t') :
    t'.Follows ((r.setNumArms numArms).advance (observedScale earlier) value) := by
  obtain ⟨n₁, lo₁, hi₁, ht'⟩ := updateWithIncumbentNewBatch_eq_ok hne hupdate
  obtain ⟨n₂, lo₂, hi₂, hr⟩ := (h.watermark n).setNumArms numArms
  have hbest : t.bestValue = r.bestValue := h.sameProgress.bestValue_eq
  have himproves : ∀ scale,
      t.improves scale value = (r.setNumArms numArms).improves scale value := by
    intro scale
    unfold improves
    rw [hbest]
    rfl
  simp only [himproves, hbest] at hverdict
  rw [watermark_setNumArms] at ht'
  change t' = ((TurboTrustRegion.setNumArms _ numArms).advance (t.watermark n).scaleFromHist
    value).withHistory _ _ _ at ht'
  rw [hr, advance_withHistory (r.setNumArms numArms) _ _ _ hverdict] at ht'
  exact ⟨n₁, lo₁, hi₁, _, _, ht'⟩

end TurboTrustRegion

namespace Optimizer

variable {o o₁ : Optimizer D} {t : TurboTrustRegion D} {b : Tell D}

omit [Rounding D] in
theorem tellCommon_turbo (ht : o.trState = .turbo t) (h : (tellCommon b).Returns o () o₁) :
    o₁.trState = .turbo t ∧ b.incumbent = .ok o₁.incumbentYScalar ∧
      o₁.observations = o.observations.append b.y ∧ 0 < b.y.nrows := by
  have hmorbo : ∀ tr : TrustRegionState D, tr = .turbo t → ∀ p : Prop,
      ¬ (tr.isMorbo = true ∧ p) := by
    rintro _ rfl p ⟨hmorbo, -⟩
    cases hmorbo
  simp only [tellCommon, morboRanges, morboIncumbent, Call.returns_bind, Call.returns_get,
    Call.returns_ofOutcome, Call.returns_modify] at h
  obtain ⟨_, _, ⟨rfl, rfl⟩, _, _, ⟨-, rfl⟩, _, _, ⟨hprepare, rfl⟩, _, _, ⟨-, rfl⟩, _, _, rfl,
    _, _, ⟨_, _, ⟨rfl, rfl⟩, hranges⟩, inc, _, ⟨hinc, rfl⟩, _, _, rfl, _, _, ⟨rfl, rfl⟩, h⟩ := h
  rw [if_neg (hmorbo _ ht _)] at hranges
  obtain ⟨-, rfl⟩ := Call.returns_pure.mp hranges
  rw [if_neg (hmorbo _ ht _)] at h
  obtain ⟨-, rfl⟩ := Call.returns_pure.mp h
  exact ⟨ht, hinc, rfl, (prepareObservations_eq_ok hprepare).2.1⟩

omit [Floating D] [Analysis D] [Rounding D] in
theorem turboWatermark_turbo (ht : o.trState = .turbo t) {n nrows : ℕ}
    (h : (turboWatermark n nrows).Returns o () o₁) :
    o₁ = { o with trState := .turbo (t.watermark (n - nrows)) } := by
  obtain ⟨_, _, hget, h⟩ := Call.returns_bind.mp h
  obtain ⟨rfl, rfl⟩ := Call.returns_get.mp hget
  rw [ht] at h
  unfold TurboTrustRegion.watermark
  rw [Call.returns_ite] at h
  change if t.prevNumObs = 0 then _ else _ at h
  split at h
  next h0 =>
    obtain ⟨_, hmodify, rfl⟩ := returns_onRegion.mp h
    obtain rfl := Call.returns_modify.mp hmodify
    rw [ht, if_pos h0]
    rfl
  next h0 =>
    obtain ⟨-, rfl⟩ := Call.returns_pure.mp h
    rw [if_neg h0, ← ht]

omit [Rounding D] in
theorem tellUpdateNewBatch_turbo {y : Array2 D} {inc : List D} {n : ℕ} {tr : TrustRegionState D}
    (h : (TrustRegionState.tellUpdateNewBatch y inc n).Returns (.turbo t) () tr) :
    ∃ t', t.updateWithIncumbentNewBatch y.firstColumn n (inc.getD 0 0) = .ok t' ∧
      tr = .turbo t' := by
  simp only [Call.Returns, TrustRegionState.tellUpdateNewBatch] at h
  split at h
  next => simp at h
  next =>
    split at h
    next => simp at h
    next =>
      split at h
      next t' ht' =>
        obtain ⟨-, rfl⟩ := Prod.mk.inj h
        exact ⟨t', ht', rfl⟩
      next => simp at h

/-- A TuRBO region is set up for the batch and takes it in. -/
theorem tellRegion_turbo (ht : o.trState = .turbo t) (h : (tellRegion b).Returns o () o₁) :
    ∃ inc t', o.incumbentYScalar = some inc ∧
      ((t.setNumArms b.x.nrows).watermark
        (o.observations.count - b.y.nrows)).updateWithIncumbentNewBatch b.y.firstColumn
          o.observations.count (inc.getD 0 0) = .ok t' ∧
      o₁ = { o with trState := .turbo t' } := by
  simp only [tellRegion, Call.returns_bind, Call.returns_get, Call.returns_ofOutcome,
    returns_onRegion, Call.returns_modify] at h
  obtain ⟨_, _, ⟨rfl, rfl⟩, inc, _, ⟨hinc, rfl⟩, _, _, ⟨_, rfl, rfl⟩, h⟩ := h
  rw [ht] at h
  obtain ⟨_, o₂, hmark, h⟩ := Call.returns_bind.mp h
  obtain rfl := turboWatermark_turbo rfl hmark
  obtain ⟨_, hupdate, rfl⟩ := returns_onRegion.mp h
  obtain ⟨t', ht', rfl⟩ := tellUpdateNewBatch_turbo hupdate
  refine ⟨inc, t', ?_, ht', rfl⟩
  unfold expectIncumbent at hinc
  split at hinc
  next hsome =>
    rw [hsome, Outcome.pure_eq_ok.mp hinc]
  next => simp at hinc

omit [Rounding D] in
theorem restartRegion_turbo (ht : o.trState = .turbo t) (h : (restartRegion b).Returns o () o₁) :
    o₁.trState = .turbo (if t.needsRestart then t.restart else t) ∧
      o₁.incumbentYScalar = o.incumbentYScalar := by
  obtain ⟨_, _, hget, h⟩ := Call.returns_bind.mp h
  obtain ⟨rfl, rfl⟩ := Call.returns_get.mp hget
  rw [ht, Call.returns_ite] at h
  change if t.needsRestart = true then _ else _ at h
  split at h
  next hrestart =>
    simp only [Call.returns_bind, returns_onRegion, Call.returns_modify, morboSyncRangesFromObs,
      Call.returns_get] at h
    obtain ⟨_, _, ⟨_, rfl, rfl⟩, _, _, rfl, _, _, ⟨rfl, rfl⟩, h⟩ := h
    rw [ht] at h
    obtain ⟨-, rfl⟩ := Call.returns_pure.mp h
    rw [if_pos hrestart]
    exact ⟨rfl, rfl⟩
  next hrestart =>
    obtain ⟨-, rfl⟩ := Call.returns_pure.mp h
    rw [ht, if_neg hrestart]
    exact ⟨rfl, rfl⟩

end Optimizer

/-- An optimizer, a reference region, and the values told so far. -/
structure Tracked (D : Type) where
  optimizer : Optimizer D
  reference : TurboTrustRegion D
  told : List D

namespace Tracked

def new (t : TurboTrustRegion D) (strategy : Strategy) (observations : Observations D) :
    Tracked D :=
  ⟨.new (.turbo t) strategy observations, t, []⟩

def ask (numArms : ℕ) (us : ℕ → D) (s : Tracked D) : Tracked D :=
  { s with optimizer := (Optimizer.ask numArms us s.optimizer).2 }

/-- A tell that is accepted; in the TuRBO phase the reference region takes the incumbent, too. -/
def tell (b : Tell D) (s : Tracked D) : Outcome (Tracked D) := do
  let o ← (Optimizer.tell b).exec s.optimizer
  let value := (o.incumbentYScalar.getD []).getD 0 0
  return {
    optimizer := o
    reference :=
      if s.optimizer.inInit then s.reference
      else s.reference.tellOver s.told b.x.nrows value
    told := s.told ++ b.y.firstColumn }

/-- Whether a value counts as a success by the kept extremes and by all values told before; the
first value of a region is not judged. -/
def verdicts (b : Tell D) (value : D) (s : Tracked D) : Option (Bool × Bool) :=
  match s.optimizer.trState with
  | .turbo t =>
    let before := (s.optimizer.observations.append b.y).count - b.y.nrows
    if isFinite t.bestValue then
      some (t.improves (t.watermark before).scaleFromHist value,
        t.improves (observedScale s.told) value)
    else none
  | .morbo _ => none

def SameVerdict (s : Tracked D) (b : Tell D) : Prop :=
  ∀ inc v, b.incumbent = .ok (some inc) → s.verdicts b (inc.getD 0 0) = some v → v.1 = v.2

/-- Runs of asks and accepted tells whose tells of the TuRBO phase all meet a condition. -/
inductive Run (good : Tracked D → Tell D → Prop) : Tracked D → Tracked D → Prop where
  | refl (s : Tracked D) : Run good s s
  | ask {s s₁ : Tracked D} (numArms : ℕ) (us : ℕ → D) :
      Run good s s₁ → Run good s (s₁.ask numArms us)
  | tell {s s₁ s₂ : Tracked D} (b : Tell D) : Run good s s₁ →
      (s₁.optimizer.inInit = false → good s₁ b) → s₁.tell b = .ok s₂ → Run good s s₂

def FollowingState (r : TurboTrustRegion D) (tr : TrustRegionState D) : Prop :=
  ∃ t, tr = .turbo t ∧ t.Follows r

def Following (s : Tracked D) : Prop := FollowingState s.reference s.optimizer.trState

variable {s s' : Tracked D} {b : Tell D}

/-- An ask changes no more than the arms of a TuRBO region. -/
theorem keeps_following_ask (r : TurboTrustRegion D) (numArms : ℕ) (us : ℕ → D) :
    Call.Keeps (fun o : Optimizer D => FollowingState r o.trState) (Optimizer.ask numArms us) := by
  have hregion : ∀ c : Call (TrustRegionState D) Unit, Call.Keeps (FollowingState r) c →
      Call.Keeps (fun o : Optimizer D => FollowingState r o.trState) (Optimizer.onRegion c) :=
    fun c hc => Call.keeps_on hc (fun _ h => h) fun _ _ _ h => h
  refine Call.keeps_get.bind fun o => ?_
  apply Call.Keeps.ite
  · exact Call.keeps_pure _
  · refine (hregion _ ?_).bind fun _ => ?_
    · apply Call.keeps_modify
      rintro _ ⟨t, rfl, ht⟩
      exact ⟨t, rfl, ht⟩
    · refine (hregion _ ?_).bind fun _ => ?_
      · apply Call.keeps_modify
        rintro _ ⟨t, rfl, ht⟩
        exact ⟨_, rfl, ht.arms numArms⟩
      · apply Call.Keeps.ite
        · apply hregion
          rintro _ ⟨t, rfl, ht⟩
          exact ⟨t, rfl, ht⟩
        · exact Call.keeps_pure _

/-- A tell with the same verdict keeps the regions together. -/
theorem following_tell (h : s.Following)
    (hverdict : s.optimizer.inInit = false → s.SameVerdict b) (htell : s.tell b = .ok s') :
    s'.Following := by
  obtain ⟨t, ht, hfollows⟩ := h
  obtain ⟨o, ho, heq⟩ := Outcome.bind_eq_ok.mp htell
  obtain rfl := Outcome.pure_eq_ok.mp heq
  have ho := Call.exec_eq_ok.mp ho
  obtain ⟨_, _, hget, ho⟩ := Call.returns_bind.mp ho
  obtain ⟨rfl, rfl⟩ := Call.returns_get.mp hget
  unfold Following
  cases hinit : s.optimizer.inInit with
  | true =>
    rw [if_pos hinit] at ho
    obtain ⟨_, o₁, hcommon, ho⟩ := Call.returns_bind.mp ho
    obtain rfl := Call.returns_modify.mp ho
    obtain ⟨ht₁, -⟩ := Optimizer.tellCommon_turbo ht hcommon
    exact ⟨t, ht₁, hfollows⟩
  | false =>
    rw [if_neg (by simp [hinit])] at ho
    obtain ⟨_, o₁, hcommon, ho⟩ := Call.returns_bind.mp ho
    obtain ⟨_, o₂, hregion, ho⟩ := Call.returns_bind.mp ho
    obtain ⟨ht₁, hinc, hobs, hpos⟩ := Optimizer.tellCommon_turbo ht hcommon
    obtain ⟨inc, t', hsome, hupdate, rfl⟩ := Optimizer.tellRegion_turbo ht₁ hregion
    obtain ⟨ht', hvalue⟩ := Optimizer.restartRegion_turbo rfl ho
    have hsome' : o.incumbentYScalar = some inc := hvalue.trans hsome
    have hfollows' : t'.Follows ((s.reference.setNumArms b.x.nrows).advance
        (observedScale s.told) (inc.getD 0 0)) := by
      rw [hobs] at hupdate
      rw [hsome] at hinc
      refine hfollows.update ?_ (fun hfinite => ?_) hupdate
      · rwa [Array2.firstColumn, List.length_map]
      · refine hverdict hinit inc (_, _) hinc ?_
        unfold verdicts
        rw [ht]
        exact if_pos hfinite
    rw [ht']
    simp only [hsome', Option.getD_some, Bool.false_eq_true, if_false]
    unfold TurboTrustRegion.tellOver
    dsimp only
    rw [hfollows'.needsRestart_eq]
    split
    · exact ⟨_, rfl, hfollows'.restart⟩
    · exact ⟨_, rfl, hfollows'⟩

theorem following_run (hrun : Run SameVerdict s s') (h : s.Following) : s'.Following := by
  induction hrun with
  | refl => exact h
  | ask numArms us _ ih => exact keeps_following_ask _ numArms us _ ih
  | tell b _ hgood htell ih => exact following_tell ih hgood htell

/-- A region follows the reference region over every run of asks and accepted tells whose tells of
the TuRBO phase lead to the same verdict by the kept extremes and by all values told before. -/
theorem sameProgress_of_run (numDim : ℕ) (config : TRLengthConfig D) (dim : Option D)
    (strategy : Strategy) (observations : Observations D)
    (hrun : Run SameVerdict (new (.ofConfig numDim config dim) strategy observations) s) :
    ∃ t, s.optimizer.trState = .turbo t ∧ t.SameProgress s.reference := by
  obtain ⟨t, ht, hfollows⟩ := following_run hrun ⟨_, rfl, .refl _⟩
  exact ⟨t, ht, hfollows.sameProgress⟩

section Example

/-- Values of one metric with the incumbent after them. -/
def values (ys : List ℚ) (incumbent : ℚ) : Tell ℚ where
  x := .column ys
  y := .column ys
  fit := .ok ()
  incumbent := .ok (some [incumbent])
  us := fun _ => 0

def fresh : Tracked ℚ :=
  new (.ofConfig 1 .default none) (.hybrid ⟨2, 0⟩ true) (.new false [])

theorem returns_initial : (fresh.tell (values [0, 1000] 1000)).returns = true := by decide +kernel

def initial : Tracked ℚ := (fresh.tell (values [0, 1000] 1000)).value returns_initial

theorem returns_first : (initial.tell (values [1001] 1001)).returns = true := by decide +kernel

def first : Tracked ℚ := (initial.tell (values [1001] 1001)).value returns_first

theorem run_first {good : Tracked ℚ → Tell ℚ → Prop} (h : good initial (values [1001] 1001)) :
    Run good fresh first := by
  have hinitial : Run good fresh initial := by
    refine .tell (values [0, 1000] 1000) (.refl _) (fun hinit => ?_)
      (Outcome.eq_ok_value returns_initial)
    exact absurd hinit (by decide +kernel)
  exact .tell (values [1001] 1001) hinitial (fun _ => h) (Outcome.eq_ok_value returns_first)

theorem sameProgress_far :
    ∃ s, Run SameVerdict fresh s ∧
      ∃ t, s.optimizer.trState = .turbo t ∧ t.SameProgress s.reference := by
  have hreturns : (first.tell (values [5000] 5000)).returns = true := by decide +kernel
  have hfirst : SameVerdict initial (values [1001] 1001) := by
    intro inc v hinc hv
    obtain rfl := Option.some.inj (Except.ok.inj hinc)
    have hnone : initial.verdicts (values [1001] 1001) 1001 = none := by decide +kernel
    cases hv.symm.trans hnone
  have hfar : SameVerdict first (values [5000] 5000) := by
    intro inc v hinc hv
    obtain rfl := Option.some.inj (Except.ok.inj hinc)
    have hboth : first.verdicts (values [5000] 5000) 5000 = some (true, true) := by decide +kernel
    obtain rfl := Option.some.inj (hv.symm.trans hboth)
    rfl
  have hrun := Run.tell (values [5000] 5000) (run_first hfirst) (fun _ => hfar)
    (Outcome.eq_ok_value hreturns)
  exact ⟨_, hrun, sameProgress_of_run 1 .default none (.hybrid ⟨2, 0⟩ true) (.new false []) hrun⟩

theorem returns_near :
    (first.tell (values [1001 + 1 / 2] (1001 + 1 / 2))).returns = true := by decide +kernel

/-- Initial values far apart are missing from the range, and a small rise counts as a success. -/
theorem not_sameProgress :
    ∃ s, Run (fun _ _ => True) fresh s ∧
      ¬ ∃ t, s.optimizer.trState = .turbo t ∧ t.SameProgress s.reference := by
  have hfirst : Run (fun _ _ => True) fresh first := run_first trivial
  have hrun := Run.tell (values [1001 + 1 / 2] (1001 + 1 / 2)) hfirst (fun _ => trivial)
    (Outcome.eq_ok_value returns_near)
  refine ⟨_, hrun, ?_⟩
  rintro ⟨t, ht, hsame⟩
  have hregion : (((first.tell (values [1001 + 1 / 2] (1001 + 1 / 2))).value
      returns_near).optimizer.trState.toTurbo.map TurboTrustRegion.successCounter) = some 1 := by
    decide +kernel
  have hreference : ((first.tell (values [1001 + 1 / 2] (1001 + 1 / 2))).value
      returns_near).reference.successCounter = 0 := by decide +kernel
  rw [ht] at hregion
  have hone : t.successCounter = 1 := Option.some.inj hregion
  rw [hsame.successCounter_eq, hreference] at hone
  exact absurd hone (by decide)

end Example

end Tracked

end Ennbo
