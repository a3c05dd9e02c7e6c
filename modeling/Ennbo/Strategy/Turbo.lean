import Ennbo.Strategy.Arms
import Ennbo.Strategy.Proposals

/-! # Sessions of a single region

With one region an ask draws its candidates from a box around the incumbent, and
a tell moves the region by successes and failures. The box never leaves the unit
cube, and a region that becomes too small starts over within the same tell.
-/

namespace Ennbo

section Definitions

variable {D ρ : Type}

/-- An optimizer of one region, with its surrogate, its incumbent and what it draws from. -/
structure TurboSession (D ρ : Type) where
  numDim : ℕ
  optimizer : Optimizer D
  initStrategy : InitStrategy
  surrogate : Option (Surrogate D ρ)
  incumbentXUnit : Option (List D)
  source : Source D ρ

variable [Floating D] [Analysis D] [Rounding D]

/-- The bounds around a centre, by half the length in each dimension. -/
def TurboTrustRegion.computeBounds1d (t : TurboTrustRegion D) (xCenter : List D)
    (lengthscales : Option (List D)) : Outcome (List D × List D) := do
  let halfLength :=
    match lengthscales with
    | some ls => ls.map fun l => l * t.length / ((2 : ℕ) : D)
    | none => List.replicate xCenter.length (t.length / ((2 : ℕ) : D))
  let lb ← broadcast (· - ·) xCenter halfLength
  let ub ← broadcast (· + ·) xCenter halfLength
  return (lb.map fun v => clamp v 0 1, ub.map fun v => clamp v 0 1)

def TrustRegionState.computeBounds1d (xCenter : List D) (lengthscales : Option (List D)) :
    TrustRegionState D → Outcome (List D × List D)
  | turbo t => t.computeBounds1d xCenter lengthscales
  | morbo m => m.inner.computeBounds1d xCenter lengthscales

def candidateMatrix (numDim : ℕ) (rows : List (List D)) : Outcome (Array2 D) :=
  if h : ∀ row ∈ rows, row.length = numDim then pure ⟨numDim, rows, h⟩ else throw .panic

namespace TurboSession

def onSource {α : Type} (c : Call (Source D ρ) α) : Call (TurboSession D ρ) α :=
  c.on TurboSession.source fun s source => { s with source := source }

def onOptimizer {α : Type} (c : Call (Optimizer D) α) : Call (TurboSession D ρ) α :=
  c.on TurboSession.optimizer fun s optimizer => { s with optimizer := optimizer }

def lengthscales (s : TurboSession D ρ) : Option (List D) :=
  s.surrogate.bind Surrogate.lengthscales

def xCenter (s : TurboSession D ρ) : List D :=
  s.incumbentXUnit.getD (List.replicate s.numDim (literal 5 1))

variable [RandomGenerator D ρ] [FloatToUsize D] [FloatRem D]

/-- Choose the arms among candidates from the box. -/
def askTurbo (config : AskConfig D) (numArms : ℕ) : Call (TurboSession D ρ) (List (List D)) := do
  let s ← Call.get
  let bounds ← Call.ofOutcome (s.optimizer.trState.computeBounds1d s.xCenter s.lengthscales)
  let numCandidates := config.candidates.numCandidates s.numDim numArms
  let rows ← onSource (generateCandidates bounds s.xCenter s.lengthscales numCandidates
    config.candidates.candidateRv config.candidates.numPert)
  let xCandUnit ← Call.ofOutcome (candidateMatrix s.xCenter.length rows)
  onSource (onRng (selectArms (xCandUnit.nrows + 1) config.acquisition s.optimizer.trState
    s.surrogate xCandUnit numArms))

/-- An ask, whose region may first draw new weights. -/
def ask (config : AskConfig D) (numArms : ℕ) (us : ℕ → D) :
    Call (TurboSession D ρ) (List (List D)) := do
  let s ← Call.get
  if s.optimizer.inInit then onSource (onRng (askInit s.initStrategy s.numDim numArms))
  else
    onOptimizer (Optimizer.ask numArms us)
    askTurbo config numArms

def tell (t : ExperimentalTell D ρ) : Call (TurboSession D ρ) Unit := do
  -- what the fit and the search of the incumbent leave, also when a later step fails
  Call.modify fun s => { s with surrogate := t.surrogate, incumbentXUnit := t.incumbentX }
  onOptimizer (Optimizer.tell t.toTell)

/-- A call on a session. -/
inductive TurboCall (D ρ : Type) where
  | ask (numArms : ℕ) (us : ℕ → D)
  | tell (t : ExperimentalTell D ρ)

def TurboCall.run (config : AskConfig D) (s : TurboSession D ρ) :
    TurboCall D ρ → TurboSession D ρ
  | .ask numArms us => (TurboSession.ask config numArms us s).2
  | .tell t => (TurboSession.tell t s).2

/-- The session after some calls, each of which may have failed. -/
def after (config : AskConfig D) (calls : List (TurboCall D ρ)) (s : TurboSession D ρ) :
    TurboSession D ρ :=
  calls.foldl (TurboCall.run config) s

/-- A session starts with a fresh region. -/
structure Starts (limits : TRLengthConfig D) (n : ℕ) (s : TurboSession D ρ) : Prop where
  numDim_eq : s.numDim = n
  region : s.optimizer.trState = .turbo (.new n limits) ∨
    ∃ dim, s.optimizer.trState = .turbo ((TurboTrustRegion.new n limits).setFailureToleranceDim dim)

end TurboSession

end Definitions

/-- Limits of the length that fit together. -/
structure TRLengthConfig.Valid {K : Type} [ExactArith K] (limits : TRLengthConfig K) : Prop where
  lengthMin_pos : 0 < limits.lengthMin
  lengthMin_le : limits.lengthMin ≤ limits.lengthInit
  lengthInit_le : limits.lengthInit ≤ limits.lengthMax

theorem TRLengthConfig.valid_default {K : Type} [ExactArith K] [Analysis K] [ExactLiteral K] :
    (default : TRLengthConfig K).Valid := by
  constructor <;> simp only [TRLengthConfig.default, ExactLiteral.literal_eq] <;> norm_num

namespace TurboTrustRegion

variable {K : Type} [ExactArith K] [Analysis K] [Rounding K] {limits : TRLengthConfig K}
  {t : TurboTrustRegion K}

/-- What holds of a region at any time, also before its length is adapted. -/
structure Counted (limits : TRLengthConfig K) (t : TurboTrustRegion K) : Prop where
  config_eq : t.config = limits
  successTolerance_eq : t.successTolerance = 3
  length_pos : 0 < t.length
  length_le : t.length ≤ limits.lengthMax
  successCounter_nonneg : 0 ≤ t.successCounter
  failureCounter_nonneg : 0 ≤ t.failureCounter

/-- A region whose length is adapted, and may be too small. -/
structure Kept (limits : TRLengthConfig K) (t : TurboTrustRegion K) : Prop
    extends t.Counted limits where
  successCounter_lt : t.successCounter < 3

/-- What holds of a region between the calls. -/
structure Sound (limits : TRLengthConfig K) (t : TurboTrustRegion K) : Prop
    extends t.Kept limits where
  lengthMin_le : limits.lengthMin ≤ t.length

omit [Rounding K] in
theorem sound_restart (hvalid : limits.Valid) (h : t.Kept limits) : t.restart.Sound limits where
  config_eq := h.config_eq
  successTolerance_eq := h.successTolerance_eq
  length_pos := by
    have hinit := hvalid.lengthMin_pos.trans_le hvalid.lengthMin_le
    rwa [← h.config_eq] at hinit
  length_le := by
    change t.config.lengthInit ≤ _
    rw [h.config_eq]
    exact hvalid.lengthInit_le
  successCounter_nonneg := le_rfl
  successCounter_lt := three_pos
  failureCounter_nonneg := le_rfl
  lengthMin_le := by
    change _ ≤ t.config.lengthInit
    rw [h.config_eq]
    exact hvalid.lengthMin_le

omit [Rounding K] in
theorem sound_new (hvalid : limits.Valid) (n : ℕ) : (new n limits).Sound limits where
  config_eq := rfl
  successTolerance_eq := rfl
  length_pos := hvalid.lengthMin_pos.trans_le hvalid.lengthMin_le
  length_le := hvalid.lengthInit_le
  successCounter_nonneg := le_rfl
  successCounter_lt := three_pos
  failureCounter_nonneg := le_rfl
  lengthMin_le := hvalid.lengthMin_le

omit [Analysis K] [Rounding K] in
theorem Kept.congr {t' : TurboTrustRegion K} (h : t.Kept limits) (hconfig : t'.config = t.config)
    (htolerance : t'.successTolerance = t.successTolerance) (hlength : t'.length = t.length)
    (hsuccess : t'.successCounter = t.successCounter)
    (hfailure : t'.failureCounter = t.failureCounter) : t'.Kept limits where
  config_eq := hconfig.trans h.config_eq
  successTolerance_eq := htolerance.trans h.successTolerance_eq
  length_pos := hlength ▸ h.length_pos
  length_le := hlength ▸ h.length_le
  successCounter_nonneg := hsuccess ▸ h.successCounter_nonneg
  successCounter_lt := hsuccess ▸ h.successCounter_lt
  failureCounter_nonneg := hfailure ▸ h.failureCounter_nonneg

omit [Analysis K] in
theorem Kept.setNumArms (h : t.Kept limits) (numArms : ℕ) : (t.setNumArms numArms).Kept limits :=
  h.congr rfl rfl rfl rfl rfl

omit [Analysis K] [Rounding K] in
theorem Kept.setPrevNumObs (h : t.Kept limits) (n : ℕ) : (t.setPrevNumObs n).Kept limits :=
  h.congr rfl rfl rfl rfl rfl

omit [Analysis K] [Rounding K] in
theorem Counted.count (h : t.Counted limits) (improved : Bool) :
    (t.count improved).Counted limits := by
  cases improved with
  | true =>
    exact ⟨h.config_eq, h.successTolerance_eq, h.length_pos, h.length_le,
      Int.add_nonneg h.successCounter_nonneg one_pos.le, le_rfl⟩
  | false =>
    exact ⟨h.config_eq, h.successTolerance_eq, h.length_pos, h.length_le, le_rfl,
      Int.add_nonneg h.failureCounter_nonneg one_pos.le⟩

omit [Rounding K] in
theorem Counted.adaptLength [ExactLiteral K] (h : t.Counted limits) :
    t.adaptLength.Kept limits := by
  unfold TurboTrustRegion.adaptLength
  rw [h.successTolerance_eq, h.config_eq]
  split
  next =>
    refine ⟨⟨rfl, rfl, ?_, min_le_right _ _, le_rfl, h.failureCounter_nonneg⟩, three_pos⟩
    exact lt_min (mul_pos h.length_pos (by norm_num)) (h.length_pos.trans_le h.length_le)
  next hlow =>
    have hlt : t.successCounter < 3 := not_le.mp hlow
    split
    next =>
      refine ⟨⟨rfl, rfl, ?_, ?_, h.successCounter_nonneg, le_rfl⟩, hlt⟩
      · exact mul_pos h.length_pos MultiTrustRegionState.half_pos
      · exact (mul_le_of_le_one_right h.length_pos.le MultiTrustRegionState.half_le_one).trans
          h.length_le
    next => exact ⟨h, hlt⟩

omit [Rounding K] in
theorem Kept.advance [ExactLiteral K] (h : t.Kept limits) (scale value : K) :
    (t.advance scale value).Kept limits := by
  unfold TurboTrustRegion.advance
  split
  · exact h.congr rfl rfl rfl rfl rfl
  · have hadapt := (h.toCounted.count (t.improves scale value)).adaptLength
    exact hadapt.congr rfl rfl rfl rfl rfl

omit [Rounding K] in
theorem Kept.updateWithIncumbentNewBatch [ExactLiteral K] (h : t.Kept limits) {yNew : List K}
    {numObs : ℕ} {value : K} {t' : TurboTrustRegion K}
    (hupdate : t.updateWithIncumbentNewBatch yNew numObs value = .ok t') : t'.Kept limits := by
  unfold TurboTrustRegion.updateWithIncumbentNewBatch at hupdate
  dsimp only at hupdate
  split at hupdate
  next => exact Except.ok.inj hupdate ▸ h
  next =>
    split at hupdate
    next => cases hupdate
    next =>
      obtain rfl := Except.ok.inj hupdate
      exact (h.advance t.scaleFromHist value).congr rfl rfl rfl rfl rfl

end TurboTrustRegion

namespace Optimizer

variable {K : Type} [ExactArith K] [Analysis K] [Rounding K] {limits : TRLengthConfig K}

def HasRegion (P : TurboTrustRegion K → Prop) (o : Optimizer K) : Prop :=
  ∃ t, o.trState = .turbo t ∧ P t

variable {P : TurboTrustRegion K → Prop}

omit [ExactArith K] [Analysis K] [Rounding K] in
theorem HasRegion.isMorbo {o : Optimizer K} (h : o.HasRegion P) : o.trState.isMorbo = false := by
  obtain ⟨t, ht, -⟩ := h
  rw [ht]
  rfl

omit [ExactArith K] [Analysis K] [Rounding K] in
theorem keeps_onRegion {α : Type} {c : Call (TrustRegionState K) α}
    (h : ∀ t, P t → ∃ t', (c (.turbo t)).2 = .turbo t' ∧ P t') :
    Call.Keeps (HasRegion P) (onRegion c) := by
  rintro o ⟨t, ht, hP⟩
  obtain ⟨t', ht', hP'⟩ := h t hP
  refine ⟨t', ?_, hP'⟩
  change (c o.trState).2 = _
  rw [ht]
  exact ht'

omit [Rounding K] in
theorem keeps_tellCommon (t : Tell K) : Call.Keeps (HasRegion P) (tellCommon t) := by
  rintro o ⟨region, hregion, hP⟩
  refine ⟨region, ?_, hP⟩
  have hmorbo : o.trState.isMorbo = false := by
    rw [hregion]
    rfl
  exact (keeps_trState_tellCommon t hmorbo o rfl).trans hregion

omit [Analysis K] in
theorem keeps_setNumArms (hP : ∀ t numArms, P t → P (t.setNumArms numArms)) (numArms : ℕ) :
    Call.Keeps (HasRegion P) (onRegion (Call.modify (TrustRegionState.setNumArms numArms))) :=
  keeps_onRegion fun t ht => ⟨_, rfl, hP t numArms ht⟩

omit [ExactArith K] [Analysis K] [Rounding K] in
theorem keeps_turboWatermark (hP : ∀ t n, P t → P (t.setPrevNumObs n)) (numObs nrows : ℕ) :
    Call.Keeps (HasRegion P) (turboWatermark numObs nrows) := by
  refine Call.keeps_get.bind fun o => ?_
  refine Call.Keeps.ite ?_ (Call.keeps_pure ())
  exact keeps_onRegion fun t ht => ⟨_, rfl, hP t _ ht⟩

omit [Rounding K] in
/-- A batch is refused without a change, or it is taken in. -/
theorem tellUpdateNewBatch_cases (yNew : Array2 K) (yIncumbent : List K) (numObs : ℕ)
    (t : TurboTrustRegion K) :
    (∃ e, TrustRegionState.tellUpdateNewBatch yNew yIncumbent numObs (.turbo t) =
      (.error e, .turbo t)) ∨
      ∃ t', t.updateWithIncumbentNewBatch (yNew.rows.map fun row => row.getD 0 0) numObs
        (yIncumbent.getD 0 0) = .ok t' ∧
          TrustRegionState.tellUpdateNewBatch yNew yIncumbent numObs (.turbo t) =
            (.ok (), .turbo t') := by
  unfold TrustRegionState.tellUpdateNewBatch
  dsimp only
  split
  next => exact .inl ⟨_, rfl⟩
  next =>
    split
    next => exact .inl ⟨_, rfl⟩
    next =>
      cases hupdate : t.updateWithIncumbentNewBatch (yNew.rows.map fun row => row.getD 0 0) numObs
          (yIncumbent.getD 0 0) with
      | error e => exact .inl ⟨_, rfl⟩
      | ok t' => exact .inr ⟨t', rfl, rfl⟩

section Tells

variable [ExactLiteral K]

omit [ExactLiteral K] in
/-- The step of a region may leave it too small, but only when it returns. -/
theorem keepsFailing_tellRegion (t : Tell K) :
    Call.KeepsFailing (HasRegion (TurboTrustRegion.Sound limits)) (tellRegion t) := by
  unfold tellRegion
  refine Call.keeps_get.bind_failing fun o => ?_
  refine (Call.keeps_ofOutcome _).bind_failing fun yIncumbent => ?_
  refine (keeps_setNumArms (fun _ n hs => ⟨hs.toKept.setNumArms n, hs.lengthMin_le⟩)
    _).bind_failing fun _ => ?_
  refine Call.KeepsFailing.ite ?_ (Call.keepsFailing_pure ())
  refine (keeps_turboWatermark (fun _ n hs => ⟨hs.toKept.setPrevNumObs n, hs.lengthMin_le⟩)
    _ _).bind_failing fun _ => ?_
  rintro s ⟨region, hregion, hsound⟩ hfail
  refine ⟨region, ?_, hsound⟩
  unfold onRegion Call.on at hfail ⊢
  dsimp only at hfail ⊢
  rw [hregion] at hfail ⊢
  rcases tellUpdateNewBatch_cases t.y yIncumbent o.observations.count region with
    ⟨e, heq⟩ | ⟨region', -, heq⟩
  · rw [heq]
  · rw [heq] at hfail
    exact absurd rfl (hfail ())

theorem keeps_tellRegion (t : Tell K) :
    Call.Keeps (HasRegion (TurboTrustRegion.Kept limits)) (tellRegion t) := by
  unfold tellRegion
  refine Call.keeps_get.bind fun o => ?_
  refine (Call.keeps_ofOutcome _).bind fun yIncumbent => ?_
  refine (keeps_setNumArms (fun _ n hs => hs.setNumArms n) _).bind fun _ => ?_
  refine Call.Keeps.ite ?_ (Call.keeps_pure ())
  refine (keeps_turboWatermark (fun _ n hs => hs.setPrevNumObs n) _ _).bind fun _ => ?_
  apply keeps_onRegion
  intro region hkept
  rcases tellUpdateNewBatch_cases t.y yIncumbent o.observations.count region with
    ⟨e, heq⟩ | ⟨region', hupdate, heq⟩
  · exact ⟨region, by rw [heq], hkept⟩
  · exact ⟨region', by rw [heq], hkept.updateWithIncumbentNewBatch hupdate⟩

omit [Rounding K] [ExactLiteral K] in
theorem sound_restartRegion (hvalid : limits.Valid) (t : Tell K) {o : Optimizer K}
    (ho : o.HasRegion (TurboTrustRegion.Kept limits)) :
    (restartRegion t o).2.HasRegion (TurboTrustRegion.Sound limits) := by
  obtain ⟨trState, strategy, observations, incumbent, generation⟩ := o
  obtain ⟨region, hregion, hkept⟩ := ho
  change trState = .turbo region at hregion
  subst hregion
  unfold restartRegion
  rw [Call.get_bind_apply]
  dsimp only
  by_cases hsmall : (TrustRegionState.turbo region).needsRestart = true
  · rw [if_pos hsmall]
    exact ⟨region.restart, rfl, TurboTrustRegion.sound_restart hvalid hkept⟩
  · rw [if_neg hsmall]
    rw [TrustRegionState.needsRestart, TurboTrustRegion.needsRestart, ltB_exact,
      decide_eq_true_eq, not_lt, hkept.config_eq] at hsmall
    exact ⟨region, rfl, hkept, hsmall⟩

theorem keeps_tell (hvalid : limits.Valid) (t : Tell K) :
    Call.Keeps (HasRegion (TurboTrustRegion.Sound limits)) (tell t) := by
  refine Call.keeps_get.bind fun o => Call.Keeps.ite ?_ ?_
  · exact (keeps_tellCommon t).bind fun _ => fun _ ho => ho
  · refine (keeps_tellCommon t).bind fun _ => ?_
    apply (keepsFailing_tellRegion t).bind_keeps (Q := HasRegion (TurboTrustRegion.Kept limits))
    · rintro o ⟨region, hregion, hsound⟩
      exact keeps_tellRegion t o ⟨region, hregion, hsound.toKept⟩
    · exact fun _ o ho => sound_restartRegion hvalid t ho

end Tells

theorem keeps_ask (numArms : ℕ) (us : ℕ → K) :
    Call.Keeps (HasRegion (TurboTrustRegion.Sound limits)) (ask numArms us) := by
  intro o ho
  apply Call.Keeps.get_bind (P := HasRegion (TurboTrustRegion.Sound limits)) _ ho
  refine (Call.keeps_pure ()).ite ?_
  refine (keeps_onRegion fun t ht => ⟨t, rfl, ht⟩).bind fun _ => ?_
  refine (keeps_setNumArms (fun _ n hs => ⟨hs.toKept.setNumArms n, hs.lengthMin_le⟩)
    numArms).bind fun _ => ?_
  rw [if_neg (by simp [ho.isMorbo])]
  exact Call.keeps_pure ()

end Optimizer

namespace TurboSession

section Keeping

variable {K ρ : Type} [ExactArith K] [Analysis K] [Rounding K] [FloatToUsize K] [FloatRem K]
  [RandomGenerator K ρ] {O : Optimizer K → Prop} {G : Source K ρ → Prop}
  {F : ℕ → Option (Surrogate K ρ) → Option (List K) → Prop}

/-- What holds of the parts of a session. -/
structure Holds (O : Optimizer K → Prop) (G : Source K ρ → Prop)
    (F : ℕ → Option (Surrogate K ρ) → Option (List K) → Prop) (s : TurboSession K ρ) : Prop where
  optimizer : O s.optimizer
  source : G s.source
  frame : F s.numDim s.surrogate s.incumbentXUnit

omit [ExactArith K] [Analysis K] [Rounding K] [FloatToUsize K] [FloatRem K] [RandomGenerator K ρ] in
theorem keeps_onSource {α : Type} {c : Call (Source K ρ) α} (h : Call.Keeps G c) :
    Call.Keeps (Holds O G F) (onSource c) :=
  Call.keeps_on h (fun _ hs => hs.source) fun _ _ hs ht => ⟨hs.optimizer, ht, hs.frame⟩

omit [ExactArith K] [Analysis K] [Rounding K] [FloatToUsize K] [FloatRem K] [RandomGenerator K ρ] in
theorem keeps_onOptimizer {α : Type} {c : Call (Optimizer K) α} (h : Call.Keeps O c) :
    Call.Keeps (Holds O G F) (onOptimizer c : Call (TurboSession K ρ) α) :=
  Call.keeps_on h (fun _ hs => hs.optimizer) fun _ _ hs ht => ⟨ht, hs.source, hs.frame⟩

theorem keeps_ask {config : AskConfig K} {numArms : ℕ} {us : ℕ → K}
    (hask : Call.Keeps O (Optimizer.ask numArms us))
    (hcandidates : ∀ bounds center (lengthscales : Option (List K)) count,
      Call.Keeps G (generateCandidates bounds center lengthscales count
        config.candidates.candidateRv config.candidates.numPert))
    (hrng : ∀ {α : Type} (c : Call ρ α), Call.Keeps G (onRng c)) :
    Call.Keeps (Holds O G F) (ask config numArms us : Call (TurboSession K ρ) _) := by
  refine Call.keeps_get.bind fun s => (keeps_onSource (hrng _)).ite ?_
  refine (keeps_onOptimizer hask).bind fun _ => Call.keeps_get.bind fun s => ?_
  refine (Call.keeps_ofOutcome _).bind fun bounds => ?_
  refine (keeps_onSource (hcandidates _ _ _ _)).bind fun rows => ?_
  exact (Call.keeps_ofOutcome _).bind fun xCandUnit => keeps_onSource (hrng _)

omit [FloatToUsize K] [FloatRem K] [RandomGenerator K ρ] in
theorem keeps_tell {t : ExperimentalTell K ρ}
    (hframe : ∀ n sg x, F n sg x → F n t.surrogate t.incumbentX)
    (htell : Call.Keeps O (Optimizer.tell t.toTell)) :
    Call.Keeps (Holds O G F) (tell t : Call (TurboSession K ρ) Unit) :=
  Call.Keeps.bind (fun _ hs => ⟨hs.optimizer, hs.source, hframe _ _ _ hs.frame⟩)
    fun _ => keeps_onOptimizer htell

theorem holds_after {P : TurboSession K ρ → Prop} {config : AskConfig K}
    {calls : List (TurboCall K ρ)} {s : TurboSession K ρ}
    (h : ∀ c ∈ calls, ∀ s, P s → P (c.run config s)) (hs : P s) : P (s.after config calls) := by
  unfold after
  induction calls generalizing s with
  | nil => exact hs
  | cons c calls ih =>
    rw [List.forall_mem_cons] at h
    exact ih h.2 (h.1 s hs)

end Keeping

section Runs

variable {K ρ : Type} [ExactArith K] [Analysis K] [Rounding K] [FloatToUsize K] [FloatRem K]
  [ExactLiteral K] [RandomGenerator K ρ] {limits : TRLengthConfig K} {n : ℕ}
  {s : TurboSession K ρ}

omit [FloatToUsize K] [FloatRem K] [ExactLiteral K] [RandomGenerator K ρ] in
theorem Starts.sound (hvalid : limits.Valid) (h : s.Starts limits n) :
    s.optimizer.HasRegion (TurboTrustRegion.Sound limits) := by
  have hnew := TurboTrustRegion.sound_new hvalid n
  rcases h.region with hregion | ⟨dim, hregion⟩
  · exact ⟨_, hregion, hnew⟩
  · exact ⟨_, hregion, hnew.toKept.congr rfl rfl rfl rfl rfl, hnew.lengthMin_le⟩

/-- Whatever is asked and told, the region keeps its length between the limits. -/
theorem sound_of_run (hvalid : limits.Valid) (hstart : s.Starts limits n) (config : AskConfig K)
    (calls : List (TurboCall K ρ)) :
    (s.after config calls).optimizer.HasRegion (TurboTrustRegion.Sound limits) := by
  have hholds : Holds (Optimizer.HasRegion (TurboTrustRegion.Sound limits))
      (fun _ : Source K ρ => True) (fun _ _ _ => True) (s.after config calls) := by
    apply holds_after
    · intro c _
      cases c with
      | ask numArms us =>
        exact keeps_ask (Optimizer.keeps_ask numArms us) (fun _ _ _ _ _ _ => trivial)
          fun _ _ _ => trivial
      | tell t => exact keeps_tell (fun _ _ _ _ => trivial) (Optimizer.keeps_tell hvalid t.toTell)
    · exact ⟨hstart.sound hvalid, trivial, trivial⟩
  exact hholds.optimizer

end Runs

section Example

/-- A region of one dimension, without an initial phase. -/
def oneRegion : TurboSession ℚ Counter where
  numDim := 1
  optimizer := .new (.turbo (.new 1 .default)) .turbo (.new false [])
  initStrategy := .lhd
  surrogate := none
  incumbentXUnit := none
  source := ⟨⟨2⟩, none⟩

theorem starts_oneRegion : oneRegion.Starts .default 1 := ⟨rfl, .inl rfl⟩

theorem sound_of_run_one :
    (oneRegion.after Session.twoCandidates
      [.ask 2 fun _ => 0, .tell Session.twoValues]).optimizer.HasRegion
      (TurboTrustRegion.Sound .default) :=
  sound_of_run TRLengthConfig.valid_default starts_oneRegion Session.twoCandidates
    [.ask 2 fun _ => 0, .tell Session.twoValues]

end Example

end TurboSession

end Ennbo
