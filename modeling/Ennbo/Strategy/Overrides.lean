import Ennbo.Model.Basic
import Ennbo.Strategy.Experimental

/-! # Overrides of a configuration

A frontend gives settings on top of a preset. A setting that is not given keeps
its value. Applied one after another, overrides have the effect of one.
-/

namespace Ennbo

section Definitions

structure ENNSurrogateConfig (D : Type) where
  k : ℤ
  scaleX : Bool
  numFitCandidates : ℕ
  numFitSamples : ℕ
  inferAleatoricVariance : Bool
  indexDriver : IndexDriver
  storage : EnnStorage
  workDir : Option String
  /-- The rows of an array with two columns. -/
  yBounds : Option (List (D × D))

inductive SurrogateConfig (D : Type) where
  | enn (config : ENNSurrogateConfig D)
  | none

inductive TrustRegionConfig (D : Type) where
  | turbo (config : TRLengthConfig D)
  | morbo (settings : MorboTRSettings D)

def ENNSurrogateConfig.default {D : Type} : ENNSurrogateConfig D where
  k := 10
  scaleX := false
  numFitCandidates := 30
  numFitSamples := 10
  inferAleatoricVariance := true
  indexDriver := .exact
  storage := .inMemory
  workDir := none
  yBounds := none

structure OptimizerConfig (D : Type) extends AskConfig D where
  surrogate : SurrogateConfig D
  trustRegion : TrustRegionConfig D
  noiseAware : Bool
  failureToleranceDim : Option D

def turboEnnConfig {D : Type} [Floating D] [Analysis D] : OptimizerConfig D where
  surrogate := .enn .default
  trustRegion := .turbo .default
  candidates :=
    { numCandidatesFactor := (1000 : ℕ)
      minCandidates := 100
      maxCandidates := none
      numCandidatesPerArm := none
      numPert := 20
      candidateRv := .uniform }
  acquisition := .ucb (2 : ℕ)
  noiseAware := false
  failureToleranceDim := none

inductive TrustRegionKind where
  | turbo
  | morbo
  deriving DecidableEq

structure ConfigOverrides (D : Type) where
  acquisition : Option (AcquisitionConfig D) := none
  candidateRv : Option CandidateRV := none
  numCandidatesFactor : Option D := none
  minCandidates : Option ℕ := none
  maxCandidates : Option ℕ := none
  numCandidatesPerArm : Option ℕ := none
  numPert : Option ℕ := none
  lengthInit : Option D := none
  lengthMin : Option D := none
  lengthMax : Option D := none
  indexDriver : Option IndexDriver := none
  numFitSamples : Option ℕ := none
  numFitCandidates : Option ℕ := none
  scaleX : Option Bool := none
  noiseAware : Option Bool := none
  failureToleranceDim : Option D := none
  ennStorage : Option EnnStorage := none
  workDir : Option String := none
  yBounds : Option (List (D × D)) := none
  trustRegionKind : Option TrustRegionKind := none
  numMetrics : Option ℕ := none
  alpha : Option D := none
  rescalarize : Option Rescalarize := none

variable {D : Type}

/-- The lengths that are given, over those of a region. -/
def TRLengthConfig.override (o : ConfigOverrides D) (length : TRLengthConfig D) :
    TRLengthConfig D where
  lengthInit := o.lengthInit.getD length.lengthInit
  lengthMin := o.lengthMin.getD length.lengthMin
  lengthMax := o.lengthMax.getD length.lengthMax

def TrustRegionConfig.override (o : ConfigOverrides D) :
    TrustRegionConfig D → TrustRegionConfig D
  | turbo length => .turbo (length.override o)
  | morbo settings => .morbo { settings with length := settings.length.override o }

/-- The settings that are given, over those of a model. -/
def ENNSurrogateConfig.override (o : ConfigOverrides D) (enn : ENNSurrogateConfig D) :
    ENNSurrogateConfig D :=
  { enn with
    indexDriver := o.indexDriver.getD enn.indexDriver
    numFitSamples := o.numFitSamples.getD enn.numFitSamples
    numFitCandidates := o.numFitCandidates.getD enn.numFitCandidates
    scaleX := o.scaleX.getD enn.scaleX
    storage := o.ennStorage.getD enn.storage
    workDir := o.workDir.or enn.workDir
    yBounds := o.yBounds.or enn.yBounds }

namespace OptimizerConfig

def applyEnn (config : OptimizerConfig D) (o : ConfigOverrides D) : OptimizerConfig D :=
  match config.surrogate with
  | .none => config
  | .enn enn => { config with surrogate := .enn (enn.override o) }

variable [Analysis D]

def applyTrustRegionOverrides (config : OptimizerConfig D) (o : ConfigOverrides D) :
    OptimizerConfig D :=
  match o.trustRegionKind with
  | some .morbo =>
    { config with
      trustRegion := .morbo
        { numMetrics := o.numMetrics.getD 2
          alpha := o.alpha.getD (literal 5 2)
          length := TRLengthConfig.default.override o
          rescalarize := o.rescalarize.getD .onPropose
          noiseAware := o.noiseAware.getD false } }
  -- the region stays as it is, and lengths given along with the kind are not read
  | some .turbo => config
  | none =>
    if o.lengthInit.isNone && o.lengthMin.isNone && o.lengthMax.isNone then config
    else { config with trustRegion := config.trustRegion.override o }

end OptimizerConfig

namespace ConfigOverrides

/-- Whether a setting of the surrogate is given. -/
def givesEnn (o : ConfigOverrides D) : Bool :=
  o.indexDriver.isSome || o.numFitSamples.isSome || o.numFitCandidates.isSome ||
    o.scaleX.isSome || o.ennStorage.isSome || o.workDir.isSome || o.yBounds.isSome

def applyTo [Analysis D] (o : ConfigOverrides D) (config : OptimizerConfig D) :
    OptimizerConfig D :=
  let candidates := config.candidates
  let config := { config with
    acquisition := o.acquisition.getD config.acquisition
    candidates :=
      { candidateRv := o.candidateRv.getD candidates.candidateRv
        numCandidatesFactor := o.numCandidatesFactor.getD candidates.numCandidatesFactor
        minCandidates := o.minCandidates.getD candidates.minCandidates
        maxCandidates := o.maxCandidates.or candidates.maxCandidates
        numCandidatesPerArm := o.numCandidatesPerArm.or candidates.numCandidatesPerArm
        numPert := (o.numPert.map (max · 1)).getD candidates.numPert } }
  let config := config.applyTrustRegionOverrides o
  let config := if o.givesEnn then config.applyEnn o else config
  { config with
    noiseAware := o.noiseAware.getD config.noiseAware
    failureToleranceDim := o.failureToleranceDim.or config.failureToleranceDim }

/-- The overrides in which the later value of a setting counts. -/
def merge (earlier later : ConfigOverrides D) : ConfigOverrides D where
  acquisition := later.acquisition.or earlier.acquisition
  candidateRv := later.candidateRv.or earlier.candidateRv
  numCandidatesFactor := later.numCandidatesFactor.or earlier.numCandidatesFactor
  minCandidates := later.minCandidates.or earlier.minCandidates
  maxCandidates := later.maxCandidates.or earlier.maxCandidates
  numCandidatesPerArm := later.numCandidatesPerArm.or earlier.numCandidatesPerArm
  numPert := later.numPert.or earlier.numPert
  lengthInit := later.lengthInit.or earlier.lengthInit
  lengthMin := later.lengthMin.or earlier.lengthMin
  lengthMax := later.lengthMax.or earlier.lengthMax
  indexDriver := later.indexDriver.or earlier.indexDriver
  numFitSamples := later.numFitSamples.or earlier.numFitSamples
  numFitCandidates := later.numFitCandidates.or earlier.numFitCandidates
  scaleX := later.scaleX.or earlier.scaleX
  noiseAware := later.noiseAware.or earlier.noiseAware
  failureToleranceDim := later.failureToleranceDim.or earlier.failureToleranceDim
  ennStorage := later.ennStorage.or earlier.ennStorage
  workDir := later.workDir.or earlier.workDir
  yBounds := later.yBounds.or earlier.yBounds
  trustRegionKind := later.trustRegionKind.or earlier.trustRegionKind
  numMetrics := later.numMetrics.or earlier.numMetrics
  alpha := later.alpha.or earlier.alpha
  rescalarize := later.rescalarize.or earlier.rescalarize

end ConfigOverrides

end Definitions

variable {D : Type}

theorem getD_getD {α : Type} (o : Option α) (a : α) : o.getD (o.getD a) = o.getD a := by
  rw [← Option.getD_or, Option.or_self]

section Lengths

variable (earlier later o : ConfigOverrides D)

theorem TRLengthConfig.override_override (length : TRLengthConfig D) :
    (length.override earlier).override later = length.override (earlier.merge later) := by
  simp only [override, ConfigOverrides.merge, Option.getD_or]

theorem TRLengthConfig.override_self (length : TRLengthConfig D) :
    (length.override o).override o = length.override o := by
  simp only [override, getD_getD]

theorem TrustRegionConfig.override_override (region : TrustRegionConfig D) :
    (region.override earlier).override later = region.override (earlier.merge later) := by
  cases region with
  | turbo length | morbo settings =>
    simp only [override, TRLengthConfig.override_override]

theorem TrustRegionConfig.override_self (region : TrustRegionConfig D) :
    (region.override o).override o = region.override o := by
  cases region with
  | turbo length | morbo settings => simp only [override, TRLengthConfig.override_self]

end Lengths

section Layers

variable (earlier later o : ConfigOverrides D)

theorem ENNSurrogateConfig.override_override (enn : ENNSurrogateConfig D) :
    (enn.override earlier).override later = enn.override (earlier.merge later) := by
  simp only [override, ConfigOverrides.merge, Option.getD_or, Option.or_assoc]

theorem ENNSurrogateConfig.override_self (enn : ENNSurrogateConfig D) :
    (enn.override o).override o = enn.override o := by
  simp only [override, getD_getD, ← Option.or_assoc, Option.or_self]

namespace OptimizerConfig

/-- A surrogate with the settings that are given. -/
def overrideSurrogate (o : ConfigOverrides D) : SurrogateConfig D → SurrogateConfig D
  | .none => .none
  | .enn enn => .enn (enn.override o)

theorem applyEnn_eq (config : OptimizerConfig D) :
    config.applyEnn o = { config with surrogate := overrideSurrogate o config.surrogate } := by
  obtain ⟨ask, surrogate, region, aware, tolerance⟩ := config
  cases surrogate with
  | none | enn enn => rfl

theorem ite_applyEnn (config : OptimizerConfig D) :
    (if o.givesEnn then config.applyEnn o else config) = config.applyEnn o := by
  split
  · rfl
  next h =>
    simp only [ConfigOverrides.givesEnn, Bool.or_eq_true, not_or, Option.not_isSome_iff_eq_none]
      at h
    obtain ⟨⟨⟨⟨⟨⟨hindex, hsamples⟩, hcandidates⟩, hscale⟩, hstorage⟩, hdir⟩, hbounds⟩ := h
    obtain ⟨ask, surrogate, region, aware, tolerance⟩ := config
    cases surrogate with
    | none => rfl
    | enn enn =>
      simp only [applyEnn, ENNSurrogateConfig.override, hindex, hsamples, hcandidates, hscale,
        hstorage, hdir, hbounds, Option.getD_none, Option.none_or]

theorem overrideSurrogate_self (surrogate : SurrogateConfig D) :
    overrideSurrogate o (overrideSurrogate o surrogate) = overrideSurrogate o surrogate := by
  cases surrogate with
  | none => rfl
  | enn enn => exact congrArg SurrogateConfig.enn (enn.override_self o)

theorem overrideSurrogate_merge (surrogate : SurrogateConfig D) :
    overrideSurrogate later (overrideSurrogate earlier surrogate) =
      overrideSurrogate (earlier.merge later) surrogate := by
  cases surrogate with
  | none => rfl
  | enn enn => exact congrArg SurrogateConfig.enn (enn.override_override earlier later)

variable [Analysis D]

/-- The trust region of a configuration after overrides. -/
def overriddenRegion (o : ConfigOverrides D) (region : TrustRegionConfig D) :
    TrustRegionConfig D :=
  match o.trustRegionKind with
  | some .morbo => .morbo
      { numMetrics := o.numMetrics.getD 2
        alpha := o.alpha.getD (literal 5 2)
        length := TRLengthConfig.default.override o
        rescalarize := o.rescalarize.getD .onPropose
        noiseAware := o.noiseAware.getD false }
  | some .turbo => region
  | none => region.override o

theorem applyTrustRegionOverrides_eq (config : OptimizerConfig D) :
    config.applyTrustRegionOverrides o =
      { config with trustRegion := overriddenRegion o config.trustRegion } := by
  unfold applyTrustRegionOverrides overriddenRegion
  split
  · rfl
  · rfl
  · split
    next h =>
      simp only [Bool.and_eq_true, Option.isNone_iff_eq_none] at h
      obtain ⟨⟨hinit, hmin⟩, hmax⟩ := h
      obtain ⟨ask, surrogate, region, aware, tolerance⟩ := config
      cases region with
      | turbo length | morbo settings =>
        simp only [TrustRegionConfig.override, TRLengthConfig.override, hinit, hmin, hmax,
          Option.getD_none]
    · rfl

theorem overriddenRegion_self (region : TrustRegionConfig D) :
    overriddenRegion o (overriddenRegion o region) = overriddenRegion o region := by
  unfold overriddenRegion
  split
  · rfl
  · rfl
  · exact region.override_self o

theorem overriddenRegion_merge (hearlier : earlier.trustRegionKind = none)
    (hlater : later.trustRegionKind = none) (region : TrustRegionConfig D) :
    overriddenRegion later (overriddenRegion earlier region) =
      overriddenRegion (earlier.merge later) region := by
  have hmerge : (earlier.merge later).trustRegionKind = none := by
    rw [ConfigOverrides.merge, hearlier, hlater, Option.or_none]
  simp only [overriddenRegion, hearlier, hlater, hmerge,
    TrustRegionConfig.override_override]

end OptimizerConfig

namespace ConfigOverrides

open OptimizerConfig

variable [Analysis D]

theorem applyTo_eq (config : OptimizerConfig D) :
    o.applyTo config =
      { acquisition := o.acquisition.getD config.acquisition
        candidates :=
          { candidateRv := o.candidateRv.getD config.candidates.candidateRv
            numCandidatesFactor :=
              o.numCandidatesFactor.getD config.candidates.numCandidatesFactor
            minCandidates := o.minCandidates.getD config.candidates.minCandidates
            maxCandidates := o.maxCandidates.or config.candidates.maxCandidates
            numCandidatesPerArm :=
              o.numCandidatesPerArm.or config.candidates.numCandidatesPerArm
            numPert := (o.numPert.map (max · 1)).getD config.candidates.numPert }
        surrogate := overrideSurrogate o config.surrogate
        trustRegion := overriddenRegion o config.trustRegion
        noiseAware := o.noiseAware.getD config.noiseAware
        failureToleranceDim := o.failureToleranceDim.or config.failureToleranceDim } := by
  simp only [applyTo, ite_applyEnn]
  simp only [applyEnn_eq, applyTrustRegionOverrides_eq]

theorem applyTo_applyTo (config : OptimizerConfig D) :
    o.applyTo (o.applyTo config) = o.applyTo config := by
  simp only [applyTo_eq, getD_getD, ← Option.or_assoc, Option.or_self, overrideSurrogate_self,
    overriddenRegion_self]

theorem applyTo_merge (hearlier : earlier.trustRegionKind = none)
    (hlater : later.trustRegionKind = none) (config : OptimizerConfig D) :
    later.applyTo (earlier.applyTo config) = (earlier.merge later).applyTo config := by
  simp only [applyTo_eq, overrideSurrogate_merge, overriddenRegion_merge _ _ hearlier hlater]
  simp only [merge, Option.getD_or, Option.or_assoc, Option.map_or]

theorem applyTo_empty (config : OptimizerConfig D) :
    ConfigOverrides.applyTo {} config = config := by
  obtain ⟨⟨candidates, acquisition⟩, surrogate, region, aware, tolerance⟩ := config
  rw [applyTo_eq]
  cases surrogate with
  | none | enn enn =>
    cases region with
    | turbo length | morbo settings => rfl

def mergeAll (os : List (ConfigOverrides D)) : ConfigOverrides D := os.foldl merge {}

def applyAll (os : List (ConfigOverrides D)) (config : OptimizerConfig D) : OptimizerConfig D :=
  os.foldl (fun config o => o.applyTo config) config

theorem applyAll_eq {os : List (ConfigOverrides D)} (h : ∀ o ∈ os, o.trustRegionKind = none)
    {first : ConfigOverrides D} (hfirst : first.trustRegionKind = none)
    (config : OptimizerConfig D) :
    applyAll os (first.applyTo config) = (os.foldl merge first).applyTo config := by
  induction os generalizing first with
  | nil => rfl
  | cons o os ih =>
    rw [List.forall_mem_cons] at h
    have hmerge : (first.merge o).trustRegionKind = none := by
      rw [merge, hfirst, h.1, Option.or_none]
    rw [applyAll, List.foldl_cons, applyTo_merge _ _ hfirst h.1, List.foldl_cons]
    exact ih h.2 hmerge

/-- Layers of overrides that name no kind of trust region act as one, however often. -/
theorem applyAll_layers {os : List (ConfigOverrides D)}
    (h : ∀ o ∈ os, o.trustRegionKind = none) (config : OptimizerConfig D) :
    applyAll os config = (mergeAll os).applyTo config ∧
      applyAll os (applyAll os config) = applyAll os config := by
  have hmerged (config : OptimizerConfig D) :
      applyAll os config = (mergeAll os).applyTo config := by
    conv_lhs => rw [← applyTo_empty config]
    exact applyAll_eq h rfl config
  refine ⟨hmerged config, ?_⟩
  rw [hmerged (applyAll os config), hmerged config, applyTo_applyTo]

/-- Two layers over a preset, of which the later one gives both values again. -/
theorem applyAll_layers_two :
    let os : List (ConfigOverrides ℚ) :=
      [{ lengthMin := some 1, numPert := some 0 }, { lengthMin := some 2, numPert := some 5 }]
    applyAll os turboEnnConfig = (mergeAll os).applyTo turboEnnConfig ∧
      applyAll os (applyAll os turboEnnConfig) = applyAll os turboEnnConfig :=
  applyAll_layers (List.forall_mem_cons.mpr ⟨rfl, List.forall_mem_singleton.mpr rfl⟩) turboEnnConfig

end ConfigOverrides

end Layers

end Ennbo
