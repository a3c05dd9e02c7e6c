import Ennbo.Strategy.Hypercube
import Ennbo.Strategy.Selection
import Ennbo.TrustRegion.Kept

/-! # The experimental strategy

The arms of an ask are divided among several trust regions. Each region draws
candidates from its own box, the arms are chosen in one pass over all of them,
and the regions of the arms are remembered, so that a tell credits each value to
the region that generated its row.
-/

namespace Ennbo

open RandomGenerator MultiTrustRegionState

/-- `a as usize` on floats. -/
class FloatToUsize (D : Type) where
  toUsize : D → ℕ

export FloatToUsize (toUsize)

instance : FloatToUsize ℚ := ⟨fun a => min a.floor.toNat 18446744073709551615⟩

inductive InitStrategy where
  | lhd
  | random
  deriving DecidableEq

structure CandidateConfig (D : Type) where
  numCandidatesFactor : D
  minCandidates : ℕ
  maxCandidates : Option ℕ
  numCandidatesPerArm : Option ℕ
  numPert : ℕ
  candidateRv : CandidateRV

/-- The parts of an optimizer's configuration that an ask reads. -/
structure AskConfig (D : Type) where
  candidates : CandidateConfig D
  acquisition : AcquisitionConfig D

structure ExperimentalStrategyState (D : Type) (M : ℕ) where
  strategyType : InitStrategy
  init : InitStrategyState
  multiTr : MultiTrustRegionState D M
  inInit : Bool
  pendingRegions : Option (List ℕ)

/-- An optimizer with this strategy, its surrogate, its incumbent and what it draws from. -/
structure Session (D ρ : Type) (M : ℕ) where
  numDim : ℕ
  optimizer : Optimizer D
  strategy : ExperimentalStrategyState D M
  surrogate : Option (Surrogate D ρ)
  incumbentXUnit : Option (List D)
  source : Source D ρ

/-- A tell, with the surrogate and the incumbent row that it leaves. -/
structure ExperimentalTell (D ρ : Type) extends Tell D where
  surrogate : Option (Surrogate D ρ)
  incumbentX : Option (List D)

section Definitions

variable {D ρ : Type} [Floating D] [Analysis D] {M : ℕ}

namespace CandidateConfig

def EPSILON : D := 1 / ((4503599627370496 : ℕ) : D)

def isExactFixed (c : CandidateConfig D) : Bool :=
  BpannBackend.eqB c.numCandidatesFactor 1 && c.maxCandidates == some c.minCandidates &&
    c.numCandidatesPerArm.isNone

/-- The number of candidates by the dimension; a cap applies with a number for each arm, or with
the factor of one hundred. -/
def formula [FloatToUsize D] (c : CandidateConfig D) (numDim : ℕ) : ℕ :=
  let raw := toUsize (c.numCandidatesFactor * (numDim : D))
  match c.maxCandidates with
  | some cap =>
    if c.numCandidatesPerArm.isSome ||
        ltB (YBounds.abs (c.numCandidatesFactor - ((100 : ℕ) : D))) EPSILON
    then min raw cap
    else raw
  | none => raw

def numCandidates [FloatToUsize D] (c : CandidateConfig D) (numDim numArms : ℕ) : ℕ :=
  let base :=
    if c.isExactFixed then c.minCandidates else max (c.formula numDim) c.minCandidates
  match c.numCandidatesPerArm with
  | some m => max base (numArms * m)
  | none => base

end CandidateConfig

def MultiTrustRegionConfig.new (length : TRLengthConfig D) : MultiTrustRegionConfig D where
  length := length
  succTolerance := 3
  failTolerance := 5
  sharingPolicy := .shared
  exploration := 1
  minSeedDistance := 0

namespace MultiTrustRegionState

def activeCount (s : MultiTrustRegionState D M) : ℕ := s.activeRegions.length

def allocate (s : MultiTrustRegionState D M) (budget : ℕ) :
    Except TrustRegionError (List (RegionBatch M)) :=
  s.allocateWith budget ((List.finRange M).map fun r => (s.regions r).meanY)

/-- The update of a session, which fails without a change. -/
def tellCall (x : Array2 D) (y : List D) (regions : Option (List ℕ)) :
    Call (MultiTrustRegionState D M) Unit := do
  let s ← Call.get
  let s' ← Call.ofOutcome (MorboTrustRegion.ofExcept (s.tell x y regions))
  Call.modify fun _ => s'

def restartOne (center : List D) (r : Fin M) : Call (MultiTrustRegionState D M) Unit := do
  let s ← Call.get
  let s' ← Call.ofOutcome (MorboTrustRegion.ofExcept (s.restartRegion r center))
  Call.modify fun _ => s'

/-- Restart all regions when none is active. -/
def restartAllRegions (center : List D) : Call (MultiTrustRegionState D M) Unit := do
  let s ← Call.get
  if 0 < s.activeCount then return ()
  else (List.finRange M).foldlM (fun _ r => restartOne center r) ()

def restartIfInactive (center : List D) (r : Fin M) : Call (MultiTrustRegionState D M) Unit := do
  let s ← Call.get
  if (s.regions r).active then return () else restartOne center r

/-- Restart the regions that are given up. -/
def restartInactive (center : List D) : Call (MultiTrustRegionState D M) Unit := do
  let s ← Call.get
  if s.activeCount = 0 then restartAllRegions center
  else (List.finRange M).foldlM (fun _ r => restartIfInactive center r) ()

/-- Take a batch in, and restart the regions that are given up. -/
def update (x : Array2 D) (y : List D) (regions : Option (List ℕ)) (center : List D) :
    Call (MultiTrustRegionState D M) Unit := do
  tellCall x y regions
  restartInactive center

end MultiTrustRegionState

/-- The segments of the candidates of some batches, one behind the other. -/
def segmentsFrom : ℕ → List (RegionBatch M × List (List D)) → List CandidateSegment
  | _, [] => []
  | offset, (batch, rows) :: rest =>
    ⟨offset, offset + rows.length, batch.len, batch.region⟩ ::
      segmentsFrom (offset + rows.length) rest

/-- All candidates, which must have one width. -/
def concatenate (numDim : ℕ) (blocks : List (List (List D))) : Outcome (Array2 D) :=
  if h : ∀ row ∈ blocks.flatten, row.length = numDim then pure ⟨numDim, blocks.flatten, h⟩
  else throw (.error (.invalidParameter "ShapeError/IncompatibleShape: incompatible shapes"))

def selectByIndices (x : Array2 D) (indices : List ℕ) : Outcome (List (List D)) :=
  if indices = [] then throw .panic
  else indices.mapM fun i => Outcome.ofOption .panic x.rows[i]?

variable [RandomGenerator D ρ]

/-- The arms of the initial phase, from the unit cube. -/
def askInit (strategyType : InitStrategy) (numDim numArms : ℕ) : Call ρ (List (List D)) :=
  match strategyType with
  | .lhd => generateLhd numArms numDim (List.replicate numDim (0, 1))
  | .random => generateUniform (List.replicate numDim 0) (List.replicate numDim 1) numArms

namespace ExperimentalStrategyState

/-- The regions start at centres that are drawn uniformly. -/
def new (M numDim numInit : ℕ) : Call ρ (ExperimentalStrategyState D M) := do
  let centers ← (List.range M).mapM fun _ =>
    (List.range numDim).mapM fun _ => sampleUniform (0 : D) 1
  let multiTr ← Call.ofOutcome (MorboTrustRegion.ofExcept (MultiTrustRegionState.new numDim
    (.new TRLengthConfig.default) none fun r : Fin M => centers.getD r []))
  return {
    strategyType := .lhd
    init := ⟨numInit, 0⟩
    multiTr := multiTr
    inInit := decide (0 < numInit)
    pendingRegions := none }

/-- Count the rows of a tell, which may end the initial phase. -/
def completeInit (n : ℕ) (s : ExperimentalStrategyState D M) : ExperimentalStrategyState D M :=
  let completed := s.init.completed + n
  { s with
    init := { s.init with completed := completed }
    inInit := s.inInit && decide (completed < s.init.numInit) }

end ExperimentalStrategyState

namespace Session

def onSource {α : Type} (c : Call (Source D ρ) α) : Call (Session D ρ M) α :=
  c.on Session.source fun s source => { s with source := source }

def onOptimizer {α : Type} (c : Call (Optimizer D) α) : Call (Session D ρ M) α :=
  c.on Session.optimizer fun s optimizer => { s with optimizer := optimizer }

def onStrategy {α : Type} (c : Call (ExperimentalStrategyState D M) α) :
    Call (Session D ρ M) α :=
  c.on Session.strategy fun s strategy => { s with strategy := strategy }

def onRegions {α : Type} (c : Call (MultiTrustRegionState D M) α) : Call (Session D ρ M) α :=
  onStrategy (c.on ExperimentalStrategyState.multiTr fun s multiTr => { s with multiTr := multiTr })

def setPending (pending : Option (List ℕ)) : Call (Session D ρ M) Unit :=
  onStrategy (Call.modify fun s => { s with pendingRegions := pending })

def restartCenter (s : Session D ρ M) : List D :=
  s.incumbentXUnit.getD (List.replicate s.numDim (literal 5 1))

def lengthscales (s : Session D ρ M) : Option (List D) :=
  s.surrogate.bind Surrogate.lengthscales

variable [FloatToUsize D] [FloatRem D]

/-- The candidates of a batch, from the box of its region. -/
def candidatesOf (config : CandidateConfig D) (s : Session D ρ M) (batch : RegionBatch M) :
    Call (Source D ρ) (List (List D)) := do
  let region := s.strategy.multiTr.regions batch.region
  let bounds ← Call.ofOutcome (regionBounds region s.lengthscales)
  generateCandidates bounds region.center s.lengthscales
    (config.numCandidates s.numDim batch.len) config.candidateRv config.numPert

/-- Choose the arms among the candidates of all regions. -/
def askRegions (config : AskConfig D) (numArms : ℕ) : Call (Session D ρ M) (List (List D)) := do
  let s ← Call.get
  let batches ← Call.ofOutcome (MorboTrustRegion.ofExcept (s.strategy.multiTr.allocate numArms))
  let blocks ← onSource (batches.mapM (candidatesOf config.candidates s))
  let segments := segmentsFrom 0 (batches.zip blocks)
  if blocks = [] then
    Call.ofOutcome (throw (.error (.invalidParameter
      "experimental strategy produced no candidates")))
  else
    let candidates ← Call.ofOutcome (concatenate s.strategy.multiTr.numDim blocks)
    let indices ← onSource (onRng (selectSegmentedArms (candidates.nrows + 1) config.acquisition
      s.optimizer.trState s.surrogate candidates segments))
    setPending (some (segments.flatMap fun segment => List.replicate segment.arms segment.region))
    Call.ofOutcome (selectByIndices candidates indices)

def ask (config : AskConfig D) (numArms : ℕ) : Call (Session D ρ M) (List (List D)) := do
  let s ← Call.get
  if s.strategy.inInit then
    setPending none
    onSource (onRng (askInit s.strategy.strategyType s.numDim numArms))
  else
    onRegions (restartAllRegions s.restartCenter)
    askRegions config numArms

/-- Hand the values to the regions that generated their rows. -/
def tellRegions (x y : Array2 D) : Call (Session D ρ M) Unit := do
  let s ← Call.get
  setPending none
  onRegions (update x y.zerothColumn s.strategy.pendingRegions s.restartCenter)

def tell (t : ExperimentalTell D ρ) : Call (Session D ρ M) Unit :=
  if t.y.ncols ≠ 1 then
    Call.ofOutcome (throw (.error (.invalidParameter
      s!"experimental multi-trust-region strategy expects scalar y, got {t.y.ncols} columns")))
  else do
    -- what the fit and the search of the incumbent leave, also when a later step fails
    Call.modify fun s => { s with surrogate := t.surrogate, incumbentXUnit := t.incumbentX }
    onOptimizer (Optimizer.tellCommon t.toTell)
    onStrategy (Call.modify (ExperimentalStrategyState.completeInit t.x.nrows))
    tellRegions t.x t.y

end Session

end Definitions

end Ennbo
