import Ennbo.Model.Posterior
import Ennbo.TrustRegion.Turbo

/-! # Morbo trust regions

Several metrics are made one by a weighted Chebyshev score over the ranges of the
values told so far. The ranges are widened by each batch, and an inner TuRBO
region follows the score of the incumbent. Weights are drawn anew at a restart or
at each proposal.
-/

namespace Ennbo

inductive Rescalarize where
  | onRestart
  | onPropose
  deriving DecidableEq, Repr

variable {D : Type}

structure MorboTRSettings (D : Type) where
  numMetrics : ℕ
  alpha : D
  length : TRLengthConfig D
  rescalarize : Rescalarize
  noiseAware : Bool

structure MorboTrustRegion (D : Type) where
  inner : TurboTrustRegion D
  numMetrics : ℕ
  alpha : D
  rescalarize : Rescalarize
  noiseAware : Bool
  weights : List D
  yMin : Option (List D)
  yMax : Option (List D)
  incumbentYRaw : Option (List D)

variable [Floating D] [Analysis D]

namespace MorboTrustRegion

section Scores

/-- The weighted share of a metric's range that a value reaches. -/
def scorePart (yMin yMax weights : List D) (clip : Bool) (row : List D) (m : ℕ) : D :=
  let lo := yMin.getD m 0
  let denom := yMax.getD m 0 - lo
  let z :=
    if leB denom 0 then literal 5 1
    else
      let z := (row.getD m 0 - lo) / denom
      if clip then clamp z 0 1 else z
  z * weights.getD m 0

def scoreRow (yMin yMax weights : List D) (alpha : D) (numMetrics : ℕ) (clip : Bool)
    (row : List D) : D :=
  let parts := (List.range numMetrics).map (scorePart yMin yMax weights clip row)
  parts.foldl min infinity + alpha * parts.foldl (· + ·) 0

def scalarizeWithRanges (y : Array2 D) (yMin yMax weights : List D) (alpha : D) (numMetrics : ℕ)
    (clip : Bool) : Except TrustRegionError (List D) :=
  if y.ncols ≠ numMetrics ∨ yMin.length ≠ numMetrics ∨ yMax.length ≠ numMetrics then
    throw (.invalidParameter
      s!"shape mismatch: y {y.shape}, y_min {yMin.length}, y_max {yMax.length}")
  else pure (y.rows.map (scoreRow yMin yMax weights alpha numMetrics clip))

end Scores

section Ranges

/-- `if v < lo { lo = v }` -/
def lower (lo v : D) : D := if ltB v lo then v else lo

/-- `if v > hi { hi = v }` -/
def raise (hi v : D) : D := if ltB hi v then v else hi

/-- A pass over the rows that updates each metric's entry of `start`. -/
def foldMetrics (f : D → D → D) (numMetrics : ℕ) (start : List D) (rows : List (List D)) : List D :=
  rows.foldl (fun acc row => (List.range numMetrics).map fun m => f (acc.getD m 0) (row.getD m 0))
    start

def foldColumns (f : D → D → D) (numMetrics : ℕ) (start : D) (rows : List (List D)) : List D :=
  (List.range numMetrics).map fun m => rows.foldl (fun acc row => f acc (row.getD m 0)) start

end Ranges

/-- `us` are the uniform draws. -/
def sampleDirichletWeights (us : ℕ → D) (n : ℕ) : List D :=
  let samples := (List.range n).map fun i => max (neg (ln (us i))) (literal 1 300)
  let sum := samples.foldl (· + ·) 0
  samples.map fun v => v / sum

def resampleWeights (us : ℕ → D) (m : MorboTrustRegion D) : MorboTrustRegion D :=
  { m with weights := sampleDirichletWeights us m.numMetrics }

def new (numDim : ℕ) (settings : MorboTRSettings D) (us : ℕ → D) :
    Except TrustRegionError (MorboTrustRegion D) :=
  if settings.numMetrics < 2 then
    throw (.invalidParameter s!"num_metrics must be >= 2 for MORBO, got {settings.numMetrics}")
  else
    pure (resampleWeights us
      { inner := .new numDim settings.length
        numMetrics := settings.numMetrics
        alpha := settings.alpha
        rescalarize := settings.rescalarize
        noiseAware := settings.noiseAware
        weights := List.replicate settings.numMetrics 0
        yMin := none
        yMax := none
        incumbentYRaw := none })

def needsRestart (m : MorboTrustRegion D) : Bool := m.inner.needsRestart

/-- Forget the ranges and the incumbent, and start the inner region over. -/
def clear (m : MorboTrustRegion D) : MorboTrustRegion D :=
  { m with
    yMin := none
    yMax := none
    incumbentYRaw := none
    inner := m.inner.restart }

def restart (us : ℕ → D) (m : MorboTrustRegion D) : MorboTrustRegion D :=
  if m.rescalarize = .onRestart then resampleWeights us m.clear else m.clear

section Arms

variable [Rounding D]

def setNumArms (numArms : ℕ) (m : MorboTrustRegion D) : MorboTrustRegion D :=
  { m with inner := m.inner.setNumArms numArms }

end Arms

/-- Widen the ranges by new rows; a row without a metric panics. -/
def updateRangesIncremental (yNew : Array2 D) (m : MorboTrustRegion D) :
    Outcome (MorboTrustRegion D) :=
  if yNew.nrows = 0 then pure m
  else if yNew.ncols < m.numMetrics then throw .panic
  else
    match m.yMin, m.yMax with
    | some yMin, some yMax =>
      pure
        { m with
          yMin := some (foldMetrics lower m.numMetrics yMin yNew.rows)
          yMax := some (foldMetrics raise m.numMetrics yMax yNew.rows) }
    | _, _ =>
      pure
        { m with
          yMin := some
            (foldMetrics lower m.numMetrics (List.replicate m.numMetrics infinity) yNew.rows)
          yMax := some
            (foldMetrics raise m.numMetrics (List.replicate m.numMetrics negInfinity) yNew.rows) }

/-- The scores of some rows under the ranges and weights in force. -/
def scores (m : MorboTrustRegion D) (y : Array2 D) (yMin yMax : List D) :
    Except TrustRegionError (List D) :=
  scalarizeWithRanges y yMin yMax m.weights m.alpha m.numMetrics true

/-- The inner region takes a score in; its errors are passed on as states. -/
def takeScore (numObs : ℕ) (score : D) : Call (MorboTrustRegion D) Unit := do
  let m ← Call.get
  match m.inner.updateScalarIncumbent numObs score with
  | .ok inner => Call.modify fun m => { m with inner := inner }
  | .error e => Call.ofOutcome (throw (TrustRegionError.invalidState e.toString).failure)

def ofExcept {α : Type} (x : Except TrustRegionError α) : Outcome α :=
  x.mapError TrustRegionError.failure

/-- Two rows of one width. -/
def stack (a b : List D) : Except TrustRegionError (Array2 D) :=
  if h : b.length = a.length then pure ⟨a.length, [a, b], by simp [h]⟩
  else throw (.invalidState "ShapeError/IncompatibleShape: incompatible shapes")

/-- The first incumbent after a start is taken, a later one when it scores better. -/
def takeIncumbent (yIncumbent yMin yMax : List D) (first : Bool) (numObs : ℕ) :
    Call (MorboTrustRegion D) Unit := do
  let m ← Call.get
  match first, m.incumbentYRaw with
  | false, some incumbent =>
    let stacked ← Call.ofOutcome (ofExcept (stack incumbent yIncumbent))
    let scores ← Call.ofOutcome (ofExcept (m.scores stacked yMin yMax))
    let oldScore := scores.getD 0 0
    let newScore := scores.getD 1 0
    Call.modify fun m => { m with inner := m.inner.setBestValue oldScore }
    takeScore numObs newScore
    if ltB oldScore newScore then
      Call.modify fun m => { m with incumbentYRaw := some yIncumbent }
    else pure ()
  | _, _ =>
    Call.modify fun m => { m with incumbentYRaw := some yIncumbent }
    let scores ← Call.ofOutcome (ofExcept (m.scores (.ofRow yIncumbent) yMin yMax))
    takeScore numObs (scores.getD 0 0)

def updateIncumbentOnly (yIncumbent : List D) (numObs : ℕ) : Call (MorboTrustRegion D) Unit := do
  let m ← Call.get
  if yIncumbent.length ≠ m.numMetrics then
    Call.ofOutcome (throw (TrustRegionError.invalidParameter
      s!"y_incumbent len {yIncumbent.length} != num_metrics {m.numMetrics}").failure)
  else if numObs = 0 then Call.modify clear
  else
    match m.yMin, m.yMax with
    | some yMin, some yMax => takeIncumbent yIncumbent yMin yMax m.incumbentYRaw.isNone numObs
    | _, _ =>
      Call.ofOutcome (throw (TrustRegionError.invalidState
        "update_incumbent_only before ranges initialized").failure)

/-- Score the incumbent again; without one or without ranges nothing is done. -/
def rescalarizeIncumbentUnderWeights (numObs : ℕ) : Call (MorboTrustRegion D) Unit := do
  let m ← Call.get
  match m.incumbentYRaw, m.yMin, m.yMax with
  | some incumbent, some yMin, some yMax =>
    let scores ← Call.ofOutcome (ofExcept (m.scores (.ofRow incumbent) yMin yMax))
    let score := scores.getD 0 0
    Call.modify fun m => { m with inner := m.inner.setBestValue score }
    takeScore numObs score
  | _, _, _ => return ()

/-- The update from all rows told so far. -/
def update (yObs : Array2 D) (yIncumbent : List D) : Call (MorboTrustRegion D) Unit := do
  let m ← Call.get
  let n := yObs.nrows
  if yObs.ncols ≠ m.numMetrics then
    Call.ofOutcome (throw (TrustRegionError.invalidParameter
      s!"y_obs cols {yObs.ncols} != num_metrics {m.numMetrics}").failure)
  else if yIncumbent.length ≠ m.numMetrics then
    Call.ofOutcome (throw (TrustRegionError.invalidParameter
      s!"y_incumbent len {yIncumbent.length} != num_metrics {m.numMetrics}").failure)
  else if n = 0 then Call.modify clear
  else
    let prevN := m.inner.prevNumObs
    if n < prevN then
      Call.ofOutcome (throw (TrustRegionError.invalidState
        s!"num_obs went backwards: {n} < {prevN}").failure)
    else
      let yMin := foldColumns lower m.numMetrics infinity yObs.rows
      let yMax := foldColumns raise m.numMetrics negInfinity yObs.rows
      Call.modify fun m => { m with yMin := some yMin, yMax := some yMax }
      takeIncumbent yIncumbent yMin yMax (prevN = 0 ∨ m.incumbentYRaw.isNone) n

end MorboTrustRegion

end Ennbo
