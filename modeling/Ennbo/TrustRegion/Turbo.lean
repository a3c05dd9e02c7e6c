import Ennbo.Model.Bounds

/-! # TuRBO trust regions

A trust region grows after successes and shrinks after failures. An update counts
as a success when the incumbent beats the best value by a part of the range of
earlier values, which the region keeps as a running minimum and maximum.
-/

namespace Ennbo

/-- `a.ceil() as i32` -/
class Rounding (D : Type) where
  ceilI32 : D → ℤ

export Rounding (ceilI32)

instance : Rounding ℚ where
  ceilI32 a := max (-2 ^ 31) (min (2 ^ 31 - 1) a.ceil)

inductive TrustRegionError where
  | invalidParameter (message : String)
  | invalidState (message : String)
  deriving DecidableEq

namespace TrustRegionError

def toString : TrustRegionError → String
  | invalidParameter message => s!"Invalid parameter: {message}"
  | invalidState message => s!"Invalid state: {message}"

/-- The error of the crate that reports an error of a trust region by its text. -/
def failure (e : TrustRegionError) : Failure := .error (.invalidParameter e.toString)

end TrustRegionError

variable {D : Type}

structure TRLengthConfig (D : Type) where
  lengthInit : D
  lengthMin : D
  lengthMax : D

structure TurboTrustRegion (D : Type) where
  length : D
  failureCounter : ℤ
  successCounter : ℤ
  bestValue : D
  prevNumObs : ℕ
  successTolerance : ℤ
  failureTolerance : Option ℤ
  numDim : ℕ
  numArms : Option ℕ
  config : TRLengthConfig D
  histYmin : D
  histYmax : D
  failureToleranceDim : Option D

variable [Floating D] [Analysis D]

/-- `0.5f64.powi(7)` is the least length. -/
def TRLengthConfig.default : TRLengthConfig D where
  lengthInit := literal 8 1
  lengthMin := literal 78125 7
  lengthMax := literal 16 1

/-- The scale of an improvement, from the range of earlier values. -/
def observedScale (earlier : List D) : D :=
  if 2 ≤ earlier.length then
    max (earlier.foldl max negInfinity - earlier.foldl min infinity) (literal 1 6)
  else 0

namespace TurboTrustRegion

def new (numDim : ℕ) (config : TRLengthConfig D) : TurboTrustRegion D where
  length := config.lengthInit
  failureCounter := 0
  successCounter := 0
  bestValue := negInfinity
  prevNumObs := 0
  successTolerance := 3
  failureTolerance := none
  numDim := numDim
  numArms := none
  config := config
  histYmin := infinity
  histYmax := negInfinity
  failureToleranceDim := none

def incorporateHist (t : TurboTrustRegion D) (yNew : List D) : TurboTrustRegion D :=
  { t with
    histYmin := yNew.foldl min t.histYmin
    histYmax := yNew.foldl max t.histYmax }

def scaleFromHist (t : TurboTrustRegion D) : D :=
  if 2 ≤ t.prevNumObs then max (t.histYmax - t.histYmin) (literal 1 6) else 0

def needsRestart (t : TurboTrustRegion D) : Bool := ltB t.length t.config.lengthMin

/-- The number of observations is kept. -/
def restart (t : TurboTrustRegion D) : TurboTrustRegion D :=
  { t with
    length := t.config.lengthInit
    failureCounter := 0
    successCounter := 0
    bestValue := negInfinity
    histYmin := infinity
    histYmax := negInfinity }

def setPrevNumObs (t : TurboTrustRegion D) (prevNumObs : ℕ) : TurboTrustRegion D :=
  { t with prevNumObs := prevNumObs }

def setBestValue (t : TurboTrustRegion D) (value : D) : TurboTrustRegion D :=
  { t with bestValue := value }

section Arms

variable [Rounding D]

def computeFailureTolerance (t : TurboTrustRegion D) : TurboTrustRegion D :=
  match t.numArms with
  | none => t
  | some numArms =>
    let effDim := t.failureToleranceDim.getD (t.numDim : D)
    let tolerance := ceilI32 (max (((4 : ℕ) : D) / (numArms : D)) (effDim / (numArms : D)))
    { t with failureTolerance := some (max tolerance 1) }

def setFailureToleranceDim (t : TurboTrustRegion D) (dim : D) : TurboTrustRegion D :=
  computeFailureTolerance { t with failureToleranceDim := some dim }

def setNumArms (t : TurboTrustRegion D) (numArms : ℕ) : TurboTrustRegion D :=
  computeFailureTolerance { t with numArms := some numArms }

end Arms

def improves (t : TurboTrustRegion D) (scale value : D) : Bool :=
  ltB (t.bestValue + literal 1 3 * scale) value

def count (t : TurboTrustRegion D) (improved : Bool) : TurboTrustRegion D :=
  if improved then { t with successCounter := t.successCounter + 1, failureCounter := 0 }
  else { t with failureCounter := t.failureCounter + 1, successCounter := 0 }

def adaptLength (t : TurboTrustRegion D) : TurboTrustRegion D :=
  if t.successTolerance ≤ t.successCounter then
    { t with
      length := min (t.length * ((2 : ℕ) : D)) t.config.lengthMax
      successCounter := 0 }
  else if t.failureTolerance.getD 4 ≤ t.failureCounter then
    { t with length := t.length * literal 5 1, failureCounter := 0 }
  else t

/-- Take a value in: the first one is only recorded. -/
def advance (t : TurboTrustRegion D) (scale value : D) : TurboTrustRegion D :=
  if !isFinite t.bestValue then { t with bestValue := value }
  else
    let t := (t.count (t.improves scale value)).adaptLength
    { t with bestValue := max t.bestValue value }

/-- The earlier values count as zeros. -/
def updateScalarIncumbent (t : TurboTrustRegion D) (numObs : ℕ) (yIncumbentValue : D) :
    Except TrustRegionError (TurboTrustRegion D) :=
  if numObs = 0 ∨ numObs = t.prevNumObs then pure t
  else if numObs < t.prevNumObs then
    throw (.invalidState s!"num_obs went backwards: {numObs} < {t.prevNumObs}")
  else
    pure ((t.advance (observedScale (List.replicate t.prevNumObs 0)) yIncumbentValue).setPrevNumObs
      numObs)

def updateWithIncumbentNewBatch (t : TurboTrustRegion D) (yNew : List D) (numObs : ℕ)
    (yIncumbentValue : D) : Except TrustRegionError (TurboTrustRegion D) :=
  let nNew := yNew.length
  if nNew = 0 then pure t
  else
    let n := t.prevNumObs + nNew
    if numObs ≠ n then
      throw (.invalidParameter
        s!"num_obs {numObs} must equal prev_num_obs {t.prevNumObs} + y_new.len() {nNew}")
    else
      pure (((t.advance t.scaleFromHist yIncumbentValue).incorporateHist yNew).setPrevNumObs n)

end TurboTrustRegion

end Ennbo
