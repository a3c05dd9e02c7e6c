import Ennbo.Call
import Ennbo.TrustRegion.Morbo

/-! # Optimizers

An optimizer keeps the rows it is told, by itself or in a surrogate, and moves
its trust region after each tell. How candidates are proposed, how a surrogate is
fitted and which row becomes the incumbent is left open: a tell comes with the
incumbent that is found for it.
-/

namespace Ennbo

variable {D : Type}

structure InitStrategyState where
  numInit : ℕ
  completed : ℕ

inductive Strategy where
  | init (state : InitStrategyState)
  | turbo
  | hybrid (init : InitStrategyState) (inInit : Bool)

inductive TrustRegionState (D : Type) where
  | turbo (t : TurboTrustRegion D)
  | morbo (m : MorboTrustRegion D)

/-- The rows told so far. A surrogate that finds rows in its directory keeps those instead of the
first batch. -/
structure Observations (D : Type) where
  surrogate : Bool
  stored : List (List D)
  fittedNumMetrics : Option ℕ
  rows : List (List D)

namespace Observations

def new (surrogate : Bool) (stored : List (List D)) : Observations D :=
  ⟨surrogate, stored, none, []⟩

def count (o : Observations D) : ℕ := o.rows.length

def append (y : Array2 D) (o : Observations D) : Observations D :=
  if !o.surrogate then { o with rows := o.rows ++ y.rows }
  else
    match o.fittedNumMetrics with
    | some _ => { o with rows := o.rows ++ y.rows }
    | none =>
      { o with
        fittedNumMetrics := some y.ncols
        rows := if o.stored = [] then y.rows else o.stored }

/-- All rows at the width of the first one; a shorter row panics. -/
def yObs (o : Observations D) : Outcome (Option (Array2 D)) :=
  match o.rows with
  | [] => pure none
  | first :: _ =>
    if h : ∀ row ∈ o.rows, first.length ≤ row.length then
      pure (some
        { ncols := first.length
          rows := o.rows.map fun row => row.take first.length
          width := by
            intro row hrow
            obtain ⟨row, hmem, rfl⟩ := List.mem_map.mp hrow
            rw [List.length_take, min_eq_left (h row hmem)] })
    else throw .panic

end Observations

structure Optimizer (D : Type) where
  trState : TrustRegionState D
  strategy : Strategy
  observations : Observations D
  incumbentYScalar : Option (List D)
  restartGeneration : ℕ

/-- A batch, how the surrogate takes it, the incumbent that is found then, and uniform draws. -/
structure Tell (D : Type) where
  x : Array2 D
  y : Array2 D
  fit : Outcome Unit
  incumbent : Outcome (Option (List D))
  us : ℕ → D

variable [Floating D] [Analysis D] [Rounding D]

namespace TrustRegionState

def isMorbo : TrustRegionState D → Bool
  | turbo _ => false
  | morbo _ => true

/-- The region of a TuRBO optimizer. -/
def toTurbo : TrustRegionState D → Option (TurboTrustRegion D)
  | turbo t => some t
  | morbo _ => none

def turboPrevNumObs : TrustRegionState D → ℕ
  | turbo t => t.prevNumObs
  | morbo _ => 0

def setTurboPrevNumObs (n : ℕ) : TrustRegionState D → TrustRegionState D
  | turbo t => turbo (t.setPrevNumObs n)
  | morbo m => morbo m

def setNumArms (numArms : ℕ) : TrustRegionState D → TrustRegionState D
  | turbo t => turbo (t.setNumArms numArms)
  | morbo m => morbo (m.setNumArms numArms)

def needsRestart : TrustRegionState D → Bool
  | turbo t => t.needsRestart
  | morbo m => m.needsRestart

def restart (us : ℕ → D) : TrustRegionState D → TrustRegionState D
  | turbo t => turbo t.restart
  | morbo m => morbo (m.restart us)

def resampleOnPropose (us : ℕ → D) : TrustRegionState D → TrustRegionState D
  | turbo t => turbo t
  | morbo m => morbo (if m.rescalarize = .onPropose then m.resampleWeights us else m)

/-- Run a call on a Morbo region; there is none to run it on in a TuRBO region. -/
def onMorbo (c : Call (MorboTrustRegion D) Unit) (message : String) :
    Call (TrustRegionState D) Unit
  | turbo t => (.error (.error (.invalidParameter message)), turbo t)
  | morbo m => ((c m).1, morbo (c m).2)

def morboUpdateRangesOnly (yNew : Array2 D) : Call (TrustRegionState D) Unit :=
  onMorbo
    (do
      let m ← Call.get
      let m ← Call.ofOutcome (m.updateRangesIncremental yNew)
      Call.modify fun _ => m)
    "morbo_update_ranges_only requires Morbo"

def morboUpdateIncumbentOnly (yIncumbent : List D) (numObs : ℕ) :
    Call (TrustRegionState D) Unit :=
  onMorbo (MorboTrustRegion.updateIncumbentOnly yIncumbent numObs)
    "morbo_update_incumbent_only requires Morbo"

def morboRescalarizeIncumbent (numObs : ℕ) : Call (TrustRegionState D) Unit
  | turbo t => (.ok (), turbo t)
  | morbo m =>
    ((MorboTrustRegion.rescalarizeIncumbentUnderWeights numObs m).1,
      morbo (MorboTrustRegion.rescalarizeIncumbentUnderWeights numObs m).2)

def tellUpdateNewBatch (yNew : Array2 D) (yIncumbent : List D) (numObs : ℕ) :
    Call (TrustRegionState D) Unit
  | turbo t =>
    if yNew.ncols ≠ 1 then
      (.error (.error (.invalidParameter
        s!"Turbo TR expects 1 objective column, got {yNew.ncols}")), turbo t)
    else if yIncumbent.length ≠ 1 then
      (.error (.error (.invalidParameter
        s!"Turbo TR expects 1 incumbent scalar, got {yIncumbent.length}")), turbo t)
    else
      match t.updateWithIncumbentNewBatch (yNew.rows.map fun row => row.getD 0 0) numObs
          (yIncumbent.getD 0 0) with
      | .ok t => (.ok (), turbo t)
      | .error e => (.error e.failure, turbo t)
  | morbo m =>
    ((MorboTrustRegion.update yNew yIncumbent m).1,
      morbo (MorboTrustRegion.update yNew yIncumbent m).2)

end TrustRegionState

namespace Optimizer

def new (trState : TrustRegionState D) (strategy : Strategy) (observations : Observations D) :
    Optimizer D :=
  ⟨trState, strategy, observations, none, 0⟩

def onRegion {α : Type} (c : Call (TrustRegionState D) α) : Call (Optimizer D) α :=
  c.on Optimizer.trState fun o trState => { o with trState := trState }

def prepareObservations (o : Optimizer D) (x y : Array2 D) : Outcome (ℕ × ℕ) :=
  if x.nrows ≠ y.nrows then
    throw (.error (.invalidShape [x.nrows, y.ncols] [y.nrows, y.ncols]))
  else if x.nrows = 0 then
    throw (.error (.invalidParameter "observation delta requires appended rows"))
  else pure (o.observations.count, o.observations.count + x.nrows)

/-- A fitted surrogate keeps the width of its outputs. -/
def checkWidth (o : Optimizer D) (y : Array2 D) : Outcome Unit :=
  match o.observations.fittedNumMetrics with
  | none => pure ()
  | some nm =>
    if nm ≠ y.ncols then
      throw (.error (.invalidParameter
        s!"y has {y.ncols} metric columns but the fitted model has {nm}; changing output width is unsupported"))
    else pure ()

def expectIncumbent (o : Optimizer D) : Outcome (List D) :=
  match o.incumbentYScalar with
  | some y => pure y
  | none => throw (.error (.invalidParameter "Missing incumbent y"))

def morboSyncRangesFromObs : Call (Optimizer D) Unit := do
  let o ← Call.get
  if !o.trState.isMorbo then return ()
  else
    match ← Call.ofOutcome o.observations.yObs with
    | none => return ()
    | some yAll =>
      if yAll.nrows = 0 then return ()
      else onRegion (TrustRegionState.morboUpdateRangesOnly yAll)

/-- A Morbo region widens its ranges by a batch. -/
def morboRanges (y : Array2 D) (oldN newN : ℕ) : Call (Optimizer D) Unit := do
  let o ← Call.get
  if o.trState.isMorbo ∧ oldN < newN then onRegion (TrustRegionState.morboUpdateRangesOnly y)
  else return ()

/-- A Morbo region takes the incumbent. -/
def morboIncumbent (newN : ℕ) : Call (Optimizer D) Unit := do
  let o ← Call.get
  if o.trState.isMorbo ∧ 0 < newN then do
    let yInc ← Call.ofOutcome o.expectIncumbent
    onRegion (TrustRegionState.morboUpdateIncumbentOnly yInc newN)
  else return ()

/-- Take a batch in up to the step of a Morbo region. -/
def tellCommon (t : Tell D) : Call (Optimizer D) Unit := do
  let o ← Call.get
  Call.ofOutcome (o.checkWidth t.y)
  let (oldN, newN) ← Call.ofOutcome (o.prepareObservations t.x t.y)
  Call.ofOutcome (if o.observations.surrogate then t.fit else pure ())
  Call.modify fun o => { o with observations := o.observations.append t.y }
  morboRanges t.y oldN newN
  let incumbent ← Call.ofOutcome t.incumbent
  Call.modify fun o => { o with incumbentYScalar := incumbent }
  morboIncumbent newN

/-- The number of rows before the batch, for a region that has taken none in. -/
def turboWatermark (numObs nrows : ℕ) : Call (Optimizer D) Unit := do
  let o ← Call.get
  if o.trState.turboPrevNumObs = 0 then
    onRegion (Call.modify (TrustRegionState.setTurboPrevNumObs (numObs - nrows)))
  else return ()

/-- The step of a TuRBO region after a batch. -/
def tellRegion (t : Tell D) : Call (Optimizer D) Unit := do
  let o ← Call.get
  let numObs := o.observations.count
  let yIncumbent ← Call.ofOutcome o.expectIncumbent
  onRegion (Call.modify (TrustRegionState.setNumArms t.x.nrows))
  if !o.trState.isMorbo then do
    turboWatermark numObs t.y.nrows
    onRegion (TrustRegionState.tellUpdateNewBatch t.y yIncumbent numObs)
  else return ()

/-- A region that has become too small starts over. -/
def restartRegion (t : Tell D) : Call (Optimizer D) Unit := do
  let o ← Call.get
  if o.trState.needsRestart then do
    onRegion (Call.modify (TrustRegionState.restart t.us))
    Call.modify fun o => { o with restartGeneration := o.restartGeneration + 1 }
    morboSyncRangesFromObs
  else return ()

def tellTurbo (t : Tell D) : Call (Optimizer D) Unit := do
  tellCommon t
  tellRegion t
  restartRegion t

/-- Count the rows of the initial phase. -/
def completeInit (t : Tell D) (o : Optimizer D) : Optimizer D :=
  { o with
    strategy :=
      match o.strategy with
      | .init s => .init { s with completed := s.completed + t.x.nrows }
      | .hybrid s true =>
        .hybrid { s with completed := s.completed + t.x.nrows }
          (decide (s.completed + t.x.nrows < s.numInit))
      | s => s }

/-- Whether a tell is one of the initial phase. -/
def inInit (o : Optimizer D) : Bool :=
  match o.strategy with
  | .init _ => true
  | .turbo => false
  | .hybrid _ inInit => inInit

def tell (t : Tell D) : Call (Optimizer D) Unit := do
  let o ← Call.get
  if o.inInit then do
    tellCommon t
    Call.modify (completeInit t)
  else tellTurbo t

/-- What an ask does to the trust region before it proposes candidates. -/
def ask (numArms : ℕ) (us : ℕ → D) : Call (Optimizer D) Unit := do
  let o ← Call.get
  if o.inInit then return ()
  else
    onRegion (Call.modify (TrustRegionState.resampleOnPropose us))
    onRegion (Call.modify (TrustRegionState.setNumArms numArms))
    if o.trState.isMorbo ∧ 0 < o.observations.count then
      onRegion (TrustRegionState.morboRescalarizeIncumbent o.observations.count)
    else return ()

variable {o o₁ : Optimizer D}

omit [Floating D] [Analysis D] [Rounding D] in
theorem returns_onRegion {c : Call (TrustRegionState D) Unit} {u : Unit} :
    (onRegion c).Returns o u o₁ ↔
      ∃ tr, c.Returns o.trState u tr ∧ { o with trState := tr } = o₁ := by
  unfold onRegion
  exact Call.returns_on

omit [Floating D] [Analysis D] [Rounding D] in
theorem prepareObservations_eq_ok {x y : Array2 D} {n : ℕ × ℕ}
    (h : o.prepareObservations x y = .ok n) :
    x.nrows = y.nrows ∧ 0 < y.nrows ∧
      n = (o.observations.count, o.observations.count + y.nrows) := by
  unfold prepareObservations at h
  split at h
  next => simp at h
  next hrows =>
    split at h
    next => simp at h
    next hpos =>
      obtain rfl := Outcome.pure_eq_ok.mp h
      rw [not_not.mp hrows] at hpos ⊢
      exact ⟨rfl, Nat.pos_of_ne_zero hpos, rfl⟩

end Optimizer

end Ennbo
