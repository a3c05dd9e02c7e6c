import Ennbo.Buffer
import Ennbo.Trials.Layout

/-! # The engine of the trial search

An engine keeps the rows of all slots and scores the trials of a batch of seeds
against the rows of the history. The CPU engine is modelled in full; an engine
that drives a device is any other instance of the interface.
-/

namespace Ennbo.Trials

inductive AcquisitionKind where
  | ucb
  | thompson
  | pareto
  deriving DecidableEq, Repr

structure Ask (F : Type) where
  length : F
  neighbors : ℕ
  epistemicScale : F
  aleatoricScale : F
  yScale : F
  beta : F
  acquisition : AcquisitionKind
  seed : UInt64

section Scoring

variable {F : Type} [TrialFloat F]

def thompsonDraws (count : ℕ) (seed : UInt64) : List F :=
  (List.range count).map (standardNormal seed)

/-- Insert before the first farther entry; the last entry falls out. -/
def insertNeighbor (nearest : List (F × ℕ)) (distance : F) (index : ℕ) : List (F × ℕ) :=
  match nearest.findIdx? fun p =>
      flt distance p.1 || (feq distance p.1 && decide (index < p.2)) with
  | none => nearest
  | some position =>
    nearest.take position ++ (distance, index) :: (nearest.drop position).dropLast

def score (nearest : List (F × ℕ)) (values : List F) (draw : F) (config : Ask F) : F :=
  let sums := nearest.foldl
    (fun (sums : F × F) p =>
      let variance := 1.0e-9 + config.epistemicScale * p.1 + config.aleatoricScale
      let weight := 1.0 / max variance 1.0e-12
      (sums.1 + weight, sums.2 + weight * values.getD p.2 0.0))
    (0.0, 0.0)
  let mean := sums.2 / max sums.1 1.0e-12
  let se := sqrt (1.0 / max sums.1 1.0e-12) * config.yScale
  match config.acquisition with
  | .ucb => mean + config.beta * se
  | .thompson => mean + se * draw
  | .pareto => mean + se

/-- The nearest observations of one trial, and its score. -/
def scoreSeed (center : Row) (observations : List (Row × F)) (leaves : List (Leaf F))
    (steps : List Step) (config : Ask F) (draw : F) (seed : UInt64) : F :=
  let nearest := observations.zipIdx.foldl
    (fun nearest p =>
      insertNeighbor nearest (trialDistance center p.1.1 leaves steps seed) p.2)
    (List.replicate config.neighbors (infinity, 0))
  score nearest (observations.map Prod.snd) draw config

/-- One round of the search for the best seed. -/
def keepBest (scoreAt : ℕ → UInt64 → F) (best : ℕ × F) (p : UInt64 × ℕ) : ℕ × F :=
  let value := scoreAt p.2 p.1
  if fgt value best.2 || (feq value best.2 && decide (p.2 < best.1)) then (p.2, value) else best

/-- `Cpu::ask` up to the materialization, on the rows it reads. -/
def askRows (base : Row) (observations : List (Row × F)) (seeds : List UInt64)
    (leaves : List (Leaf F)) (config : Ask F) : ℕ × F :=
  let steps := makeSteps leaves config.length
  let draws := thompsonDraws (F := F) seeds.length config.seed
  seeds.zipIdx.foldl
    (keepBest fun index => scoreSeed base observations leaves steps config (draws.getD index 0))
    (0, -infinity)

/-- One node of a perturbation tree. -/
structure Center where
  parent : Option ℕ
  seed : UInt64
  deriving DecidableEq, Repr

def maxDepth : ℕ := 8

/-- Whether the chain of parents goes on for more than `fuel` nodes. -/
def exceedsDepth (centers : List Center) : ℕ → Option ℕ → Bool
  | _, none => false
  | 0, some _ => true
  | fuel + 1, some index => exceedsDepth centers fuel (centers[index]?.bind Center.parent)

/-- The checks of `tree::check` on the center at an index. -/
def checkCenter (centers : List Center) (p : Center × ℕ) : Except String Unit :=
  if p.1.parent.any (p.2 ≤ ·) then .error s!"center {p.2} must reference an earlier parent"
  else if exceedsDepth centers (maxDepth - 1) p.1.parent then
    .error s!"center chain exceeds depth {maxDepth}"
  else .ok ()

def checkCenters (centers : List Center) (regionCenters : List ℕ) (numRegions : ℕ) :
    Except String Unit :=
  if numRegions = 0 ∨ regionCenters.length ≠ numRegions then
    .error "region centers must match the non-zero region count"
  else
    match centers.zipIdx.forM (checkCenter centers) with
    | .error e => .error e
    | .ok () =>
      if regionCenters.any (centers.length ≤ ·) then
        .error "region center index is out of bounds"
      else .ok ()

/-- The rows of the centers, each perturbed from its parent's. -/
def centerRows (root : Row) (centers : List Center) (leaves : List (Leaf F))
    (steps : List Step) : List Row :=
  centers.foldl
    (fun rows center =>
      let parent := center.parent.elim root fun index => rows.getD index []
      rows ++ [materialize parent leaves steps center.seed])
    []

/-- The best trial of one region. -/
def bestOfRegion (center : Row) (observations : List (Row × F)) (start count : ℕ)
    (seeds : List UInt64) (draws : List F) (leaves : List (Leaf F)) (steps : List Step)
    (config : Ask F) : ℕ × F :=
  (List.range' start count).foldl
    (fun best index =>
      let value := scoreSeed center observations leaves steps config (draws.getD index 0)
        (seeds.getD index 0)
      if fgt value best.2 then (index, value) else best)
    (start, -infinity)

/-- `tree::cpu_ask` on the rows it reads. -/
def askTreeRows (root : Row) (observations : List (Row × F)) (seedsPerRegion : ℕ)
    (centers : List Center) (regionCenters : List ℕ) (seeds : List UInt64)
    (leaves : List (Leaf F)) (config : Ask F) : List (ℕ × F) :=
  let steps := makeSteps leaves config.length
  let rows := centerRows root centers leaves steps
  let draws := thompsonDraws (F := F) seeds.length config.seed
  regionCenters.zipIdx.map fun p =>
    bestOfRegion (rows.getD p.1 []) observations (p.2 * seedsPerRegion) seedsPerRegion seeds
      draws leaves steps config

end Scoring

/-- What the search asks of an engine. A call that fails may still change the engine. -/
class TrialEngine (F E : Type) where
  new : Row → List (Leaf F) → ℕ → Except String E
  ask : E → ℕ → List (ℕ × F) → ℕ → List UInt64 → List (Leaf F) → Ask F → Bool →
    Except String (ℕ × F) × E
  askMultiTrTree : E → ℕ → List (ℕ × F) → ℕ → List Center → List ℕ → List UInt64 →
    List (Leaf F) → Ask F → Except String (List (ℕ × F)) × E
  read : E → ℕ → ℕ → Except String Row
  write : E → ℕ → Row → Except String Unit × E
  materialize : E → ℕ → ℕ → UInt64 → List (Leaf F) → F → Except String Unit × E

structure Cpu where
  rows : List UInt8
  rowBytes : ℕ
  deriving DecidableEq, Repr

namespace Cpu

variable {F : Type} [TrialFloat F]

def new (base : Row) (slots : ℕ) : Cpu :=
  { rows := base ++ List.replicate (slots * base.length - base.length) 0
    rowBytes := base.length }

def read (engine : Cpu) (slot : ℕ) : Row := Buffer.row engine.rowBytes engine.rows slot

def write (engine : Cpu) (slot : ℕ) (row : Row) : Cpu :=
  { engine with rows := Buffer.setRow engine.rowBytes engine.rows slot row }

def observations (engine : Cpu) (history : List (ℕ × F)) : List (Row × F) :=
  history.map fun p => (engine.read p.1, p.2)

def materialize (engine : Cpu) (baseSlot trialSlot : ℕ) (seed : UInt64) (leaves : List (Leaf F))
    (length : F) : Cpu :=
  engine.write trialSlot
    (Trials.materialize (engine.read baseSlot) leaves (makeSteps leaves length) seed)

def ask (engine : Cpu) (baseSlot : ℕ) (history : List (ℕ × F)) (trialSlot : ℕ)
    (seeds : List UInt64) (leaves : List (Leaf F)) (config : Ask F) (materializeRow : Bool) :
    (ℕ × F) × Cpu :=
  let best := askRows (engine.read baseSlot) (engine.observations history) seeds leaves config
  if materializeRow then
    (best, engine.materialize baseSlot trialSlot (seeds.getD best.1 0) leaves config.length)
  else (best, engine)

def askMultiTrTree (engine : Cpu) (baseSlot : ℕ) (history : List (ℕ × F)) (seedsPerRegion : ℕ)
    (centers : List Center) (regionCenters : List ℕ) (seeds : List UInt64)
    (leaves : List (Leaf F)) (config : Ask F) : List (ℕ × F) :=
  askTreeRows (engine.read baseSlot) (engine.observations history) seedsPerRegion centers
    regionCenters seeds leaves config

instance : TrialEngine F Cpu where
  new base _ slots := .ok (new base slots)
  ask engine baseSlot history trialSlot seeds leaves config materializeRow :=
    let answer := engine.ask baseSlot history trialSlot seeds leaves config materializeRow
    (.ok answer.1, answer.2)
  askMultiTrTree engine baseSlot history seedsPerRegion centers regionCenters seeds leaves
      config :=
    (.ok (engine.askMultiTrTree baseSlot history seedsPerRegion centers regionCenters seeds
      leaves config), engine)
  read engine slot _ := .ok (engine.read slot)
  write engine slot row := (.ok (), engine.write slot row)
  materialize engine baseSlot trialSlot seed leaves length :=
    (.ok (), engine.materialize baseSlot trialSlot seed leaves length)

end Cpu

end Ennbo.Trials
