import Ennbo.Buffer
import Ennbo.Model.Neighbors

/-! # Posteriors

The posterior at a query is a mean of the outputs of its neighbours, weighted by
their distances and variances. Without variances and observation noise a shorter
path computes it. Function draws add hashed normal variates, one for each seed,
row and metric, weighted in the same way.
-/

namespace Ennbo

open YBounds (NormalEntry)

open Buffer (table)

variable {D F : Type}

structure ENNParams (D : Type) where
  kNumNeighbors : ℕ
  epistemicVarianceScale : D
  aleatoricVarianceScale : D
  deriving DecidableEq

structure PosteriorFlags where
  excludeNearest : Bool := false
  observationNoise : Bool := false
  tieBreakNeighbors : Bool := true
  deriving DecidableEq

/-- Means and standard errors for each query and metric, and the ids behind them. -/
structure ENNNormal (D : Type) where
  entries : Array2 (NormalEntry D)
  idx : Array2 ℤ

/-- What the neighbours of a query say about one metric. -/
structure WeightedStats (D : Type) where
  wNormalized : List D
  l2 : D
  normal : NormalEntry D

/-- What draws are made from; each entry has `nNeighbors` weights. -/
structure DrawInternals (D : Type) where
  nNeighbors : ℕ
  idx : List (List ℕ)
  stats : Array2 (WeightedStats D)

/-- A neighbour of a query: its distance, its row and the outputs there. -/
structure Neighbor (D : Type) where
  dist2 : D
  idx : ℕ
  y : List D

structure NeighborData (D : Type) where
  k : ℕ
  rows : List (List (Neighbor D))

section Hash

def SM64_GOLDEN_RATIO : UInt64 := 0x9E3779B97F4A7C15

def SM64_MULTIPLIER_1 : UInt64 := 0xBF58476D1CE4E5B9

def SM64_MULTIPLIER_2 : UInt64 := 0x94D049BB133111EB

def SM64_XOR_OFFSET : UInt64 := 0xD2B74407B1CE6E93

def SEED_PRIME : UInt64 := 1000003

def splitmix64 (x : UInt64) : UInt64 :=
  let x := x + SM64_GOLDEN_RATIO
  let z := (x ^^^ (x >>> 30)) * SM64_MULTIPLIER_1
  let z := (z ^^^ (z >>> 27)) * SM64_MULTIPLIER_2
  z ^^^ (z >>> 31)

variable [Floating D] [Analysis D]

/-- The high 53 bits as a number in `[0, 1)`. -/
def u64ToF53 (x : UInt64) : D := (x >>> 11).toNat * (1 / 9007199254740992)

def CLIP_MIN : D := literal 1 12

def CLIP_MAX : D := 1 - literal 1 12

/-- `v.clamp(lo, hi)` -/
def clamp (v lo hi : D) : D := if ltB v lo then lo else if ltB hi v then hi else v

def boxMuller (u1 u2 : D) : D := sqrt (neg 2 * ln u1) * cos (2 * pi * u2)

def normalForSeedIndexMetric (seed uniqueIdx : UInt64) (metric : ℕ) : D :=
  let base := (seed * SEED_PRIME + uniqueIdx) * SEED_PRIME
  let combined1 := base + UInt64.ofNat metric
  let combined2 := combined1 ^^^ SM64_XOR_OFFSET
  boxMuller (clamp (u64ToF53 (splitmix64 combined1)) CLIP_MIN CLIP_MAX)
    (u64ToF53 (splitmix64 combined2))

end Hash

section Stats

variable [Floating D] [Analysis D]

def EPS_VAR : D := literal 1 9

/-- Split a variance into its standard errors. -/
def seFromVarianceComponents (epistemicVar aleatoricVar yScale : D) : D × D × D :=
  let sum := epistemicVar + aleatoricVar
  if ltB sum EPS_VAR then
    let se := sqrt EPS_VAR * yScale
    (se, se, 0)
  else (sqrt sum * yScale, sqrt epistemicVar * yScale, sqrt aleatoricVar * yScale)

def varTotal (params : ENNParams D) (dist2 : D) : D :=
  EPS_VAR + params.epistemicVarianceScale * dist2 + params.aleatoricVarianceScale

def dot (ws ys : List D) : D := (List.zipWith (· * ·) ws ys).foldl (· + ·) 0

/-- `ys` and `varYs` hold the output of each neighbour and its scaled variance. -/
def statsFromNeighborWeights (ws ys varYs : List D) (observationNoise : Bool)
    (aleatoricScale yScale : D) : WeightedStats D :=
  let invNorm := 1 / ws.foldl (· + ·) 0
  let wNorm := ws.map (· * invNorm)
  let aleatoricVar :=
    if observationNoise then dot wNorm (varYs.map fun v => aleatoricScale + v) else 0
  let se := seFromVarianceComponents invNorm aleatoricVar yScale
  { wNormalized := wNorm
    l2 := sqrt (dot wNorm wNorm)
    normal := ⟨dot wNorm ys, se.1, se.2.1, se.2.2⟩ }

def metricOf (rows : List (List D)) (m : ℕ) : List D := rows.map fun row => row.getD m 0

/-- One query: `yvars` are the variances of its neighbours, when there are any. -/
def computeWeightedStats (params : ENNParams D) (observationNoise : Bool) (yScale : List D)
    (neighbors : List (Neighbor D)) (yvars : Option (List (List D))) : List (WeightedStats D) :=
  (List.range yScale.length).map fun m =>
    let scale := yScale.getD m 0
    let varYs :=
      match yvars with
      | some rows => (metricOf rows m).map fun v => v / (scale * scale)
      | none => neighbors.map fun _ => 0
    let ws := List.zipWith (fun (n : Neighbor D) varY => 1 / (varTotal params n.dist2 + varY))
      neighbors varYs
    statsFromNeighborWeights ws (metricOf (neighbors.map Neighbor.y) m) varYs observationNoise
      params.aleatoricVarianceScale scale

/-- The shorter path, where every output has the same weights. -/
def fuseNeighborsToMuSe (params : ENNParams D) (yScale : List D) (numMetrics : ℕ)
    (neighbors : List (Neighbor D)) : List (NormalEntry D) :=
  let ws := neighbors.map fun n => 1 / varTotal params n.dist2
  let invNorm := 1 / ws.foldl (· + ·) 0
  let seBase := sqrt (max invNorm EPS_VAR)
  (List.range numMetrics).map fun m =>
    let se := seBase * yScale.getD m 0
    ⟨dot (ws.map (· * invNorm)) (metricOf (neighbors.map Neighbor.y) m), se, se, 0⟩

def emptyStats : WeightedStats D := ⟨[], 1, ⟨0, 1, 1, 0⟩⟩

end Stats

/-- The ids as a matrix of the width of the first row. -/
def idxNestedToArray2 (idx : List (List ℕ)) : Array2 ℤ where
  ncols := (idx.headD []).length
  rows := idx.map fun row =>
    (List.range (idx.headD []).length).map fun j => (row.map Int.ofNat).getD j (-1)
  width := by
    simp only [List.mem_map, forall_exists_index, and_imp]
    rintro _ row - rfl
    rw [List.length_map, List.length_range]

namespace EpistemicNearestNeighbors

variable [Floating D] [Analysis D]

section Rows

omit [Floating D] [Analysis D] in
/-- `row_yvar(i).expect(..).expect(..)` -/
def expectYvar (m : EpistemicNearestNeighbors D F) (i : ℕ) : Outcome (List D) := do
  match ← orPanic (m.backend.rowYvar i) with
  | some yvar => return yvar
  | none => throw .panic

def metricsMatrix {E : Type} (numMetrics : ℕ) (rows : List (List E)) : Outcome (Array2 E) :=
  if h : ∀ row ∈ rows, row.length = numMetrics then pure ⟨numMetrics, rows, h⟩ else throw .panic

end Rows

def emptyPosteriorInternals (m : EpistemicNearestNeighbors D F) (batchSize : ℕ) :
    DrawInternals D where
  nNeighbors := 0
  idx := List.replicate batchSize []
  stats :=
    { ncols := m.numMetrics
      rows := List.replicate batchSize (List.replicate m.numMetrics emptyStats)
      width := by simp +contextual [List.mem_replicate] }

/-- The variances of the neighbours; a row that is no observation has none. -/
def yvarNeighbors (m : EpistemicNearestNeighbors D F) (hasYvar : Bool)
    (neighbors : List (Neighbor D)) : Outcome (Option (List (List D))) :=
  if !hasYvar then pure none
  else do
    let rows ← neighbors.mapM fun n =>
      if n.idx < m.numObs then m.expectYvar n.idx else pure (List.replicate m.numMetrics 0)
    return some rows

def computeWeightedPosterior (m : EpistemicNearestNeighbors D F) (data : NeighborData D)
    (params : ENNParams D) (observationNoise : Bool) : Outcome (DrawInternals D) := do
  let hasYvar ← m.hasYvar
  let rows ← data.rows.mapM fun neighbors => do
    let yvars ← m.yvarNeighbors hasYvar neighbors
    return computeWeightedStats params observationNoise m.yScale neighbors yvars
  let stats ← metricsMatrix m.numMetrics rows
  return ⟨data.k, data.rows.map fun row => row.map Neighbor.idx, stats⟩

def neighborSearchK (m : EpistemicNearestNeighbors D F) (params : ENNParams D)
    (excludeNearest : Bool) : Outcome ℕ :=
  if excludeNearest ∧ m.numObs ≤ 1 then
    throw (.error (.invalidParameter
      s!"exclude_nearest=True requires at least 2 observations, got {m.numObs}"))
  else pure (m.searchCount params.kNumNeighbors excludeNearest)

def availableK (searchK : ℕ) (params : ENNParams D) (excludeNearest : Bool) : ℕ :=
  min params.kNumNeighbors (if excludeNearest then searchK - 1 else searchK)

/-- The rows behind the first `k` hits of a query. -/
def neighborRow (m : EpistemicNearestNeighbors D F) (k : ℕ) (hits : List (D × ℤ)) :
    Outcome (List (Neighbor D)) :=
  (hits.take k).mapM fun hit => do
    let y ← orPanic (m.backend.rowY (asUsize hit.2))
    return ⟨hit.1, asUsize hit.2, y⟩

variable [Floating F] [FloatCast D F]

def getNeighborData (faiss : Faiss F) (env : Env F) (x : Array2 D) (params : ENNParams D)
    (excludeNearest tieBreakNeighbors : Bool) :
    Call (EpistemicNearestNeighbors D F) (Option (NeighborData D)) := do
  let m ← Call.get
  let searchK ← Call.ofOutcome (m.neighborSearchK params excludeNearest)
  if searchK = 0 then return none
  else
    let hits ← indexSearch faiss env x searchK excludeNearest tieBreakNeighbors
    let k := availableK searchK params excludeNearest
    if k = 0 then return none
    else
      let m ← Call.get
      let rows ← Call.ofOutcome (hits.rows.mapM (m.neighborRow k))
      return some ⟨k, rows⟩

def computePosteriorInternals (faiss : Faiss F) (env : Env F) (x : Array2 D)
    (params : ENNParams D) (flags : PosteriorFlags) :
    Call (EpistemicNearestNeighbors D F) (DrawInternals D) := do
  let m ← Call.get
  if x.ncols ≠ m.numDim then
    Call.ofOutcome (throw (.error (.invalidShape [x.nrows, m.numDim] x.shape)))
  else if m.numObs = 0 then return m.emptyPosteriorInternals x.nrows
  else
    let data ← getNeighborData faiss env x params flags.excludeNearest flags.tieBreakNeighbors
    let m ← Call.get
    match data with
    | some data => Call.ofOutcome (m.computeWeightedPosterior data params flags.observationNoise)
    | none => return m.emptyPosteriorInternals x.nrows

def normalOf (internals : DrawInternals D) : ENNNormal D :=
  ⟨internals.stats.mapCols fun _ s => s.normal, idxNestedToArray2 internals.idx⟩

def computePosteriorLight (faiss : Faiss F) (env : Env F) (x : Array2 D) (params : ENNParams D)
    (flags : PosteriorFlags) : Call (EpistemicNearestNeighbors D F) (ENNNormal D) := do
  let m ← Call.get
  if x.ncols ≠ m.numDim then
    Call.ofOutcome (throw (.error (.invalidShape [x.nrows, m.numDim] x.shape)))
  else if m.numObs = 0 then return normalOf (m.emptyPosteriorInternals x.nrows)
  else
    let searchK ← Call.ofOutcome (m.neighborSearchK params flags.excludeNearest)
    if searchK = 0 then return normalOf (m.emptyPosteriorInternals x.nrows)
    else
      let hits ← indexSearch faiss env x searchK flags.excludeNearest flags.tieBreakNeighbors
      let k := availableK searchK params flags.excludeNearest
      if k = 0 then return normalOf (m.emptyPosteriorInternals x.nrows)
      else
        let m ← Call.get
        let rows ← Call.ofOutcome (hits.rows.mapM (m.neighborRow k))
        let entries ← Call.ofOutcome (metricsMatrix m.numMetrics
          (rows.map (fuseNeighborsToMuSe params m.yScale m.numMetrics)))
        return ⟨entries, takeIds k hits⟩
where
  takeIds (k : ℕ) (hits : Hits D) : Array2 ℤ :=
    { ncols := min k hits.ncols
      rows := hits.rows.map fun row => (row.take k).map Prod.snd
      width := by
        simp only [List.mem_map, forall_exists_index, and_imp]
        rintro _ row hrow rfl
        rw [List.length_map, List.length_take, hits.width row hrow] }

/-- Means and standard errors on the scale of the outputs. -/
def naturalized (m : EpistemicNearestNeighbors D F) (entries : Array2 (NormalEntry D)) :
    Array2 (NormalEntry D) :=
  if m.boundedOutputs then YBounds.naturalize entries m.yBounds else entries

def posterior (faiss : Faiss F) (env : Env F) (x : Array2 D) (params : ENNParams D)
    (flags : PosteriorFlags) : Call (EpistemicNearestNeighbors D F) (ENNNormal D) := do
  let m ← Call.get
  let light ← Call.ofOutcome (if flags.observationNoise then pure false else not <$> m.hasYvar)
  let normal ←
    if light then computePosteriorLight faiss env x params flags
    else normalOf <$> computePosteriorInternals faiss env x params flags
  let m ← Call.get
  return { normal with entries := m.naturalized normal.entries }

/-- One search serves all parameters when they ask for the same number of neighbours. -/
def computeBatchWithSharedNeighbors (faiss : Faiss F) (env : Env F) (x : Array2 D)
    (first : ENNParams D) (paramss : List (ENNParams D)) (flags : PosteriorFlags) :
    Call (EpistemicNearestNeighbors D F) (List (DrawInternals D)) := do
  let data ← getNeighborData faiss env x first flags.excludeNearest flags.tieBreakNeighbors
  let m ← Call.get
  match data with
  | some data =>
    Call.ofOutcome (paramss.mapM fun params =>
      m.computeWeightedPosterior data params flags.observationNoise)
  | none => return paramss.map fun _ => m.emptyPosteriorInternals x.nrows

def computeBatchSeparateNeighbors (faiss : Faiss F) (env : Env F) (x : Array2 D)
    (paramss : List (ENNParams D)) (flags : PosteriorFlags) :
    Call (EpistemicNearestNeighbors D F) (List (DrawInternals D)) :=
  paramss.mapM fun params => computePosteriorInternals faiss env x params flags

def batchPosterior (faiss : Faiss F) (env : Env F) (x : Array2 D) (paramss : List (ENNParams D))
    (flags : PosteriorFlags) :
    Call (EpistemicNearestNeighbors D F) (List (Array2 (NormalEntry D))) := do
  let m ← Call.get
  match paramss with
  | [] => Call.ofOutcome (throw (.error (.invalidParameter "paramss must be non-empty")))
  | first :: _ =>
    let internals ←
      if (paramss.all fun p => p.kNumNeighbors = first.kNumNeighbors) ∧ 0 < m.numObs then
        computeBatchWithSharedNeighbors faiss env x first paramss flags
      else computeBatchSeparateNeighbors faiss env x paramss flags
    let m ← Call.get
    return internals.map fun i => m.naturalized (i.stats.mapCols fun _ s => s.normal)

section Draws

/-- The distinct ids in order, and the place of each id among them. -/
def uniqueIndexInverse (dataIndices : List ℤ) : Outcome (List ℤ × List ℕ) := do
  let uniqueIndices := (dataIndices.insertionSort (· ≤ ·)).destutter (· ≠ ·)
  let inverse ← dataIndices.mapM fun idx => Outcome.ofOption .panic (uniqueIndices.idxOf? idx)
  return (uniqueIndices, inverse)

/-- What the neighbours of query `i` say about metric `j`. -/
def statAt (internals : DrawInternals D) (i j : ℕ) : WeightedStats D :=
  (internals.stats.rows.getD i []).getD j emptyStats

def drawScale (s : WeightedStats D) : D := s.normal.se / max s.l2 (literal 1 12)

/-- `n` rows of `m` entries that are stored one after another. -/
def ofFlat (n m : ℕ) (flat : List D) : Array2 D where
  ncols := m
  rows := (List.range n).map fun i => (List.range m).map fun j => flat.getD (i * m + j) 0
  width := by simp +contextual [List.mem_map]

/-- The draws of one seed, from the variates of the distinct ids. -/
def drawSeed (internals : DrawInternals D) (inverse : List ℕ) (uniqueCache : List D)
    (n k m : ℕ) : List D :=
  let scale := table n m fun i j => drawScale (statAt internals i j)
  let muFlat := table n m fun i j => (statAt internals i j).normal.mu
  let wFlat := (List.range n).flatMap fun i =>
    table k m fun ki j => (statAt internals i j).wNormalized.getD ki 0
  table n m fun i j =>
    let weightedU := (List.range k).foldl (fun acc ki =>
      acc + wFlat.getD ((i * k + ki) * m + j) 0 *
        uniqueCache.getD (inverse.getD (i * k + ki) 0 * m + j) 0) 0
    muFlat.getD (i * m + j) 0 + scale.getD (i * m + j) 0 * weightedU

/-- The draws of one seed when there is one metric. -/
def drawSeedM1 (internals : DrawInternals D) (inverse : List ℕ) (uniqueCache : List D)
    (n k : ℕ) : List D :=
  let scale := (List.range n).map fun i => drawScale (statAt internals i 0)
  let muFlat := (List.range n).map fun i => (statAt internals i 0).normal.mu
  let wFlat := table n k fun i ki => (statAt internals i 0).wNormalized.getD ki 0
  (List.range n).map fun i =>
    let base := i * k
    let weightedU := (List.range k).foldl (fun acc ki =>
      acc + wFlat.getD (base + ki) 0 * uniqueCache.getD (inverse.getD (base + ki) 0) 0) 0
    muFlat.getD i 0 + scale.getD i 0 * weightedU

/-- The variates of the distinct ids under one seed. -/
def uniqueVariates (seed : ℤ) (uniqueIndices : List ℤ) (m : ℕ) : List D :=
  uniqueIndices.flatMap fun idx => (List.range m).map fun j =>
    normalForSeedIndexMetric (UInt64.ofNat (asUsize seed)) (UInt64.ofNat (asUsize idx)) j

/-- `draw_from_internals_m1`; pieces of length zero panic. -/
def drawFromInternalsM1 (internals : DrawInternals D) (functionSeeds : List ℤ)
    (uniqueIndices : List ℤ) (inverse : List ℕ) (n k : ℕ) : Outcome (List (Array2 D)) :=
  if n = 0 then throw .panic
  else
    pure (functionSeeds.map fun seed =>
      let uniqueCache := uniqueIndices.map fun idx =>
        normalForSeedIndexMetric (UInt64.ofNat (asUsize seed)) (UInt64.ofNat (asUsize idx)) 0
      ofFlat n 1 (drawSeedM1 internals inverse uniqueCache n k))

/-- Without entries the draws are cut into pieces of length zero, which panics. -/
def drawFromInternals (m : EpistemicNearestNeighbors D F) (internals : DrawInternals D)
    (functionSeeds : List ℤ) : Outcome (List (Array2 D)) :=
  let n := internals.stats.nrows
  let k := internals.nNeighbors
  if k = 0 then
    pure (functionSeeds.map fun _ => internals.stats.mapCols fun _ s => s.normal.mu)
  else do
    let (uniqueIndices, inverse) ← uniqueIndexInverse (internals.idx.flatten.map Int.ofNat)
    if m.numMetrics = 1 then
      drawFromInternalsM1 internals functionSeeds uniqueIndices inverse n k
    else if n * m.numMetrics = 0 then throw .panic
    else
      return functionSeeds.map fun seed =>
        ofFlat n m.numMetrics (drawSeed internals inverse
          (uniqueVariates seed uniqueIndices m.numMetrics) n k m.numMetrics)

end Draws

/-- Draws on the scale of the outputs. -/
def inverseDraws (metrics : ℕ) (bounds : Array2 D) (draws : List (Array2 D)) :
    Outcome (List (Array2 D)) :=
  if YBounds.isIdentityBounds bounds then pure draws
  else if metrics ≠ bounds.nrows then throw .panic
  else pure (draws.map fun d => YBounds.invY d bounds)

def posteriorFunctionDraw (faiss : Faiss F) (env : Env F) (x : Array2 D) (params : ENNParams D)
    (functionSeeds : List ℤ) (flags : PosteriorFlags) :
    Call (EpistemicNearestNeighbors D F) (List (Array2 D) × List (List ℕ)) := do
  let internals ← computePosteriorInternals faiss env x params flags
  let m ← Call.get
  let draws ← Call.ofOutcome (m.drawFromInternals internals functionSeeds)
  let draws ← Call.ofOutcome
    (if m.boundedOutputs then inverseDraws m.numMetrics m.yBounds draws else pure draws)
  return (draws, internals.idx)

end EpistemicNearestNeighbors

end Ennbo
