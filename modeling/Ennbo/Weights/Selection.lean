import Ennbo.Sparse.Distance
import Ennbo.Trials.Best

/-! # Selection among quantized weights

The candidates are rows of packed weights, scored against packed observations.
A trial search generates its candidates from seeds and does not pack them, but
an ask is this selection on the rows of its seeds.
-/

namespace Ennbo

open Trials

inductive ComputeBackend where
  | auto
  | cpu
  | metal
  | agx
  | openCl
  deriving DecidableEq, Repr

structure WeightSelectConfig (F : Type) where
  neighbors : ℕ
  epistemicScale : F
  aleatoricScale : F
  yScale : F
  beta : F
  acquisition : AcquisitionKind
  seed : UInt64
  backend : ComputeBackend

structure WeightSelectResult (F : Type) where
  index : ℕ
  score : F

structure Prediction (F : Type) where
  mean : F
  se : F

variable {F : Type} [TrialFloat F]

def checkWeightInputs (observations : List UInt8) (observationCount : ℕ) (outcomes : List F)
    (candidates : List UInt8) (candidateCount : ℕ) (blocks : List (WeightBlock F))
    (neighbors : ℕ) : Except String ℕ :=
  let rowBytes := (blocks.map WeightBlock.rowBytes).sum
  if observationCount = 0 then
    throw "quantized-weight ENN selection requires at least one observation"
  else if candidateCount = 0 then
    throw "quantized-weight ENN selection requires at least one candidate"
  else if outcomes.length ≠ observationCount then
    throw s!"outcome count {outcomes.length} does not match observation count {observationCount}"
  else if neighbors = 0 ∨ observationCount < neighbors then
    throw s!"neighbor count must be between one and {observationCount}"
  else if blocks.isEmpty then
    throw "quantized-weight ENN selection requires at least one metric block"
  else if rowBytes = 0 then throw "quantized-weight row byte width must be positive"
  else if observations.length ≠ min (observationCount * rowBytes) usizeMax then
    throw s!"observation bytes {observations.length} do not match shape ({observationCount}, {rowBytes})"
  else if candidates.length ≠ min (candidateCount * rowBytes) usizeMax then
    throw s!"candidate bytes {candidates.length} do not match shape ({candidateCount}, {rowBytes})"
  else if outcomes.any fun value => !TrialFloat.isFinite value then throw "outcomes must be finite"
  else return rowBytes

def weightedPrediction (nearest : List (F × ℕ)) (outcomes : List F)
    (config : WeightSelectConfig F) : Prediction F :=
  let sums := nearest.foldl
    (fun (sums : F × F) p =>
      let variance := 1.0e-9 + config.epistemicScale * p.1 + config.aleatoricScale
      let weight := 1.0 / max variance 1.0e-12
      (sums.1 + weight, sums.2 + weight * outcomes.getD p.2 0.0))
    (0.0, 0.0)
  { mean := sums.2 / max sums.1 1.0e-12
    se := TrialFloat.sqrt (1.0 / max sums.1 1.0e-12) * config.yScale }

def predictCandidateCpu (observations : List UInt8) (observationCount : ℕ) (outcomes : List F)
    (candidate : Row) (blocks : List (WeightBlock F)) (rowBytes : ℕ)
    (config : WeightSelectConfig F) : Prediction F :=
  let nearest := (List.range observationCount).foldl
    (fun nearest index =>
      let observation := Buffer.row rowBytes observations index
      insertNeighbor nearest (weightDistance candidate observation blocks) index)
    (List.replicate config.neighbors (infinity, 0))
  weightedPrediction nearest outcomes config

/-- The score of a candidate; only Thompson sampling draws. -/
def acquisitionScore (prediction : Prediction F) (index : ℕ) (config : WeightSelectConfig F) : F :=
  match config.acquisition with
  | .ucb => prediction.mean + config.beta * prediction.se
  | .pareto => prediction.mean + prediction.se
  | .thompson => prediction.mean + prediction.se * standardNormal config.seed index

def selectWeightCpu (observations : List UInt8) (observationCount : ℕ) (outcomes : List F)
    (candidates : List UInt8) (candidateCount : ℕ) (blocks : List (WeightBlock F)) (rowBytes : ℕ)
    (config : WeightSelectConfig F) : WeightSelectResult F :=
  (List.range candidateCount).foldl
    (fun best index =>
      let prediction := predictCandidateCpu observations observationCount outcomes
        (Buffer.row rowBytes candidates index) blocks rowBytes config
      let score := acquisitionScore prediction index config
      if fgt score best.score || (feq score best.score && decide (index < best.index)) then
        ⟨index, score⟩
      else best)
    ⟨0, -infinity⟩

/-- `select_weights` in a build without devices. -/
def selectWeights (observations : List UInt8) (observationCount : ℕ) (outcomes : List F)
    (candidates : List UInt8) (candidateCount : ℕ) (blocks : List (WeightBlock F))
    (config : WeightSelectConfig F) : Except String (WeightSelectResult F) := do
  let rowBytes ← checkWeightInputs observations observationCount outcomes candidates
    candidateCount blocks config.neighbors
  match config.backend with
  | .metal => throw "Metal ENN backend is not available in this build"
  | .agx => throw "AGX ENN backend is not available in this build"
  | .openCl => throw "OpenCL ENN backend is not available in this build"
  | .cpu | .auto =>
    return selectWeightCpu observations observationCount outcomes candidates candidateCount blocks
      rowBytes config

namespace Trials

/-- The settings of an ask, for a selection. -/
def Ask.weightSelect (config : Ask F) (backend : ComputeBackend) : WeightSelectConfig F :=
  { neighbors := config.neighbors
    epistemicScale := config.epistemicScale
    aleatoricScale := config.aleatoricScale
    yScale := config.yScale
    beta := config.beta
    acquisition := config.acquisition
    seed := config.seed
    backend }

/-- A block that holds the weights of a leaf. -/
structure Leaf.Block (leaf : Leaf F) (block : WeightBlock F) : Prop where
  length_eq : block.length = leaf.length
  bits_eq : block.bits = leaf.bits
  encoding_eq : block.encoding = leaf.encoding
  scale_eq : block.quantizationScale = leaf.scale
  weight_eq : block.weight = leaf.weight

section Rows

variable {leaves : List (Leaf F)} {blocks : List (WeightBlock F)} {length : F}

omit [TrialFloat F] in
theorem Leaf.Block.rowBytes_eq {leaf : Leaf F} {block : WeightBlock F} (h : leaf.Block block) :
    block.rowBytes = leaf.bytes := by
  rw [WeightBlock.rowBytes, Leaf.bytes, h.bits_eq, h.length_eq]

omit [TrialFloat F] in
theorem sum_rowBytes (h : List.Forall₂ Leaf.Block leaves blocks) :
    (blocks.map WeightBlock.rowBytes).sum = leavesBytes leaves := by
  induction h with
  | nil => rfl
  | cons hblock _ ih =>
    rw [List.map_cons, List.sum_cons, ih, hblock.rowBytes_eq, leavesBytes, leavesBytes,
      List.map_cons, List.sum_cons]

omit [TrialFloat F] in
theorem codeAt_eq (leaf : Leaf F) (step : Step) (row : Row) (element : ℕ) :
    codeAt leaf.bits row step.byteOffset element = leaf.code step row element := by
  have hshift : (if element % 2 = 0 then 0 else 4) = (element &&& 1) * 4 := by
    rw [Nat.and_one_is_mod]
    split
    next h => rw [h]
    next h => rw [Nat.mod_two_ne_zero.mp h]
  unfold codeAt Leaf.code
  rw [hshift]

theorem weightDistanceFrom_eq (h : List.Forall₂ Leaf.Block leaves blocks) (left right : Row)
    (byteBase : ℕ) (distance : F) :
    weightDistanceFrom left right byteBase distance blocks =
      (leaves.zip (makeStepsFrom length byteBase leaves)).foldl
        (fun distance p =>
          (List.range p.1.length).foldl (decodedDistance left right p.1 p.2) distance)
        distance := by
  induction h generalizing byteBase distance with
  | nil => rfl
  | @cons leaf block leaves blocks hblock _ ih =>
    have hstep : accumulate block.bits block.encoding block.quantizationScale block.weight left
        right byteBase = decodedDistance left right leaf (makeStep length byteBase leaf) := by
      ext distance element
      rw [hblock.bits_eq, hblock.encoding_eq, hblock.scale_eq, hblock.weight_eq, accumulate,
        decodedDistance, ← codeAt_eq, ← codeAt_eq]
      rfl
    rw [weightDistanceFrom, ih, makeStepsFrom, List.zip_cons_cons, List.foldl_cons, hstep,
      hblock.length_eq, hblock.rowBytes_eq]

end Rows

section Packed

variable {α β : Type} {rowBytes : ℕ}

theorem row_flatMap {g : β → List UInt8} {l : List β} (hg : ∀ b ∈ l, (g b).length = rowBytes)
    {i : ℕ} {b : β} (hb : l[i]? = some b) : Buffer.row rowBytes (l.flatMap g) i = g b := by
  induction l generalizing i with
  | nil => cases hb
  | cons a l ih =>
    rw [List.forall_mem_cons] at hg
    rw [List.flatMap_cons, Buffer.row]
    cases i with
    | zero =>
      cases hb
      rw [Nat.zero_mul, List.drop_zero, List.take_left' hg.1]
    | succ i =>
      rw [Nat.add_one_mul, Nat.add_comm, ← List.drop_drop, List.drop_left' hg.1]
      exact ih hg.2 hb

theorem length_flatMap_rows {g : β → List UInt8} {l : List β}
    (hg : ∀ b ∈ l, (g b).length = rowBytes) : (l.flatMap g).length = l.length * rowBytes := by
  simp [List.length_flatMap, List.map_congr_left hg]

theorem zipIdx_eq_map_range (l : List α) (d : α) :
    l.zipIdx = (List.range l.length).map fun i => (l.getD i d, i) := by
  apply List.ext_getElem
  · simp
  · intro i h₁ h₂
    rw [List.length_zipIdx] at h₁
    simp [List.getD_eq_getElem?_getD, h₁]

end Packed

section Selecting

variable {leaves : List (Leaf F)} {blocks : List (WeightBlock F)} {config : Ask F}
  {base : Row} {observations : List (Row × F)} {rowBytes : ℕ}

theorem acquisitionScore_eq (nearest : List (F × ℕ)) (values : List F)
    (backend : ComputeBackend) (index : ℕ) :
    acquisitionScore (weightedPrediction nearest values (config.weightSelect backend)) index
        (config.weightSelect backend) =
      score nearest values (standardNormal config.seed index) config := by
  obtain ⟨length, neighbors, epistemic, aleatoric, y, beta, acquisition, seed⟩ := config
  cases acquisition with
  | ucb => rfl
  | thompson => rfl
  | pareto => rfl

theorem score_packed (hblocks : List.Forall₂ Leaf.Block leaves blocks)
    (hlayout : checkLayout leaves = .ok rowBytes) (hbase : base.length = rowBytes)
    (hobs : ∀ o ∈ observations, o.1.length = rowBytes) (backend : ComputeBackend) (index : ℕ)
    (seed : UInt64) :
    acquisitionScore (predictCandidateCpu (observations.flatMap Prod.fst) observations.length
        (observations.map Prod.snd)
        (materialize base leaves (makeSteps leaves config.length) seed) blocks rowBytes
        (config.weightSelect backend)) index (config.weightSelect backend) =
      scoreSeed base observations leaves (makeSteps leaves config.length) config
        (standardNormal config.seed index) seed := by
  rw [predictCandidateCpu, acquisitionScore_eq, scoreSeed, zipIdx_eq_map_range _ ([], 0),
    List.foldl_map]
  apply congrArg (score · _ _ _)
  apply foldl_congr_mem
  intro i hi nearest
  rw [List.mem_range] at hi
  rw [row_flatMap hobs (List.getElem?_eq_getElem hi), List.getD_eq_getElem _ _ hi,
    trialDistance_eq hlayout hbase]
  exact congrArg (insertNeighbor nearest · i) (weightDistanceFrom_eq hblocks _ _ 0 _)

/-- Both searches keep the best score in the same way. -/
theorem foldl_select {n : ℕ} {value : ℕ → F} {scoreAt : ℕ → UInt64 → F} {seeds : List UInt64}
    (h : ∀ i < n, value i = scoreAt i (seeds.getD i 0)) (low : F) :
    (List.range n).foldl
        (fun (best : WeightSelectResult F) index =>
          if fgt (value index) best.score ||
              (feq (value index) best.score && decide (index < best.index)) then
            ⟨index, value index⟩
          else best) ⟨0, low⟩ =
      ⟨((List.range n).foldl (fun best i => keepBest scoreAt best (seeds.getD i 0, i)) (0, low)).1,
        ((List.range n).foldl (fun best i => keepBest scoreAt best (seeds.getD i 0, i))
          (0, low)).2⟩ := by
  induction n with
  | zero => rfl
  | succ n ih =>
    rw [List.range_succ, List.foldl_append, List.foldl_append,
      ih fun i hi => h i (hi.trans (Nat.lt_succ_self n))]
    generalize (List.range n).foldl (fun best i => keepBest scoreAt best (seeds.getD i 0, i))
      (0, low) = best
    rw [List.foldl_cons, List.foldl_nil, List.foldl_cons, List.foldl_nil, keepBest,
      h n (Nat.lt_succ_self n)]
    dsimp only
    split
    · rfl
    · rfl

/-- A selection among packed candidates makes the rounds of an ask. -/
theorem selectWeightCpu_eq (hblocks : List.Forall₂ Leaf.Block leaves blocks)
    (hlayout : checkLayout leaves = .ok rowBytes) (hbase : base.length = rowBytes)
    (hobs : ∀ o ∈ observations, o.1.length = rowBytes) (seeds : List UInt64)
    (backend : ComputeBackend) {best : ℕ × F}
    (hbest : askRows base observations seeds leaves config = best) :
    selectWeightCpu (observations.flatMap Prod.fst) observations.length
        (observations.map Prod.snd)
        (seeds.flatMap (materialize base leaves (makeSteps leaves config.length))) seeds.length
        blocks rowBytes (config.weightSelect backend) = ⟨best.1, best.2⟩ := by
  have hrows : ∀ seed ∈ seeds,
      (materialize base leaves (makeSteps leaves config.length) seed).length = rowBytes := by
    intro seed _
    rw [length_materialize, hbase]
  have hscore : ∀ i < seeds.length,
      acquisitionScore (predictCandidateCpu (observations.flatMap Prod.fst) observations.length
        (observations.map Prod.snd) (Buffer.row rowBytes
          (seeds.flatMap (materialize base leaves (makeSteps leaves config.length))) i) blocks
        rowBytes (config.weightSelect backend)) i (config.weightSelect backend) =
      scoreSeed base observations leaves (makeSteps leaves config.length) config
        ((thompsonDraws seeds.length config.seed).getD i 0) (seeds.getD i 0) := by
    intro i hi
    have hdraw : (thompsonDraws (F := F) seeds.length config.seed).getD i 0 =
        standardNormal config.seed i := by
      simp [thompsonDraws, List.getD_eq_getElem?_getD, hi]
    rw [row_flatMap hrows (List.getElem?_eq_getElem hi), score_packed hblocks hlayout hbase hobs,
      hdraw, List.getD_eq_getElem _ _ hi]
  subst hbest
  unfold selectWeightCpu askRows
  dsimp only
  rw [zipIdx_eq_map_range seeds 0, List.foldl_map]
  exact foldl_select hscore (-infinity)

end Selecting

namespace Search

variable {s : Search F Cpu} {seeds : List UInt64} {config : Ask F} {blocks : List (WeightBlock F)}
  {backend : ComputeBackend}

/-- The selection among the rows of the seeds, packed, on the packed history. -/
def packedSelection (s : Search F Cpu) (seeds : List UInt64) (config : Ask F)
    (blocks : List (WeightBlock F)) (backend : ComputeBackend) :
    Except String (WeightSelectResult F) :=
  selectWeights (s.observations.flatMap Prod.fst) s.observations.length
    (s.observations.map Prod.snd) (seeds.flatMap (s.seedRow config)) seeds.length blocks
    (config.weightSelect backend)

theorem Reachable.length_seedRow (h : s.Reachable) (config : Ask F) (seed : UInt64) :
    (s.seedRow config seed).length = s.rowBytes := by
  rw [seedRow, length_materialize, h.length_base]

theorem Reachable.length_observation (h : s.Reachable) :
    ∀ o ∈ s.observations, o.1.length = s.rowBytes := by
  intro o ho
  obtain ⟨record, hrecord, rfl⟩ := List.mem_map.mp ho
  exact (Cpu.length_read h.slotsOk.fits (h.slotsOk.history_lt record hrecord)).trans
    h.slotsOk.width

omit [TrialFloat F] in
theorem checkLayout_le {leaves : List (Leaf F)} {rowBytes : ℕ}
    (h : checkLayout leaves = .ok rowBytes) : leaves ≠ [] ∧ rowBytes ≤ u32Max := by
  unfold checkLayout at h
  split at h
  next => cases h
  next hne =>
    split at h
    next => cases h
    next =>
      split at h
      next => cases h
      next hle =>
        cases h
        exact ⟨by simpa using hne, by omega⟩

/-- The packed rows of a search have the shape that a selection checks. -/
theorem checkWeightInputs_packed (h : s.Reachable) (hseeds : seeds ≠ [])
    (hneighbors : 0 < config.neighbors ∧ config.neighbors ≤ s.history.length)
    (hblocks : List.Forall₂ Leaf.Block s.leaves blocks) (hpos : 0 < s.rowBytes)
    (hsize : seeds.length * s.rowBytes ≤ usizeMax) :
    checkWeightInputs (s.observations.flatMap Prod.fst) s.observations.length
        (s.observations.map Prod.snd) (seeds.flatMap (s.seedRow config)) seeds.length blocks
        config.neighbors =
      if ∀ record ∈ s.history, isFinite record.value = true then .ok s.rowBytes
      else .error "outcomes must be finite" := by
  obtain ⟨hlayout, hcapacity⟩ := h.layout
  obtain ⟨hleaves, hbytes⟩ := checkLayout_le hlayout
  have hcount : s.observations.length = s.history.length := List.length_map _
  have hsum : (blocks.map WeightBlock.rowBytes).sum = s.rowBytes := by
    rw [sum_rowBytes hblocks, checkLayout_eq_ok hlayout]
  have hhistory : s.history.length * s.rowBytes ≤ usizeMax := by
    have hlen : s.history.length ≤ maxHistory := h.slotsOk.length_le.trans hcapacity
    exact (Nat.mul_le_mul hlen hbytes).trans (by decide)
  have hne : ¬ blocks.isEmpty = true := by
    rw [List.isEmpty_iff]
    rintro rfl
    exact hleaves (List.forall₂_nil_right_iff.mp hblocks)
  have hlen : ∀ seed ∈ seeds, (s.seedRow config seed).length = s.rowBytes :=
    fun seed _ => h.length_seedRow config seed
  unfold checkWeightInputs
  dsimp only
  rw [hsum, length_flatMap_rows h.length_observation, length_flatMap_rows hlen, hcount,
    if_neg (by omega), if_neg (by simpa using hseeds), if_neg (by simp [hcount]),
    if_neg (by omega), if_neg hne, if_neg hpos.ne', min_eq_left hhistory, min_eq_left hsize,
    if_neg (not_not.mpr rfl), if_neg (not_not.mpr rfl)]
  have hany : ((s.observations.map Prod.snd).any fun value => !isFinite value) = true ↔
      ¬ ∀ record ∈ s.history, isFinite record.value = true := by
    simp [observations]
  split
  next hnot =>
    rw [if_neg (hany.mp hnot)]
    rfl
  next hall =>
    rw [if_pos (not_not.mp fun hnot => hall (hany.mpr hnot))]
    rfl

/--
What an ask answers is what a selection among the packed rows of its seeds would,
unless a value of the history is not finite, which only the selection checks.
-/
theorem packedSelection_of_ask (h : s.Reachable) {trial : Trial F}
    (htrial : (s.ask seeds config).1 = .ok trial)
    (hblocks : List.Forall₂ Leaf.Block s.leaves blocks) (hpos : 0 < s.rowBytes)
    (hsize : seeds.length * s.rowBytes ≤ usizeMax)
    (hbackend : backend = .cpu ∨ backend = .auto) :
    s.packedSelection seeds config blocks backend =
      if ∀ record ∈ s.history, isFinite record.value = true then
        .ok ⟨trial.index, trial.score⟩
      else .error "outcomes must be finite" := by
  rw [ask, askWithMaterialization_eq] at htrial
  split at htrial
  next => cases htrial
  next slot hslot =>
    cases htrial
    obtain ⟨-, hcheck, -⟩ := askSlot_eq_ok hslot
    obtain ⟨hseeds, hneighbors⟩ := checkAsk_neighbors hcheck
    have hchecked := checkWeightInputs_packed h hseeds hneighbors hblocks hpos hsize
    have hwinner : askRows (s.engine.read s.base) s.observations seeds s.leaves config =
      s.winner seeds config := rfl
    have hselect := selectWeightCpu_eq hblocks h.layout.1 h.length_base h.length_observation seeds
      backend hwinner
    unfold packedSelection selectWeights
    rw [show (config.weightSelect backend).neighbors = config.neighbors from rfl, hchecked]
    split
    next =>
      rcases hbackend with rfl | rfl
      · exact congrArg Except.ok hselect
      · exact congrArg Except.ok hselect
    next => rfl

/-- The block of the leaf of one byte. -/
def oneByteBlock : WeightBlock ℚ :=
  { offset := 0, length := 1, bits := 8, encoding := .int8, quantizationScale := 1,
    metricScale := 1, weight := 1, bits_eq := eight_eq_or }

theorem packedSelection_of_ask_oneByte :
    oneByteTold.packedSelection [2, 1, 3] oneByteAsk [oneByteBlock] .cpu =
      .ok ⟨1, (oneByteTold.chosen [2, 1, 3] oneByteAsk).score⟩ := by
  have hblock : oneByteLeaf.Block oneByteBlock := ⟨rfl, rfl, rfl, rfl, rfl⟩
  have hnew : oneByteSearch.Reachable := .new new_oneByte
  have hleaves : oneByteTold.leaves = [oneByteLeaf] :=
    (sameLayout_run _ (hnew.run (.ask [5] oneByteAsk)).slotsOk _).leaves_eq.trans
      (sameLayout_run _ hnew.slotsOk _).leaves_eq
  have hblocks : List.Forall₂ Leaf.Block oneByteTold.leaves [oneByteBlock] :=
    hleaves ▸ .cons hblock .nil
  have hselect := packedSelection_of_ask reachable_oneByteTold ask_oneByteTold hblocks
    (by decide +kernel) (by decide +kernel) (.inl rfl)
  have hfinite : ∀ record ∈ oneByteTold.history, isFinite record.value = true := by
    decide +kernel
  have hindex : (oneByteTold.chosen [2, 1, 3] oneByteAsk).index = 1 := by decide +kernel
  rwa [if_pos hfinite, hindex] at hselect

end Search

end Trials

end Ennbo
