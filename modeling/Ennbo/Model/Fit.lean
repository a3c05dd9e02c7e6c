import Ennbo.Model.Draws
import Ennbo.TrustRegion.Incumbents

/-! # Fitting the parameters of a model

Parameters are compared by how likely some of the rows are under the posterior
that leaves each of them out. Posteriors are on the scale of the outcomes that
were told. The rows come from the storage of the model, which keeps outcomes
with bounds on another scale.
-/

namespace Ennbo

section Likelihood

variable {D : Type} [Floating D] [Analysis D]

/-- The root of the mean squared deviation from the mean of each column. -/
def populationStd (y : Array2 D) : List D :=
  (List.range y.ncols).map fun j =>
    let column := y.rows.map fun row => row.getD j 0
    let n : D := (column.length : ℕ)
    let mean := column.foldl (· + ·) 0 / n
    sqrt ((column.map fun v => (v - mean) * (v - mean)).foldl (· + ·) 0 / n)

def safeStd (v : D) : D := if isFinite v && ltB 0 v then v else 1

def logDensity (y mu se : D) : D :=
  let varScaled := se * se
  neg (literal 5 1) * ln (((2 : ℕ) : D) * pi * varScaled) -
    literal 5 1 * ((y - mu) * (y - mu)) / varScaled

/-- The likelihood of some rows under means and standard errors on their scale. -/
def computeSingleLoglik (yScaled : List (List D)) (predicted : List (List (D × D))) : D :=
  if !(predicted.all fun row => row.all fun e => isFinite e.1 && isFinite e.2) then 0
  else if predicted.any fun row => row.any fun e => leB e.2 0 then 0
  else
    let loglik := (yScaled.zip predicted).foldl (fun sum row =>
      (row.1.zip row.2).foldl (fun sum e => sum + logDensity e.1 e.2.1 e.2.2) sum) 0
    if isFinite loglik then loglik else 0

def validateSubsampleInputs (x y : Array2 D) (p numParams : ℕ) : Outcome Unit :=
  if x.nrows ≠ y.nrows then
    throw (.error (.invalidParameter
      s!"x and y must have same number of rows: {x.nrows} vs {y.nrows}"))
  else if p = 0 then throw (.error (.invalidParameter "P (num_samples) must be > 0"))
  else if numParams = 0 then throw (.error (.invalidParameter "paramss must be non-empty"))
  else pure ()

def sampleIndices (sample : ℕ → ℕ → List ℕ) (p n : ℕ) : List ℕ :=
  if min p n = n then List.range n else sample n (min p n)

end Likelihood

namespace EpistemicNearestNeighbors

section Subsample

variable {D F : Type} [Floating D] [Floating F] [FloatCast D F] [Analysis D]

def selectRows (a : Array2 D) (indices : List ℕ) : Outcome (Array2 D) := do
  rowsMatrix a.ncols (← RowStorage.gatherRows a indices)

/-- The posteriors that parameters are compared by. -/
def fitFlags : PosteriorFlags where
  excludeNearest := true
  observationNoise := true
  tieBreakNeighbors := false

/-- Fewer deviations than outcomes panic. -/
def subsampleLoglik (faiss : Faiss F) (env : Env F) (sample : ℕ → ℕ → List ℕ)
    (stdAxis : Array2 D → List D) (x y : Array2 D) (paramss : List (ENNParams D)) (p : ℕ)
    (yStd : Option (List D)) : Call (EpistemicNearestNeighbors D F) (List D) := do
  Call.ofOutcome (validateSubsampleInputs x y p paramss.length)
  let m ← Call.get
  if x.nrows = 0 ∨ m.numObs ≤ 1 then return List.replicate paramss.length 0
  else if !(y.rows.all fun row => row.all isFinite) then return List.replicate paramss.length 0
  else
    let indices := sampleIndices sample p x.nrows
    let xSel ← Call.ofOutcome (selectRows x indices)
    let ySel ← Call.ofOutcome (selectRows y indices)
    let post ← batchPosterior faiss env xSel paramss fitFlags
    if m.numMetrics ≠ y.ncols then
      Call.ofOutcome (throw (.error (.invalidShape [paramss.length, indices.length, y.ncols]
        [paramss.length, indices.length, m.numMetrics])))
    else
      let std := (yStd.getD (stdAxis y)).map safeStd
      if std.length < y.ncols then Call.ofOutcome (throw .panic)
      else
        let yScaled := ySel.rows.map fun row => List.zipWith (· / ·) row std
        return post.map fun entries => computeSingleLoglik yScaled (entries.rows.map fun row =>
          List.zipWith (fun e s => (e.mu / s, e.se / s)) row std)

/-- Rows that were read as matrices. -/
def rowMatrices (m : EpistemicNearestNeighbors D F) (rows : TrainRowsAt D) :
    Outcome (Array2 D × Array2 D) := do
  let x ← rowsMatrix m.numDim rows.x
  let y ← rowsMatrix m.numMetrics rows.y
  return (x, y)

/-- The likelihoods of rows that are read from the model. -/
def subsampleLoglikModel (faiss : Faiss F) (env : Env F) (sample : ℕ → ℕ → List ℕ)
    (stdAxis : Array2 D → List D) (paramss : List (ENNParams D)) (p : ℕ) (yStd : Option (List D)) :
    Call (EpistemicNearestNeighbors D F) (List D) := do
  let m ← Call.get
  if m.len = 0 ∨ paramss = [] then return List.replicate (max paramss.length 1) 0
  else
    let rows ← Call.ofOutcome (m.backend.trainRowsAt (sampleIndices sample p m.len))
    let (x, y) ← Call.ofOutcome (m.rowMatrices rows)
    subsampleLoglik faiss env sample stdAxis x y paramss p yStd

end Subsample

end EpistemicNearestNeighbors

section Fitter

variable {D F : Type} [Floating D] [Floating F] [FloatCast D F] [Analysis D]

/-- Why parameters are refused. -/
inductive ParamsError (D : Type) where
  | invalidK (k : ℤ)
  | invalidEpistemicVariance (v : D)
  | invalidAleatoricVariance (v : D)

def ParamsError.toString : ParamsError D → String
  | invalidK k => s!"k_num_neighbors must be > 0, got {k}"
  | invalidEpistemicVariance v =>
    s!"epistemic_variance_scale must be >= 0 and finite, got {display v}"
  | invalidAleatoricVariance v =>
    s!"aleatoric_variance_scale must be >= 0 and finite, got {display v}"

def ENNParams.new (k : ℤ) (epistemicVarianceScale aleatoricVarianceScale : D) :
    Except (ParamsError D) (ENNParams D) :=
  if k ≤ 0 then throw (.invalidK k)
  else if !isFinite epistemicVarianceScale || ltB epistemicVarianceScale 0 then
    throw (.invalidEpistemicVariance epistemicVarianceScale)
  else if !isFinite aleatoricVarianceScale || ltB aleatoricVarianceScale 0 then
    throw (.invalidAleatoricVariance aleatoricVarianceScale)
  else pure ⟨k.toNat, epistemicVarianceScale, aleatoricVarianceScale⟩

/-- The error of new parameters with a message in front. -/
def ENNParams.orInvalid (message : String) : Except (ParamsError D) (ENNParams D) →
    Outcome (ENNParams D)
  | .ok params => pure params
  | .error e => throw (.error (.invalidParameter s!"{message}: {e.toString}"))

structure ENNFitter (D : Type) where
  k : ℤ
  inferAleatoricVariance : Bool
  params : Option (ENNParams D)
  ySum : List D
  ySumsq : List D
  yCount : ℕ
  numMetrics : ℕ

namespace ENNFitter

def new (k : ℤ) (inferAleatoricVariance : Bool) : ENNFitter D :=
  ⟨k, inferAleatoricVariance, none, [], [], 0, 0⟩

def yStd (f : ENNFitter D) : List D :=
  if f.yCount = 0 then List.replicate (max f.numMetrics 1) 1
  else
    let n : D := f.yCount
    (List.range f.numMetrics).map fun m =>
      let mean := f.ySum.getD m 0 / n
      safeStd (sqrt (max (f.ySumsq.getD m 0 / n - mean * mean) 0))

def defaultParams (f : ENNFitter D) : Outcome (ENNParams D) :=
  ENNParams.orInvalid "Failed to create default params" (ENNParams.new f.k 1 0)

/-- Candidates with scales that are drawn, the epistemic ones first. -/
def buildRandomParamCandidates (f : ENNFitter D) (numRandom : ℕ) (scales : ℕ → D) :
    Outcome (List (ENNParams D)) :=
  if numRandom = 0 then pure []
  else
    let paramss := (List.range numRandom).filterMap fun i =>
      (ENNParams.new f.k (scales i)
        (if f.inferAleatoricVariance then scales (numRandom + i) else 0)).toOption
    if paramss.isEmpty then do return [← f.defaultParams] else pure paramss

/-- The candidates that are drawn, and what a fit starts from. -/
def candidates (f : ENNFitter D) (numFitCandidates : ℕ) (scales : ℕ → D)
    (warmStart : Option (ENNParams D)) : Outcome (List (ENNParams D)) := do
  let paramss ← f.buildRandomParamCandidates numFitCandidates scales
  match warmStart <|> f.params with
  | none => return paramss
  | some warm => do
    let params ← ENNParams.orInvalid "Invalid warm-start params"
      (ENNParams.new f.k warm.epistemicVarianceScale
        (if f.inferAleatoricVariance then warm.aleatoricVarianceScale else 0))
    return paramss ++ [params]

/-- The place of the last of the greatest values. -/
def bestIdx : List D → ℕ
  | [] => 0
  | l :: ls => ((ls.zipIdx 1).foldl
      (fun best e => if totalCmp best.1 e.1 = .gt then best else e) (l, 0)).2

open EpistemicNearestNeighbors in
/-- The best candidate, and the fitter that starts from it next. -/
def ask (faiss : Faiss F) (env : Env F) (sample : ℕ → ℕ → List ℕ)
    (stdAxis : Array2 D → List D) (scales : ℕ → D)
    (numFitCandidates numFitSamples : ℕ) (warmStart : Option (ENNParams D)) (f : ENNFitter D) :
    Call (EpistemicNearestNeighbors D F) (ENNParams D × ENNFitter D) := do
  let m ← Call.get
  if m.numObs < 2 then
    let best ← Call.ofOutcome f.defaultParams
    return (best, { f with params := some best })
  else if f.yCount = 0 then
    Call.ofOutcome (throw (.error (.invalidParameter
      "tell must be called before ask to initialize incremental y statistics")))
  else
    let paramss ← Call.ofOutcome (f.candidates numFitCandidates scales warmStart)
    let rows ← Call.ofOutcome (m.backend.trainRowsAt (sampleIndices sample numFitSamples m.len))
    let (x, y) ← Call.ofOutcome (m.rowMatrices rows)
    let logliks ← subsampleLoglik faiss env sample stdAxis x y paramss numFitSamples (some f.yStd)
    let best ← Call.ofOutcome (Outcome.ofOption .panic paramss[bestIdx logliks]?)
    return (best, { f with params := some best })

/-- An empty fold leaves the first value. -/
theorem bestIdx_fold [LawfulOrder D] (ls : List D) (k : ℕ) (first : D × ℕ) :
    ∃ best i, (ls.zipIdx k).foldl
        (fun best e => if totalCmp best.1 e.1 = .gt then best else e) first = (best, i) ∧
      ((best, i) = first ∨ ∃ j, ls[j]? = some best ∧ i = k + j) ∧
      (totalCmp first.1 best).isLE = true ∧ ∀ l ∈ ls, (totalCmp l best).isLE = true := by
  induction ls generalizing k first with
  | nil => exact ⟨first.1, first.2, rfl, .inl rfl, by simp [Std.ReflCmp.compare_self], nofun⟩
  | cons l ls ih =>
    rw [List.zipIdx_cons, List.foldl_cons]
    dsimp only
    by_cases hgt : totalCmp first.1 l = .gt
    · rw [if_pos hgt]
      obtain ⟨best, i, hfold, hplace, hfirst, hrest⟩ := ih (k + 1) first
      have hl : (totalCmp l first.1).isLE = true := by
        have hswap : totalCmp l first.1 = (totalCmp first.1 l).swap := Std.OrientedCmp.eq_swap
        rw [hswap, hgt]
        rfl
      refine ⟨best, i, hfold, ?_, hfirst, ?_⟩
      · rcases hplace with hplace | ⟨j, hj, rfl⟩
        · exact .inl hplace
        · exact .inr ⟨j + 1, hj, by omega⟩
      · rw [List.forall_mem_cons]
        exact ⟨Std.TransCmp.isLE_trans hl hfirst, hrest⟩
    · rw [if_neg hgt]
      obtain ⟨best, i, hfold, hplace, hl, hrest⟩ := ih (k + 1) (l, k)
      refine ⟨best, i, hfold, ?_, ?_, List.forall_mem_cons.mpr ⟨hl, hrest⟩⟩
      · rcases hplace with hplace | ⟨j, hj, rfl⟩
        · obtain ⟨rfl, rfl⟩ := Prod.mk.inj hplace
          exact .inr ⟨0, rfl, rfl⟩
        · exact .inr ⟨j + 1, hj, by omega⟩
      · exact Std.TransCmp.isLE_trans (Ordering.isLE_iff_ne_gt.mpr hgt) hl

theorem bestIdx_spec [LawfulOrder D] {ls : List D} (h : ls ≠ []) :
    ∃ best, ls[bestIdx ls]? = some best ∧ ∀ l ∈ ls, (totalCmp l best).isLE = true := by
  cases ls with
  | nil => exact absurd rfl h
  | cons l ls =>
    obtain ⟨best, i, hfold, hplace, hl, hrest⟩ := bestIdx_fold ls 1 (l, 0)
    have hidx : bestIdx (l :: ls) = i := congrArg Prod.snd hfold
    rw [hidx]
    refine ⟨best, ?_, List.forall_mem_cons.mpr ⟨hl, hrest⟩⟩
    rcases hplace with hplace | ⟨j, hj, rfl⟩
    · obtain ⟨rfl, rfl⟩ := Prod.mk.inj hplace
      rfl
    · rw [Nat.add_comm, List.getElem?_cons_succ]
      exact hj

end ENNFitter

end Fitter

section Reading

variable {D F : Type} {x y : ℕ → Outcome (List D)} {yvar : Option (ℕ → Outcome (List D))}
  {indices : List ℕ} {rows : TrainRowsAt D} {row : List D}

/-- The rows behind some indices, each read by its own index. -/
def readRows (x y : ℕ → Outcome (List D)) (yvar : Option (ℕ → Outcome (List D)))
    (indices : List ℕ) : Outcome (TrainRowsAt D) := do
  let xs ← indices.mapM x
  let ys ← indices.mapM y
  match yvar with
  | none => return ⟨xs, ys, none⟩
  | some read => return ⟨xs, ys, some (← indices.mapM read)⟩

theorem InMemoryEnnBackend.forM_checkIndex {b : InMemoryEnnBackend D F} (name : String) :
    indices.forM (b.checkIndex name) = .ok () ↔ ∀ i ∈ indices, i < b.len := by
  induction indices with
  | nil => simp [List.forM, pure, Except.pure]
  | cons i indices ih =>
    have hcons : (i :: indices).forM (b.checkIndex name) =
        (b.checkIndex name i >>= fun _ => indices.forM (b.checkIndex name)) := rfl
    rw [hcons, Outcome.bind_eq_ok, List.forall_mem_cons, ← ih]
    unfold checkIndex
    split
    next h => simp [not_lt.mpr h]
    next h => simp [not_le.mp h]

theorem InMemoryEnnBackend.trainRowsAt_eq_ok {b : InMemoryEnnBackend D F} :
    b.trainRowsAt indices = .ok rows ↔ (∀ i ∈ indices, i < b.len) ∧
      readRows b.trainXRows.rowVec b.trainYRows.rowVec
        (b.trainYvarRows.map RowStorage.rowVec) indices = .ok rows := by
  rw [← forM_checkIndex "train_rows_at"]
  have heq : b.trainRowsAt indices = (indices.forM (b.checkIndex "train_rows_at") >>= fun _ =>
      readRows b.trainXRows.rowVec b.trainYRows.rowVec
        (b.trainYvarRows.map RowStorage.rowVec) indices) := by
    unfold trainRowsAt readRows
    cases b.trainYvarRows <;> rfl
  rw [heq, Outcome.bind_eq_ok]
  constructor
  · rintro ⟨_, hcheck, h⟩
    exact ⟨hcheck, h⟩
  · rintro ⟨hcheck, h⟩
    exact ⟨(), hcheck, h⟩

theorem BpannBackend.trainRowsAt_eq_ok {b : BpannBackend D F} :
    b.trainRowsAt indices = .ok rows ↔ (∀ i ∈ indices, i < b.len) ∧
      readRows b.trainX.mmapRowSlice b.trainY.mmapRowSlice
        (b.trainYvar.map MmapColumnStore.mmapRowSlice) indices = .ok rows := by
  unfold trainRowsAt bpannTrainRowsAt readRows
  split
  next i hi =>
    have hle : b.len ≤ i := by simpa using List.find?_some hi
    constructor
    · intro h
      cases h
    · intro h
      exact absurd (h.1 i (List.mem_of_find?_eq_some hi)) (not_lt.mpr hle)
  next hnone =>
    have hrange : ∀ i ∈ indices, i < b.len := by simpa using hnone
    rw [and_iff_right hrange]
    cases b.trainYvar <;> rfl

theorem mapM_singleton {f : ℕ → Outcome (List D)} {i : ℕ} (h : f i = .ok row) :
    [i].mapM f = .ok [row] := mapM_ok_iff.mpr (.cons h .nil)

/-- What is read behind one of the indices is also read on its own. -/
theorem exists_readRows (h : readRows x y yvar indices = .ok rows) (hrow : row ∈ rows.y) :
    ∃ i ∈ indices, ∃ one, readRows x y yvar [i] = .ok one ∧ one.y = [row] ∧
      ∀ vs ∈ one.yvar, ∃ all ∈ rows.yvar, vs ⊆ all := by
  obtain ⟨xs, hxs, h⟩ := Outcome.bind_eq_ok.mp h
  obtain ⟨ys, hys, h⟩ := Outcome.bind_eq_ok.mp h
  cases yvar with
  | none =>
    obtain rfl := Outcome.pure_eq_ok.mp h
    obtain ⟨i, hi, hy⟩ := exists_mem_left (mapM_ok_iff.mp hys) hrow
    obtain ⟨xrow, -, hx⟩ := exists_mem_right (mapM_ok_iff.mp hxs) hi
    refine ⟨i, hi, ⟨[xrow], [row], none⟩, ?_, rfl, nofun⟩
    unfold readRows
    rw [mapM_singleton hx, mapM_singleton hy]
    rfl
  | some read =>
    obtain ⟨vs, hvs, h⟩ := Outcome.bind_eq_ok.mp h
    obtain rfl := Outcome.pure_eq_ok.mp h
    obtain ⟨i, hi, hy⟩ := exists_mem_left (mapM_ok_iff.mp hys) hrow
    obtain ⟨xrow, -, hx⟩ := exists_mem_right (mapM_ok_iff.mp hxs) hi
    obtain ⟨vrow, hvrow, hv⟩ := exists_mem_right (mapM_ok_iff.mp hvs) hi
    refine ⟨i, hi, ⟨[xrow], [row], some [vrow]⟩, ?_, rfl, ?_⟩
    · unfold readRows
      rw [mapM_singleton hx, mapM_singleton hy]
      change (do return (⟨[xrow], [row], some (← [i].mapM read)⟩ : TrainRowsAt D)) = _
      rw [mapM_singleton hv]
      rfl
    · rintro vs' ⟨⟩
      exact ⟨vs, rfl, by simpa using hvrow⟩

theorem length_readRows (h : readRows x y yvar indices = .ok rows) :
    rows.x.length = indices.length ∧ rows.y.length = indices.length := by
  obtain ⟨xs, hxs, h⟩ := Outcome.bind_eq_ok.mp h
  obtain ⟨ys, hys, h⟩ := Outcome.bind_eq_ok.mp h
  have hx := (mapM_ok_iff.mp hxs).length_eq
  have hy := (mapM_ok_iff.mp hys).length_eq
  cases yvar with
  | none =>
    obtain rfl := Outcome.pure_eq_ok.mp h
    exact ⟨hx.symm, hy.symm⟩
  | some read =>
    obtain ⟨vs, -, h⟩ := Outcome.bind_eq_ok.mp h
    obtain rfl := Outcome.pure_eq_ok.mp h
    exact ⟨hx.symm, hy.symm⟩

theorem EnnBackend.length_trainRowsAt {b : EnnBackend D F}
    (h : b.trainRowsAt indices = .ok rows) :
    rows.x.length = indices.length ∧ rows.y.length = indices.length := by
  cases b with
  | inMemory b => exact length_readRows (InMemoryEnnBackend.trainRowsAt_eq_ok.mp h).2
  | disk handle => exact length_readRows (BpannBackend.trainRowsAt_eq_ok.mp h).2

theorem EnnBackend.exists_trainRowsAt {b : EnnBackend D F} (h : b.trainRowsAt indices = .ok rows)
    (hrow : row ∈ rows.y) :
    ∃ i ∈ indices, ∃ one, b.trainRowsAt [i] = .ok one ∧ one.y = [row] ∧
      ∀ vs ∈ one.yvar, ∃ all ∈ rows.yvar, vs ⊆ all := by
  cases b with
  | inMemory b =>
    obtain ⟨hrange, h⟩ := InMemoryEnnBackend.trainRowsAt_eq_ok.mp h
    obtain ⟨i, hi, one, hone, hy⟩ := exists_readRows h hrow
    exact ⟨i, hi, one,
      InMemoryEnnBackend.trainRowsAt_eq_ok.mpr ⟨by simpa using hrange i hi, hone⟩, hy⟩
  | disk handle =>
    obtain ⟨hrange, h⟩ := BpannBackend.trainRowsAt_eq_ok.mp h
    obtain ⟨i, hi, one, hone, hy⟩ := exists_readRows h hrow
    exact ⟨i, hi, one, BpannBackend.trainRowsAt_eq_ok.mpr ⟨by simpa using hrange i hi, hone⟩, hy⟩

end Reading

namespace EpistemicNearestNeighbors

open YBounds (lower upper invScalar)

section Told

variable {D F : Type} [Floating D] [Analysis D] {m : EpistemicNearestNeighbors D F}
  {indices : List ℕ} {rows nat : TrainRowsAt D}

/-- A stored outcome row on the scale on which it was told. -/
def invRow (m : EpistemicNearestNeighbors D F) (row : List D) : List D :=
  if m.boundedOutputs then
    row.mapIdx fun j z => invScalar z (lower m.yBounds j) (upper m.yBounds j)
  else row

@[simp] theorem length_invRow (row : List D) : (m.invRow row).length = row.length := by
  unfold invRow
  split <;> simp

/-- Rows that a model with bounds converts: they have its width. -/
structure Convertible (m : EpistemicNearestNeighbors D F) (rows : TrainRowsAt D) : Prop where
  y : m.boundedOutputs = true → ∀ row ∈ rows.y, row.length = m.numMetrics
  yvar : m.boundedOutputs = true → ∀ vs ∈ rows.yvar, ∀ v ∈ vs, v.length = m.numMetrics

theorem invRow_of_unbounded (h : m.boundedOutputs = false) : m.invRow = id := by
  funext row
  simp [invRow, h]

theorem rows_invY {z : Array2 D} (h : m.boundedOutputs = true) :
    (YBounds.invY z m.yBounds).rows = z.rows.map m.invRow := by
  unfold invRow
  rw [h]
  rfl

theorem naturalizeRows_eq_ok {bounds z : Array2 D} {yvar out : Option (List (List D))}
    (h : naturalizeRows bounds z yvar = .ok out) :
    ∀ vs ∈ yvar, ∀ v ∈ vs, v.length = z.ncols := by
  rintro vs rfl
  obtain ⟨zvar, hzvar, -⟩ := Outcome.bind_eq_ok.mp h
  unfold rowsMatrix at hzvar
  split at hzvar
  next hwidth => exact hwidth
  next => cases hzvar

theorem exists_naturalizeRows (bounds : Array2 D) {z : Array2 D} {yvar : Option (List (List D))}
    (h : ∀ vs ∈ yvar, ∀ v ∈ vs, v.length = z.ncols) :
    ∃ out, naturalizeRows bounds z yvar = .ok out := by
  cases yvar with
  | none => exact ⟨none, rfl⟩
  | some vs =>
    have hvs : rowsMatrix z.ncols vs = .ok ⟨z.ncols, vs, h vs rfl⟩ := dif_pos (h vs rfl)
    unfold naturalizeRows
    dsimp only
    rw [hvs]
    exact ⟨_, dif_pos rfl⟩

/-- Natural rows are the converted ones of the backend. -/
theorem naturalRows_eq_ok (h : m.naturalRows indices = .ok nat) :
    ∃ rows, m.backend.trainRowsAt indices = .ok rows ∧ m.Convertible rows ∧ nat.x = rows.x ∧
      nat.y = rows.y.map m.invRow := by
  unfold naturalRows at h
  obtain ⟨rows, hrows, h⟩ := Outcome.bind_eq_ok.mp h
  refine ⟨rows, hrows, ?_⟩
  cases hb : m.boundedOutputs with
  | false =>
    rw [hb] at h
    obtain rfl := Outcome.pure_eq_ok.mp h
    refine ⟨⟨by simp [hb], by simp [hb]⟩, rfl, ?_⟩
    simp [invRow_of_unbounded hb]
  | true =>
    rw [hb] at h
    simp only [Bool.not_true, Bool.false_eq_true, if_false, Outcome.bind_eq_ok,
      Outcome.pure_eq_ok] at h
    obtain ⟨z, hz, yvar, hyvar, rfl⟩ := h
    obtain ⟨hcols, hz⟩ := rowsMatrix_eq_ok hz
    refine ⟨⟨fun _ => ?_, fun _ => ?_⟩, rfl, ?_⟩
    · rw [← hz, ← hcols]
      exact z.width
    · rw [← hcols]
      exact naturalizeRows_eq_ok hyvar
    · rw [rows_invY hb, hz]

theorem exists_naturalRows (h : m.backend.trainRowsAt indices = .ok rows)
    (hc : m.Convertible rows) : ∃ nat, m.naturalRows indices = .ok nat := by
  unfold naturalRows
  rw [h]
  cases hb : m.boundedOutputs with
  | false => exact ⟨rows, rfl⟩
  | true =>
    have hz : rowsMatrix m.numMetrics rows.y = .ok ⟨m.numMetrics, rows.y, hc.y hb⟩ :=
      dif_pos (hc.y hb)
    obtain ⟨out, hout⟩ := exists_naturalizeRows (z := ⟨m.numMetrics, rows.y, hc.y hb⟩) m.yBounds
      (hc.yvar hb)
    refine ⟨⟨rows.x, (YBounds.invY ⟨m.numMetrics, rows.y, hc.y hb⟩ m.yBounds).rows, out⟩, ?_⟩
    simp [hz, hout, bind, Except.bind, pure, Except.pure]

/-- As many different rows as are asked for. -/
structure Samples (sample : ℕ → ℕ → List ℕ) : Prop where
  length_eq : ∀ n p, p < n → (sample n p).length = p
  nodup : ∀ n p, p < n → (sample n p).Nodup
  lt : ∀ n p, p < n → ∀ i ∈ sample n p, i < n

theorem Samples.sampleIndices_lt {sample : ℕ → ℕ → List ℕ} (h : Samples sample) {p n i : ℕ}
    (hi : i ∈ sampleIndices sample p n) : i < n := by
  unfold sampleIndices at hi
  split at hi
  next => exact List.mem_range.mp hi
  next hne =>
    apply h.lt n (min p n) _ i hi
    omega

def onlySample (i n p : ℕ) : List ℕ := if p = 1 ∧ i < n then [i] else List.range p

theorem samples_onlySample (i : ℕ) : Samples (onlySample i) := by
  constructor
  · intro n p hp
    unfold onlySample
    split
    next h => rw [h.1, List.length_singleton]
    next => exact List.length_range
  · intro n p hp
    unfold onlySample
    split
    next => exact List.nodup_singleton i
    next => exact List.nodup_range
  · intro n p hp j hj
    unfold onlySample at hj
    split at hj
    next h => exact List.mem_singleton.mp hj ▸ h.2
    next => exact (List.mem_range.mp hj).trans hp

/-- Every stored outcome row is on the scale on which it was told. -/
def StoredAsTold (m : EpistemicNearestNeighbors D F) : Prop :=
  ∀ i < m.len, ∀ rows nat, m.backend.trainRowsAt [i] = .ok rows → m.naturalRows [i] = .ok nat →
    ∀ row ∈ rows.y, m.invRow row = row

theorem map_invRow {rs : List (List D)} :
    rs.map m.invRow = rs ↔ ∀ row ∈ rs, m.invRow row = row := by
  simpa using List.map_inj_left (l := rs) (f := m.invRow) (g := id)

/-- Rows that are read are natural rows, if they are stored as they were told. -/
theorem StoredAsTold.natural (h : m.StoredAsTold) (hindices : ∀ i ∈ indices, i < m.len)
    (hnat : m.naturalRows indices = .ok nat) :
    ∃ rows, m.backend.trainRowsAt indices = .ok rows ∧ rows.x = nat.x ∧ rows.y = nat.y := by
  obtain ⟨rows, hrows, hc, hx, hy⟩ := naturalRows_eq_ok hnat
  refine ⟨rows, hrows, hx.symm, ?_⟩
  rw [hy]
  symm
  apply map_invRow.mpr
  intro row hrow
  obtain ⟨i, hi, one, hone, honeY, honeYvar⟩ := EnnBackend.exists_trainRowsAt hrows hrow
  have hconvertible : m.Convertible one := by
    constructor
    · intro hb
      rw [honeY, List.forall_mem_singleton]
      exact hc.y hb row hrow
    · intro hb vs hvs v hv
      obtain ⟨all, hall, hsub⟩ := honeYvar vs hvs
      exact hc.yvar hb all hall v (hsub hv)
  obtain ⟨nat, hnat⟩ := exists_naturalRows hone hconvertible
  exact h i (hindices i hi) one nat hone hnat row (by simp [honeY])

end Told

section Scale

variable {D F : Type} [Floating D] [Floating F] [FloatCast D F] [Analysis D]
  {m : EpistemicNearestNeighbors D F} {faiss : Faiss F} {env : Env F}
  {sample : ℕ → ℕ → List ℕ} {x y : Array2 D} {paramss : List (ENNParams D)} {p : ℕ}
  {yStd : Option (List D)} {rows nat : TrainRowsAt D} {stdAxis : Array2 D → List D}

/-- Outcomes and predictions are scored on the scale on which outcomes are told. With fewer than
two observations nothing is scored. -/
structure OneScale (m : EpistemicNearestNeighbors D F) (stdAxis : Array2 D → List D) : Prop where
  /-- The likelihoods of sampled rows are those of the natural rows. -/
  logliks : ∀ (faiss : Faiss F) (env : Env F) sample (paramss : List (ENNParams D)) p yStd nat x y,
    Samples sample → paramss ≠ [] → 0 < p ∨ 0 < m.len →
    m.naturalRows (sampleIndices sample p m.len) = .ok nat → m.rowMatrices nat = .ok (x, y) →
    (subsampleLoglikModel faiss env sample stdAxis paramss p yStd m).1 =
      (subsampleLoglik faiss env sample stdAxis x y paramss p yStd m).1
  /-- A fit chooses a candidate whose natural rows are the most likely ones. -/
  ask : ∀ (faiss : Faiss F) (env : Env F) sample scales candidates p warmStart (f : ENNFitter D)
    best f' m' nat x y, Samples sample → 2 ≤ m.numObs →
    f.ask faiss env sample stdAxis scales candidates p warmStart m = (.ok (best, f'), m') →
    m.naturalRows (sampleIndices sample p m.len) = .ok nat → m.rowMatrices nat = .ok (x, y) →
    ∃ (paramss : List (ENNParams D)) (logliks : List D),
      f.candidates candidates scales warmStart = .ok paramss ∧
      (subsampleLoglik faiss env sample stdAxis x y paramss p (some f.yStd) m).1 = .ok logliks ∧
      ∃ (i : ℕ) (greatest : D), paramss[i]? = some best ∧ logliks[i]? = some greatest ∧
        ∀ l ∈ logliks, (totalCmp l greatest).isLE = true
  /-- The outcomes that are scored are natural ones. -/
  outcomes : ∀ sample p rows nat, Samples sample → 2 ≤ m.numObs →
    m.backend.trainRowsAt (sampleIndices sample p m.len) = .ok rows →
    m.naturalRows (sampleIndices sample p m.len) = .ok nat → rows.y = nat.y

theorem length_of_returns_mapM {σ α β : Type} {f : α → Call σ β} {as : List α} {bs : List β}
    {s s' : σ} (h : Call.Returns (as.mapM f) s bs s') : bs.length = as.length := by
  induction as generalizing s s' bs with
  | nil =>
    rw [List.mapM_nil] at h
    rw [← (Call.returns_pure.mp h).1]
    rfl
  | cons a as ih =>
    rw [List.mapM_cons] at h
    obtain ⟨b, s₁, -, h⟩ := Call.returns_bind.mp h
    obtain ⟨bs', s₂, hbs, h⟩ := Call.returns_bind.mp h
    rw [← (Call.returns_pure.mp h).1, List.length_cons, List.length_cons, ih hbs]

theorem length_computeBatchWithSharedNeighbors {first : ENNParams D} {flags : PosteriorFlags}
    {m' : EpistemicNearestNeighbors D F} {internals : List (DrawInternals D)}
    (h : Call.Returns (computeBatchWithSharedNeighbors faiss env x first paramss flags) m
      internals m') : internals.length = paramss.length := by
  unfold computeBatchWithSharedNeighbors at h
  obtain ⟨data, _, -, h⟩ := Call.returns_bind.mp h
  obtain ⟨_, _, -, h⟩ := Call.returns_bind.mp h
  cases data with
  | none => rw [← (Call.returns_pure.mp h).1, List.length_map]
  | some data =>
    have hmapM := (Call.returns_ofOutcome.mp h).1
    exact (mapM_ok_iff.mp hmapM).length_eq.symm

theorem length_batchPosterior {flags : PosteriorFlags} {m' : EpistemicNearestNeighbors D F}
    {post : List (Array2 (YBounds.NormalEntry D))}
    (h : Call.Returns (batchPosterior faiss env x paramss flags) m post m') :
    post.length = paramss.length := by
  unfold batchPosterior at h
  obtain ⟨_, _, -, h⟩ := Call.returns_bind.mp h
  cases paramss with
  | nil => simp at h
  | cons first rest =>
    dsimp only at h
    split at h
    · obtain ⟨internals, _, hinternals, h⟩ := Call.returns_bind.mp h
      obtain ⟨_, _, -, h⟩ := Call.returns_bind.mp h
      rw [← (Call.returns_pure.mp h).1, List.length_map]
      exact length_computeBatchWithSharedNeighbors hinternals
    · obtain ⟨internals, _, hinternals, h⟩ := Call.returns_bind.mp h
      obtain ⟨_, _, -, h⟩ := Call.returns_bind.mp h
      rw [← (Call.returns_pure.mp h).1, List.length_map]
      exact length_of_returns_mapM hinternals

theorem length_subsampleLoglik {logliks : List D}
    (h : (subsampleLoglik faiss env sample stdAxis x y paramss p yStd m).1 = .ok logliks) :
    logliks.length = paramss.length := by
  have hret : Call.Returns (subsampleLoglik faiss env sample stdAxis x y paramss p yStd) m logliks
      (subsampleLoglik faiss env sample stdAxis x y paramss p yStd m).2 := Prod.ext h rfl
  unfold subsampleLoglik at hret
  obtain ⟨_, _, -, hret⟩ := Call.returns_bind.mp hret
  obtain ⟨_, _, -, hret⟩ := Call.returns_bind.mp hret
  split at hret
  next => rw [← (Call.returns_pure.mp hret).1, List.length_replicate]
  split at hret
  next => rw [← (Call.returns_pure.mp hret).1, List.length_replicate]
  obtain ⟨_, _, -, hret⟩ := Call.returns_bind.mp hret
  obtain ⟨_, _, -, hret⟩ := Call.returns_bind.mp hret
  obtain ⟨post, _, hpost, hret⟩ := Call.returns_bind.mp hret
  split at hret
  next => simp at hret
  dsimp only at hret
  split at hret
  next => simp at hret
  rw [← (Call.returns_pure.mp hret).1, List.length_map, length_batchPosterior hpost]

omit [Floating D] [Floating F] [FloatCast D F] [Analysis D] in
theorem rowMatrices_congr (hx : rows.x = nat.x) (hy : rows.y = nat.y) :
    m.rowMatrices rows = m.rowMatrices nat := by
  unfold rowMatrices
  rw [hx, hy]

theorem fst_subsampleLoglik_of_numObs (h : m.numObs ≤ 1) :
    (subsampleLoglik faiss env sample stdAxis x y paramss p yStd m).1 =
      (validateSubsampleInputs x y p paramss.length).map fun _ =>
        List.replicate paramss.length 0 := by
  unfold subsampleLoglik
  cases hvalid : validateSubsampleInputs x y p paramss.length with
  | error e => rfl
  | ok u =>
    rw [Call.ok_bind_apply, Call.get_bind_apply]
    rw [if_pos (.inr h)]
    rfl

theorem StoredAsTold.logliks (h : m.StoredAsTold) (hs : Samples sample)
    (hnat : m.naturalRows (sampleIndices sample p m.len) = .ok nat)
    (hxy : m.rowMatrices nat = .ok (x, y)) (hlen : 0 < m.len) (hp : paramss ≠ []) :
    (subsampleLoglikModel faiss env sample stdAxis paramss p yStd m).1 =
      (subsampleLoglik faiss env sample stdAxis x y paramss p yStd m).1 := by
  obtain ⟨rows, hrows, hx, hy⟩ := h.natural (fun i hi => hs.sampleIndices_lt hi) hnat
  unfold subsampleLoglikModel
  rw [Call.get_bind_apply, if_neg (by simp [hp]; omega), hrows, Call.ok_bind_apply,
    rowMatrices_congr hx hy, hxy, Call.ok_bind_apply]

omit [Floating D] [Analysis D] in
theorem validateSubsampleInputs_congr {y' : Array2 D} (h : y'.nrows = y.nrows) (n : ℕ) :
    validateSubsampleInputs x y' p n = validateSubsampleInputs x y p n := by
  unfold validateSubsampleInputs
  rw [h]

omit [Floating F] [FloatCast D F] in
/-- Rows that are converted have the width of the outcomes. -/
theorem exists_rowMatrices (hc : m.rowMatrices nat = .ok (x, y)) (hx : nat.x = rows.x)
    (hy : nat.y = rows.y.map m.invRow) :
    ∃ y', m.rowMatrices rows = .ok (x, y') ∧ x.nrows = rows.x.length ∧
      y'.nrows = rows.y.length ∧ y.nrows = rows.y.length := by
  obtain ⟨x', hx', hc⟩ := Outcome.bind_eq_ok.mp hc
  obtain ⟨y', hy', hc⟩ := Outcome.bind_eq_ok.mp hc
  obtain ⟨rfl, rfl⟩ := Prod.mk.inj (Outcome.pure_eq_ok.mp hc)
  obtain ⟨hcols, hrows⟩ := rowsMatrix_eq_ok hy'
  have hwidth : ∀ row ∈ rows.y, row.length = m.numMetrics := by
    intro row hrow
    have hmem : m.invRow row ∈ y'.rows := by
      rw [hrows, hy]
      exact List.mem_map_of_mem hrow
    rw [← length_invRow (m := m) row, y'.width _ hmem, hcols]
  refine ⟨⟨m.numMetrics, rows.y, hwidth⟩, ?_, ?_, rfl, ?_⟩
  · have hz : rowsMatrix m.numMetrics rows.y = .ok ⟨m.numMetrics, rows.y, hwidth⟩ :=
      dif_pos hwidth
    unfold rowMatrices
    rw [← hx, hx', hz]
    rfl
  · unfold Array2.nrows
    rw [(rowsMatrix_eq_ok hx').2, hx]
  · unfold Array2.nrows
    rw [hrows, hy, List.length_map]

/-- With fewer than two observations the scale of the outcomes does not matter. -/
theorem logliks_of_numObs (h : m.numObs ≤ 1)
    (hnat : m.naturalRows (sampleIndices sample p m.len) = .ok nat)
    (hxy : m.rowMatrices nat = .ok (x, y)) (hp : paramss ≠ []) (hpos : 0 < p ∨ 0 < m.len) :
    (subsampleLoglikModel faiss env sample stdAxis paramss p yStd m).1 =
      (subsampleLoglik faiss env sample stdAxis x y paramss p yStd m).1 := by
  obtain ⟨rows, hrows, hc, hx, hy⟩ := naturalRows_eq_ok hnat
  obtain ⟨y', hxy', hn, hnY', hnY⟩ := exists_rowMatrices hxy hx hy
  rw [fst_subsampleLoglik_of_numObs h]
  unfold subsampleLoglikModel
  rw [Call.get_bind_apply]
  by_cases hlen : m.len = 0
  · have hvalid : validateSubsampleInputs x y p paramss.length = .ok () := by
      obtain ⟨hlenX, hlenY⟩ := EnnBackend.length_trainRowsAt hrows
      unfold validateSubsampleInputs
      rw [if_neg (by omega), if_neg (by omega), if_neg (by simp [hp])]
      rfl
    have hmax : max paramss.length 1 = paramss.length :=
      max_eq_left (List.length_pos_of_ne_nil hp)
    rw [if_pos (.inl hlen), hvalid, hmax]
    rfl
  · rw [if_neg (by simp [hlen, hp]), hrows, Call.ok_bind_apply, hxy', Call.ok_bind_apply,
      fst_subsampleLoglik_of_numObs h, validateSubsampleInputs_congr (hnY'.trans hnY.symm)]

/-- What a fit returns for a model with two observations. -/
theorem returns_ask {scales : ℕ → D} {candidates : ℕ} {warmStart : Option (ENNParams D)}
    {f f' : ENNFitter D} {best : ENNParams D} {m' : EpistemicNearestNeighbors D F}
    (hobs : 2 ≤ m.numObs)
    (h : f.ask faiss env sample stdAxis scales candidates p warmStart m = (.ok (best, f'), m')) :
    ∃ paramss rows x y logliks, f.candidates candidates scales warmStart = .ok paramss ∧
      m.backend.trainRowsAt (sampleIndices sample p m.len) = .ok rows ∧
      m.rowMatrices rows = .ok (x, y) ∧
      (subsampleLoglik faiss env sample stdAxis x y paramss p (some f.yStd) m).1 = .ok logliks ∧
      paramss[ENNFitter.bestIdx logliks]? = some best := by
  have hret :
      Call.Returns (f.ask faiss env sample stdAxis scales candidates p warmStart) m (best, f') m' :=
    h
  unfold ENNFitter.ask at hret
  rw [Call.returns_bind] at hret
  obtain ⟨_, _, hget, hret⟩ := hret
  obtain ⟨rfl, rfl⟩ := Call.returns_get.mp hget
  rw [if_neg (by omega)] at hret
  split at hret
  next => simp at hret
  next =>
    simp only [Call.returns_bind, Call.returns_ofOutcome] at hret
    obtain ⟨paramss, _, ⟨hparams, rfl⟩, rows, _, ⟨hrows, rfl⟩, ⟨x, y⟩, _, ⟨hxy, rfl⟩, logliks,
      _, hlogliks, _, _, ⟨hbest, rfl⟩, hpure⟩ := hret
    obtain ⟨rfl, -⟩ := Prod.mk.inj (Call.returns_pure.mp hpure).1
    exact ⟨paramss, rows, x, y, logliks, hparams, hrows, hxy, congrArg Prod.fst hlogliks,
      Outcome.ofOption_eq_ok.mp hbest⟩

theorem StoredAsTold.ask [LawfulOrder D] (h : m.StoredAsTold) (hs : Samples sample)
    {scales : ℕ → D} {candidates : ℕ} {warmStart : Option (ENNParams D)}
    {f f' : ENNFitter D} {best : ENNParams D} {m' : EpistemicNearestNeighbors D F}
    (hobs : 2 ≤ m.numObs)
    (hask : f.ask faiss env sample stdAxis scales candidates p warmStart m = (.ok (best, f'), m'))
    (hnat : m.naturalRows (sampleIndices sample p m.len) = .ok nat)
    (hxy : m.rowMatrices nat = .ok (x, y)) :
    ∃ (paramss : List (ENNParams D)) (logliks : List D),
      f.candidates candidates scales warmStart = .ok paramss ∧
      (subsampleLoglik faiss env sample stdAxis x y paramss p (some f.yStd) m).1 = .ok logliks ∧
      ∃ (i : ℕ) (greatest : D), paramss[i]? = some best ∧ logliks[i]? = some greatest ∧
        ∀ l ∈ logliks, (totalCmp l greatest).isLE = true := by
  obtain ⟨paramss, rows, x', y', logliks, hparams, hrows, hxy', hlogliks, hbest⟩ :=
    returns_ask hobs hask
  obtain ⟨rows', hrows', hx, hy⟩ := h.natural (fun i hi => hs.sampleIndices_lt hi) hnat
  obtain rfl := Except.ok.inj (hrows.symm.trans hrows')
  rw [rowMatrices_congr hx hy, hxy] at hxy'
  obtain ⟨rfl, rfl⟩ := Prod.mk.inj (Except.ok.inj hxy')
  have hne : logliks ≠ [] := by
    rintro rfl
    have hlen := length_subsampleLoglik hlogliks
    obtain rfl : paramss = [] := List.eq_nil_of_length_eq_zero hlen.symm
    simp at hbest
  obtain ⟨greatest, hgreatest, hmax⟩ := ENNFitter.bestIdx_spec hne
  exact ⟨paramss, logliks, hparams, hlogliks, _, greatest, hbest, hgreatest, hmax⟩

/-- Outcomes are scored on the scale on which they are told exactly when no outcome in store is
changed by the conversion, or nothing is scored. -/
theorem oneScale_iff [LawfulOrder D] (m : EpistemicNearestNeighbors D F)
    (stdAxis : Array2 D → List D) : m.OneScale stdAxis ↔ m.numObs ≤ 1 ∨ m.StoredAsTold := by
  constructor
  · intro h
    by_cases hobs : m.numObs ≤ 1
    · exact .inl hobs
    · right
      intro i hi rows nat hrows hnat
      have hlen : 2 ≤ m.len := not_le.mp hobs
      obtain ⟨rows', hrows', -, -, hy⟩ := naturalRows_eq_ok hnat
      obtain rfl := Except.ok.inj (hrows.symm.trans hrows')
      have hindices : sampleIndices (onlySample i) 1 m.len = [i] := by
        unfold sampleIndices onlySample
        rw [min_eq_left (by omega), if_neg (by omega), if_pos ⟨rfl, hi⟩]
      have hsame : rows.y = nat.y := h.outcomes (onlySample i) 1 rows nat (samples_onlySample i)
        hlen (by rwa [hindices]) (by rwa [hindices])
      exact map_invRow.mp (hy.symm.trans hsame.symm)
  · rintro (hobs | h)
    · constructor
      · intro faiss env sample paramss p yStd nat x y hs hp hpos hnat hxy
        exact logliks_of_numObs hobs hnat hxy hp hpos
      · intros
        omega
      · intros
        omega
    · constructor
      · intro faiss env sample paramss p yStd nat x y hs hp hpos hnat hxy
        by_cases hobs : m.numObs ≤ 1
        · exact logliks_of_numObs hobs hnat hxy hp hpos
        · have hlen : 2 ≤ m.len := not_le.mp hobs
          exact h.logliks hs hnat hxy (by omega) hp
      · intro faiss env sample scales candidates p warmStart f best f' m' nat x y hs hobs hask
          hnat hxy
        exact h.ask hs hobs hask hnat hxy
      · intro sample p rows nat hs _ hrows hnat
        obtain ⟨rows', hrows', -, hy⟩ := h.natural (fun i hi => hs.sampleIndices_lt hi) hnat
        obtain rfl := Except.ok.inj (hrows.symm.trans hrows')
        exact hy

omit [Floating F] [FloatCast D F] in
theorem storedAsTold_of_unbounded (h : m.boundedOutputs = false) : m.StoredAsTold := by
  intro i _ rows nat _ _ row _
  rw [invRow_of_unbounded h]
  rfl

end Scale

section Example

def aboveZero : Array2 ℚ := ⟨2, [[0, infinity]], by simp⟩

def ones (bounds : Option (Array2 ℚ)) : Outcome (EpistemicNearestNeighbors ℚ ℚ) :=
  newWithOptions defaultEnv (.column [0, 1]) (.column [1, 1]) none { yBounds := bounds }

theorem returns_ones : (ones none).returns = true := by decide +kernel

theorem returns_ones_aboveZero : (ones (some aboveZero)).returns = true := by decide +kernel

theorem samples_range : Samples fun _ p => List.range p where
  length_eq _ _ _ := List.length_range
  nodup _ _ _ := List.nodup_range
  lt _ _ hp _ hi := (List.mem_range.mp hi).trans hp

theorem oneScale_ones : ∃ m, ones none = .ok m ∧ m.OneScale populationStd := by
  refine ⟨_, Outcome.eq_ok_value returns_ones, (oneScale_iff _ _).mpr (.inr ?_)⟩
  exact storedAsTold_of_unbounded (by decide +kernel)

/-- The outcomes in store are zero, and the predictions are one. -/
theorem not_oneScale_aboveZero :
    ∃ m, ones (some aboveZero) = .ok m ∧ ¬ m.OneScale populationStd := by
  refine ⟨_, Outcome.eq_ok_value returns_ones_aboveZero, fun h => ?_⟩
  have hsame := h.logliks .flat defaultEnv (fun _ p => List.range p) [⟨1, 1, 0⟩] 2 none
    ⟨[[0], [1]], [[1], [1]], none⟩ (.column [0, 1]) (.column [1, 1]) samples_range (by simp)
    (.inl Nat.two_pos) (by decide +kernel) (by decide +kernel)
  exact absurd hsame (by decide +kernel)

end Example

end EpistemicNearestNeighbors

end Ennbo
