import Ennbo.Model.Fit
import Ennbo.Moments

/-! # Statistics of a fitter

A fitter keeps the sums of the outcomes and of their squares. However the outcomes
are told, the sums are those of all rows at once, so what comes from them are the
deviations of all rows.
-/

namespace Ennbo

namespace ENNFitter

section Definitions

variable {D F : Type} [Floating D] [Floating F] [FloatCast D F] [Analysis D]

/-- `sum_axis(Axis(0))` -/
def sumAxis (n : ℕ) (rows : List (List D)) : List D :=
  (List.range n).map fun j => (rows.map fun row => row.getD j 0).foldl (· + ·) 0

def square (row : List D) : List D := row.map fun v => v * v

def resetYStats (y : Array2 D) (f : ENNFitter D) : ENNFitter D :=
  { f with
    yCount := y.nrows
    numMetrics := y.ncols
    ySum := sumAxis y.ncols y.rows
    ySumsq := sumAxis y.ncols (y.rows.map square) }

def addRow (sums row : List D) : List D := List.zipWith (· + ·) sums row ++ sums.drop row.length

/-- A column without a sum panics. -/
def updateY (yNew : Array2 D) : Call (ENNFitter D) Unit :=
  if yNew.nrows = 0 then return ()
  else do
    Call.modify fun f => { f with numMetrics := yNew.ncols }
    let f ← Call.get
    if f.yCount = 0 then Call.modify (resetYStats yNew)
    else if f.ySum.length < yNew.ncols then Call.ofOutcome (throw .panic)
    else Call.modify fun f => { f with
      ySum := yNew.rows.foldl addRow f.ySum
      ySumsq := (yNew.rows.map square).foldl addRow f.ySumsq
      yCount := f.yCount + yNew.nrows }

def allFinite (a : Array2 D) : Bool := a.rows.all fun row => row.all isFinite

def validateYvar (y yv : Array2 D) : Outcome Unit :=
  if !allFinite yv then
    throw (.error (.invalidParameter "yvar must contain only finite values"))
  else if yv.nrows ≠ y.nrows then
    throw (.error (.invalidParameter
      s!"yvar and y must have same number of rows: {yv.nrows} vs {y.nrows}"))
  else if yv.ncols ≠ y.ncols then
    throw (.error (.invalidParameter
      s!"yvar and y must have same number of columns: {yv.ncols} vs {y.ncols}"))
  else pure ()

def validateTell (x y : Array2 D) (yvar : Option (Array2 D)) : Outcome Unit :=
  if !allFinite x then throw (.error (.invalidParameter "x must contain only finite values"))
  else if !allFinite y then throw (.error (.invalidParameter "y must contain only finite values"))
  else if x.nrows ≠ y.nrows then
    throw (.error (.invalidParameter
      s!"x and y must have same number of rows: {x.nrows} vs {y.nrows}"))
  else yvar.elim (pure ()) (validateYvar y)

def tell (x y : Array2 D) (yvar : Option (Array2 D)) : Call (ENNFitter D) Unit := do
  Call.ofOutcome (validateTell x y yvar)
  updateY y

/-- A fitter that rows of `m` outcomes were told to, between asks and tells that were refused. -/
inductive Told (F : Type) [Floating F] [FloatCast D F] (k : ℤ) (infer : Bool) (m : ℕ) :
    List (List D) → ENNFitter D → Prop where
  | new : Told F k infer m [] (.new k infer)
  | tell {told : List (List D)} {f f' : ENNFitter D} {x y : Array2 D} {yvar : Option (Array2 D)} :
    Told F k infer m told f → y.ncols = m → Call.Returns (tell x y yvar) f () f' →
      Told F k infer m (told ++ y.rows) f'
  | refused {told : List (List D)} {f f' : ENNFitter D} {x y : Array2 D}
    {yvar : Option (Array2 D)} {e : BpannError} :
    Told F k infer m told f → tell x y yvar f = (.error (.error e), f') → Told F k infer m told f'
  | ask {told : List (List D)} {f f' : ENNFitter D} {faiss : Faiss F} {env : Env F}
    {sample : ℕ → ℕ → List ℕ} {stdAxis : Array2 D → List D} {scales : ℕ → D}
    {numFitCandidates numFitSamples : ℕ} {warmStart : Option (ENNParams D)} {best : ENNParams D}
    {model model' : EpistemicNearestNeighbors D F} :
    Told F k infer m told f →
      Call.Returns
        (ask faiss env sample stdAxis scales numFitCandidates numFitSamples warmStart f) model
        (best, f') model' →
      Told F k infer m told f'

end Definitions

section Sums

variable {D F : Type} [Floating D] [Floating F] [FloatCast D F] [Analysis D] {k : ℤ}
  {infer : Bool} {m : ℕ} {told : List (List D)} {f f' : ENNFitter D} {x y : Array2 D}
  {yvar : Option (Array2 D)}

omit [Analysis D] in
theorem length_sumAxis (n : ℕ) (rows : List (List D)) : (sumAxis n rows).length = n := by
  simp [sumAxis]

omit [Analysis D] in
theorem sumAxis_append_singleton {n : ℕ} (rows : List (List D)) {row : List D}
    (h : row.length = n) : sumAxis n (rows ++ [row]) = addRow (sumAxis n rows) row := by
  have hdrop : (sumAxis n rows).drop row.length = [] := by
    rw [h, List.drop_eq_nil_of_le (length_sumAxis n rows).le]
  rw [addRow, hdrop, List.append_nil]
  ext j : 1
  by_cases hj : j < n
  · have hrow : row[j]? = some row[j] := List.getElem?_eq_getElem (h.symm ▸ hj)
    simp [sumAxis, hj, hrow, List.getElem?_zipWith, List.getD_eq_getElem?_getD]
  · have hnone : (sumAxis n (rows ++ [row]))[j]? = none := by simp [sumAxis, hj]
    rw [hnone, List.getElem?_eq_none]
    simp only [List.length_zipWith, length_sumAxis, h, min_self]
    exact not_lt.mp hj

omit [Analysis D] in
theorem sumAxis_append {n : ℕ} (rows more : List (List D)) (h : ∀ row ∈ more, row.length = n) :
    sumAxis n (rows ++ more) = more.foldl addRow (sumAxis n rows) := by
  induction more generalizing rows with
  | nil => rw [List.append_nil, List.foldl_nil]
  | cons row more ih =>
    rw [List.forall_mem_cons] at h
    rw [List.foldl_cons, ← sumAxis_append_singleton rows h.1, ← ih _ h.2, List.append_assoc,
      List.singleton_append]

/-- The sums of the rows that were told. -/
structure Sums (m : ℕ) (told : List (List D)) (f : ENNFitter D) : Prop where
  width : ∀ row ∈ told, row.length = m
  yCount_eq : f.yCount = told.length
  numMetrics_eq : f.numMetrics = if told = [] then 0 else m
  ySum_eq : told ≠ [] → f.ySum = sumAxis m told
  ySumsq_eq : told ≠ [] → f.ySumsq = sumAxis m (told.map square)

omit [Analysis D] in
theorem Sums.resetYStats (hcols : y.ncols = m) (hne : y.rows ≠ []) :
    (f.resetYStats y).Sums m y.rows where
  width row hrow := (y.width row hrow).trans hcols
  yCount_eq := rfl
  numMetrics_eq := by
    rw [if_neg hne]
    exact hcols
  ySum_eq _ := by
    rw [← hcols]
    rfl
  ySumsq_eq _ := by
    rw [← hcols]
    rfl

/-- The rows of a tell come after those before. -/
theorem Sums.tell (h : f.Sums m told) (hcols : y.ncols = m)
    (htell : Call.Returns (tell x y yvar) f () f') : f'.Sums m (told ++ y.rows) := by
  unfold ENNFitter.tell updateY at htell
  simp only [Call.returns_bind, Call.returns_ofOutcome] at htell
  obtain ⟨_, _, ⟨-, rfl⟩, htell⟩ := htell
  split at htell
  next hzero =>
    obtain ⟨-, rfl⟩ := Call.returns_pure.mp htell
    rwa [List.eq_nil_of_length_eq_zero hzero, List.append_nil]
  next hrows =>
    have hne : y.rows ≠ [] := fun hnil => hrows (congrArg List.length hnil)
    have hwidth : ∀ row ∈ y.rows, row.length = m := fun row hrow => (y.width row hrow).trans hcols
    simp only [Call.returns_bind] at htell
    obtain ⟨_, _, hmodify, _, _, hget, htell⟩ := htell
    obtain ⟨-, rfl⟩ := Prod.mk.inj hmodify
    obtain ⟨rfl, rfl⟩ := Call.returns_get.mp hget
    split at htell
    next hcount =>
      obtain ⟨-, rfl⟩ := Prod.mk.inj htell
      have hnil : told = [] := List.eq_nil_of_length_eq_zero (h.yCount_eq.symm.trans hcount)
      rw [hnil, List.nil_append]
      exact Sums.resetYStats hcols hne
    next hcount =>
      have htold : told ≠ [] := by
        rintro rfl
        exact hcount h.yCount_eq
      split at htell
      next => simp at htell
      next =>
        obtain ⟨-, rfl⟩ := Prod.mk.inj htell
        refine ⟨?_, ?_, ?_, fun _ => ?_, fun _ => ?_⟩
        · exact List.forall_mem_append.mpr ⟨h.width, hwidth⟩
        · rw [List.length_append, ← h.yCount_eq]
          rfl
        · rw [if_neg (by simp [htold])]
          exact hcols
        · rw [sumAxis_append _ _ hwidth, ← h.ySum_eq htold]
        · rw [List.map_append, sumAxis_append _ _ (by simpa [square] using hwidth),
            ← h.ySumsq_eq htold]

theorem eq_of_tell_error {e : BpannError} (h : tell x y yvar f = (.error (.error e), f')) :
    f' = f := by
  unfold tell updateY at h
  cases hvalid : validateTell x y yvar with
  | error failure =>
    rw [hvalid] at h
    exact (Prod.mk.inj h).2.symm
  | ok =>
    rw [hvalid, Call.ok_bind_apply] at h
    split at h
    next => cases (Prod.mk.inj h).1
    next =>
      rw [Call.modify_bind_apply, Call.get_bind_apply] at h
      split at h
      next => cases (Prod.mk.inj h).1
      next =>
        split at h
        next => cases (Prod.mk.inj h).1
        next => cases (Prod.mk.inj h).1

/-- An ask changes the parameters only. -/
theorem exists_params_of_ask {faiss : Faiss F} {env : Env F} {sample : ℕ → ℕ → List ℕ}
    {stdAxis : Array2 D → List D} {scales : ℕ → D} {numFitCandidates numFitSamples : ℕ}
    {warmStart : Option (ENNParams D)} {best : ENNParams D}
    {model model' : EpistemicNearestNeighbors D F}
    (h : Call.Returns
      (ask faiss env sample stdAxis scales numFitCandidates numFitSamples warmStart f) model
      (best, f') model') : f' = { f with params := some best } := by
  unfold ask at h
  rw [Call.returns_bind] at h
  obtain ⟨_, _, hget, h⟩ := h
  obtain ⟨rfl, rfl⟩ := Call.returns_get.mp hget
  split at h
  next =>
    obtain ⟨_, _, -, h⟩ := Call.returns_bind.mp h
    obtain ⟨rfl, rfl⟩ := Prod.mk.inj (Call.returns_pure.mp h).1
    rfl
  next =>
    split at h
    next => simp at h
    next =>
      simp only [Call.returns_bind, Call.returns_ofOutcome] at h
      obtain ⟨_, _, -, _, _, -, ⟨_, _⟩, _, -, _, _, -, _, _, -, h⟩ := h
      obtain ⟨rfl, rfl⟩ := Prod.mk.inj (Call.returns_pure.mp h).1
      rfl

theorem Told.sums (h : Told F k infer m told f) : f.Sums m told := by
  induction h with
  | new => exact ⟨nofun, rfl, rfl, fun hne => absurd rfl hne, fun hne => absurd rfl hne⟩
  | tell _ hcols htell ih => exact ih.tell hcols htell
  | refused _ htell ih => exact eq_of_tell_error htell ▸ ih
  | ask _ hask ih =>
    obtain rfl := exists_params_of_ask hask
    exact ⟨ih.width, ih.yCount_eq, ih.numMetrics_eq, ih.ySum_eq, ih.ySumsq_eq⟩

omit [Analysis D] in
theorem Sums.eq_resetYStats (h : f.Sums y.ncols y.rows) (hne : y.rows ≠ []) :
    f = f.resetYStats y := by
  obtain ⟨k, infer, params, ySum, ySumsq, yCount, numMetrics⟩ := f
  have hmetrics := h.numMetrics_eq
  rw [if_neg hne] at hmetrics
  have hcount := h.yCount_eq
  have hsum := h.ySum_eq hne
  have hsumsq := h.ySumsq_eq hne
  dsimp only at hmetrics hcount hsum hsumsq
  subst hmetrics hcount hsum hsumsq
  rfl

end Sums

section Exact

variable {K F : Type} [ExactArith K] [Analysis K] [Floating F] [FloatCast K F] {k : ℤ}
  {infer : Bool} {f : ENNFitter K} {y : Array2 K}

omit [Analysis K] in
theorem getD_sumAxis {n j : ℕ} (hj : j < n) (rows : List (List K)) :
    (sumAxis n rows).getD j 0 = (rows.map fun row => row.getD j 0).sum := by
  rw [List.sum_eq_foldl, List.getD_eq_getElem _ _ (by simpa [sumAxis] using hj)]
  simp [sumAxis]

omit [Analysis K] in
theorem getD_square (row : List K) (j : ℕ) :
    (square row).getD j 0 = row.getD j 0 * row.getD j 0 := by
  by_cases hj : j < row.length
  · simp [square, List.getD_eq_getElem?_getD, hj]
  · simp [square, List.getD_eq_getElem?_getD, hj]

/-- However the rows were told, the deviations are those of all rows. -/
theorem yStd_of_told {stdAxis : Array2 K → List K} (hstd : stdAxis y = populationStd y)
    (h : Told F k infer y.ncols y.rows f) :
    (y.rows ≠ [] → f = f.resetYStats y) ∧
      f.yStd = if y.rows = [] then [1] else (stdAxis y).map safeStd := by
  have hsums := h.sums
  refine ⟨hsums.eq_resetYStats, ?_⟩
  unfold yStd
  split_ifs with hcount hnil hnil
  · rw [hsums.numMetrics_eq, if_pos hnil]
    rfl
  · exact absurd (List.eq_nil_of_length_eq_zero (hsums.yCount_eq.symm.trans hcount)) hnil
  · exact absurd (hsums.yCount_eq.trans (congrArg List.length hnil)) hcount
  · rw [hstd, populationStd, List.map_map, hsums.numMetrics_eq, if_neg hnil]
    refine List.map_congr_left fun j hj => ?_
    have hj : j < y.ncols := List.mem_range.mp hj
    have hcolumn : (y.rows.map fun row => row.getD j 0) ≠ [] := by simpa using hnil
    have hsquares : ((y.rows.map square).map fun row => row.getD j 0).sum =
        ((y.rows.map fun row => row.getD j 0).map fun v => v * v).sum := by
      simp only [List.map_map, Function.comp_def, getD_square]
    have hvariance := mean_squares_sub _ hcolumn
    simp only [Function.comp_apply, hsums.yCount_eq, hsums.ySum_eq hnil, hsums.ySumsq_eq hnil,
      getD_sumAxis hj, hsquares, ← List.sum_eq_foldl, List.length_map]
    unfold mean deviations mean at hvariance
    rw [List.length_map] at hvariance
    rw [hvariance]

end Exact

section Example

def twoTold : ENNFitter ℚ := (tell (.column [0, 1]) (.column [1, 3]) none (new 1 false)).2

def threeTold : ENNFitter ℚ := (tell (.column [2]) (.column [5]) none twoTold).2

theorem told_three : Told ℚ 1 false 1 [[1], [3], [5]] threeTold := by
  have htwo : Call.Returns (tell (.column [0, 1]) (.column [1, 3]) none) (new 1 false) () twoTold :=
    rfl
  have hrefused : ∃ e, tell (.column [2]) (.column [5, 7]) none twoTold =
    (.error (.error e), twoTold) := ⟨_, rfl⟩
  have hthree : Call.Returns (tell (.column [2]) (.column [5]) none) twoTold () threeTold := rfl
  have htold : Told ℚ 1 false 1 ([] ++ [[1], [3]]) twoTold := Told.new.tell rfl htwo
  obtain ⟨e, he⟩ := hrefused
  exact (htold.refused he).tell (y := .column [5]) rfl hthree

theorem yStd_of_told_three :
    ((Array2.column [(1 : ℚ), 3, 5]).rows ≠ [] →
        threeTold = threeTold.resetYStats (.column [1, 3, 5])) ∧
      threeTold.yStd = if (Array2.column [(1 : ℚ), 3, 5]).rows = [] then [1]
        else (populationStd (.column [1, 3, 5])).map safeStd :=
  yStd_of_told rfl told_three

end Example

end ENNFitter

end Ennbo
