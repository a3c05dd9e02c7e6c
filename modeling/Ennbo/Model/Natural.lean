import Ennbo.Model.Interleaving
import Ennbo.Model.Scales

/-! # Natural rows

A model in memory stores its outputs and their variances warped and reads them
back on the scale on which they were told. The rows that were told are kept
beside the run, so that what is read can be compared with them.
-/

namespace Ennbo

open YBounds (lower upper outside warpScalar invScalar warpJacobian invJacobian validateBounds)

variable {D F : Type}

/-- A row as it is told. -/
structure ToldRow (D : Type) where
  x : List D
  y : List D
  yvar : Option (List D)

section Told

/-- The rows of a call. -/
def toldRows (x y : Array2 D) : Option (Array2 D) → List (ToldRow D)
  | none => List.zipWith (fun x y => ⟨x, y, none⟩) x.rows y.rows
  | some v => List.zipWith (fun x (p : List D × List D) => ⟨x, p.1, some p.2⟩) x.rows
      (y.rows.zip v.rows)

variable {x y : Array2 D} {yvar : Option (Array2 D)}

theorem toldRows_of_nrows (h : x.nrows = 0) : toldRows x y yvar = [] := by
  have hrows : x.rows = [] := List.eq_nil_of_length_eq_zero h
  cases yvar <;> simp [toldRows, hrows]

theorem length_toldRows (hn : x.nrows = y.nrows)
    (hv : ∀ v, yvar = some v → v.nrows = y.nrows) : (toldRows x y yvar).length = x.nrows := by
  unfold Array2.nrows at *
  cases yvar with
  | none => simp [toldRows, hn]
  | some v => simp [toldRows, hn, hv v rfl]

theorem map_x_toldRows (hn : x.nrows = y.nrows) (hv : ∀ v, yvar = some v → v.nrows = y.nrows) :
    (toldRows x y yvar).map ToldRow.x = x.rows := by
  unfold Array2.nrows at *
  cases yvar with
  | none => apply List.ext_getElem <;> simp [toldRows, hn]
  | some v => apply List.ext_getElem <;> simp [toldRows, hn, hv v rfl]

theorem map_y_toldRows (hn : x.nrows = y.nrows) (hv : ∀ v, yvar = some v → v.nrows = y.nrows) :
    (toldRows x y yvar).map ToldRow.y = y.rows := by
  unfold Array2.nrows at *
  cases yvar with
  | none => apply List.ext_getElem <;> simp [toldRows, hn]
  | some v => apply List.ext_getElem <;> simp [toldRows, hn, hv v rfl]

theorem yvar_of_mem_toldRows {r : ToldRow D} (h : r ∈ toldRows x y none) : r.yvar = none := by
  obtain ⟨i, hi, rfl⟩ := List.getElem_of_mem h
  simp [toldRows]

theorem exists_yvar_of_mem_toldRows {v : Array2 D} {r : ToldRow D}
    (h : r ∈ toldRows x y (some v)) : ∃ row ∈ v.rows, r.yvar = some row := by
  obtain ⟨i, hi, rfl⟩ := List.getElem_of_mem h
  simp only [toldRows, List.length_zipWith, List.length_zip] at hi
  exact ⟨v.rows[i], List.getElem_mem _, by simp [toldRows]⟩

theorem map_toldRows_some {E : Type} (f : List D → List D → E) {v : Array2 D}
    (hn : x.nrows = y.nrows) (hv : v.nrows = y.nrows) :
    (toldRows x y (some v)).map (fun r => f r.y (r.yvar.getD [])) =
      List.zipWith f y.rows v.rows := by
  unfold Array2.nrows at *
  apply List.ext_getElem <;> simp [toldRows, hn, hv]

end Told

namespace EpistemicNearestNeighbors

variable [Floating D] [Analysis D] {m m' : EpistemicNearestNeighbors D F} {x y : Array2 D}
  {yvar : Option (Array2 D)} {given : Bool} {rows : List (ToldRow D)} {r : ToldRow D}

/-- An output row as it is stored. -/
def storedY (m : EpistemicNearestNeighbors D F) (y : List D) : List D :=
  if m.boundedOutputs then y.mapIdx fun j v => warpScalar v (lower m.yBounds j) (upper m.yBounds j)
  else y

/-- The variances of an output row as they are stored. -/
def storedYvar (m : EpistemicNearestNeighbors D F) (y v : List D) : List D :=
  if m.boundedOutputs then
    (y.zip v).mapIdx fun j p =>
      let jac := warpJacobian p.1 (lower m.yBounds j) (upper m.yBounds j)
      jac * jac * p.2
  else v

/-- What a call checks of a row that it stores. -/
structure Acceptable (m : EpistemicNearestNeighbors D F) (r : ToldRow D) : Prop where
  length_y : r.y.length = m.numMetrics
  length_yvar : ∀ v, r.yvar = some v → v.length = m.numMetrics
  inside : m.boundedOutputs = true → ∀ e ∈ r.y.zipIdx,
    outside e.1 (lower m.yBounds e.2) (upper m.yBounds e.2) = false
  finite : m.boundedOutputs = true → ∀ v, r.yvar = some v → ∀ e ∈ m.storedYvar r.y v,
    isFinite e = true

theorem storedYvar_congr (hb : m'.boundedOutputs = m.boundedOutputs)
    (hy : m'.yBounds = m.yBounds) : m'.storedYvar = m.storedYvar := by
  unfold storedYvar
  rw [hb, hy]

theorem Acceptable.congr (h : m.Acceptable r) (hn : m'.numMetrics = m.numMetrics)
    (hb : m'.boundedOutputs = m.boundedOutputs) (hy : m'.yBounds = m.yBounds) :
    m'.Acceptable r := by
  obtain ⟨hlen, hlenYvar, hinside, hfinite⟩ := h
  refine ⟨by rw [hn, hlen], fun v hv => by rw [hn, hlenYvar v hv], ?_, ?_⟩
  · rw [hb, hy]
    exact hinside
  · rw [hb, storedYvar_congr hb hy]
    exact hfinite

theorem Acceptable.length_storedY (h : m.Acceptable r) :
    (m.storedY r.y).length = m.numMetrics := by
  rw [← h.length_y]
  unfold storedY
  split <;> simp

theorem Acceptable.length_storedYvar (h : m.Acceptable r) {v : List D} (hv : r.yvar = some v) :
    (m.storedYvar r.y v).length = m.numMetrics := by
  have hlen := h.length_yvar v hv
  unfold storedYvar
  split
  · rw [List.length_mapIdx, List.length_zip, h.length_y, hlen, min_self]
  · exact hlen

/-- Outputs are stored row by row, and the warped ones are inside their bounds. -/
theorem warpAdded_y {warpedY : Array2 D} {warpedYvar : Option (Array2 D)}
    (h : m.warpAdded y yvar = .ok (warpedY, warpedYvar)) :
    warpedY.rows = y.rows.map m.storedY ∧ (m.boundedOutputs = true → ∀ row ∈ y.rows,
      ∀ e ∈ row.zipIdx, outside e.1 (lower m.yBounds e.2) (upper m.yBounds e.2) = false) := by
  unfold warpAdded at h
  unfold storedY
  cases hb : m.boundedOutputs with
  | false =>
    rw [hb] at h
    obtain ⟨rfl, -⟩ := Prod.mk.inj (Outcome.pure_eq_ok.mp h)
    exact ⟨by simp, nofun⟩
  | true =>
    rw [hb] at h
    simp only [Bool.not_true, Bool.false_eq_true, if_false, Outcome.bind_eq_ok] at h
    obtain ⟨warped, hwarped, h⟩ := h
    have hwarpedY : warpedY = warped := by
      cases yvar with
      | none => exact (Prod.mk.inj (Outcome.pure_eq_ok.mp h)).1.symm
      | some v =>
        simp only [Outcome.bind_eq_ok, Outcome.pure_eq_ok, Prod.mk.injEq] at h
        obtain ⟨_, _, rfl, -⟩ := h
        rfl
    constructor
    · rw [hwarpedY, YBounds.warpY_eq_ok hwarped]
      simp [Array2.mapCols]
    · intro _
      apply (Array2.forall_indexed (P := fun j v =>
        outside v (lower m.yBounds j) (upper m.yBounds j) = false)).mp
      exact inside_of_warpY hwarped

theorem rows_scaledYvar {v : Array2 D} (hb : m.boundedOutputs = true) (h : y.ncols = v.ncols) :
    (scaledYvar m.yBounds y v h).rows = List.zipWith m.storedYvar y.rows v.rows := by
  unfold scaledYvar storedYvar Array2.mapCols Array2.zip
  dsimp only
  rw [List.map_zipWith]
  simp only [hb, if_true]

/-- Variances are stored row by row, and the warped ones are finite. -/
theorem warpAdded_yvar {warpedY : Array2 D} {warpedYvar : Option (Array2 D)}
    (h : m.warpAdded y yvar = .ok (warpedY, warpedYvar))
    (hv : validateBounds m.yBounds y.ncols = .ok ())
    (hshape : ∀ v, yvar = some v → v.nrows = y.nrows ∧ v.ncols = y.ncols) :
    yvar = none ∧ warpedYvar = none ∨ ∃ v w, yvar = some v ∧ warpedYvar = some w ∧
      w.rows = List.zipWith m.storedYvar y.rows v.rows ∧
      (m.boundedOutputs = true → ∀ row ∈ w.rows, ∀ e ∈ row, isFinite e = true) := by
  unfold warpAdded at h
  cases hb : m.boundedOutputs with
  | false =>
    rw [hb] at h
    obtain ⟨-, rfl⟩ := Prod.mk.inj (Outcome.pure_eq_ok.mp h)
    cases yvar with
    | none => exact .inl ⟨rfl, rfl⟩
    | some v =>
      have hlen : v.rows.length = y.rows.length := (hshape v rfl).1
      refine .inr ⟨v, v, rfl, rfl, ?_, nofun⟩
      unfold storedYvar
      rw [hb]
      apply List.ext_getElem <;> simp [hlen]
  | true =>
    rw [hb] at h
    simp only [Bool.not_true, Bool.false_eq_true, if_false, Outcome.bind_eq_ok] at h
    obtain ⟨warped, -, h⟩ := h
    cases yvar with
    | none => exact .inl ⟨rfl, (Prod.mk.inj (Outcome.pure_eq_ok.mp h)).2.symm⟩
    | some v =>
      simp only [Outcome.bind_eq_ok, Outcome.pure_eq_ok, Prod.mk.injEq] at h
      obtain ⟨w, hw, -, rfl⟩ := h
      obtain ⟨hrows, hcols⟩ := hshape v rfl
      obtain ⟨hfinite, rfl⟩ := (warpYvar_eq_ok hcols.symm hrows.symm hv).mp hw
      refine .inr ⟨v, _, rfl, rfl, rows_scaledYvar hb hcols.symm, fun _ row hrow e he => ?_⟩
      rw [Array2.forall_indexed (P := fun _ v => isFinite v = true)] at hfinite
      obtain ⟨i, hi, rfl⟩ := List.getElem_of_mem he
      exact hfinite row hrow (row[i], i) (by simp [List.mem_zipIdx_iff_getElem?])

/-- What a call stores is what it is told, row by row. -/
structure Stores (m : EpistemicNearestNeighbors D F) (rows : List (ToldRow D)) (storedY : Array2 D)
    (storedYvar : Option (Array2 D)) : Prop where
  y_eq : storedY.rows = rows.map fun r => m.storedY r.y
  acceptable : ∀ r ∈ rows, m.Acceptable r
  yvar : (storedYvar = none ∧ ∀ r ∈ rows, r.yvar = none) ∨ ∃ w, storedYvar = some w ∧
    (∀ r ∈ rows, r.yvar.isSome = true) ∧
      w.rows = rows.map fun r => m.storedYvar r.y (r.yvar.getD [])

theorem stores_of_warpAdded {warpedY : Array2 D} {warpedYvar : Option (Array2 D)}
    (h : m.warpAdded y yvar = .ok (warpedY, warpedYvar)) (hn : x.nrows = y.nrows)
    (hcols : y.ncols = m.numMetrics) (hv : validateBounds m.yBounds m.numMetrics = .ok ())
    (hyvar : ∀ v, yvar = some v → v.shape = y.shape) :
    m.Stores (toldRows x y yvar) warpedY warpedYvar := by
  have hshape : ∀ v, yvar = some v → v.nrows = y.nrows ∧ v.ncols = y.ncols := by
    intro v h
    have hs := hyvar v h
    simp only [Array2.shape, List.cons.injEq, and_true] at hs
    exact hs
  have hy := map_y_toldRows hn fun v h => (hshape v h).1
  have hmem : ∀ r ∈ toldRows x y yvar, r.y ∈ y.rows := fun r hr => by
    rw [← hy]
    exact List.mem_map_of_mem hr
  obtain ⟨hrows, hinside⟩ := warpAdded_y h
  have hyrows : warpedY.rows = (toldRows x y yvar).map fun r => m.storedY r.y := by
    rw [hrows, ← hy, List.map_map]
    rfl
  have hlen : ∀ r ∈ toldRows x y yvar, r.y.length = m.numMetrics := fun r hr =>
    (y.width _ (hmem r hr)).trans hcols
  rcases warpAdded_yvar h (hcols ▸ hv) hshape with ⟨rfl, rfl⟩ | ⟨v, w, rfl, rfl, hw, hfinite⟩
  · have hnone : ∀ r ∈ toldRows x y none, r.yvar = none := fun r hr => yvar_of_mem_toldRows hr
    refine ⟨hyrows, fun r hr => ⟨hlen r hr, ?_, fun hb => hinside hb _ (hmem r hr), ?_⟩,
      .inl ⟨rfl, hnone⟩⟩
    · intro v hrv
      rw [hnone r hr] at hrv
      cases hrv
    · intro _ v hrv
      rw [hnone r hr] at hrv
      cases hrv
  · obtain ⟨hvn, hvc⟩ := hshape v rfl
    have hwrows := hw.trans (map_toldRows_some m.storedYvar hn hvn).symm
    refine ⟨hyrows, fun r hr => ⟨hlen r hr, ?_, fun hb => hinside hb _ (hmem r hr), ?_⟩,
      .inr ⟨w, rfl, fun r hr => ?_, hwrows⟩⟩
    · intro row hrow
      obtain ⟨row', hmem', heq⟩ := exists_yvar_of_mem_toldRows hr
      obtain rfl := Option.some.inj (hrow.symm.trans heq)
      rw [v.width _ hmem', hvc, hcols]
    · intro hb row hrow
      apply hfinite hb
      rw [hwrows]
      apply List.mem_map.mpr
      exact ⟨r, hr, by rw [hrow, Option.getD_some]⟩
    · obtain ⟨row, -, heq⟩ := exists_yvar_of_mem_toldRows hr
      rw [heq]
      rfl

/-- The variances that are stored beside the rows. If a constructor gets variances without rows and
an add gets rows without variances, then those of the rows are missing. -/
inductive HeldYvar (store : List D → List D → List D) (given : Bool) (rows : List (ToldRow D)) :
    Option (Array2 D) → Prop where
  | none : given = false → (∀ r ∈ rows, r.yvar = none) → HeldYvar store given rows none
  | some {v : Array2 D} : (rows = [] → given = true) → (∀ r ∈ rows, r.yvar.isSome = true) →
      v.rows = rows.map (fun r => store r.y (r.yvar.getD [])) → HeldYvar store given rows (some v)
  | lost {v : Array2 D} : given = true → rows ≠ [] → (∀ r ∈ rows, r.yvar = none) → v.rows = [] →
      HeldYvar store given rows (some v)

/-- The model holds the rows that it was told. -/
structure Held (given : Bool) (rows : List (ToldRow D)) (m : EpistemicNearestNeighbors D F)
    (b : InMemoryEnnBackend D F) : Prop where
  backend_eq : m.backend = .inMemory b
  x_eq : b.trainXRows.rows = rows.map ToldRow.x
  y_eq : b.trainYRows.rows = rows.map fun r => m.storedY r.y
  yvar : HeldYvar m.storedYvar given rows b.trainYvarRows
  acceptable : ∀ r ∈ rows, m.Acceptable r
  valid : validateBounds m.yBounds m.numMetrics = .ok ()
  numObs_eq : m.numObs = rows.length

variable [Floating F] [FloatCast D F] {env : Env F} {options : ModelOptions D F}

/-- The models in memory after a constructor and adds that return, with what they were told and
whether the constructor got variances. -/
inductive Told : EpistemicNearestNeighbors D F → Bool → List (ToldRow D) → Prop where
  | new {m : EpistemicNearestNeighbors D F} (env : Env F) (x y : Array2 D)
      (yvar : Option (Array2 D)) (options : ModelOptions D F) : options.storage = .inMemory →
      newWithOptions env x y yvar options = .ok m → Told m yvar.isSome (toldRows x y yvar)
  | empty {m : EpistemicNearestNeighbors D F} (env : Env F) (numDim numMetrics : ℕ)
      (driver : IndexDriver) (workDir : Option (WorkDir D F)) (threshold : Option ℕ) :
      newEmpty env numDim numMetrics driver .inMemory workDir threshold = .ok m → Told m false []
  | add {m m' : EpistemicNearestNeighbors D F} {given : Bool} {rows : List (ToldRow D)}
      (env : Env F) (x y : Array2 D) (yvar : Option (Array2 D)) : Told m given rows →
      (EpistemicNearestNeighbors.add env x y yvar).Returns m () m' →
      Told m' given (rows ++ toldRows x y yvar)

omit [Analysis D] [Floating F] in
theorem new_eq_ok {scaleX : Bool} {xScale : List D} {driver : IndexDriver}
    {b : InMemoryEnnBackend D F}
    (h : InMemoryEnnBackend.new x y yvar scaleX xScale driver = .ok b) :
    b.trainXRows = x ∧ b.trainYRows = y ∧ b.trainYvarRows = yvar := by
  simp only [InMemoryEnnBackend.new, Outcome.bind_eq_ok, Outcome.pure_eq_ok] at h
  obtain ⟨index, -, rfl⟩ := h
  exact ⟨rfl, rfl, rfl⟩

omit [Floating F] [FloatCast D F] in
theorem Stores.heldYvar {storedY : Array2 D} {stored : Option (Array2 D)}
    (h : m.Stores rows storedY stored) (hgiven : stored.isSome = given) :
    HeldYvar m.storedYvar given rows stored := by
  rcases h.yvar with ⟨rfl, hnone⟩ | ⟨w, rfl, hsome, hw⟩
  · exact .none hgiven.symm hnone
  · exact .some (fun _ => hgiven.symm) hsome hw

theorem held_newWithOptions (hs : options.storage = .inMemory)
    (h : newWithOptions env x y yvar options = .ok m) :
    ∃ b, Held yvar.isSome (toldRows x y yvar) m b := by
  obtain ⟨bounds, warpedY, warpedYvar, backend, m₁, hc, rfl⟩ := newWithOptions_eq_ok h
  have hopen := hc.backend_eq
  unfold openBackend at hopen
  rw [hs] at hopen
  dsimp only [EnnBackend.newInMemory] at hopen
  obtain ⟨b, hb, rfl⟩ := Outcome.map_eq_ok.mp hopen
  obtain ⟨hx, hy, hyvar⟩ := new_eq_ok hb
  have hshapes := hc.shapes
  unfold validateShapes at hshapes
  split at hshapes
  next => simp at hshapes
  next hn =>
    rw [not_not] at hn
    have hshape : ∀ v, yvar = some v → v.shape = y.shape := by
      rintro v rfl
      dsimp only at hshapes
      split at hshapes
      next => simp at hshapes
      next hv => exact not_not.mp hv
    have hm₁ := hc.unsynced (by
      rintro (hr | hr)
      · simp [diskReopen, hs] at hr
      · apply hr
        change x.nrows = b.trainXRows.nrows
        rw [hx])
    subst hm₁
    have hwarp : (assemble (.inMemory b) options bounds x warpedY).warpAdded y yvar =
        .ok (warpedY, warpedYvar) := by
      have hwarp := hc.warp_eq
      unfold warp at hwarp
      unfold warpAdded
      change (if (!(!YBounds.isIdentityBounds bounds)) = true then _ else _) = _
      rw [Bool.not_not]
      exact hwarp
    have hdims : ∀ v, yvar = some v → v.nrows = y.nrows ∧ v.ncols = y.ncols := by
      intro v h
      have hv := hshape v h
      simp only [Array2.shape, List.cons.injEq, and_true] at hv
      exact hv
    obtain ⟨-, hcols, -, hsome⟩ := warpAdded_shape hwarp fun v h => (hdims v h).2
    have hmetrics : (assemble (.inMemory b) options bounds x warpedY).numMetrics = y.ncols := hcols
    have hstores := stores_of_warpAdded (x := x) hwarp hn hmetrics.symm (hmetrics ▸ hc.valid) hshape
    refine ⟨b, rfl, ?_, ?_, ?_, fun r hr => (hstores.acceptable r hr).congr rfl rfl rfl,
      hmetrics ▸ hc.valid, ?_⟩
    · rw [hx, map_x_toldRows hn fun v h => (hdims v h).1]
    · rw [hy]
      exact hstores.y_eq
    · rw [hyvar]
      exact hstores.heldYvar hsome
    · rw [length_toldRows hn fun v h => (hdims v h).1]
      rfl

theorem held_newEmpty [YBounds.LawfulBounds D] {numDim numMetrics : ℕ} {driver : IndexDriver}
    {workDir : Option (WorkDir D F)} {threshold : Option ℕ}
    (h : newEmpty env numDim numMetrics driver .inMemory workDir threshold = .ok m) :
    ∃ b, Held false [] m b := by
  simp only [newEmpty, EnnBackend.newEmpty, Outcome.bind_eq_ok, Outcome.pure_eq_ok,
    Outcome.map_eq_ok] at h
  obtain ⟨_, ⟨b, hb, rfl⟩, rfl⟩ := h
  obtain ⟨hx, hy, hyvar⟩ := new_eq_ok hb
  refine ⟨b, rfl, ?_, ?_, ?_, by simp, validateBounds_unboundedBounds numMetrics, rfl⟩
  · rw [hx]
    rfl
  · rw [hy]
    rfl
  · rw [hyvar]
    exact .none rfl (by simp)

omit [Floating F] [FloatCast D F] in
/-- With variances in store an add needs variances, unless there are no rows yet. -/
theorem Held.yvar_of_valid {b : InMemoryEnnBackend D F} (h : Held given rows m b)
    (hvalid : m.validateAdd x y yvar = .ok ()) (hrows : rows ≠ []) :
    (b.trainYvarRows = none ∧ yvar = none) ∨
      ∃ v, b.trainYvarRows = some v ∧ v.rows ≠ [] ∧ yvar.isSome = true := by
  have hpos : 0 < m.numObs := by
    rw [h.numObs_eq]
    exact List.length_pos_of_ne_nil hrows
  have hlen : b.len ≠ 0 := by
    have hrowsX := congrArg List.length h.x_eq
    rw [List.length_map] at hrowsX
    change b.trainXRows.rows.length ≠ 0
    rw [hrowsX]
    exact (List.length_pos_of_ne_nil hrows).ne'
  unfold validateAdd at hvalid
  split at hvalid
  · simp at hvalid
  simp only [Outcome.bind_eq_ok, Outcome.map_eq_ok] at hvalid
  obtain ⟨_, ⟨first, hok, rfl⟩, hvalid⟩ := hvalid
  have hread : (EnnBackend.inMemory b : EnnBackend D F).rowYvar 0 = b.rowYvar 0 := rfl
  unfold firstYvar at hok
  rw [h.backend_eq, hread] at hok
  unfold InMemoryEnnBackend.rowYvar InMemoryEnnBackend.checkIndex at hok
  rw [if_neg (by omega)] at hok
  cases hold : b.trainYvarRows with
  | none =>
    rw [hold] at hok
    obtain rfl : none = first := Except.ok.inj hok
    left
    cases yvar with
    | none => exact ⟨rfl, rfl⟩
    | some v =>
      dsimp only at hvalid
      split at hvalid
      · simp at hvalid
      · simp [hpos] at hvalid
  | some v =>
    right
    rw [hold] at hok
    cases hv : v.rows with
    | nil =>
      simp only [RowStorage.rowVec, hv] at hok
      cases hok
    | cons row rest =>
      simp only [RowStorage.rowVec, hv] at hok
      obtain rfl : some row = first := Except.ok.inj hok
      refine ⟨v, rfl, by simp [hv], ?_⟩
      cases yvar with
      | none => simp [hpos] at hvalid
      | some w => rfl

omit [Floating F] [FloatCast D F] in
/-- The variances in store after an add. -/
theorem Held.heldYvar_append {b : InMemoryEnnBackend D F} (h : Held given rows m b)
    (hvalid : m.validateAdd x y yvar = .ok ()) {warpedY : Array2 D}
    {stored out : Option (Array2 D)} {more : List (ToldRow D)} (hmore : more ≠ [])
    (hstores : m.Stores more warpedY stored) (hsome : stored.isSome = yvar.isSome)
    (hpushed : YvarPushed b.trainYvarRows stored out) :
    HeldYvar m.storedYvar given (rows ++ more) out := by
  have hold := h.yvar
  have hcheck := h.yvar_of_valid hvalid
  generalize b.trainYvarRows = old at hold hcheck hpushed
  rcases hstores.yvar with ⟨rfl, hnone⟩ | ⟨w, rfl, hall, hw⟩
  · have hyvar : yvar.isSome = false := hsome.symm
    have hout : out = old := by cases old <;> exact hpushed
    subst hout
    cases hold with
    | none hgiven hrows =>
      apply HeldYvar.none hgiven
      intro r hr
      rcases List.mem_append.mp hr with hr | hr
      · exact hrows r hr
      · exact hnone r hr
    | @some v hgiven hrows hv =>
      by_cases hempty : rows = []
      · subst hempty
        exact .lost (hgiven rfl) (by simpa using hmore) (by simpa using hnone) hv
      · rcases hcheck hempty with ⟨hbad, -⟩ | ⟨_, -, -, hgot⟩
        · cases hbad
        · rw [hyvar] at hgot
          cases hgot
    | lost hgiven hrows hrest hv =>
      rcases hcheck hrows with ⟨hbad, -⟩ | ⟨_, heq, hne, -⟩
      · cases hbad
      · cases heq
        exact absurd hv hne
  · cases hold with
    | none hgiven hrows =>
      have hempty : rows = [] := by
        by_contra hne
        rcases hcheck hne with ⟨-, rfl⟩ | ⟨_, heq, -, -⟩
        · cases hsome
        · cases heq
      subst hempty
      obtain rfl : out = some w := hpushed
      exact .some (fun hnil => absurd hnil (by simpa using hmore)) (by simpa using hall)
        (by simpa using hw)
    | @some v hgiven hrows hv =>
      obtain ⟨u, hu, rfl⟩ := hpushed
      apply HeldYvar.some
      · intro hnil
        exact absurd (List.append_eq_nil_iff.mp hnil).2 hmore
      · intro r hr
        rcases List.mem_append.mp hr with hr | hr
        · exact hrows r hr
        · exact hall r hr
      · rw [hu.rows_eq, hv, hw, List.map_append]
    | lost hgiven hrows hrest hv =>
      rcases hcheck hrows with ⟨hbad, -⟩ | ⟨_, heq, hne, -⟩
      · cases hbad
      · cases heq
        exact absurd hv hne

theorem held_add {b : InMemoryEnnBackend D F} (h : Held given rows m b)
    (hadd : (add env x y yvar).Returns m () m') :
    ∃ b', Held given (rows ++ toldRows x y yvar) m' b' := by
  rcases returns_add hadd with ⟨h0, rfl⟩ | ⟨warpedY, stored, waited, backend, ha, rfl⟩
  · rw [toldRows_of_nrows h0, List.append_nil]
    exact ⟨b, h⟩
  · have hshapes := ha.valid
    obtain ⟨hn, -, hcols, -, -⟩ := validAdd_of_ok ha.valid
    have hshape : ∀ v, yvar = some v → v.shape = y.shape := by
      rintro v rfl
      unfold validateAdd at hshapes
      split at hshapes
      · simp at hshapes
      simp only [Outcome.bind_eq_ok] at hshapes
      obtain ⟨_, -, hshapes⟩ := hshapes
      split at hshapes
      next => simp at hshapes
      next hv => exact not_not.mp hv
    have hdims : ∀ v, yvar = some v → v.nrows = y.nrows ∧ v.ncols = y.ncols := by
      intro v h
      have hv := hshape v h
      simp only [Array2.shape, List.cons.injEq, and_true] at hv
      exact hv
    have hwait : waited = .inMemory b := by
      have hwait := ha.wait
      rw [h.backend_eq] at hwait
      exact (Prod.mk.inj hwait).2.symm
    have happend := ha.append
    rw [hwait] at happend
    obtain ⟨b', hb', rfl⟩ := EnnBackend.returns_dispatch_inMemory happend
    obtain ⟨x', y', yvar', hx, hy, hyvar, hb₁⟩ := returns_appendRows ha.nrows_pos hb'
    obtain ⟨-, -, -, hsome⟩ := warpAdded_shape ha.warp fun v h => (hdims v h).2
    have hstores := stores_of_warpAdded (x := x) ha.warp hn hcols h.valid hshape
    have hlen := length_toldRows (x := x) hn fun v h => (hdims v h).1
    have hmore : toldRows x y yvar ≠ [] := by
      apply List.ne_nil_of_length_pos
      rw [hlen]
      exact ha.nrows_pos
    have hxrows : b'.trainXRows.rows = (rows ++ toldRows x y yvar).map ToldRow.x := by
      rw [hb₁, hx.rows_eq, h.x_eq, List.map_append, map_x_toldRows hn fun v h => (hdims v h).1]
    have hyrows : b'.trainYRows.rows = (rows ++ toldRows x y yvar).map fun r => m.storedY r.y := by
      rw [hb₁, hy.rows_eq, h.y_eq, List.map_append, hstores.y_eq]
    have hheld : HeldYvar m.storedYvar given (rows ++ toldRows x y yvar) b'.trainYvarRows := by
      rw [hb₁]
      exact h.heldYvar_append ha.valid hmore hstores hsome hyvar
    have hacceptable : ∀ r ∈ rows ++ toldRows x y yvar, m.Acceptable r := by
      intro r hr
      rcases List.mem_append.mp hr with hr | hr
      · exact h.acceptable r hr
      · exact hstores.acceptable r hr
    have hobs : b'.len = (rows ++ toldRows x y yvar).length := by
      have hlenX := congrArg List.length hxrows
      rwa [List.length_map] at hlenX
    unfold afterAdd
    split
    · exact ⟨b'.markIndexStale, rfl, hxrows, hyrows, hheld,
        fun r hr => (hacceptable r hr).congr rfl rfl rfl, h.valid, hobs⟩
    · exact ⟨b', rfl, hxrows, hyrows, hheld,
        fun r hr => (hacceptable r hr).congr rfl rfl rfl, h.valid, hobs⟩

theorem Told.held [YBounds.LawfulBounds D] (h : Told m given rows) : ∃ b, Held given rows m b := by
  induction h with
  | new env x y yvar options hs h => exact held_newWithOptions hs h
  | empty env numDim numMetrics driver workDir threshold h => exact held_newEmpty h
  | add env x y yvar _ hadd ih =>
    obtain ⟨b, hb⟩ := ih
    exact held_add hb hadd

section Read

variable {b : InMemoryEnnBackend D F}

omit [Floating D] [Analysis D] in
theorem gatherRows_eq_ok {a : RowStorage D} (f : ToldRow D → List D) (h : a.rows = rows.map f)
    (indices : List (Fin rows.length)) :
    RowStorage.gatherRows a (indices.map Fin.val) =
      .ok (indices.map fun i => f (rows.get i)) := by
  unfold RowStorage.gatherRows
  rw [mapM_ok_iff, List.forall₂_map_left_iff, List.forall₂_map_right_iff,
    List.forall₂_same]
  intro i _
  unfold RowStorage.rowVec
  rw [h]
  simp

omit [Floating F] [FloatCast D F] in
theorem Held.checkIndex_eq_ok (h : Held given rows m b) (indices : List (Fin rows.length)) :
    (indices.map Fin.val).forM (b.checkIndex "train_rows_at") = .ok () := by
  have hlen : b.len = rows.length := by
    have hlen := congrArg List.length h.x_eq
    rwa [List.length_map] at hlen
  induction indices with
  | nil => rfl
  | cons i indices ih =>
    have hi : b.checkIndex "train_rows_at" i.val = .ok () := by
      unfold InMemoryEnnBackend.checkIndex
      rw [if_neg (by rw [hlen]; exact not_le.mpr i.isLt)]
      rfl
    change (b.checkIndex "train_rows_at" i.val >>= fun _ =>
      (indices.map Fin.val).forM (b.checkIndex "train_rows_at")) = _
    rw [hi]
    exact ih

omit [Floating F] [FloatCast D F] in
theorem Held.trainRowsAt_none (h : Held given rows m b) (hnone : b.trainYvarRows = none)
    (indices : List (Fin rows.length)) :
    b.trainRowsAt (indices.map Fin.val) =
      .ok ⟨indices.map fun i => (rows.get i).x, indices.map fun i => m.storedY (rows.get i).y,
        none⟩ := by
  unfold InMemoryEnnBackend.trainRowsAt
  rw [h.checkIndex_eq_ok, gatherRows_eq_ok _ h.x_eq, gatherRows_eq_ok _ h.y_eq, hnone]
  rfl

omit [Floating F] [FloatCast D F] in
theorem Held.trainRowsAt_some (h : Held given rows m b) {v : RowStorage D}
    (hv : b.trainYvarRows = some v) (indices : List (Fin rows.length)) :
    b.trainRowsAt (indices.map Fin.val) =
      (RowStorage.gatherRows v (indices.map Fin.val)).map fun yvar =>
        ⟨indices.map fun i => (rows.get i).x, indices.map fun i => m.storedY (rows.get i).y,
          some yvar⟩ := by
  unfold InMemoryEnnBackend.trainRowsAt
  rw [h.checkIndex_eq_ok, gatherRows_eq_ok _ h.x_eq, gatherRows_eq_ok _ h.y_eq, hv]
  rfl

end Read

end EpistemicNearestNeighbors

/-- What is read as variances are those that were told. -/
inductive YvarTold : Option (List (List D)) → List (Option (List D)) → Prop where
  | none {told : List (Option (List D))} : (∀ v ∈ told, v = none) → YvarTold none told
  | some (vs : List (List D)) : YvarTold (some vs) (vs.map some)

namespace EpistemicNearestNeighbors

section Exact

variable {K : Type} [ExactArith K] [Analysis K] [NanSign K] [Floating F] [FloatCast (Extended K) F]
  {m : EpistemicNearestNeighbors (Extended K) F} {b : InMemoryEnnBackend (Extended K) F}
  {given : Bool} {rows : List (ToldRow (Extended K))} {r : ToldRow (Extended K)}

/-- Rows are read as they were told, and the scale of every metric can be undone. -/
structure NaturalScale (m : EpistemicNearestNeighbors (Extended K) F)
    (rows : List (ToldRow (Extended K))) : Prop where
  natural : ∀ indices : List (Fin rows.length), ∃ out,
    m.naturalRows (indices.map Fin.val) = .ok out ∧
      out.x = indices.map (fun i => (rows.get i).x) ∧
      out.y = indices.map (fun i => (rows.get i).y) ∧
      YvarTold out.yvar (indices.map fun i => (rows.get i).yvar)
  warp : ∀ j < m.numMetrics, YBounds.WarpInverse (lower m.yBounds j) (upper m.yBounds j)

theorem openInterval_of_valid {bounds : Array2 (Extended K)} {n : ℕ}
    (h : validateBounds bounds n = .ok ()) {j : ℕ} (hj : j < n) :
    YBounds.OpenInterval (lower bounds j) (upper bounds j) :=
  YBounds.openInterval_of_boundsError ((YBounds.validateBounds_eq_ok.mp h).2.2 j hj)

variable [ExactLog K]

omit [Floating F] [FloatCast (Extended K) F] in
theorem Acceptable.natural_y (h : m.Acceptable r)
    (hv : validateBounds m.yBounds m.numMetrics = .ok ()) (hb : m.boundedOutputs = true) :
    ((m.storedY r.y).mapIdx fun j z => invScalar z (lower m.yBounds j) (upper m.yBounds j)) =
      r.y := by
  unfold storedY
  rw [hb, if_pos rfl]
  apply List.ext_getElem
  · simp
  · intro j hj hj'
    rw [List.getElem_mapIdx, List.getElem_mapIdx]
    have hin := h.inside hb (r.y[j], j) (by simp [List.mem_zipIdx_iff_getElem?])
    exact (openInterval_of_valid hv (h.length_y ▸ hj')).inv_warp hin

omit [Floating F] [FloatCast (Extended K) F] in
/-- A row of variances comes back as it was told. -/
theorem Acceptable.natural_yvar (h : m.Acceptable r)
    (hv : validateBounds m.yBounds m.numMetrics = .ok ()) (hb : m.boundedOutputs = true)
    {v : List (Extended K)} (hr : r.yvar = some v) :
    (((m.storedY r.y).zip (m.storedYvar r.y v)).mapIdx fun j p =>
      let jac := invJacobian p.1 (lower m.yBounds j) (upper m.yBounds j)
      p.2 * jac * jac) = v := by
  have hfinite := h.finite hb v hr
  have hlen := h.length_yvar v hr
  have hlenY := h.length_y
  unfold storedYvar at hfinite ⊢
  unfold storedY
  rw [hb, if_pos rfl] at hfinite ⊢
  rw [if_pos rfl]
  apply List.ext_getElem
  · simp [hlen, hlenY]
  · intro j hj hj'
    have hjy : j < r.y.length := by omega
    have hin := h.inside hb (r.y[j], j) (by simp [List.mem_zipIdx_iff_getElem?])
    have hfin := hfinite _ (List.getElem_mem (show j < _ by simp [hlen, hlenY]; omega))
    simp only [List.getElem_mapIdx, List.getElem_zip] at hfin ⊢
    exact (openInterval_of_valid hv (h.length_y ▸ hjy)).yvar_eq hin hfin

omit [Floating F] [FloatCast (Extended K) F] [ExactLog K] in
theorem Held.naturalRows_eq (h : Held given rows m b) (indices : List ℕ) :
    m.naturalRows indices = (do
      let rows ← b.trainRowsAt indices
      if !m.boundedOutputs then return rows
      else
        let z ← rowsMatrix m.numMetrics rows.y
        let yvar ← naturalizeRows m.yBounds z rows.yvar
        return { rows with y := (YBounds.invY z m.yBounds).rows, yvar := yvar }) := by
  unfold naturalRows
  rw [h.backend_eq]
  rfl

omit [ExactArith K] [Analysis K] [NanSign K] [ExactLog K] in
theorem rowsMatrix_of_length {n : ℕ} {rs : List (List (Extended K))}
    (h : ∀ row ∈ rs, row.length = n) : rowsMatrix n rs = .ok ⟨n, rs, h⟩ := dif_pos h

omit [Floating F] [FloatCast (Extended K) F] [ExactLog K] in
theorem Held.length_storedY (h : Held given rows m b) (indices : List (Fin rows.length)) :
    ∀ row ∈ indices.map fun i => m.storedY (rows.get i).y, row.length = m.numMetrics := by
  intro row hrow
  obtain ⟨i, -, rfl⟩ := List.mem_map.mp hrow
  exact (h.acceptable _ (List.get_mem _ _)).length_storedY

omit [Floating F] [FloatCast (Extended K) F] in
theorem Held.rows_invY (h : Held given rows m b) (hb : m.boundedOutputs = true)
    (indices : List (Fin rows.length)) :
    (YBounds.invY ⟨m.numMetrics, _, h.length_storedY indices⟩ m.yBounds).rows =
      indices.map fun i => (rows.get i).y := by
  unfold YBounds.invY Array2.mapCols
  dsimp only
  rw [List.map_map]
  exact List.map_congr_left fun i _ =>
    (h.acceptable _ (List.get_mem _ _)).natural_y h.valid hb

omit [Floating F] [FloatCast (Extended K) F] in
/-- Rows that are stored without variances are read as they were told. -/
theorem Held.naturalRows_none (h : Held given rows m b) (hold : b.trainYvarRows = none)
    (indices : List (Fin rows.length)) :
    m.naturalRows (indices.map Fin.val) =
      .ok ⟨indices.map fun i => (rows.get i).x, indices.map fun i => (rows.get i).y, none⟩ := by
  rw [h.naturalRows_eq, h.trainRowsAt_none hold]
  simp only [bind, Except.bind]
  cases hb : m.boundedOutputs with
  | false =>
    unfold storedY
    simp [hb, pure, Except.pure]
  | true =>
    rw [rowsMatrix_of_length (h.length_storedY indices), ← h.rows_invY hb]
    rfl

omit [ExactArith K] [Analysis K] [NanSign K] [ExactLog K] in
theorem get_yvar (hsome : ∀ r ∈ rows, r.yvar.isSome = true) (i : Fin rows.length) :
    (rows.get i).yvar = some ((rows.get i).yvar.getD []) := by
  obtain ⟨w, hw⟩ := Option.isSome_iff_exists.mp (hsome _ (List.get_mem rows i))
  rw [hw]
  rfl

omit [Floating F] [FloatCast (Extended K) F] in
theorem Held.naturalizeRows_eq_ok (h : Held given rows m b) (hb : m.boundedOutputs = true)
    (hsome : ∀ r ∈ rows, r.yvar.isSome = true) (indices : List (Fin rows.length)) :
    naturalizeRows m.yBounds ⟨m.numMetrics, _, h.length_storedY indices⟩
        (some (indices.map fun i =>
          m.storedYvar (rows.get i).y ((rows.get i).yvar.getD []))) =
      .ok (some (indices.map fun i => (rows.get i).yvar.getD [])) := by
  have hlen : ∀ row ∈ indices.map fun i => m.storedYvar (rows.get i).y
      ((rows.get i).yvar.getD []), row.length = m.numMetrics := by
    intro row hrow
    obtain ⟨i, -, rfl⟩ := List.mem_map.mp hrow
    exact (h.acceptable _ (List.get_mem _ _)).length_storedYvar (get_yvar hsome i)
  have hyvar : (List.zipWith List.zip (indices.map fun i => m.storedY (rows.get i).y)
      (indices.map fun i => m.storedYvar (rows.get i).y ((rows.get i).yvar.getD []))).map
        (fun row => row.mapIdx fun j p =>
          let jac := invJacobian p.1 (lower m.yBounds j) (upper m.yBounds j)
          p.2 * jac * jac) = indices.map fun i => (rows.get i).yvar.getD [] := by
    rw [List.zipWith_map, List.zipWith_self, List.map_map]
    exact List.map_congr_left fun i _ =>
      (h.acceptable _ (List.get_mem _ _)).natural_yvar h.valid hb (get_yvar hsome i)
  unfold naturalizeRows
  dsimp only [bind, Except.bind]
  rw [rowsMatrix_of_length hlen]
  dsimp only
  rw [dif_pos rfl, ← hyvar]
  rfl

omit [Floating F] [FloatCast (Extended K) F] in
/-- Rows that are stored with their variances are read as they were told. -/
theorem Held.naturalRows_some (h : Held given rows m b) {v : RowStorage (Extended K)}
    (hold : b.trainYvarRows = some v) (hsome : ∀ r ∈ rows, r.yvar.isSome = true)
    (hv : v.rows = rows.map fun r => m.storedYvar r.y (r.yvar.getD []))
    (indices : List (Fin rows.length)) :
    m.naturalRows (indices.map Fin.val) =
      .ok ⟨indices.map fun i => (rows.get i).x, indices.map fun i => (rows.get i).y,
        some (indices.map fun i => (rows.get i).yvar.getD [])⟩ := by
  rw [h.naturalRows_eq, h.trainRowsAt_some hold, gatherRows_eq_ok _ hv]
  simp only [bind, Except.bind, Except.map]
  cases hb : m.boundedOutputs with
  | false =>
    unfold storedY storedYvar
    simp [hb, pure, Except.pure]
  | true =>
    have hyvar := h.naturalizeRows_eq_ok hb hsome indices
    rw [rowsMatrix_of_length (h.length_storedY indices), ← h.rows_invY hb]
    dsimp only
    rw [hyvar]
    rfl

omit [Floating F] [FloatCast (Extended K) F] in
/-- With the variances in store as they were told, all rows are read as they were told. -/
theorem Held.natural (h : Held given rows m b) (hlost : given = true → ∀ r ∈ rows,
    r.yvar.isSome = true) (indices : List (Fin rows.length)) :
    ∃ out, m.naturalRows (indices.map Fin.val) = .ok out ∧
      out.x = indices.map (fun i => (rows.get i).x) ∧
      out.y = indices.map (fun i => (rows.get i).y) ∧
      YvarTold out.yvar (indices.map fun i => (rows.get i).yvar) := by
  have hheld := h.yvar
  cases hold : b.trainYvarRows with
  | none =>
    rw [hold] at hheld
    obtain ⟨-, hnone⟩ : given = false ∧ ∀ r ∈ rows, r.yvar = none := by
      cases hheld with
      | none hgiven hnone => exact ⟨hgiven, hnone⟩
    refine ⟨_, h.naturalRows_none hold indices, rfl, rfl, .none fun v hv => ?_⟩
    obtain ⟨i, -, rfl⟩ := List.mem_map.mp hv
    exact hnone _ (List.get_mem _ _)
  | some v =>
    rw [hold] at hheld
    obtain ⟨hsome, hv⟩ : (∀ r ∈ rows, r.yvar.isSome = true) ∧
        v.rows = rows.map fun r => m.storedYvar r.y (r.yvar.getD []) := by
      cases hheld with
      | some _ hsome hv => exact ⟨hsome, hv⟩
      | lost hgiven hne hnone _ =>
        obtain ⟨r, hr⟩ := List.exists_mem_of_ne_nil rows hne
        have hbad := hlost hgiven r hr
        rw [hnone r hr] at hbad
        cases hbad
    refine ⟨_, h.naturalRows_some hold hsome hv indices, rfl, rfl, ?_⟩
    have htold : (indices.map fun i => (rows.get i).yvar) =
        (indices.map fun i => (rows.get i).yvar.getD []).map some := by
      rw [List.map_map]
      exact List.map_congr_left fun i _ => get_yvar hsome i
    rw [htold]
    exact .some _

omit [ExactLog K] [Floating F] [FloatCast (Extended K) F] in
/-- Without variances for the rows that have none in store, reading a row panics. -/
theorem Held.naturalRows_lost (h : Held given rows m b) {i : Fin rows.length}
    (hgiven : given = true) (hnone : (rows.get i).yvar = none) (out : TrainRowsAt (Extended K)) :
    m.naturalRows [i.val] ≠ .ok out := by
  have hheld := h.yvar
  intro hread
  rw [h.naturalRows_eq] at hread
  cases hold : b.trainYvarRows with
  | none =>
    rw [hold] at hheld
    cases hheld with
    | none hfalse _ =>
      rw [hgiven] at hfalse
      cases hfalse
  | some v =>
    rw [hold] at hheld
    have hv : v.rows = [] := by
      cases hheld with
      | some _ hsome _ =>
        have hbad := hsome _ (List.get_mem rows i)
        rw [hnone] at hbad
        cases hbad
      | lost _ _ _ hv => exact hv
    have hgather : RowStorage.gatherRows v [i.val] = .error .panic := by
      unfold RowStorage.gatherRows RowStorage.rowVec
      rw [hv]
      rfl
    have hrows := h.trainRowsAt_some hold [i]
    rw [List.map_singleton, hgather] at hrows
    rw [hrows] at hread
    cases hread

/-- In every run the rows are read as they were told exactly when every row got variances in case
the constructor did. -/
theorem Told.naturalScale_iff (h : Told m given rows) :
    NaturalScale m rows ↔ (given = true → ∀ r ∈ rows, r.yvar.isSome = true) := by
  obtain ⟨b, hb⟩ := h.held
  constructor
  · intro hnatural hgiven r hr
    obtain ⟨i, hi, rfl⟩ := List.getElem_of_mem hr
    by_contra hsome
    obtain ⟨out, hout, -⟩ := hnatural.natural [⟨i, hi⟩]
    apply hb.naturalRows_lost (i := ⟨i, hi⟩) hgiven _ out hout
    exact Option.not_isSome_iff_eq_none.mp hsome
  · intro hsome
    exact ⟨hb.natural hsome, fun j hj => (openInterval_of_valid hb.valid hj).warpInverse⟩

section Examples

open Extended (finite)

/-- The default tuning and constant draws, for the real numbers. -/
noncomputable def realEnv : Env (Extended ℝ) where
  tuning := defaultEnv.tuning
  rngOf _ := { ints := fun _ => 0, floats := fun _ => finite ((1 : ℕ) / (2 : ℕ)) }
  depth := 3
  order := id
  order_perm := defaultEnv.order_perm

/-- No rows, but with variances. -/
noncomputable def noRows : Batch (Extended ℝ) where
  x := .empty 1
  y := .empty 1
  yvar := some (.empty 1)
  nrows_eq := rfl
  yvar_shape := by
    rintro _ ⟨⟩
    rfl

/-- Variances without rows, and then a row without variances. -/
theorem not_naturalScale_lost :
    ∃ m : EpistemicNearestNeighbors (Extended ℝ) (Extended ℝ),
      Told m true [⟨[1], [1], none⟩] ∧ ¬ NaturalScale m [⟨[1], [1], none⟩] := by
  have hid := YBounds.isIdentityBounds_unboundedBounds (D := Extended ℝ) 1
  obtain ⟨-, hnew⟩ := newWithOptions_inMemory realEnv
    (show ({} : ModelOptions (Extended ℝ) (Extended ℝ)).storage = .inMemory from rfl) rfl noRows rfl
    (validateBounds_unboundedBounds 1)
  have hwarp : noRows.warp (YBounds.unboundedBounds 1) = .ok (.empty 1, some (.empty 1)) := by
    unfold Batch.warp warp
    rw [hid]
    rfl
  obtain ⟨m, b, hm, hl⟩ := hnew _ _ hwarp
  have htold : Told m true [] := Told.new realEnv _ _ _ {} rfl hm
  obtain ⟨hmodel, hx, hy, hyvar, -, -, -⟩ := hl
  have hbackend : m.backend = .inMemory b := congrArg backend hmodel
  have hnumDim : m.numDim = 1 := congrArg numDim hmodel
  have hnumMetrics : m.numMetrics = 1 := congrArg numMetrics hmodel
  have hySum : m.ySum.length = 1 := congrArg (fun m => m.ySum.length) hmodel
  have hscale : m.scaleX = false := congrArg scaleX hmodel
  have hbounded : m.boundedOutputs = false := by
    rw [hmodel]
    change (!YBounds.isIdentityBounds (YBounds.unboundedBounds (D := Extended ℝ) 1)) = false
    rw [hid]
    rfl
  have hfirst : m.firstYvar = .ok none := by
    unfold firstYvar EnnBackend.rowYvar EnnBackend.read InMemoryEnnBackend.rowYvar
      InMemoryEnnBackend.checkIndex InMemoryEnnBackend.len
    rw [hbackend]
    dsimp only
    rw [hx]
    rfl
  let q : Batch (Extended ℝ) := ⟨.column [1], .column [1], none, rfl, nofun⟩
  have hvalid : m.validateAdd q.x q.y q.yvar = .ok () := by
    unfold validateAdd
    rw [hnumDim, hnumMetrics, hfirst]
    rfl
  have hwarpQ : m.warpAdded q.y q.yvar = .ok (q.y, none) := by
    unfold warpAdded
    rw [hbounded]
    rfl
  have hstacksX : b.trainXRows.Stacks q.x q.x := by
    rw [hx]
    exact ⟨rfl, rfl, rfl⟩
  have hstacksY : b.trainYRows.Stacks q.y q.y := by
    rw [hy]
    exact ⟨rfl, rfl, rfl⟩
  have hpushed : YvarPushed b.trainYvarRows none (some (.empty 1)) := by
    rw [hyvar]
    rfl
  have happend :=
    appendRows_inMemory (show 0 < q.x.nrows from Nat.one_pos) hstacksX hstacksY hpushed
  have hadd := add_inMemory realEnv (q := q) hbackend hvalid Nat.one_pos hwarpQ happend hySum.ge
    (fun h => by rw [hscale] at h; cases h)
  have htold' : Told _ true [⟨[(1 : Extended ℝ)], [1], none⟩] :=
    htold.add realEnv q.x q.y q.yvar hadd
  refine ⟨_, htold', fun hnatural => ?_⟩
  obtain ⟨b', hb'⟩ := htold'.held
  obtain ⟨out, hout, -⟩ := hnatural.natural [0]
  exact hb'.naturalRows_lost (i := 0) rfl rfl out hout

/-- One row with its variance. -/
noncomputable def oneRow : Batch (Extended ℝ) where
  x := .column [1]
  y := .column [1]
  yvar := some (.column [3])
  nrows_eq := rfl
  yvar_shape := by
    rintro _ ⟨⟩
    rfl

noncomputable def positiveBounds : Array2 (Extended ℝ) := ⟨2, [[0, .infinity]], by simp⟩

theorem validateBounds_positiveBounds : validateBounds positiveBounds 1 = .ok () := by
  rw [YBounds.validateBounds_eq_ok]
  refine ⟨rfl, rfl, fun i hi => ?_⟩
  obtain rfl : i = 0 := by omega
  exact YBounds.boundsError_of_openInterval (.above 0)

/-- A row of a metric that is positive. -/
theorem naturalScale_positive :
    ∃ m : EpistemicNearestNeighbors (Extended ℝ) (Extended ℝ),
      Told m true [⟨[1], [1], some [3]⟩] ∧ NaturalScale m [⟨[1], [1], some [3]⟩] := by
  let options : ModelOptions (Extended ℝ) (Extended ℝ) := { yBounds := some positiveBounds }
  obtain ⟨-, hnew⟩ := newWithOptions_inMemory realEnv (show options.storage = .inMemory from rfl)
    rfl oneRow rfl validateBounds_positiveBounds
  have hid : YBounds.isIdentityBounds positiveBounds = false := by
    rw [← Bool.not_eq_true, YBounds.isIdentityBounds_eq_true]
    intro hall
    have hzero := (Extended.eqB_iff.mp (hall 0 Nat.one_pos).1).2
    cases hzero
  have hinside : outside (1 : Extended ℝ) 0 .infinity = false := by
    apply (YBounds.outside_eq_false_iff (.above 0)).mpr
    refine ⟨1, rfl, ?_, nofun⟩
    rintro _ ⟨⟩
    exact one_pos
  have hwarp : ∃ out, oneRow.warp positiveBounds = .ok out := by
    obtain ⟨c, -, hc, -⟩ := (YBounds.OpenInterval.above (0 : ℝ)).jacobians hinside
    have hyvar := (warpYvar_eq_ok (a := .column [1]) (v := .column [3]) rfl rfl
      validateBounds_positiveBounds).mpr ⟨?_, rfl⟩
    · rw [Batch.warp_eq _ hid, warpY_eq validateBounds_positiveBounds]
      · exact ⟨_, by simp only [bind, Except.bind, oneRow, hyvar]; rfl⟩
      · intro e he
        obtain rfl := List.mem_singleton.mp he
        exact hinside
    · intro e he
      obtain rfl := List.mem_singleton.mp he
      change isFinite (warpJacobian 1 (finite 0) .infinity * warpJacobian 1 (finite 0) .infinity *
        finite 3) = true
      rw [hc]
      rfl
  obtain ⟨⟨y, yvar⟩, hout⟩ := hwarp
  obtain ⟨m, -, hm, -⟩ := hnew y yvar hout
  have htold : Told m true [⟨[1], [1], some [3]⟩] :=
    Told.new realEnv _ _ _ options rfl hm
  exact ⟨m, htold, htold.naturalScale_iff.mpr fun _ => by simp⟩

end Examples

end Exact

end EpistemicNearestNeighbors

end Ennbo
