import Ennbo.Model.Batches

/-! # Queries between batches

A model is constructed and then gets batches of rows, with queries between them.
In memory the order of these calls leaves no trace: every query of the model
that results is answered as by the model that gets all rows at once.
-/

namespace Ennbo

variable {D F : Type} [Floating D] [Floating F] [FloatCast D F] [Analysis D]

/-- What is done to a model in turn. -/
inductive Step (D : Type) where
  | add (b : Batch D)
  | ask (q : Query D)

/-- The batches that are added. -/
def Step.batches : List (Step D) → List (Batch D)
  | [] => []
  | .add b :: steps => b :: batches steps
  | .ask _ :: steps => batches steps

/-- A model starts with rows or without any. -/
inductive Start (D : Type) where
  | rows (first : Batch D)
  | empty (numDim numMetrics : ℕ)

def Start.batch : Start D → Batch D
  | .rows first => first
  | .empty numDim numMetrics =>
    { x := .empty numDim
      y := .empty numMetrics
      yvar := none
      nrows_eq := rfl
      yvar_shape := fun _ h => by cases h }

open EpistemicNearestNeighbors (newWithOptions newEmpty persistedBounds)

/-- The empty constructor knows neither scaled inputs nor bounds. -/
def Start.Fits (options : ModelOptions D F) : Start D → Prop
  | .rows _ => True
  | .empty _ numMetrics => options.scaleX = false ∧ options.yBounds = none ∧
    persistedBounds options.workDir numMetrics = none

def Start.construct (env : Env F) (options : ModelOptions D F) :
    Start D → Outcome (EpistemicNearestNeighbors D F)
  | .rows first => newWithOptions env first.x first.y first.yvar options
  | .empty numDim numMetrics =>
    newEmpty env numDim numMetrics options.driver options.storage options.workDir none

/-- A query may fail; an add has to return. -/
def Step.run (faiss : Faiss F) (env : Env F) (m : EpistemicNearestNeighbors D F) :
    Step D → Outcome (EpistemicNearestNeighbors D F)
  | .add b => (EpistemicNearestNeighbors.add env b.x b.y b.yvar).exec m
  | .ask q => pure (q.ask faiss env m).2

/-- A model after these steps. -/
def built (faiss : Faiss F) (env : Env F) (options : ModelOptions D F) (start : Start D)
    (steps : List (Step D)) : Outcome (EpistemicNearestNeighbors D F) := do
  let m ← start.construct env options
  steps.foldlM (Step.run faiss env) m

/-- What a user sees of two models is the same. -/
structure SameAnswers (m m' : EpistemicNearestNeighbors D F) : Prop where
  numObs_eq : m.numObs = m'.numObs
  xScale_eq : m.xScale = m'.xScale
  yScale_eq : m.yScale = m'.yScale
  ask_eq : ∀ faiss env (q : Query D), (q.ask faiss env m).1 = (q.ask faiss env m').1

section Splits

variable {bounds : Array2 D} {a b whole : Batch D} {rest : List (Batch D)}

omit [Floating D] [Analysis D] in
theorem Splits.ncols_eq (h : Splits a rest whole) : whole.y.ncols = a.y.ncols := by
  induction h with
  | nil => rfl
  | cons hj _ ih => exact ih.trans hj.y.ncols_eq

theorem Splits.warp_first (h : Splits a rest whole)
    (hv : YBounds.validateBounds bounds a.y.ncols = .ok ())
    (hw : ∃ out, whole.warp bounds = .ok out) : ∃ out, a.warp bounds = .ok out := by
  induction h with
  | nil => exact hw
  | cons hj _ ih =>
    obtain ⟨out, hc⟩ := ih (hj.y.ncols_eq ▸ hv) hw
    obtain ⟨oa, ob, ha, -, -, -⟩ := (hj.warp_eq_ok hv).mp hc
    exact ⟨oa, ha⟩

end Splits

namespace EpistemicNearestNeighbors

variable {faiss : Faiss F} {env : Env F} {options : ModelOptions D F} {bounds : Array2 D}
  {m m' : EpistemicNearestNeighbors D F} {p whole : Batch D} {start : Start D}
  {steps : List (Step D)}

theorem Holds.ask (h : Holds options bounds p m) (q : Query D) :
    Holds options bounds p (q.ask faiss env m).2 := by
  obtain ⟨y, stored, held, b, hwarp, hheld, hl⟩ := h.loaded
  have hself : Alike m m m := ⟨hl.reindexed hl, hl.reindexed hl⟩
  obtain ⟨-, hr, -⟩ := hself.ask_matches env faiss q
  obtain ⟨b', hl'⟩ := hl.of_reindexed hr
  exact ⟨y, stored, held, b', hwarp, hheld, hl'⟩

variable (faiss env) in
/-- A run returns exactly when all rows are inside their bounds, and holds them then. -/
theorem Holds.run (h : Holds options bounds p m)
    (hv : YBounds.validateBounds bounds p.y.ncols = .ok ())
    (hs : Splits p (Step.batches steps) whole) :
    (∀ m', steps.foldlM (Step.run faiss env) m = .ok m' → Holds options bounds whole m') ∧
      ((∃ out, whole.warp bounds = .ok out) →
        ∃ m', steps.foldlM (Step.run faiss env) m = .ok m') := by
  induction steps generalizing p m with
  | nil =>
    cases hs
    constructor
    · rintro _ ⟨⟩
      exact h
    · intro
      exact ⟨m, rfl⟩
  | cons step steps ih =>
    simp only [List.foldlM_cons, Outcome.bind_eq_ok]
    cases step with
    | ask q =>
      obtain ⟨hholds, hreturns⟩ := ih (h.ask q) hv hs
      constructor
      · rintro m' ⟨_, ⟨⟩, hm'⟩
        exact hholds m' hm'
      · intro hw
        obtain ⟨m', hm'⟩ := hreturns hw
        exact ⟨m', _, rfl, hm'⟩
    | add q =>
      cases hs with
      | cons hj hs =>
        have hvc := hj.y.ncols_eq ▸ hv
        obtain ⟨hok, herror⟩ := h.add env hj hv
        constructor
        · rintro m' ⟨m₁, hm₁, hm'⟩
          have hadd := Call.exec_eq_ok.mp hm₁
          cases hq : q.warp bounds with
          | error e =>
            have hfail := herror e hq
            rw [hadd] at hfail
            cases hfail
          | ok out =>
            obtain ⟨m₂, hadd₂, hc⟩ := hok out hq
            obtain ⟨-, rfl⟩ := Prod.mk.inj (hadd.symm.trans hadd₂)
            exact (ih hc hvc hs).1 m' hm'
        · intro hw
          obtain ⟨out, hcw⟩ := hs.warp_first hvc hw
          obtain ⟨-, ob, -, hq, -, -⟩ := (hj.warp_eq_ok hv).mp hcw
          obtain ⟨m₂, hadd₂, hc⟩ := hok ob hq
          obtain ⟨m', hm'⟩ := (ih hc hvc hs).2 hw
          exact ⟨m', m₂, Call.exec_eq_ok.mpr hadd₂, hm'⟩

omit [Floating F] in
/-- Without rows it does not matter whether there are variances. -/
theorem LoadedWith.bothEmpty {x y : Array2 D} {held held' : Option (Array2 D)}
    {b b' : InMemoryEnnBackend D F} (h : LoadedWith options bounds x y held m b)
    (h' : LoadedWith options bounds x y held' m' b') (h0 : x.nrows = 0) : BothEmpty m m' := by
  have hobs : m.numObs = 0 := by
    rw [h.model_eq]
    exact h0
  have hobs' : m'.numObs = 0 := by
    rw [h'.model_eq]
    exact h0
  have hb : m.backend = .inMemory b := congrArg backend h.model_eq
  have hb' : m'.backend = .inMemory b' := congrArg backend h'.model_eq
  refine ⟨?_, hobs⟩
  constructor
  case numObs_eq => exact hobs.trans hobs'.symm
  case hasYvar_eq =>
    unfold hasYvar
    rw [if_neg (by omega), if_neg (by omega)]
  case rowY_eq =>
    intro i
    have hread : ∀ (m : EpistemicNearestNeighbors D F) b, m.backend = .inMemory b →
        m.backend.rowY i = b.rowY i := fun m b hb => by
      rw [hb]
      rfl
    rw [hread m b hb, hread m' b' hb']
    unfold InMemoryEnnBackend.rowY InMemoryEnnBackend.checkIndex InMemoryEnnBackend.len
    rw [h.x_eq, h.y_eq, h'.x_eq, h'.y_eq]
  case expectYvar_eq =>
    intro i hi
    omega
  all_goals
    rw [h.model_eq, h'.model_eq]
    rfl

/-- Models that hold the same rows answer the same. -/
theorem Holds.sameAnswers (h : Holds options bounds p m) (h' : Holds options bounds p m') :
    SameAnswers m m' := by
  obtain ⟨y, stored, held, b, hwarp, hheld, hl⟩ := h.loaded
  obtain ⟨y', stored', held', b', hwarp', hheld', hl'⟩ := h'.loaded
  obtain ⟨rfl, rfl⟩ := Prod.mk.inj (Except.ok.inj (hwarp.symm.trans hwarp'))
  have hm := hl.model_eq
  have hm' := hl'.model_eq
  have hxs := fun backend => xScale_assemble backend options bounds p.x y
  refine ⟨?_, ?_, ?_, ?_⟩
  · rw [hm, hm']
    rfl
  · rw [hm, hm']
    exact (hxs _).trans (hxs _).symm
  · rw [hm, hm']
    rfl
  · intro faiss env q
    by_cases h0 : p.x.nrows = 0
    · have hempty := hl.bothEmpty hl' h0
      exact Outcome.matches_eq.mp (hempty.ask_matches faiss env q).1
    · obtain rfl : held = stored := by tauto
      obtain rfl : held' = held := by tauto
      have halike : Alike m m m' := ⟨hl.reindexed hl, hl.reindexed hl'⟩
      exact Outcome.matches_eq.mp (halike.ask_matches env faiss q).1

theorem bounds_of_newWithOptions {x y : Array2 D} {yvar : Option (Array2 D)}
    (h : newWithOptions env x y yvar options = .ok m) :
    ∃ bounds, chooseBounds options.yBounds (persistedBounds options.workDir y.ncols) y.ncols =
      .ok bounds ∧ YBounds.validateBounds bounds y.ncols = .ok () := by
  simp only [newWithOptions, Outcome.bind_eq_ok] at h
  obtain ⟨-, -, bounds, hb, ⟨⟩, hv, -⟩ := h
  exact ⟨bounds, hb, hv⟩

variable (env) in
/-- A constructed model holds its rows. -/
theorem holds_newWithOptions (hs : options.storage = .inMemory) (hd : options.driver = .exact)
    (hb : chooseBounds options.yBounds (persistedBounds options.workDir p.y.ncols) p.y.ncols =
      .ok bounds) (hv : YBounds.validateBounds bounds p.y.ncols = .ok ()) :
    (∀ m, newWithOptions env p.x p.y p.yvar options = .ok m → Holds options bounds p m) ∧
      ((∃ out, p.warp bounds = .ok out) →
        ∃ m, newWithOptions env p.x p.y p.yvar options = .ok m) := by
  obtain ⟨herror, hok⟩ := newWithOptions_inMemory env hs hd p hb hv
  constructor
  · intro m hm
    cases hw : p.warp bounds with
    | error e =>
      rw [herror e hw] at hm
      cases hm
    | ok out =>
      obtain ⟨m', backend, hm', hl⟩ := hok out.1 out.2 hw
      obtain rfl := Except.ok.inj (hm.symm.trans hm')
      exact ⟨out.1, out.2, out.2, backend, hw, .inl rfl, hl⟩
  · rintro ⟨out, hw⟩
    obtain ⟨m, -, hm, -⟩ := hok out.1 out.2 hw
    exact ⟨m, hm⟩

variable [YBounds.LawfulBounds D]

variable (env) in
/-- An empty model is the one that is constructed from no rows. -/
theorem newEmpty_inMemory (hs : options.storage = .inMemory) (hd : options.driver = .exact)
    {numDim numMetrics : ℕ} (hfits : (Start.empty numDim numMetrics).Fits options) :
    ∃ m, newEmpty env numDim numMetrics options.driver options.storage options.workDir none =
        .ok m ∧
      Holds options (YBounds.unboundedBounds numMetrics)
        (Start.empty numDim numMetrics).batch m := by
  obtain ⟨hscale, -, -⟩ := hfits
  have hid := YBounds.isIdentityBounds_unboundedBounds (D := D) numMetrics
  obtain ⟨backend, hnew, hcoherent, hx, hy, hyvar, hdim, hmetrics⟩ :=
    new_inMemory (F := F) (.empty numDim) (.empty numMetrics) none false (List.replicate numDim (1 : D))
  have hopen : EnnBackend.newEmpty env numDim numMetrics options.driver options.storage
      options.workDir none = .ok (.inMemory backend) := by
    rw [hs, hd]
    change EnnBackend.inMemory <$> InMemoryEnnBackend.newEmpty numDim numMetrics .exact = _
    unfold InMemoryEnnBackend.newEmpty
    rw [hnew]
    rfl
  refine ⟨_, by rw [newEmpty, hopen]; rfl, .empty numMetrics, none, none, backend, ?_, .inl rfl,
    ?_, hx, hy, hyvar, hdim, hmetrics, hcoherent⟩
  · unfold Batch.warp warp
    rw [hid]
    rfl
  · unfold assemble initStats
    rw [hscale, hid]
    rfl

theorem validateBounds_unboundedBounds (n : ℕ) :
    YBounds.validateBounds (YBounds.unboundedBounds n : Array2 D) n = .ok () := by
  rw [YBounds.validateBounds_eq_ok]
  refine ⟨YBounds.nrows_unboundedBounds n, rfl, fun i hi => ?_⟩
  unfold YBounds.boundsError isNan
  rw [YBounds.lower_unboundedBounds hi, YBounds.upper_unboundedBounds hi]
  simp [YBounds.LawfulBounds.isFinite_negInfinity, YBounds.LawfulBounds.isFinite_infinity,
    YBounds.LawfulBounds.eqB_negInfinity, YBounds.LawfulBounds.eqB_infinity]

variable (env) in
/-- A model that starts has valid bounds and holds what it starts with. -/
theorem holds_construct (hs : options.storage = .inMemory) (hd : options.driver = .exact)
    (hfits : start.Fits options)
    (hb : chooseBounds options.yBounds (persistedBounds options.workDir start.batch.y.ncols)
      start.batch.y.ncols = .ok bounds)
    (hv : YBounds.validateBounds bounds start.batch.y.ncols = .ok ()) :
    (∀ m, start.construct env options = .ok m → Holds options bounds start.batch m) ∧
      ((∃ out, start.batch.warp bounds = .ok out) →
        ∃ m, start.construct env options = .ok m) := by
  cases start with
  | rows first => exact holds_newWithOptions env hs hd hb hv
  | empty numDim numMetrics =>
    obtain ⟨m, hm, hholds⟩ := newEmpty_inMemory env hs hd hfits
    obtain ⟨-, hnone, hpersisted⟩ := hfits
    change chooseBounds _ (persistedBounds options.workDir numMetrics) numMetrics = _ at hb
    rw [hnone, hpersisted] at hb
    obtain rfl := Outcome.pure_eq_ok.mp hb
    constructor
    · intro m' hm'
      obtain rfl := Except.ok.inj (hm.symm.trans hm')
      exact hholds
    · intro
      exact ⟨m, hm⟩

theorem bounds_of_construct (hfits : start.Fits options)
    (h : start.construct env options = .ok m) :
    ∃ bounds, chooseBounds options.yBounds (persistedBounds options.workDir start.batch.y.ncols)
        start.batch.y.ncols = .ok bounds ∧
      YBounds.validateBounds bounds start.batch.y.ncols = .ok () := by
  cases start with
  | rows first => exact bounds_of_newWithOptions h
  | empty numDim numMetrics =>
    obtain ⟨-, hnone, hpersisted⟩ := hfits
    refine ⟨YBounds.unboundedBounds numMetrics, ?_, validateBounds_unboundedBounds numMetrics⟩
    change chooseBounds _ (persistedBounds options.workDir numMetrics) numMetrics = _
    rw [hnone, hpersisted]
    rfl

/--
However rows reach a model in memory, it is constructed if and only if the model of all rows is,
and both answer every query alike.
-/
theorem batching_invisible (faiss : Faiss F) (env : Env F) (options : ModelOptions D F)
    (hs : options.storage = .inMemory) (hd : options.driver = .exact) (start : Start D)
    (hfits : start.Fits options) (steps : List (Step D)) (whole : Batch D)
    (hsplits : Splits start.batch (Step.batches steps) whole) :
    ((∃ m, built faiss env options start steps = .ok m) ↔
      ∃ w, newWithOptions env whole.x whole.y whole.yvar options = .ok w) ∧
    ∀ m w, built faiss env options start steps = .ok m →
      newWithOptions env whole.x whole.y whole.yvar options = .ok w → SameAnswers m w := by
  have hcols := hsplits.ncols_eq
  -- with the bounds in force, both models hold all rows
  have key : ∀ bounds, chooseBounds options.yBounds
        (persistedBounds options.workDir start.batch.y.ncols) start.batch.y.ncols = .ok bounds →
      YBounds.validateBounds bounds start.batch.y.ncols = .ok () →
      ((∃ m, built faiss env options start steps = .ok m) ↔
        ∃ w, newWithOptions env whole.x whole.y whole.yvar options = .ok w) ∧
      ∀ m w, built faiss env options start steps = .ok m →
        newWithOptions env whole.x whole.y whole.yvar options = .ok w → SameAnswers m w := by
    intro bounds hb hv
    obtain ⟨hholds, hstarts⟩ := holds_construct env hs hd hfits hb hv
    obtain ⟨hwhole, hreturns⟩ := holds_newWithOptions env hs hd
      (show chooseBounds _ (persistedBounds _ whole.y.ncols) whole.y.ncols = _ by
        rw [hcols]
        exact hb) (hcols ▸ hv)
    have hbuilt : ∀ m, built faiss env options start steps = .ok m →
        Holds options bounds whole m := by
      intro m hm
      obtain ⟨m₀, hm₀, hrun⟩ := Outcome.bind_eq_ok.mp hm
      exact ((hholds m₀ hm₀).run faiss env hv hsplits).1 m hrun
    refine ⟨⟨?_, ?_⟩, fun m w hm hw => (hbuilt m hm).sameAnswers (hwhole w hw)⟩
    · rintro ⟨m, hm⟩
      obtain ⟨y, stored, -, -, hwarp, -, -⟩ := (hbuilt m hm).loaded
      exact hreturns ⟨_, hwarp⟩
    · rintro ⟨w, hw⟩
      obtain ⟨y, stored, -, -, hwarp, -, -⟩ := (hwhole w hw).loaded
      obtain ⟨m₀, hm₀⟩ := hstarts (hsplits.warp_first hv ⟨_, hwarp⟩)
      obtain ⟨m, hrun⟩ := ((hholds m₀ hm₀).run faiss env hv hsplits).2
        ⟨_, hwarp⟩
      exact ⟨m, Outcome.bind_eq_ok.mpr ⟨m₀, hm₀, hrun⟩⟩
  refine ⟨⟨?_, ?_⟩, ?_⟩
  · rintro ⟨m, hm⟩
    obtain ⟨m₀, hm₀, -⟩ := Outcome.bind_eq_ok.mp hm
    obtain ⟨bounds, hb, hv⟩ := bounds_of_construct hfits hm₀
    exact (key bounds hb hv).1.mp ⟨m, hm⟩
  · rintro ⟨w, hw⟩
    obtain ⟨bounds, hb, hv⟩ := bounds_of_newWithOptions hw
    rw [hcols] at hb hv
    exact (key bounds hb hv).1.mpr ⟨w, hw⟩
  · intro m w hm hw
    obtain ⟨bounds, hb, hv⟩ := bounds_of_newWithOptions hw
    rw [hcols] at hb hv
    exact (key bounds hb hv).2 m w hm hw

/-- Rows of one input and one output. -/
def columnBatch (xs ys : List ℚ) (h : xs.length = ys.length) : Batch ℚ where
  x := .column xs
  y := .column ys
  yvar := none
  nrows_eq := by simp [Array2.column, Array2.nrows, h]
  yvar_shape := fun _ h => by cases h

theorem batching_invisible_scaled :
    ∃ m w : EpistemicNearestNeighbors ℚ ℚ,
      built .flat defaultEnv { scaleX := true } (.rows (columnBatch [0, 2] [1, 5] rfl))
        [.ask (.neighbors (.column [1]) 1 false), .add (columnBatch [7] [4] rfl)] = .ok m ∧
      newWithOptions defaultEnv (.column [0, 2, 7]) (.column [1, 5, 4]) none { scaleX := true } =
        .ok w ∧ SameAnswers m w := by
  have hbuilt : (built .flat defaultEnv ({ scaleX := true } : ModelOptions ℚ ℚ)
      (.rows (columnBatch [0, 2] [1, 5] rfl))
      [.ask (.neighbors (.column [1]) 1 false), .add (columnBatch [7] [4] rfl)]).returns = true := by
    decide +kernel
  have hwhole : (newWithOptions defaultEnv (.column [0, 2, 7]) (.column [1, 5, 4]) none
      ({ scaleX := true } : ModelOptions ℚ ℚ)).returns = true := by
    decide +kernel
  have hm := Outcome.eq_ok_value hbuilt
  have hw := Outcome.eq_ok_value hwhole
  have hsplits : Splits (columnBatch [0, 2] [1, 5] rfl) [columnBatch [7] [4] rfl]
      (columnBatch [0, 2, 7] [1, 5, 4] rfl) :=
    .cons (c := columnBatch [0, 2, 7] [1, 5, 4] rfl)
      ⟨⟨rfl, rfl, rfl⟩, ⟨rfl, rfl, rfl⟩, .none⟩ (.nil _)
  exact ⟨_, _, hm, hw, (batching_invisible .flat defaultEnv { scaleX := true } rfl rfl
    (.rows (columnBatch [0, 2] [1, 5] rfl)) trivial
    [.ask (.neighbors (.column [1]) 1 false), .add (columnBatch [7] [4] rfl)]
    (columnBatch [0, 2, 7] [1, 5, 4] rfl) hsplits).2 _ _ hm hw⟩

end EpistemicNearestNeighbors

end Ennbo
