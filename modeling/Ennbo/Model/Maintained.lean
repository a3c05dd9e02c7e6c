import Ennbo.Model.Reached

/-! # The index over the life of a model

Constructors leave the index of a model in memory in sync, adds let it lag
behind, and queries bring it up to date. At no point does it hold anything but
rows of the model.
-/

namespace Ennbo.EpistemicNearestNeighbors

variable {D F : Type} [Floating D] [Floating F] [FloatCast D F] [Analysis D]
  {m m' : EpistemicNearestNeighbors D F} {b : InMemoryEnnBackend D F} {x y : Array2 D}
  {yvar : Option (Array2 D)} {env : Env F} {options : ModelOptions D F}

/-- The model in memory counts the rows of its backend, and its index lags behind them at most. -/
structure Indexed (m : EpistemicNearestNeighbors D F) (b : InMemoryEnnBackend D F) : Prop where
  backend_eq : m.backend = .inMemory b
  numObs_eq : m.numObs = b.len
  numDim_eq : m.numDim = b.trainXRows.ncols
  coherent : b.Coherent m.scaleX m.xScale

omit [Floating F] [Analysis D] in
theorem Indexed.reindexed (h : Indexed m b) : Reindexed m m :=
  ⟨b, b.index, b.indexStale, b.indexSyncedObs, m.workDir, h.backend_eq, by
    rw [show b.withIndex b.index b.indexStale b.indexSyncedObs = b from rfl, ← h.backend_eq],
    h.coherent⟩

omit [Floating F] [Analysis D] in
theorem Indexed.of_reindexed (h : Indexed m b) (hr : Reindexed m m') : ∃ b', Indexed m' b' := by
  obtain ⟨b₀, index, stale, n, workDir, hb, rfl, hcoherent⟩ := hr
  obtain rfl := EnnBackend.inMemory.inj (h.backend_eq.symm.trans hb)
  exact ⟨b.withIndex index stale n, rfl, h.numObs_eq, h.numDim_eq, hcoherent⟩

theorem indexed_newWithOptions (hs : options.storage = .inMemory) (hd : options.driver = .exact)
    (h : newWithOptions env x y yvar options = .ok m) : ∃ b, Indexed m b := by
  obtain ⟨bounds, warpedY, warpedYvar, backend, m₁, hc, rfl⟩ := newWithOptions_eq_ok h
  obtain ⟨b, hnew, hcoherent, hx, -, -, -, -⟩ :=
    new_inMemory (F := F) x warpedY warpedYvar options.scaleX (initialXScale options.scaleX x)
  have hopen := hc.backend_eq
  unfold openBackend EnnBackend.newInMemory at hopen
  rw [hs, hd, hnew] at hopen
  obtain rfl := Except.ok.inj hopen
  have hm₁ := hc.unsynced (by
    rintro (hr | hr)
    · simp [diskReopen, hs] at hr
    · apply hr
      change x.nrows = b.trainXRows.nrows
      rw [hx])
  subst hm₁
  rw [← xScale_assemble (.inMemory b) options bounds x warpedY] at hcoherent
  refine ⟨b, rfl, ?_, ?_, hcoherent⟩
  · change x.nrows = b.trainXRows.nrows
    rw [hx]
  · change x.ncols = b.trainXRows.ncols
    rw [hx]

theorem indexed_newEmpty {numDim numMetrics : ℕ} {workDir : Option (WorkDir D F)}
    {threshold : Option ℕ}
    (h : newEmpty env numDim numMetrics .exact .inMemory workDir threshold = .ok m) :
    ∃ b, Indexed m b := by
  obtain ⟨b, hnew, hcoherent, hx, -, -, -, -⟩ := new_inMemory (F := F) (Array2.empty numDim)
    (Array2.empty numMetrics) none false (List.replicate numDim 1 : List D)
  simp only [newEmpty, EnnBackend.newEmpty, InMemoryEnnBackend.newEmpty, hnew, Outcome.bind_eq_ok,
    Outcome.pure_eq_ok, Outcome.map_eq_ok] at h
  obtain ⟨_, ⟨b', hb', rfl⟩, rfl⟩ := h
  obtain rfl := Except.ok.inj hb'
  refine ⟨b, rfl, ?_, ?_, hcoherent⟩
  · change 0 = b.trainXRows.nrows
    rw [hx]
    rfl
  · change numDim = b.trainXRows.ncols
    rw [hx]
    rfl

theorem indexed_add (h : Indexed m b) (hadd : (add env x y yvar).Returns m () m') :
    ∃ b', Indexed m' b' := by
  rcases returns_add hadd with ⟨-, rfl⟩ | ⟨warpedY, stored, waited, backend, ha, rfl⟩
  · exact ⟨b, h⟩
  · have hwait : waited = .inMemory b := by
      have hwait := ha.wait
      rw [h.backend_eq] at hwait
      exact (Prod.mk.inj hwait).2.symm
    have happend := ha.append
    rw [hwait] at happend
    obtain ⟨b', hb', rfl⟩ := EnnBackend.returns_dispatch_inMemory happend
    obtain ⟨x', y', yvar', hx, -, -, rfl⟩ := returns_appendRows ha.nrows_pos hb'
    have hdim : m.numDim = x'.ncols := h.numDim_eq.trans hx.ncols_eq.symm
    unfold afterAdd
    cases hscale : m.scaleX with
    | true =>
      -- the scale is another one now, and the index is stale
      have hc := fun xScale' =>
        @coherent_appended D F _ _ b m.scaleX m.xScale xScale' x' x y' yvar' h.coherent hx
      simp only [hscale, Bool.true_or] at hc
      exact ⟨_, rfl, rfl, hdim, hc _⟩
    | false =>
      have hc :=
        @coherent_appended D F _ _ b m.scaleX m.xScale m.xScale x' x y' yvar' h.coherent hx
      rw [hscale, Bool.false_or] at hc
      exact ⟨_, rfl, rfl, hdim, hc⟩

variable [DecidableEq F]

/-- The exact models in memory after a constructor, adds that return, and queries. -/
inductive Maintained : EpistemicNearestNeighbors D F → Prop where
  | new {m : EpistemicNearestNeighbors D F} (env : Env F) (x y : Array2 D)
      (yvar : Option (Array2 D)) (options : ModelOptions D F) : options.storage = .inMemory →
      options.driver = .exact → newWithOptions env x y yvar options = .ok m → Maintained m
  | empty {m : EpistemicNearestNeighbors D F} (env : Env F) (numDim numMetrics : ℕ)
      (workDir : Option (WorkDir D F)) (threshold : Option ℕ) :
      newEmpty env numDim numMetrics .exact .inMemory workDir threshold = .ok m → Maintained m
  | add {m m' : EpistemicNearestNeighbors D F} (env : Env F) (x y : Array2 D)
      (yvar : Option (Array2 D)) : Maintained m →
      (EpistemicNearestNeighbors.add env x y yvar).Returns m () m' → Maintained m'
  | ask {m : EpistemicNearestNeighbors D F} (faiss : Faiss F) (env : Env F) (q : Query D) :
      Maintained m → Maintained (q.ask faiss env m).2

omit [DecidableEq F] in
theorem Maintained.indexed (h : Maintained m) : ∃ b, Indexed m b := by
  induction h with
  | new env x y yvar options hs hd h => exact indexed_newWithOptions hs hd h
  | empty env numDim numMetrics workDir threshold h => exact indexed_newEmpty h
  | add env x y yvar _ hadd ih =>
    obtain ⟨b, hb⟩ := ih
    exact indexed_add hb hadd
  | ask faiss env q _ ih =>
    obtain ⟨b, hb⟩ := ih
    have hasked : Call.Matches (Alike _) Eq (q.ask faiss env) _ (q.ask faiss env) _ :=
      Alike.ask_matches env faiss ⟨hb.reindexed, hb.reindexed⟩ q
    exact hb.of_reindexed hasked.2.1

end Ennbo.EpistemicNearestNeighbors
