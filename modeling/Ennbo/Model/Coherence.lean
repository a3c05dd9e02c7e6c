import Ennbo.Model.Queries

/-! # The index of a model in memory

The index lags behind the rows until a query brings it up to date. What it holds
then follows from the rows and the scale in force, so that two models with the
same rows answer alike, however their indices came about.
-/

namespace Ennbo

variable {D F : Type} [Floating D] [Floating F] [FloatCast D F]

namespace InMemoryEnnBackend

variable {b b' : InMemoryEnnBackend D F} {scaleX : Bool} {xScale : List D}

/-- The rows that a synced index holds. -/
def indexRows (b : InMemoryEnnBackend D F) (scaleX : Bool) (xScale : List D) : List (List F) :=
  if b.trainXRows.ncols = 0 then []
  else
    FaissBackend.arr2RowsToF32
      (if scaleX then ENNIndex.divideCols b.trainXRows xScale else b.trainXRows)

/-- The index of a backend that is in sync. -/
def syncedIndex (b : InMemoryEnnBackend D F) (scaleX : Bool) (xScale : List D) : ENNIndex D F where
  inner := ⟨b.indexRows scaleX xScale, b.numDim⟩
  numDim := b.numDim
  xScale := xScale
  scaleX := scaleX
  driver := .exact

/-- The index is in sync, as far as a search reads it. -/
structure Synced (b : InMemoryEnnBackend D F) (scaleX : Bool) (xScale : List D) : Prop where
  inner_eq : b.index.inner = ⟨b.indexRows scaleX xScale, b.numDim⟩
  numDim_eq : b.index.numDim = b.numDim
  scaleX_eq : b.index.scaleX = scaleX
  xScale_eq : scaleX = true → b.index.xScale = xScale

omit [Floating F] in
theorem Synced.search_eq (h : b.Synced scaleX xScale) (faiss : Faiss F) (x : Array2 D) (k : ℕ)
    (excludeNearest : Bool) :
    b.search faiss x k excludeNearest =
      (b.syncedIndex scaleX xScale).search faiss x k excludeNearest := by
  have hscaled : b.index.scaled x = (b.syncedIndex scaleX xScale).scaled x := by
    unfold ENNIndex.scaled
    rw [h.scaleX_eq]
    by_cases hs : scaleX = true
    · rw [if_pos hs, h.xScale_eq hs]
      exact (if_pos hs).symm
    · rw [if_neg hs]
      exact (if_neg hs).symm
  unfold search ENNIndex.search ENNIndex.len
  rw [hscaled, h.inner_eq, h.numDim_eq]
  rfl

/-- What a backend is between two syncs. -/
structure Coherent (b : InMemoryEnnBackend D F) (scaleX : Bool) (xScale : List D) : Prop where
  ncols_eq : b.trainXRows.ncols = b.numDim
  innerDim_eq : b.index.inner.numDim = b.numDim
  indexDim_eq : b.index.numDim = b.numDim
  scaleX_eq : b.index.scaleX = scaleX
  driver_eq : b.index.driver = .exact
  scaled : scaleX = true → b.indexStale = false → b.Synced scaleX xScale
  plain : scaleX = false →
    b.index.inner.rows = (b.indexRows false xScale).take b.index.len ∧
      (b.index.len = b.indexSyncedObs ∨ b.numDim = 0)

/-- Only the index differs. -/
def withIndex (b : InMemoryEnnBackend D F) (index : ENNIndex D F) (stale : Bool) (synced : ℕ) :
    InMemoryEnnBackend D F :=
  { b with
    index := index
    indexStale := stale
    indexSyncedObs := synced }

omit [Floating F] in
theorem length_indexRows (b : InMemoryEnnBackend D F) (scaleX : Bool) (xScale : List D) :
    (b.indexRows scaleX xScale).length = if b.trainXRows.ncols = 0 then 0 else b.len := by
  unfold indexRows
  split
  · rfl
  · unfold FaissBackend.arr2RowsToF32
    rw [List.length_map]
    split
    · exact Array2.nrows_mapCols _ _
    · rfl

def scaledRows (b : InMemoryEnnBackend D F) (scaleX : Bool) (xScale : List D) : Array2 D :=
  if scaleX then ENNIndex.divideCols b.trainXRows xScale else b.trainXRows

omit [Floating F] [FloatCast D F] in
theorem ncols_scaledRows (b : InMemoryEnnBackend D F) (scaleX : Bool) (xScale : List D) :
    (b.scaledRows scaleX xScale).ncols = b.trainXRows.ncols := by
  unfold scaledRows
  split <;> rfl

omit [Floating F] in
/-- What a reset index gets. -/
theorem addNonEmpty_scaledRows (b : InMemoryEnnBackend D F) (scaleX : Bool) (xScale : List D) :
    FaissBackend.addNonEmpty (⟨[], b.trainXRows.ncols⟩ : FaissBackend F)
        (b.scaledRows scaleX xScale) =
      .ok ⟨b.indexRows scaleX xScale, b.trainXRows.ncols⟩ := by
  have hrows : b.indexRows scaleX xScale =
      if b.trainXRows.ncols = 0 then [] else
        FaissBackend.arr2RowsToF32 (b.scaledRows scaleX xScale) := rfl
  unfold FaissBackend.addNonEmpty
  rw [ncols_scaledRows, hrows]
  by_cases h0 : b.trainXRows.ncols = 0
  · rw [if_pos (.inr h0), if_pos h0]
    rfl
  · rw [if_neg h0]
    by_cases hn : (b.scaledRows scaleX xScale).nrows = 0
    · have hnil : (b.scaledRows scaleX xScale).rows = [] := List.eq_nil_of_length_eq_zero hn
      rw [if_pos (.inl hn), FaissBackend.arr2RowsToF32, hnil]
      rfl
    · rw [if_neg (by tauto), FaissBackend.add, FaissBackend.checkDims, ncols_scaledRows,
        if_neg (by simp)]
      rfl

omit [Floating F] in
theorem rebuildFromScaled_eq (h : b.Coherent scaleX xScale) :
    ENNIndex.rebuildFromScaled (b.scaledRows scaleX xScale) xScale b.index =
      (.ok (), b.syncedIndex scaleX xScale) := by
  have hindex : b.syncedIndex scaleX xScale =
      { b.index with
        inner := ⟨b.indexRows scaleX xScale, b.numDim⟩
        xScale := xScale } := by
    unfold syncedIndex
    rw [← h.indexDim_eq, ← h.scaleX_eq, ← h.driver_eq]
  have hrebuild : b.index.inner.rebuild (b.scaledRows scaleX xScale) =
      .ok ⟨b.indexRows scaleX xScale, b.numDim⟩ := by
    have hadd := b.addNonEmpty_scaledRows scaleX xScale
    rw [h.ncols_eq, ← h.innerDim_eq] at hadd
    unfold FaissBackend.rebuild FaissBackend.checkDims
    rw [ncols_scaledRows, h.ncols_eq, h.innerDim_eq, if_neg (by simp), ← h.innerDim_eq]
    exact hadd
  unfold ENNIndex.rebuildFromScaled
  rw [Call.get_bind_apply, hrebuild, Call.ok_bind_apply, hindex]
  rfl

omit [Floating F] in
theorem synced_withIndex (b : InMemoryEnnBackend D F) (scaleX : Bool) (xScale : List D)
    (stale : Bool) (n : ℕ) :
    (b.withIndex (b.syncedIndex scaleX xScale) stale n).Synced scaleX xScale :=
  ⟨rfl, rfl, rfl, fun _ => rfl⟩

omit [Floating F] in
theorem Coherent.rebuilt (h : b.Coherent scaleX xScale) :
    (b.withIndex (b.syncedIndex scaleX xScale) false b.len).Coherent scaleX xScale where
  ncols_eq := h.ncols_eq
  innerDim_eq := rfl
  indexDim_eq := rfl
  scaleX_eq := rfl
  driver_eq := rfl
  scaled _ _ := b.synced_withIndex scaleX xScale false b.len
  plain hs := by
    subst hs
    constructor
    · exact (List.take_length).symm
    · have hlen := b.length_indexRows false xScale
      by_cases h0 : b.trainXRows.ncols = 0
      · exact .inr (h.ncols_eq.symm.trans h0)
      · rw [if_neg h0] at hlen
        exact .inl hlen

omit [Floating F] in
theorem onIndex_rebuild (h : b.Coherent scaleX xScale) (n : ℕ) :
    onIndex (ENNIndex.rebuildFromScaled (b.scaledRows scaleX xScale) xScale)
        (b.withIndex b.index b.indexStale n) =
      (.ok (), b.withIndex (b.syncedIndex scaleX xScale) b.indexStale n) := by
  have hrebuild := rebuildFromScaled_eq h
  unfold onIndex Call.on
  change ((ENNIndex.rebuildFromScaled _ xScale b.index).1, _) = _
  rw [hrebuild]
  change (_, b.withIndex (ENNIndex.rebuildFromScaled _ xScale b.index).2 _ _) = _
  rw [hrebuild]
  rfl

omit [Floating F] in
theorem Coherent.synced_of_len (h : b.Coherent false xScale) (hlen : b.index.len = b.len) :
    b.Synced false xScale where
  inner_eq := by
    obtain ⟨hrows, -⟩ := h.plain rfl
    have hle : (b.indexRows false xScale).length ≤ b.index.len := by
      rw [length_indexRows, hlen]
      split <;> omega
    rw [List.take_of_length_le hle] at hrows
    rw [← hrows, ← h.innerDim_eq]
  numDim_eq := h.indexDim_eq
  scaleX_eq := h.scaleX_eq
  xScale_eq := fun hs => by cases hs

omit [Floating F] in
theorem Coherent.len_le (h : b.Coherent false xScale) :
    b.index.len ≤ b.len ∧ (b.numDim = 0 → b.index.len = 0) := by
  have hlen : b.index.len ≤ (b.indexRows false xScale).length := by
    have hrows := congrArg List.length (h.plain rfl).1
    rw [List.length_take] at hrows
    have hle := hrows.le.trans (min_le_right _ _)
    exact hle
  rw [length_indexRows, h.ncols_eq] at hlen
  constructor
  · split at hlen <;> omega
  · intro h0
    rw [if_pos h0] at hlen
    omega

omit [Floating F] in
/-- A sync leaves the rows alone and the index in sync with them. -/
theorem ensureIndexSync_eq (h : b.Coherent scaleX xScale) :
    ∃ index stale n, ensureIndexSync scaleX xScale b = (.ok (), b.withIndex index stale n) ∧
      (b.withIndex index stale n).Coherent scaleX xScale ∧
      (b.withIndex index stale n).Synced scaleX xScale := by
  have hrebuild := onIndex_rebuild h
  have hsynced := b.synced_withIndex scaleX xScale
  unfold ensureIndexSync
  rw [Call.get_bind_apply]
  cases scaleX with
  | true =>
    rw [if_pos rfl]
    cases hstale : b.indexStale with
    | true =>
      refine ⟨_, _, _, ?_, h.rebuilt, hsynced _ _⟩
      rw [if_pos rfl]
      exact Call.bind_apply_of_ok _ (hrebuild b.indexSyncedObs)
    | false => exact ⟨b.index, b.indexStale, b.indexSyncedObs, rfl, h, h.scaled rfl hstale⟩
  | false =>
    rw [if_neg Bool.false_ne_true]
    dsimp only
    rw [Call.modify_bind_apply]
    obtain ⟨hle, hdim⟩ := h.len_le
    obtain ⟨-, hobs⟩ := h.plain rfl
    split
    next hcond =>
      refine ⟨b.syncedIndex false xScale, b.indexStale, b.len, ?_, ?_, hsynced _ _⟩
      · exact Call.bind_apply_of_ok _ (hrebuild _)
      · exact { h.rebuilt with scaled := fun hs => by cases hs }
    next hcond =>
      -- an index of another length is rebuilt, so this one has all rows
      have hlen : b.index.len = b.len := by omega
      have hmin : min b.indexSyncedObs b.index.len = b.len := by omega
      rw [if_pos (by omega)]
      have hcoh : (b.withIndex b.index b.indexStale (min b.indexSyncedObs b.index.len)).Coherent
          false xScale :=
        { h with
          scaled := fun hs => by cases hs
          plain := fun _ => ⟨(h.plain rfl).1, .inl (hlen.trans hmin.symm)⟩ }
      exact ⟨_, _, _, rfl, hcoh, { h.synced_of_len hlen with }⟩

end InMemoryEnnBackend

namespace EpistemicNearestNeighbors

open Call (Matches)

variable [Analysis D] {m m' : EpistemicNearestNeighbors D F} {b : InMemoryEnnBackend D F}
  {env : Env F} {faiss : Faiss F} {x : Array2 D}

variable (env) in
omit [Analysis D] in
theorem ensureIndexSync_inMemory (hb : m.backend = .inMemory b)
    (hc : b.Coherent m.scaleX m.xScale) :
    ∃ index stale n, ensureIndexSync env m =
        (.ok (), { m with backend := .inMemory (b.withIndex index stale n) }) ∧
      (b.withIndex index stale n).Coherent m.scaleX m.xScale ∧
      (b.withIndex index stale n).Synced m.scaleX m.xScale := by
  obtain ⟨index, stale, n, heq, hcoherent, hsynced⟩ := InMemoryEnnBackend.ensureIndexSync_eq hc
  refine ⟨index, stale, n, ?_, hcoherent, hsynced⟩
  have hdispatch : EnnBackend.ensureIndexSync env m.scaleX m.xScale (.inMemory b) =
      ((InMemoryEnnBackend.ensureIndexSync m.scaleX m.xScale b).1,
        .inMemory (InMemoryEnnBackend.ensureIndexSync m.scaleX m.xScale b).2) := rfl
  unfold ensureIndexSync
  rw [Call.get_bind_apply]
  unfold onBackend Call.on
  rw [hb, hdispatch, heq]

omit [Analysis D] in
theorem syncForSearch_inMemory (hb : m.backend = .inMemory b) :
    syncForSearch env m = ensureIndexSync env m := by
  have hdefer : m.backend.deferIndexSyncForSearch = false := by
    rw [hb]
    rfl
  unfold syncForSearch
  rw [Call.get_bind_apply, hdefer]
  rfl

omit [Analysis D] in
theorem backendSearch_inMemory (hb : m.backend = .inMemory b) (hc : b.Coherent m.scaleX m.xScale)
    (k : ℕ) (excludeNearest : Bool) :
    ∃ index stale n, backendSearch faiss env x k excludeNearest m =
        ((b.syncedIndex m.scaleX m.xScale).search faiss x k excludeNearest,
          { m with backend := .inMemory (b.withIndex index stale n) }) ∧
      (b.withIndex index stale n).Coherent m.scaleX m.xScale := by
  obtain ⟨index, stale, n, heq, hcoherent, hsynced⟩ := ensureIndexSync_inMemory env hb hc
  refine ⟨index, stale, n, ?_, hcoherent⟩
  unfold backendSearch
  rw [Call.bind_apply_of_ok _ ((syncForSearch_inMemory hb).trans heq)]
  have hsearch := hsynced.search_eq faiss x k excludeNearest
  change ((b.withIndex index stale n).search faiss x k excludeNearest, _) = _
  rw [hsearch]
  rfl

/-- A model in memory that differs from this one in its index and its directory. -/
def Reindexed (m m' : EpistemicNearestNeighbors D F) : Prop :=
  ∃ b index stale n workDir, m.backend = .inMemory b ∧
    m' =
      { m with
        backend := .inMemory (b.withIndex index stale n)
        workDir := workDir } ∧
    (b.withIndex index stale n).Coherent m.scaleX m.xScale

omit [Floating F] [Analysis D] in
theorem Reindexed.sameReads (h : Reindexed m m') : SameReads m m' := by
  obtain ⟨b, index, stale, n, workDir, hb, rfl, -⟩ := h
  have hyvar : ∀ i, m.backend.rowYvar i =
      EnnBackend.rowYvar i (.inMemory (b.withIndex index stale n)) := fun i => by
    rw [hb]
    rfl
  constructor
  case hasYvar_eq => simp only [hasYvar, firstYvar, hyvar]
  case rowY_eq =>
    intro i
    rw [hb]
    rfl
  case expectYvar_eq =>
    intro i _
    simp only [expectYvar, hyvar]
  all_goals rfl

omit [Floating F] [Analysis D] in
theorem Reindexed.rowDist2s_eq (h : Reindexed m m') :
    m'.dist2sForNeighborIndices = m.dist2sForNeighborIndices ∧
      m'.rowDist2sForQuery = m.rowDist2sForQuery := by
  obtain ⟨b, index, stale, n, workDir, hb, rfl, -⟩ := h
  have hx : ∀ i, m.backend.rowX i =
      EnnBackend.rowX i (.inMemory (b.withIndex index stale n)) := fun i => by
    rw [hb]
    rfl
  constructor
  · funext x hits
    simp only [dist2sForNeighborIndices, dist2ForId, hx]
  · funext row
    simp only [rowDist2sForQuery, hx]

omit [Floating F] [Analysis D] in
theorem Reindexed.driver_eq (h : Reindexed m m') : m'.backend.driver = .exact := by
  obtain ⟨b, index, stale, n, workDir, hb, rfl, hc⟩ := h
  exact hc.driver_eq

/-- The call ends with `o` and only changes the index. -/
def SyncsTo {α : Type} (c : Call (EpistemicNearestNeighbors D F) α) (o : Outcome α)
    (m : EpistemicNearestNeighbors D F) (b : InMemoryEnnBackend D F) : Prop :=
  ∃ index stale n, c m = (o, { m with backend := .inMemory (b.withIndex index stale n) }) ∧
    (b.withIndex index stale n).Coherent m.scaleX m.xScale

omit [Floating F] [Analysis D] in
theorem Reindexed.of_syncsTo {α : Type} {c : Call (EpistemicNearestNeighbors D F) α}
    {o : InMemoryEnnBackend D F → Outcome α} (ho : ∀ b index stale n,
      o (b.withIndex index stale n) = o b) (h : Reindexed m m') (hb : m.backend = .inMemory b)
    (hc : ∀ (m₁ : EpistemicNearestNeighbors D F) b, m₁.scaleX = m.scaleX → m₁.xScale = m.xScale →
      m₁.backend = .inMemory b → b.Coherent m.scaleX m.xScale → SyncsTo c (o b) m₁ b) :
    (c m').1 = o b ∧ Reindexed m (c m').2 := by
  obtain ⟨b₀, index, stale, n, workDir, hb₀, rfl, hcoherent⟩ := h
  obtain rfl := EnnBackend.inMemory.inj (hb₀.symm.trans hb)
  obtain ⟨index₁, stale₁, n₁, h₁, hc₁⟩ := hc
    { m with
      backend := .inMemory (b₀.withIndex index stale n)
      workDir := workDir } _ rfl rfl rfl hcoherent
  rw [h₁, ho]
  exact ⟨rfl, b₀, index₁, stale₁, n₁, workDir, hb, rfl, hc₁⟩

def Alike (m₀ m m' : EpistemicNearestNeighbors D F) : Prop := Reindexed m₀ m ∧ Reindexed m₀ m'

variable {m₀ : EpistemicNearestNeighbors D F}

omit [Floating F] [Analysis D] in
theorem Alike.sameReads (h : Alike m₀ m m') : SameReads m m' := by
  have h₁ := h.1.sameReads
  have h₂ := h.2.sameReads
  constructor
  case expectYvar_eq =>
    intro i hi
    rw [← h₁.numObs_eq] at hi
    exact (h₁.expectYvar_eq i hi).symm.trans (h₂.expectYvar_eq i hi)
  case rowY_eq => exact fun i => (h₁.rowY_eq i).symm.trans (h₂.rowY_eq i)
  case numObs_eq => exact h₁.numObs_eq.symm.trans h₂.numObs_eq
  case numDim_eq => exact h₁.numDim_eq.symm.trans h₂.numDim_eq
  case numMetrics_eq => exact h₁.numMetrics_eq.symm.trans h₂.numMetrics_eq
  case yScale_eq => exact h₁.yScale_eq.symm.trans h₂.yScale_eq
  case yBounds_eq => exact h₁.yBounds_eq.symm.trans h₂.yBounds_eq
  case bounded_eq => exact h₁.bounded_eq.symm.trans h₂.bounded_eq
  case hasYvar_eq => exact h₁.hasYvar_eq.symm.trans h₂.hasYvar_eq

omit [Floating F] [Analysis D] in
theorem Alike.rowDist2s_eq (h : Alike m₀ m m') :
    m.dist2sForNeighborIndices = m'.dist2sForNeighborIndices ∧
      m.rowDist2sForQuery = m'.rowDist2sForQuery :=
  ⟨h.1.rowDist2s_eq.1.trans h.2.rowDist2s_eq.1.symm,
    h.1.rowDist2s_eq.2.trans h.2.rowDist2s_eq.2.symm⟩

omit [Floating F] [Analysis D] in
theorem Alike.matches_of_syncsTo {α : Type} {c : Call (EpistemicNearestNeighbors D F) α}
    {o : InMemoryEnnBackend D F → Outcome α} (ho : ∀ b index stale n,
      o (b.withIndex index stale n) = o b) (h : Alike m₀ m m')
    (hc : ∀ (m₁ : EpistemicNearestNeighbors D F) b, m₁.scaleX = m₀.scaleX →
      m₁.xScale = m₀.xScale → m₁.backend = .inMemory b → b.Coherent m₀.scaleX m₀.xScale →
      SyncsTo c (o b) m₁ b) :
    Matches (Alike m₀) Eq c m c m' := by
  obtain ⟨b, -, -, -, -, hb, -, -⟩ := id h.1
  obtain ⟨h₁, hr₁⟩ := h.1.of_syncsTo ho hb hc
  obtain ⟨h₂, hr₂⟩ := h.2.of_syncsTo ho hb hc
  exact ⟨Outcome.matches_eq.mpr (h₁.trans h₂.symm), hr₁, hr₂⟩

omit [Analysis D] in
theorem Alike.syncForSearch_matches (h : Alike m₀ m m') :
    Matches (Alike m₀) Eq (syncForSearch env) m (syncForSearch env) m' := by
  apply h.matches_of_syncsTo (o := fun _ => .ok ()) (fun _ _ _ _ => rfl)
  intro m₁ b hs hx hb hc
  rw [← hs, ← hx] at hc
  obtain ⟨index, stale, n, heq, hcoherent, -⟩ := ensureIndexSync_inMemory env hb hc
  exact ⟨index, stale, n, (syncForSearch_inMemory hb).trans heq, hcoherent⟩

omit [Analysis D] in
theorem Alike.backendSearch_matches (h : Alike m₀ m m') (k : ℕ) (excludeNearest : Bool) :
    Matches (Alike m₀) Eq (backendSearch faiss env x k excludeNearest) m
      (backendSearch faiss env x k excludeNearest) m' := by
  apply h.matches_of_syncsTo (o := fun b =>
    (b.syncedIndex m₀.scaleX m₀.xScale).search faiss x k excludeNearest) (fun _ _ _ _ => rfl)
  intro m₁ b hs hx hb hc
  rw [← hs, ← hx] at hc ⊢
  exact backendSearch_inMemory hb hc k excludeNearest

theorem Alike.exactF64BatchTopk_matches (h : Alike m₀ m m') (searchK : ℕ)
    (excludeNearest tieBreakNeighbors : Bool) :
    Matches (Alike m₀) Eq (exactF64BatchTopk faiss env x searchK excludeNearest tieBreakNeighbors) m
      (exactF64BatchTopk faiss env x searchK excludeNearest tieBreakNeighbors) m' := by
  have hobs := h.sameReads.numObs_eq
  apply Call.matches_get_bind
  unfold faissSearchK
  rw [← hobs]
  apply Call.matches_ite Iff.rfl
  · intro
    exact Call.matches_pure h rfl
  · intro
    apply (h.backendSearch_matches _ false).bind
    rintro hits _ m₁ m₁' rfl h₁
    apply Call.matches_get_bind
    rw [h₁.rowDist2s_eq.1]
    apply Call.matches_ofOutcome_bind h₁ (Outcome.matches_rfl _)
    rintro pools _ rfl
    rw [h₁.rowDist2s_eq.2]
    apply Call.matches_ofOutcome_bind h₁ (Outcome.matches_rfl _)
    rintro rows _ rfl
    exact Call.matches_pure h₁ rfl

theorem Alike.indexSearch_matches (h : Alike m₀ m m') (searchK : ℕ)
    (excludeNearest tieBreakNeighbors : Bool) :
    Matches (Alike m₀) Eq (indexSearch faiss env x searchK excludeNearest tieBreakNeighbors) m
      (indexSearch faiss env x searchK excludeNearest tieBreakNeighbors) m' := by
  apply h.syncForSearch_matches.bind
  rintro _ _ m₁ m₁' - h₁
  apply Call.matches_get_bind
  rw [if_pos h₁.1.driver_eq, if_pos h₁.2.driver_eq]
  exact h₁.exactF64BatchTopk_matches _ _ _

theorem searchesMatch_alike (faiss : Faiss F) (env : Env F) (x : Array2 D)
    (excludeNearest tieBreakNeighbors : Bool) :
    SearchesMatch (Alike m₀) faiss env x excludeNearest tieBreakNeighbors := by
  intro m m' searchK h _ _ _
  apply (h.indexSearch_matches _ _ _).mono
  rintro hits _ rfl
  exact .refl _ _

omit [Analysis D] in
theorem Alike.neighbors_matches (h : Alike m₀ m m') (k : ℤ) (excludeNearest : Bool) :
    Matches (Alike m₀) Eq (neighbors faiss env x k excludeNearest) m
      (neighbors faiss env x k excludeNearest) m' := by
  have hr := h.sameReads
  apply Call.matches_get_bind
  rw [← hr.numDim_eq, ← hr.numObs_eq, ← hr.searchCount_eq]
  apply Call.matches_ite Iff.rfl (fun _ => Call.matches_throw h)
  intro
  apply Call.matches_ite Iff.rfl (fun _ => Call.matches_throw h)
  intro
  apply Call.matches_ite Iff.rfl (fun _ => Call.matches_pure h rfl)
  intro
  apply Call.matches_ite Iff.rfl (fun _ => Call.matches_throw h)
  intro
  apply Call.matches_ite Iff.rfl (fun _ => Call.matches_pure h rfl)
  intro
  apply (h.backendSearch_matches _ _).bind
  rintro hits _ m₁ m₁' rfl h₁
  exact Call.matches_pure h₁ rfl

variable (faiss env) in
theorem Alike.ask_matches (h : Alike m₀ m m') (q : Query D) :
    Matches (Alike m₀) Eq (q.ask faiss env) m (q.ask faiss env) m' :=
  EpistemicNearestNeighbors.ask_matches (fun _ _ h => h.sameReads)
    (fun x _ _ => searchesMatch_alike faiss env x _ _)
    (fun _ _ _ k excludeNearest h => h.neighbors_matches k excludeNearest) h q

end EpistemicNearestNeighbors

end Ennbo
