import Ennbo.Model.Coherence
import Ennbo.Model.Stats

/-! # Batches of observations

Rows may reach a model in memory through its constructor or through any number of
adds, with queries in between. The model that results is the one that gets all
rows at once, up to the state of its index.
-/

namespace Ennbo

variable {D F : Type}

section Stacks

/-- The rows of `b` behind those of `a`. -/
structure Array2.Stacks (a b c : Array2 D) : Prop where
  ncols_right : b.ncols = a.ncols
  ncols_eq : c.ncols = a.ncols
  rows_eq : c.rows = a.rows ++ b.rows

variable {a b c : Array2 D}

theorem Array2.Stacks.nrows_eq (h : a.Stacks b c) : c.nrows = a.nrows + b.nrows := by
  unfold Array2.nrows
  rw [h.rows_eq, List.length_append]

theorem Array2.Stacks.eq_right (h : a.Stacks b c) (ha : a.rows = []) : c = b := by
  apply Array2.eq_of_rows (h.ncols_eq.trans h.ncols_right.symm)
  rw [h.rows_eq, ha, List.nil_append]

theorem Array2.Stacks.eq_left (h : a.Stacks b c) (hb : b.rows = []) : c = a := by
  apply Array2.eq_of_rows h.ncols_eq
  rw [h.rows_eq, hb, List.append_nil]

theorem Array2.Stacks.pushRows_eq (h : a.Stacks b c) : RowStorage.pushRows a b = .ok c := by
  unfold RowStorage.pushRows
  rw [dif_pos h.ncols_right]
  exact congrArg Except.ok (Array2.eq_of_rows h.ncols_eq.symm h.rows_eq.symm)

theorem Array2.Stacks.mapCols (h : a.Stacks b c) {E : Type} (f : ℕ → D → E) :
    (a.mapCols f).Stacks (b.mapCols f) (c.mapCols f) where
  ncols_right := h.ncols_right
  ncols_eq := h.ncols_eq
  rows_eq := by
    change c.rows.map _ = _
    rw [h.rows_eq, List.map_append]
    rfl

theorem Array2.forall_indexed {a : Array2 D} {P : ℕ → D → Prop} :
    (∀ e ∈ a.indexed, P e.1.2 e.2) ↔ ∀ row ∈ a.rows, ∀ e ∈ row.zipIdx, P e.2 e.1 := by
  unfold Array2.indexed
  constructor
  · intro h row hrow e he
    obtain ⟨i, hi, rfl⟩ := List.getElem_of_mem hrow
    apply h ((i, e.2), e.1)
    simp only [List.mem_flatMap, List.mem_map]
    exact ⟨(a.rows[i], i), by simp [List.mem_zipIdx_iff_getElem?, hi], e, he, rfl⟩
  · intro h e he
    simp only [List.mem_flatMap, List.mem_map] at he
    obtain ⟨row, hrow, entry, hentry, rfl⟩ := he
    exact h row.1 (List.fst_mem_of_mem_zipIdx hrow) entry hentry

theorem Array2.Stacks.forall_indexed (h : a.Stacks b c) {P : ℕ → D → Prop} :
    (∀ e ∈ c.indexed, P e.1.2 e.2) ↔
      (∀ e ∈ a.indexed, P e.1.2 e.2) ∧ ∀ e ∈ b.indexed, P e.1.2 e.2 := by
  simp only [Array2.forall_indexed, h.rows_eq, List.forall_mem_append]

end Stacks

section Warp

variable [Floating D] [Analysis D] {bounds a b c : Array2 D}

open YBounds (lower upper warpScalar warpJacobian outside validateBounds)

theorem warpY_eq (hv : validateBounds bounds a.ncols = .ok ())
    (h : ∀ e ∈ a.indexed, outside e.2 (lower bounds e.1.2) (upper bounds e.1.2) = false) :
    YBounds.warpY a bounds =
      .ok (a.mapCols fun j value => warpScalar value (lower bounds j) (upper bounds j)) := by
  have hnone : a.indexed.find? (fun e => outside e.2 (lower bounds e.1.2) (upper bounds e.1.2)) =
      none := by
    rw [List.find?_eq_none]
    intro e he
    rw [h e he]
    exact Bool.false_ne_true
  unfold YBounds.warpY
  rw [hv]
  simp only [bind, Except.bind, hnone]
  rfl

theorem inside_of_warpY {out : Array2 D} (h : YBounds.warpY a bounds = .ok out) :
    ∀ e ∈ a.indexed, outside e.2 (lower bounds e.1.2) (upper bounds e.1.2) = false := by
  simp only [YBounds.warpY, Outcome.bind_eq_ok] at h
  obtain ⟨-, -, h⟩ := h
  split at h
  · simp at h
  next hnone =>
    intro e he
    simpa using List.find?_eq_none.mp hnone e he

/-- Outputs are warped row by row. -/
theorem warpY_stacks (hs : a.Stacks b c) (hv : validateBounds bounds a.ncols = .ok ())
    {out : Array2 D} :
    YBounds.warpY c bounds = .ok out ↔ ∃ ya yb, YBounds.warpY a bounds = .ok ya ∧
      YBounds.warpY b bounds = .ok yb ∧ ya.Stacks yb out := by
  have hb := hs.ncols_right ▸ hv
  have hc := hs.ncols_eq ▸ hv
  constructor
  · intro h
    obtain ⟨ha', hb'⟩ := (hs.forall_indexed (P := fun j v =>
      outside v (lower bounds j) (upper bounds j) = false)).mp (inside_of_warpY h)
    obtain rfl := YBounds.warpY_eq_ok h
    exact ⟨_, _, warpY_eq hv ha', warpY_eq hb hb', hs.mapCols _⟩
  · rintro ⟨ya, yb, ha', hb', hstack⟩
    have hin := (hs.forall_indexed (P := fun j v =>
      outside v (lower bounds j) (upper bounds j) = false)).mpr
        ⟨inside_of_warpY ha', inside_of_warpY hb'⟩
    rw [warpY_eq hc hin]
    obtain rfl := YBounds.warpY_eq_ok ha'
    obtain rfl := YBounds.warpY_eq_ok hb'
    have hm := hs.mapCols fun j value => warpScalar value (lower bounds j) (upper bounds j)
    exact congrArg Except.ok (Array2.eq_of_rows (hm.ncols_eq.trans hstack.ncols_eq.symm)
      (hm.rows_eq.trans hstack.rows_eq.symm))

/-- Variances on the scale of the warped outputs. -/
def scaledYvar (bounds y yvar : Array2 D) (h : y.ncols = yvar.ncols) : Array2 D :=
  (y.zip yvar h).mapCols fun j p =>
    let jac := warpJacobian p.1 (lower bounds j) (upper bounds j)
    jac * jac * p.2

theorem warpYvar_eq_ok {v out : Array2 D} (hn : a.ncols = v.ncols) (hr : a.nrows = v.nrows)
    (hv : validateBounds bounds a.ncols = .ok ()) :
    YBounds.warpYvar a v bounds = .ok out ↔
      (∀ e ∈ (scaledYvar bounds a v hn).indexed, isFinite e.2 = true) ∧
        scaledYvar bounds a v hn = out := by
  unfold YBounds.warpYvar
  rw [dif_pos ⟨hn, hr⟩, hv]
  simp only [bind, Except.bind]
  split
  next e hfind =>
    have hmem : e ∈ (scaledYvar bounds a v hn).indexed := List.mem_of_find?_eq_some hfind
    have hbad := List.find?_some hfind
    constructor
    · intro h
      simp at h
    · rintro ⟨hall, -⟩
      rw [hall e hmem] at hbad
      cases hbad
  next hfind =>
    rw [List.find?_eq_none] at hfind
    constructor
    · intro h
      refine ⟨fun e he => ?_, Outcome.pure_eq_ok.mp h⟩
      simpa using hfind e he
    · rintro ⟨-, rfl⟩
      rfl

variable (bounds) in
theorem scaledYvar_stacks {u v w : Array2 D} (hs : a.Stacks b c) (hu : u.Stacks v w)
    (ha : a.ncols = u.ncols) (har : a.nrows = u.nrows) (hb : b.ncols = v.ncols)
    (hc : c.ncols = w.ncols) :
    (scaledYvar bounds a u ha).Stacks (scaledYvar bounds b v hb) (scaledYvar bounds c w hc) := by
  have hzip : (a.zip u ha).Stacks (b.zip v hb) (c.zip w hc) := by
    refine ⟨hs.ncols_right, hs.ncols_eq, ?_⟩
    change List.zipWith List.zip c.rows w.rows = _
    rw [hs.rows_eq, hu.rows_eq, List.zipWith_append har]
    rfl
  exact hzip.mapCols _

theorem warpYvar_stacks {u v w : Array2 D} (hs : a.Stacks b c) (hu : u.Stacks v w)
    (ha : a.ncols = u.ncols) (har : a.nrows = u.nrows) (hbr : b.nrows = v.nrows)
    (hv : validateBounds bounds a.ncols = .ok ()) {out : Array2 D} :
    YBounds.warpYvar c w bounds = .ok out ↔ ∃ va vb, YBounds.warpYvar a u bounds = .ok va ∧
      YBounds.warpYvar b v bounds = .ok vb ∧ va.Stacks vb out := by
  have hb : b.ncols = v.ncols := hs.ncols_right.trans (ha.trans hu.ncols_right.symm)
  have hc : c.ncols = w.ncols := hs.ncols_eq.trans (ha.trans hu.ncols_eq.symm)
  have hcr : c.nrows = w.nrows := by rw [hs.nrows_eq, hu.nrows_eq, har, hbr]
  have hst := scaledYvar_stacks bounds hs hu ha har hb hc
  rw [warpYvar_eq_ok hc hcr (hs.ncols_eq ▸ hv)]
  constructor
  · rintro ⟨hall, rfl⟩
    obtain ⟨hall₁, hall₂⟩ := (hst.forall_indexed (P := fun _ v => isFinite v = true)).mp hall
    exact ⟨_, _, (warpYvar_eq_ok ha har hv).mpr ⟨hall₁, rfl⟩,
      (warpYvar_eq_ok hb hbr (hs.ncols_right ▸ hv)).mpr ⟨hall₂, rfl⟩, hst⟩
  · rintro ⟨va, vb, h₁, h₂, hstack⟩
    obtain ⟨hall₁, rfl⟩ := (warpYvar_eq_ok ha har hv).mp h₁
    obtain ⟨hall₂, rfl⟩ := (warpYvar_eq_ok hb hbr (hs.ncols_right ▸ hv)).mp h₂
    refine ⟨(hst.forall_indexed (P := fun _ v => isFinite v = true)).mpr ⟨hall₁, hall₂⟩, ?_⟩
    exact Array2.eq_of_rows (hst.ncols_eq.trans hstack.ncols_eq.symm)
      (hst.rows_eq.trans hstack.rows_eq.symm)

end Warp

/-- Rows of inputs and outputs, with or without variances. -/
structure Batch (D : Type) where
  x : Array2 D
  y : Array2 D
  yvar : Option (Array2 D)
  nrows_eq : x.nrows = y.nrows
  yvar_shape : ∀ v, yvar = some v → v.shape = y.shape

/-- Variances behind those of `n` rows; a model without rows may have none of them yet. -/
inductive YvarStacks (n : ℕ) :
    Option (Array2 D) → Option (Array2 D) → Option (Array2 D) → Prop where
  | none : YvarStacks n none none none
  | some {u v w : Array2 D} : u.Stacks v w → YvarStacks n (some u) (some v) (some w)
  | first {v : Array2 D} : n = 0 → YvarStacks n none (some v) (some v)

/-- The rows of `b` behind those of `a`. -/
structure Batch.Joins (a b c : Batch D) : Prop where
  x : a.x.Stacks b.x c.x
  y : a.y.Stacks b.y c.y
  yvar : YvarStacks a.x.nrows a.yvar b.yvar c.yvar

/-- The rows of the first batch and those of the others, one after another. -/
inductive Splits : Batch D → List (Batch D) → Batch D → Prop where
  | nil (b : Batch D) : Splits b [] b
  | cons {a b c whole : Batch D} {rest : List (Batch D)} : a.Joins b c → Splits c rest whole →
      Splits a (b :: rest) whole

theorem Array2.Stacks.unique {a b c d : Array2 D} (h : a.Stacks b c) (h' : a.Stacks b d) :
    c = d :=
  Array2.eq_of_rows (h.ncols_eq.trans h'.ncols_eq.symm) (h.rows_eq.trans h'.rows_eq.symm)

theorem YvarStacks.unique {n : ℕ} {a b c d : Option (Array2 D)} (h : YvarStacks n a b c)
    (h' : YvarStacks n a b d) : c = d := by
  cases h with
  | none => cases h'; rfl
  | some hs =>
    cases h' with
    | some hs' => rw [hs.unique hs']
  | first => cases h'; rfl

section WarpBatch

variable [Floating D] [Analysis D] {bounds : Array2 D} {a b c : Batch D}

open YBounds (validateBounds isIdentityBounds)
open EpistemicNearestNeighbors (warp)

def Batch.warp (b : Batch D) (bounds : Array2 D) : Outcome (Array2 D × Option (Array2 D)) :=
  EpistemicNearestNeighbors.warp bounds b.y b.yvar

theorem Batch.warp_eq (b : Batch D) (h : isIdentityBounds bounds = false) :
    b.warp bounds = (do
      let y ← YBounds.warpY b.y bounds
      match b.yvar with
      | some yv => return (y, some (← YBounds.warpYvar b.y yv bounds))
      | none => return (y, none)) := by
  unfold Batch.warp EpistemicNearestNeighbors.warp
  rw [h]
  rfl

omit [Floating D] [Analysis D] in
theorem Batch.yvar_dims (b : Batch D) {v : Array2 D} (h : b.yvar = some v) :
    b.y.ncols = v.ncols ∧ b.y.nrows = v.nrows := by
  have hs := b.yvar_shape v h
  simp only [Array2.shape, List.cons.injEq, and_true] at hs
  exact ⟨hs.2.symm, hs.1.symm⟩

/-- Rows are warped one by one, so batches are warped alone or together. -/
theorem Batch.Joins.warp_eq_ok (h : a.Joins b c)
    (hv : validateBounds bounds a.y.ncols = .ok ()) {out : Array2 D × Option (Array2 D)} :
    c.warp bounds = .ok out ↔ ∃ oa ob, a.warp bounds = .ok oa ∧ b.warp bounds = .ok ob ∧
      oa.1.Stacks ob.1 out.1 ∧ YvarStacks a.x.nrows oa.2 ob.2 out.2 := by
  cases hid : isIdentityBounds bounds with
  | true =>
    have hwarp : ∀ b : Batch D, b.warp bounds = .ok (b.y, b.yvar) := fun b => by
      unfold Batch.warp EpistemicNearestNeighbors.warp
      rw [hid]
      rfl
    simp only [hwarp, Except.ok.injEq]
    constructor
    · rintro rfl
      exact ⟨_, _, rfl, rfl, h.y, h.yvar⟩
    · rintro ⟨_, _, rfl, rfl, hy, hyvar⟩
      exact Prod.ext (h.y.unique hy) (h.yvar.unique hyvar)
  | false =>
    obtain ⟨y, yvar⟩ := out
    have hyvar := h.yvar
    generalize hau : a.yvar = u, hbu : b.yvar = v, hcu : c.yvar = w at hyvar
    simp only [Batch.warp_eq _ hid, hau, hbu, hcu, Outcome.bind_eq_ok]
    cases hyvar with
    | none =>
      simp only [Outcome.pure_eq_ok, Prod.mk.injEq, warpY_stacks h.y hv]
      constructor
      · rintro ⟨_, ⟨ya, yb, ha, hb, hs⟩, rfl, rfl⟩
        exact ⟨(ya, none), (yb, none), ⟨ya, ha, rfl⟩, ⟨yb, hb, rfl⟩, hs, .none⟩
      · rintro ⟨_, _, ⟨ya, ha, rfl⟩, ⟨yb, hb, rfl⟩, hs, hn⟩
        cases hn
        exact ⟨y, ⟨ya, yb, ha, hb, hs⟩, rfl, rfl⟩
    | some hs =>
      obtain ⟨hac, har⟩ := a.yvar_dims hau
      obtain ⟨-, hbr⟩ := b.yvar_dims hbu
      simp only [Outcome.bind_eq_ok, Outcome.pure_eq_ok, Prod.mk.injEq, warpY_stacks h.y hv,
        warpYvar_stacks h.y hs hac har hbr hv]
      constructor
      · rintro ⟨_, ⟨ya, yb, ha, hb, hst⟩, _, ⟨va, vb, hva, hvb, hvs⟩, rfl, rfl⟩
        exact ⟨(ya, some va), (yb, some vb), ⟨ya, ha, va, hva, rfl⟩, ⟨yb, hb, vb, hvb, rfl⟩, hst,
          .some hvs⟩
      · rintro ⟨_, _, ⟨ya, ha, va, hva, rfl⟩, ⟨yb, hb, vb, hvb, rfl⟩, hst, hn⟩
        cases hn with
        | some hvs => exact ⟨y, ⟨ya, yb, ha, hb, hst⟩, _, ⟨va, vb, hva, hvb, hvs⟩, rfl, rfl⟩
    | first h0 =>
      -- without rows there is nothing to warp, and all rows are those of the second batch
      have hnil : a.y.rows = [] := List.eq_nil_of_length_eq_zero (a.nrows_eq.symm.trans h0)
      have hcy : c.y = b.y := h.y.eq_right hnil
      have ha : YBounds.warpY a.y bounds = .ok (a.y.mapCols fun j value =>
          YBounds.warpScalar value (YBounds.lower bounds j) (YBounds.upper bounds j)) :=
        warpY_eq hv fun e he => by
          simp [Array2.indexed, hnil] at he
      simp only [hcy, ha, Outcome.bind_eq_ok, Outcome.pure_eq_ok, Prod.mk.injEq]
      constructor
      · rintro ⟨yb, hb, vb, hvb, rfl, rfl⟩
        refine ⟨(_, none), (yb, some vb), ⟨_, rfl, rfl⟩, ⟨yb, hb, vb, hvb, rfl⟩, ?_, .first h0⟩
        obtain rfl := YBounds.warpY_eq_ok hb
        have hst := h.y.mapCols fun j value =>
          YBounds.warpScalar value (YBounds.lower bounds j) (YBounds.upper bounds j)
        rw [hcy] at hst
        exact hst
      · rintro ⟨_, _, ⟨ya, hya, rfl⟩, ⟨yb, hb, vb, hvb, rfl⟩, hst, hn⟩
        cases hya
        cases hn
        refine ⟨yb, hb, vb, hvb, ?_, rfl⟩
        exact (hst.eq_right (by simp [Array2.mapCols, hnil])).symm

end WarpBatch

namespace EpistemicNearestNeighbors

variable [Floating D] [Floating F] [FloatCast D F] [Analysis D] {env : Env F}
  {options : ModelOptions D F} {bounds : Array2 D} {m m' : EpistemicNearestNeighbors D F}
  {x y : Array2 D} {yvar : Option (Array2 D)}

/-- A model in memory over these stored rows. -/
structure LoadedWith (options : ModelOptions D F) (bounds x y : Array2 D)
    (yvar : Option (Array2 D)) (m : EpistemicNearestNeighbors D F)
    (b : InMemoryEnnBackend D F) : Prop where
  model_eq : m = { assemble (.inMemory b) options bounds x y with workDir := m.workDir }
  x_eq : b.trainXRows = x
  y_eq : b.trainYRows = y
  yvar_eq : b.trainYvarRows = yvar
  numDim_eq : b.numDim = x.ncols
  numMetrics_eq : b.numMetrics = y.ncols
  coherent : b.Coherent m.scaleX m.xScale

omit [Floating F] in
theorem LoadedWith.reindexed {b b' : InMemoryEnnBackend D F}
    (h : LoadedWith options bounds x y yvar m b) (h' : LoadedWith options bounds x y yvar m' b') :
    Reindexed m m' := by
  have hb : b' = b.withIndex b'.index b'.indexStale b'.indexSyncedObs := by
    unfold InMemoryEnnBackend.withIndex
    rw [h.x_eq.trans h'.x_eq.symm, h.y_eq.trans h'.y_eq.symm, h.yvar_eq.trans h'.yvar_eq.symm,
      h.numDim_eq.trans h'.numDim_eq.symm, h.numMetrics_eq.trans h'.numMetrics_eq.symm]
  have hm := h.model_eq
  have hm' := h'.model_eq
  have hcoherent' := h'.coherent
  rw [hb] at hm' hcoherent'
  refine ⟨b, b'.index, b'.indexStale, b'.indexSyncedObs, m'.workDir, ?_, ?_, ?_⟩
  · rw [hm]
    rfl
  · rw [hm, hm']
    rfl
  · rw [hm'] at hcoherent'
    rw [hm]
    exact hcoherent'

omit [Floating F] in
theorem LoadedWith.of_reindexed {b : InMemoryEnnBackend D F}
    (h : LoadedWith options bounds x y yvar m b) (hr : Reindexed m m') :
    ∃ b', LoadedWith options bounds x y yvar m' b' := by
  obtain ⟨b₀, index, stale, n, workDir, hb, rfl, hcoherent⟩ := hr
  have hm := h.model_eq
  have hmb : m.backend = .inMemory b := congrArg backend hm
  obtain rfl := EnnBackend.inMemory.inj (hb.symm.trans hmb)
  refine ⟨b₀.withIndex index stale n, ?_, h.x_eq, h.y_eq, h.yvar_eq, h.numDim_eq,
    h.numMetrics_eq, hcoherent⟩
  rw [hm]
  rfl

omit [Analysis D] [Floating F] in
/-- A backend is constructed with its index in sync. -/
theorem new_inMemory (x y : Array2 D) (yvar : Option (Array2 D)) (scaleX : Bool)
    (xScale : List D) :
    ∃ b : InMemoryEnnBackend D F,
      InMemoryEnnBackend.new x y yvar scaleX xScale .exact = .ok b ∧ b.Coherent scaleX xScale ∧
        b.trainXRows = x ∧ b.trainYRows = y ∧ b.trainYvarRows = yvar ∧ b.numDim = x.ncols ∧
        b.numMetrics = y.ncols := by
  let b₀ : InMemoryEnnBackend D F := ⟨x, y, yvar, x.ncols, y.ncols,
    ⟨⟨[], x.ncols⟩, x.ncols, xScale, scaleX, .exact⟩, false, 0⟩
  let index := b₀.syncedIndex scaleX xScale
  have hadd := b₀.addNonEmpty_scaledRows scaleX xScale
  have hcols := b₀.ncols_scaledRows scaleX xScale
  have hnew : ENNIndex.new (b₀.scaledRows scaleX xScale) x.ncols xScale scaleX .exact =
      .ok index := by
    unfold ENNIndex.new FaissBackend.new FaissBackend.checkDims
    rw [if_neg (by rw [hcols]; exact fun h => h rfl)]
    change (do
      let inner ← FaissBackend.addNonEmpty (⟨[], b₀.trainXRows.ncols⟩ : FaissBackend F) _
      return _) = _
    rw [hadd]
    rfl
  have hlen : index.len ≤ x.nrows ∧ (x.ncols ≠ 0 → index.len = x.nrows) := by
    have h : index.len = if x.ncols = 0 then 0 else x.nrows := b₀.length_indexRows scaleX xScale
    rw [h]
    constructor
    · split <;> omega
    · intro h0
      rw [if_neg h0]
  refine ⟨b₀.withIndex index false (min index.len x.nrows), ?_, ?_, rfl, rfl, rfl, rfl, rfl⟩
  · unfold InMemoryEnnBackend.new
    change (do
      let index ← ENNIndex.new (b₀.scaledRows scaleX xScale) x.ncols xScale scaleX .exact
      return _) = _
    rw [hnew]
    rfl
  · refine ⟨rfl, rfl, rfl, rfl, rfl, fun _ _ => b₀.synced_withIndex _ _ _ _, ?_⟩
    rintro rfl
    exact ⟨List.take_length.symm, .inl (min_eq_left hlen.1).symm⟩

omit [Floating F] [FloatCast D F] in
theorem xScale_assemble (backend : EnnBackend D F) (options : ModelOptions D F)
    (bounds x y : Array2 D) :
    (assemble backend options bounds x y).xScale = initialXScale options.scaleX x := by
  unfold assemble initStats initialXScale
  cases options.scaleX <;> rfl

omit [Floating D] [Analysis D] in
theorem validateShapes_batch (b : Batch D) : validateShapes b.x b.y b.yvar = .ok () := by
  unfold validateShapes
  rw [if_neg (not_not.mpr b.nrows_eq)]
  cases hyvar : b.yvar with
  | none => rfl
  | some v => exact if_neg (not_not.mpr (b.yvar_shape v hyvar))

variable (env) in
/-- The constructor of a model in memory returns when its bounds do and its rows are inside. -/
theorem newWithOptions_inMemory (hs : options.storage = .inMemory) (hd : options.driver = .exact)
    (b : Batch D)
    (hb : chooseBounds options.yBounds (persistedBounds options.workDir b.y.ncols) b.y.ncols =
      .ok bounds) (hv : YBounds.validateBounds bounds b.y.ncols = .ok ()) :
    (∀ e, b.warp bounds = .error e →
      newWithOptions env b.x b.y b.yvar options = .error e) ∧
    ∀ y yvar, b.warp bounds = .ok (y, yvar) → ∃ m backend,
      newWithOptions env b.x b.y b.yvar options = .ok m ∧
        LoadedWith options bounds b.x y yvar m backend := by
  have hshapes := validateShapes_batch b
  unfold newWithOptions
  simp only [bind, Except.bind, hshapes, hb, hv]
  constructor
  · intro e he
    unfold Batch.warp at he
    rw [he]
  · intro y yvar hw
    obtain ⟨backend, hnew, hcoherent, hx, hy, hyvar, hdim, hmetrics⟩ :=
      new_inMemory (F := F) b.x y yvar options.scaleX (initialXScale options.scaleX b.x)
    have hopen : openBackend env options b.x y yvar (initialXScale options.scaleX b.x) =
        .ok (.inMemory backend) := by
      unfold openBackend EnnBackend.newInMemory
      rw [hs, hd, hnew]
      rfl
    have hdisk : (options.scaleX && isDiskIndexDriver options.driver) = false := by
      rw [hd]
      exact Bool.and_false _
    have hsync : ¬ (diskReopen options b.x y = true ∨
        (assemble (.inMemory backend) options bounds b.x y).numObs ≠
          (assemble (.inMemory backend) options bounds b.x y).backend.len) := by
      rintro (h | h)
      · simp [diskReopen, hs] at h
      · apply h
        change b.x.nrows = backend.trainXRows.nrows
        rw [hx]
    rw [← xScale_assemble (.inMemory backend) options bounds b.x y] at hcoherent
    unfold Batch.warp at hw
    refine ⟨(assemble (.inMemory backend) options bounds b.x y).persistYBoundsMetadata, backend,
      ?_, rfl, hx, hy, hyvar, hdim, hmetrics, hcoherent⟩
    simp only [hw, hdisk, Bool.false_eq_true, if_false, hopen, if_neg hsync]
    rfl

section Add

variable {b : InMemoryEnnBackend D F}

/-- What an append makes of the stored variances. -/
def YvarPushed (old new out : Option (Array2 D)) : Prop :=
  match old, new with
  | some u, some v => ∃ w, u.Stacks v w ∧ out = some w
  | none, some v => out = some v
  | old, none => out = old

omit [Floating D] [Floating F] [FloatCast D F] [Analysis D] in
theorem appendRows_inMemory {x' y' bx bY : Array2 D} {yvar' bv : Option (Array2 D)}
    (hpos : 0 < bx.nrows) (hx : b.trainXRows.Stacks bx x') (hy : b.trainYRows.Stacks bY y')
    (hv : YvarPushed b.trainYvarRows bv yvar') :
    InMemoryEnnBackend.appendRows bx bY bv b =
      (.ok (), { b with trainXRows := x', trainYRows := y', trainYvarRows := yvar' }) := by
  unfold InMemoryEnnBackend.appendRows
  rw [Call.get_bind_apply, Call.ite_apply, if_neg hpos.ne', hx.pushRows_eq, Call.ok_bind_apply,
    Call.modify_bind_apply, hy.pushRows_eq, Call.ok_bind_apply, Call.modify_bind_apply]
  obtain ⟨trainX, trainY, old, numDim, numMetrics, index, stale, synced⟩ := b
  cases old with
  | none =>
    cases bv with
    | none =>
      obtain rfl : yvar' = none := hv
      rfl
    | some v =>
      obtain rfl : yvar' = some v := hv
      rfl
  | some u =>
    cases bv with
    | none =>
      obtain rfl : yvar' = some u := hv
      rfl
    | some v =>
      obtain ⟨w, hw, rfl⟩ := hv
      dsimp only
      rw [hw.pushRows_eq, Call.ok_bind_apply]
      rfl

omit [Floating D] [Floating F] [FloatCast D F] [Analysis D] in
/-- An append in memory that returns has put its rows behind the others. -/
theorem returns_appendRows {b' : InMemoryEnnBackend D F} (hpos : 0 < x.nrows)
    (h : (InMemoryEnnBackend.appendRows x y yvar).Returns b () b') :
    ∃ x' y' yvar', b.trainXRows.Stacks x x' ∧ b.trainYRows.Stacks y y' ∧
      YvarPushed b.trainYvarRows yvar yvar' ∧
      b' = { b with trainXRows := x', trainYRows := y', trainYvarRows := yvar' } := by
  have hstacks : ∀ {a c d : Array2 D}, RowStorage.pushRows a c = .ok d → a.Stacks c d := by
    intro a c d h
    unfold RowStorage.pushRows at h
    split at h
    next hcols =>
      obtain rfl := Outcome.pure_eq_ok.mp h
      exact ⟨hcols, rfl, rfl⟩
    next => simp at h
  simp only [InMemoryEnnBackend.appendRows, Call.returns_bind, Call.returns_get,
    if_neg hpos.ne', Call.returns_ofOutcome, Call.returns_modify] at h
  obtain ⟨_, _, ⟨rfl, rfl⟩, trainX, _, ⟨hX, rfl⟩, _, _, rfl, trainY, _, ⟨hY, rfl⟩, _, _, rfl, h⟩ :=
    h
  obtain ⟨bX, bY, old, numDim, numMetrics, index, stale, synced⟩ := b
  cases old with
  | none =>
    cases yvar with
    | none =>
      obtain ⟨-, rfl⟩ := Call.returns_pure.mp h
      exact ⟨_, _, _, hstacks hX, hstacks hY, rfl, rfl⟩
    | some v =>
      obtain rfl := Call.returns_modify.mp h
      exact ⟨_, _, _, hstacks hX, hstacks hY, rfl, rfl⟩
  | some u =>
    cases yvar with
    | none =>
      obtain ⟨-, rfl⟩ := Call.returns_pure.mp h
      exact ⟨_, _, _, hstacks hX, hstacks hY, rfl, rfl⟩
    | some v =>
      simp only [Call.returns_bind, Call.returns_ofOutcome, Call.returns_modify] at h
      obtain ⟨w, _, ⟨hw, rfl⟩, rfl⟩ := h
      exact ⟨_, _, _, hstacks hX, hstacks hY, ⟨w, hstacks hw, rfl⟩, rfl⟩

omit [Floating F] [Analysis D] in
/-- Appended rows are behind those that the index holds. -/
theorem coherent_appended {scaleX : Bool} {xScale xScale' : List D} {x' bx y' : Array2 D}
    {yvar' : Option (Array2 D)} (hc : b.Coherent scaleX xScale) (hx : b.trainXRows.Stacks bx x') :
    ({ b with
        trainXRows := x'
        trainYRows := y'
        trainYvarRows := yvar'
        indexStale := scaleX || b.indexStale } : InMemoryEnnBackend D F).Coherent
      scaleX xScale' where
  ncols_eq := hx.ncols_eq.trans hc.ncols_eq
  innerDim_eq := hc.innerDim_eq
  indexDim_eq := hc.indexDim_eq
  scaleX_eq := hc.scaleX_eq
  driver_eq := hc.driver_eq
  scaled hs hstale := by
    subst hs
    cases hstale
  plain hs := by
    subst hs
    obtain ⟨hrows, hobs⟩ := hc.plain rfl
    refine ⟨?_, hobs⟩
    by_cases h0 : b.trainXRows.ncols = 0
    · have hnil : b.indexRows false xScale = [] := if_pos h0
      rw [hnil] at hrows
      change b.index.inner.rows = List.take _ (if x'.ncols = 0 then [] else _)
      rw [if_pos (hx.ncols_eq.trans h0), hrows, List.take_nil]
    · have hold : b.indexRows false xScale = FaissBackend.arr2RowsToF32 b.trainXRows := if_neg h0
      have hlen := congrArg List.length hrows
      rw [List.length_take, hold] at hlen
      have hle : b.index.len ≤ (FaissBackend.arr2RowsToF32 (F := F) b.trainXRows).length := by
        have hmin := hlen.le.trans (min_le_right _ _)
        exact hmin
      change b.index.inner.rows = List.take b.index.len (if x'.ncols = 0 then [] else
        (x'.rows.map fun row => row.map toF32))
      rw [if_neg (fun h => h0 (hx.ncols_eq.symm.trans h)), hx.rows_eq, List.map_append]
      rw [hold] at hrows
      exact hrows.trans (List.take_append_of_le_length hle).symm

omit [Analysis D] in
theorem accumulate_stacks {a c d : Array2 D} (h : a.Stacks c d) :
    accumulateColumns (columnSumsAndSumsq a).1 (columnSumsAndSumsq a).2 c =
      columnSumsAndSumsq d := by
  have hd := accumulateColumns_append (List.replicate a.ncols (0 : D)) (List.replicate a.ncols 0)
    h.rows_eq
  unfold columnSumsAndSumsq
  rw [h.ncols_eq, ← hd]

omit [Floating F] [FloatCast D F] in
/-- The model with more rows is the one that is put together from all of them. -/
theorem afterAdd_assemble {x' y' bx bY : Array2 D} {yvar' : Option (Array2 D)}
    {workDir : Option (WorkDir D F)} (hx : x.Stacks bx x') (hy : y.Stacks bY y') :
    let b' : InMemoryEnnBackend D F :=
      { b with
        trainXRows := x'
        trainYRows := y'
        trainYvarRows := yvar' }
    afterAdd { assemble (.inMemory b) options bounds x y with workDir := workDir } (.inMemory b')
        bx bY =
      { assemble (.inMemory { b' with indexStale := options.scaleX || b.indexStale }) options bounds
          x' y' with workDir := workDir } := by
  have hsy := accumulate_stacks hy
  have hsx := accumulate_stacks hx
  intro b'
  unfold afterAdd assemble initStats
  cases hs : options.scaleX with
  | true =>
    simp only [noteY, noteX, if_true, hsy, hsx, Bool.true_or, hx.ncols_eq, hy.ncols_eq]
    rfl
  | false =>
    simp only [noteY, Bool.false_eq_true, if_false, hsy, Bool.false_or, hx.ncols_eq, hy.ncols_eq]
    rfl

/-- The stored variances of a batch have the shape of its outputs. -/
theorem warp_dims {p : Batch D} {y : Array2 D} {stored : Option (Array2 D)}
    (h : p.warp bounds = .ok (y, stored)) :
    y.ncols = p.y.ncols ∧ y.nrows = p.y.nrows ∧ stored.isSome = p.yvar.isSome ∧
      ∀ v, stored = some v → v.ncols = y.ncols ∧ v.nrows = y.nrows := by
  cases hid : YBounds.isIdentityBounds bounds with
  | true =>
    unfold Batch.warp warp at h
    rw [hid] at h
    obtain ⟨rfl, rfl⟩ := Prod.mk.inj (Outcome.pure_eq_ok.mp h)
    refine ⟨rfl, rfl, rfl, fun v hv => ?_⟩
    obtain ⟨hc, hr⟩ := p.yvar_dims hv
    exact ⟨hc.symm, hr.symm⟩
  | false =>
    rw [Batch.warp_eq _ hid] at h
    simp only [Outcome.bind_eq_ok] at h
    obtain ⟨y', hy, h⟩ := h
    have hdims : y'.ncols = p.y.ncols ∧ y'.nrows = p.y.nrows := by
      obtain rfl := YBounds.warpY_eq_ok hy
      exact ⟨rfl, Array2.nrows_mapCols _ _⟩
    cases hyvar : p.yvar with
    | none =>
      rw [hyvar] at h
      obtain ⟨rfl, rfl⟩ := Prod.mk.inj (Outcome.pure_eq_ok.mp h)
      exact ⟨hdims.1, hdims.2, rfl, fun v hv => by cases hv⟩
    | some yv =>
      simp only [hyvar, Outcome.bind_eq_ok, Outcome.pure_eq_ok, Prod.mk.injEq] at h
      obtain ⟨v, hv, rfl, rfl⟩ := h
      refine ⟨hdims.1, hdims.2, rfl, ?_⟩
      rintro _ ⟨⟩
      obtain ⟨hr, hc⟩ := YBounds.shape_warpYvar hv
      exact ⟨hc.trans hdims.1.symm, hr.trans hdims.2.symm⟩

/-- The model in memory that has got these rows. -/
structure Holds (options : ModelOptions D F) (bounds : Array2 D) (p : Batch D)
    (m : EpistemicNearestNeighbors D F) : Prop where
  loaded : ∃ y stored held backend, p.warp bounds = .ok (y, stored) ∧
    (held = stored ∨ (p.x.nrows = 0 ∧ held = none)) ∧
    LoadedWith options bounds p.x y held m backend

omit [Floating F] in
/-- A model has a first row of variances when it has rows and variances. -/
theorem firstYvar_loaded {p : Batch D} {y : Array2 D} {held : Option (Array2 D)}
    (hl : LoadedWith options bounds p.x y held m b)
    (hheld : ∀ v, held = some v → 0 < p.x.nrows → 0 < v.nrows) :
    ∃ first, m.firstYvar = .ok first ∧
      (first.isSome = true ↔ 0 < p.x.nrows ∧ held.isSome = true) := by
  have hb : m.backend = .inMemory b := by
    rw [hl.model_eq]
    rfl
  have hlen : b.len = p.x.nrows := congrArg Array2.nrows hl.x_eq
  have hrow : m.backend.rowYvar 0 = b.rowYvar 0 := by
    rw [hb]
    rfl
  unfold firstYvar
  rw [hrow]
  unfold InMemoryEnnBackend.rowYvar InMemoryEnnBackend.checkIndex
  rw [hlen, hl.yvar_eq]
  by_cases h0 : p.x.nrows = 0
  · rw [if_pos (by omega)]
    exact ⟨none, rfl, by simp [h0]⟩
  · rw [if_neg (by omega)]
    cases hh : held with
    | none => exact ⟨none, rfl, by simp⟩
    | some v =>
      have hpos := hheld v hh (by omega)
      unfold Array2.nrows at hpos
      refine ⟨some v.rows[0], ?_, by simp; omega⟩
      simp only [RowStorage.rowVec, List.getElem?_eq_getElem hpos]
      rfl

omit [Floating F] in
theorem Holds.validateAdd_eq {p q c : Batch D} (h : Holds options bounds p m) (hj : p.Joins q c) :
    m.validateAdd q.x q.y q.yvar = .ok () := by
  obtain ⟨y, stored, held, b, hwarp, hheld, hl⟩ := h.loaded
  obtain ⟨hyc, hyr, hsome, hdims⟩ := warp_dims hwarp
  have hdim : m.numDim = p.x.ncols := by
    rw [hl.model_eq]
    rfl
  have hmetrics : m.numMetrics = y.ncols := by
    rw [hl.model_eq]
    rfl
  have hobs : m.numObs = p.x.nrows := by
    rw [hl.model_eq]
    rfl
  obtain ⟨first, hfirst, hiff⟩ := firstYvar_loaded hl (by
    rintro v rfl hpos
    rcases hheld with rfl | ⟨h0, -⟩
    · rw [(hdims v rfl).2, hyr, ← p.nrows_eq]
      exact hpos
    · omega)
  unfold validateAdd
  rw [hdim, hmetrics, hobs, hfirst, if_neg (by
    rw [hyc]
    have := q.nrows_eq
    have := hj.x.ncols_right
    have := hj.y.ncols_right
    tauto)]
  have hstored : 0 < p.x.nrows → first.isSome = p.yvar.isSome := fun hpos => by
    rcases hheld with rfl | ⟨h0, -⟩
    · rw [← hsome, Bool.eq_iff_iff, hiff]
      tauto
    · omega
  have hyvar := hj.yvar
  generalize hu : p.yvar = u, hv : q.yvar = v, hw : c.yvar = w at hyvar
  rw [hu] at hstored
  cases hyvar with
  | none =>
    refine if_neg ?_
    rintro ⟨hfirst, hpos⟩
    rw [hstored hpos] at hfirst
    cases hfirst
  | some hs =>
    change (if _ then _ else _) = _
    rw [if_neg (not_not.mpr (q.yvar_shape _ hv)), if_neg]
    · rfl
    · rintro ⟨hfirst, hpos⟩
      rw [hstored hpos] at hfirst
      cases hfirst
  | first h0 =>
    change (if _ then _ else _) = _
    rw [if_neg (not_not.mpr (q.yvar_shape _ hv)), if_neg (by omega)]
    rfl

omit [Floating D] [Analysis D] in
theorem yvarPushed_of_stacks {n : ℕ} {old new out held : Option (Array2 D)}
    (h : YvarStacks n old new out) (hheld : held = old ∨ (n = 0 ∧ held = none))
    (hold : ∀ v, old = some v → v.nrows = n) : YvarPushed held new out := by
  cases h with
  | none =>
    obtain rfl | ⟨-, rfl⟩ := hheld <;> rfl
  | some hs =>
    obtain rfl | ⟨h0, rfl⟩ := hheld
    · exact ⟨_, hs, rfl⟩
    · have hnil := List.eq_nil_of_length_eq_zero ((hold _ rfl).trans h0)
      exact congrArg some (hs.eq_right hnil)
  | first h0 =>
    obtain rfl | ⟨-, rfl⟩ := hheld <;> rfl

omit [Floating D] [Analysis D] in
theorem exists_stacks {a c : Array2 D} (h : c.ncols = a.ncols) : ∃ d, a.Stacks c d :=
  ⟨⟨a.ncols, a.rows ++ c.rows, fun row hrow => by
    rcases List.mem_append.mp hrow with hrow | hrow
    · exact a.width row hrow
    · exact (c.width row hrow).trans h⟩, h, rfl, rfl⟩

/-- Batches that are warped alone are warped together. -/
theorem exists_warp_joins {p q c : Batch D} (hj : p.Joins q c)
    (hv : YBounds.validateBounds bounds p.y.ncols = .ok ()) {y bY : Array2 D}
    {stored bv : Option (Array2 D)} (hp : p.warp bounds = .ok (y, stored))
    (hq : q.warp bounds = .ok (bY, bv)) :
    ∃ y' stored', c.warp bounds = .ok (y', stored') ∧ y.Stacks bY y' ∧
      YvarStacks p.x.nrows stored bv stored' := by
  obtain ⟨hpc, -, hps, hpd⟩ := warp_dims hp
  obtain ⟨hqc, -, hqs, hqd⟩ := warp_dims hq
  have hcols : bY.ncols = y.ncols := hqc.trans (hj.y.ncols_right.trans hpc.symm)
  obtain ⟨y', hy'⟩ := exists_stacks hcols
  have hyvar : ∃ stored', YvarStacks p.x.nrows stored bv stored' := by
    have hyvar := hj.yvar
    generalize hu : p.yvar = u, hv : q.yvar = v, hw : c.yvar = w at hyvar
    rw [hu] at hps
    rw [hv] at hqs
    cases hyvar with
    | none =>
      obtain rfl := Option.not_isSome_iff_eq_none.mp (by rw [hps]; exact Bool.false_ne_true)
      obtain rfl := Option.not_isSome_iff_eq_none.mp (by rw [hqs]; exact Bool.false_ne_true)
      exact ⟨none, .none⟩
    | some hs =>
      obtain ⟨u, rfl⟩ := Option.isSome_iff_exists.mp hps
      obtain ⟨v, rfl⟩ := Option.isSome_iff_exists.mp hqs
      obtain ⟨w, hw⟩ := exists_stacks (a := u) (c := v)
        ((hqd v rfl).1.trans (hcols.trans (hpd u rfl).1.symm))
      exact ⟨some w, .some hw⟩
    | first h0 =>
      obtain rfl := Option.not_isSome_iff_eq_none.mp (by rw [hps]; exact Bool.false_ne_true)
      obtain ⟨v, rfl⟩ := Option.isSome_iff_exists.mp hqs
      exact ⟨some v, .first h0⟩
  obtain ⟨stored', hstored'⟩ := hyvar
  exact ⟨y', stored', (hj.warp_eq_ok hv).mpr ⟨_, _, hp, hq, hy', hstored'⟩, hy', hstored'⟩

omit [Analysis D] in
theorem length_columnSums (a : Array2 D) : (columnSumsAndSumsq a).1.length = a.ncols :=
  (length_rowSums a.ncols a.rows).1

omit [Floating D] [Floating F] [FloatCast D F] [Analysis D] in
theorem waitForFlush_inMemory (hb : m.backend = .inMemory b) :
    onBackend EnnBackend.waitForFlush m = (.ok (), m) := by
  unfold onBackend Call.on
  rw [hb]
  change (Except.ok (), { m with backend := .inMemory b }) = _
  rw [← hb]

variable (env) in
/-- The calls of an add in memory, one after another. -/
theorem add_inMemory {q : Batch D} {bY : Array2 D} {bv : Option (Array2 D)}
    {b' : InMemoryEnnBackend D F} (hb : m.backend = .inMemory b)
    (hvalid : m.validateAdd q.x q.y q.yvar = .ok ()) (hpos : 0 < q.x.nrows)
    (hwarp : m.warpAdded q.y q.yvar = .ok (bY, bv))
    (happend : InMemoryEnnBackend.appendRows q.x bY bv b = (.ok (), b'))
    (hy : bY.ncols ≤ m.ySum.length) (hx : m.scaleX = true → q.x.ncols ≤ m.xSum.length) :
    add env q.x q.y q.yvar m = (.ok (), m.afterAdd (.inMemory b') q.x bY) := by
  have hwait := waitForFlush_inMemory hb
  have happend : onBackend (EnnBackend.appendRows env q.x bY bv) m =
      (.ok (), { m with backend := .inMemory b' }) := by
    unfold onBackend Call.on
    rw [hb]
    change ((InMemoryEnnBackend.appendRows q.x bY bv b).1,
      { m with backend := .inMemory (InMemoryEnnBackend.appendRows q.x bY bv b).2 }) = _
    rw [happend]
  have hfits : fitsColumns m.ySum bY = .ok () := if_neg (by omega)
  unfold add
  rw [Call.get_bind_apply, hvalid, Call.ok_bind_apply, Call.ite_apply, if_pos hpos,
    Call.bind_apply_of_ok _ hwait, hwarp, Call.ok_bind_apply]
  dsimp only
  rw [Call.bind_apply_of_ok _ happend, hfits, Call.ok_bind_apply, Call.modify_bind_apply]
  unfold afterAdd
  dsimp only
  split
  next hscale =>
    have hfits' : fitsColumns m.xSum q.x = .ok () := if_neg (by have := hx hscale; omega)
    rw [hfits', Call.ok_bind_apply, Call.modify_bind_apply,
      Call.bind_apply_of_ok _ (onBackend_markIndexStale _)]
    rfl
  next => rfl

omit [Floating F] [FloatCast D F] in
theorem warpAdded_eq (q : Batch D) (hbounds : m.yBounds = bounds)
    (hbounded : m.boundedOutputs = !YBounds.isIdentityBounds bounds) :
    m.warpAdded q.y q.yvar = q.warp bounds := by
  unfold warpAdded Batch.warp warp
  rw [hbounded, hbounds, Bool.not_not]

variable (env) in
/-- An add of rows behind those that a model holds. -/
theorem Holds.add_pos {p q c : Batch D} (h : Holds options bounds p m) (hj : p.Joins q c)
    (hv : YBounds.validateBounds bounds p.y.ncols = .ok ()) (hpos : 0 < q.x.nrows)
    {bY : Array2 D} {bv : Option (Array2 D)} (hq : q.warp bounds = .ok (bY, bv)) :
    ∃ m', add env q.x q.y q.yvar m = (.ok (), m') ∧ Holds options bounds c m' := by
  have hvalid := h.validateAdd_eq hj
  obtain ⟨y, stored, held, b, hwarp, hheld, hl⟩ := h.loaded
  obtain ⟨hyc, hyr, hsome, hdims⟩ := warp_dims hwarp
  obtain ⟨y', stored', hwarp', hy', hstored'⟩ := exists_warp_joins hj hv hwarp hq
  have hpush := yvarPushed_of_stacks hstored' hheld fun v hv => by
    rw [(hdims v hv).2, hyr, p.nrows_eq]
  have hwarpQ : m.warpAdded q.y q.yvar = .ok (bY, bv) :=
    (warpAdded_eq q (congrArg yBounds hl.model_eq) (congrArg boundedOutputs hl.model_eq)).trans hq
  obtain ⟨hm, hx_eq, hy_eq, hyvar_eq, hdim, hmetrics, hcoherent⟩ := hl
  generalize m.workDir = workDir at hm
  subst hm
  have hx : b.trainXRows.Stacks q.x c.x := hx_eq ▸ hj.x
  have happend := appendRows_inMemory hpos hx (hy_eq ▸ hy') (hyvar_eq ▸ hpush)
  have hylen : bY.ncols ≤ (columnSumsAndSumsq y).1.length := by
    rw [length_columnSums, hy'.ncols_right]
  have hadd := add_inMemory env rfl hvalid hpos hwarpQ happend hylen ?_
  · let b' : InMemoryEnnBackend D F :=
      { b with
        trainXRows := c.x
        trainYRows := y'
        trainYvarRows := stored'
        indexStale := options.scaleX || b.indexStale }
    refine ⟨_, hadd, y', stored', stored', b', hwarp', .inl rfl, ?_⟩
    rw [afterAdd_assemble hj.x hy']
    exact ⟨rfl, rfl, rfl, rfl, hdim.trans hj.x.ncols_eq.symm, hmetrics.trans hy'.ncols_eq.symm,
      coherent_appended hcoherent hx⟩
  · intro hscale
    have hs : options.scaleX = true := hscale
    have hxlen : q.x.ncols ≤ (columnSumsAndSumsq p.x).1.length := by
      rw [length_columnSums, hj.x.ncols_right]
    change q.x.ncols ≤ (if options.scaleX = true then columnSumsAndSumsq p.x else _).1.length
    rw [if_pos hs]
    exact hxlen

theorem warp_of_empty {q : Batch D} (h0 : q.x.nrows = 0)
    (hv : YBounds.validateBounds bounds q.y.ncols = .ok ()) : ∃ out, q.warp bounds = .ok out := by
  have hnil : q.y.rows = [] := List.eq_nil_of_length_eq_zero (q.nrows_eq.symm.trans h0)
  cases hid : YBounds.isIdentityBounds bounds with
  | true =>
    refine ⟨(q.y, q.yvar), ?_⟩
    unfold Batch.warp warp
    rw [hid]
    rfl
  | false =>
    have hy := warpY_eq (a := q.y) hv fun e he => by simp [Array2.indexed, hnil] at he
    rw [Batch.warp_eq _ hid, hy]
    cases hyvar : q.yvar with
    | none => exact ⟨_, rfl⟩
    | some v =>
      obtain ⟨hc, hr⟩ := q.yvar_dims hyvar
      have hyv := (warpYvar_eq_ok hc hr hv).mpr ⟨fun e he => by
        simp [scaledYvar, Array2.indexed, Array2.mapCols, Array2.zip, hnil] at he, rfl⟩
      exact ⟨_, by simp only [bind, Except.bind, hyv]; rfl⟩

variable (env) in
/-- An add without rows leaves the model as it is. -/
theorem Holds.add_zero {p q c : Batch D} (h : Holds options bounds p m) (hj : p.Joins q c)
    (hv : YBounds.validateBounds bounds p.y.ncols = .ok ()) (h0 : q.x.nrows = 0)
    {bY : Array2 D} {bv : Option (Array2 D)} (hq : q.warp bounds = .ok (bY, bv)) :
    add env q.x q.y q.yvar m = (.ok (), m) ∧ Holds options bounds c m := by
  have hvalid := h.validateAdd_eq hj
  obtain ⟨y, stored, held, b, hwarp, hheld, hl⟩ := h.loaded
  obtain ⟨hqc, hqr, -, hqd⟩ := warp_dims hq
  obtain ⟨y', stored', hwarp', hy', hstored'⟩ := exists_warp_joins hj hv hwarp hq
  have hbnil : bY.rows = [] :=
    List.eq_nil_of_length_eq_zero (hqr.trans (q.nrows_eq.symm.trans h0))
  have hx : c.x = p.x := hj.x.eq_left (List.eq_nil_of_length_eq_zero h0)
  have hy : y' = y := hy'.eq_left hbnil
  constructor
  · unfold add
    rw [Call.get_bind_apply, hvalid, Call.ok_bind_apply, Call.ite_apply, if_neg (by omega)]
    rfl
  · refine ⟨y', stored', held, b, hwarp', ?_, by rw [hx, hy]; exact hl⟩
    rw [hx]
    cases hstored' with
    | none => exact hheld
    | some hs =>
      have hvnil := (hqd _ rfl).2
      have hvnil := List.eq_nil_of_length_eq_zero (hvnil.trans (congrArg List.length hbnil))
      rw [hs.eq_left hvnil]
      exact hheld
    | first hp0 =>
      obtain rfl | ⟨-, rfl⟩ := hheld <;> exact .inr ⟨hp0, rfl⟩

variable (env) in
/-- An add returns exactly when its rows can be warped, and the model holds them then. -/
theorem Holds.add {p q c : Batch D} (h : Holds options bounds p m) (hj : p.Joins q c)
    (hv : YBounds.validateBounds bounds p.y.ncols = .ok ()) :
    (∀ out, q.warp bounds = .ok out → ∃ m',
      add env q.x q.y q.yvar m = (.ok (), m') ∧ Holds options bounds c m') ∧
    ∀ e, q.warp bounds = .error e → (EpistemicNearestNeighbors.add env q.x q.y q.yvar m).1 =
      .error e := by
  have hvq : YBounds.validateBounds bounds q.y.ncols = .ok () := hj.y.ncols_right ▸ hv
  constructor
  · rintro ⟨bY, bv⟩ hq
    by_cases h0 : q.x.nrows = 0
    · obtain ⟨hadd, hc⟩ := h.add_zero env hj hv h0 hq
      exact ⟨m, hadd, hc⟩
    · exact h.add_pos env hj hv (by omega) hq
  · intro e he
    by_cases h0 : q.x.nrows = 0
    · obtain ⟨out, hout⟩ := warp_of_empty h0 hvq
      rw [hout] at he
      cases he
    · have hvalid := h.validateAdd_eq hj
      obtain ⟨y, stored, held, b, -, -, hl⟩ := h.loaded
      have hwarp : m.warpAdded q.y q.yvar = .error e :=
        (warpAdded_eq q (congrArg yBounds hl.model_eq)
          (congrArg boundedOutputs hl.model_eq)).trans he
      have hb : m.backend = .inMemory b := congrArg EpistemicNearestNeighbors.backend hl.model_eq
      have hwait := waitForFlush_inMemory hb
      unfold EpistemicNearestNeighbors.add
      rw [Call.get_bind_apply, hvalid, Call.ok_bind_apply, Call.ite_apply, if_pos (by omega),
        Call.bind_apply_of_ok _ hwait, hwarp, Call.error_bind_apply]

end Add

end EpistemicNearestNeighbors

end Ennbo
