import Ennbo.Backend.Steps

/-! # What the files record

The counter and the metadata say how many rows the stores hold and how wide they
are. This needs no index: it survives builds and persists that fail. The output
bounds in the metadata are lost exactly when a persist writes it again.
-/

namespace Ennbo

variable {D F : Type} [Floating D] [Floating F] [FloatCast D F]

/-- The files record `n` rows of these widths. -/
structure WorkDir.Filed (dir : WorkDir D F) (n numDim numMetrics : ℕ) : Prop where
  numObs : dir.numObs = some n
  metadata : ∃ m, dir.metadata = some m ∧ m.numObs ≤ n ∧ m.numDim = numDim ∧
    m.numMetrics = numMetrics

def WorkDir.storedBounds (dir : WorkDir D F) : Option (Array2 D) :=
  dir.metadata.bind Metadata.yBounds

def WorkDir.storedRows (dir : WorkDir D F) : ℕ := dir.loadNumObs.getD 0

omit [Floating D] [Floating F] [FloatCast D F] in
theorem WorkDir.loadNumObs_openNumObsCounter (dir : WorkDir D F) :
    dir.openNumObsCounter.loadNumObs = some dir.storedRows := by
  unfold WorkDir.storedRows WorkDir.loadNumObs WorkDir.openNumObsCounter
  cases dir.numObs <;> cases dir.metadata <;> simp

omit [Floating D] [Floating F] [FloatCast D F] in
theorem WorkDir.Filed.loadNumObs {dir : WorkDir D F} {n numDim numMetrics : ℕ}
    (h : dir.Filed n numDim numMetrics) : dir.loadNumObs = some n := by
  obtain ⟨m, hm, hle, -⟩ := h.metadata
  unfold WorkDir.loadNumObs
  rw [h.numObs, hm]
  simp [hle]

omit [Floating D] [Floating F] [FloatCast D F] in
theorem WorkDir.Filed.openNumObsCounter {dir : WorkDir D F} {n numDim numMetrics : ℕ}
    (h : dir.Filed n numDim numMetrics) : dir.openNumObsCounter = dir := by
  unfold WorkDir.openNumObsCounter
  rw [h.numObs]
  cases dir
  congr 1
  exact h.numObs.symm

namespace IndexState

variable {env : Env F} {ctx : IndexBuildContext D}

theorem keeps_ensureSync {P : WorkDir D F → Prop} (h : ∀ dir n, P dir → P (dir.writeIndexedRows n))
    (stop : ℕ) : Call.Keeps (fun s => P s.dir) (ensureSync env ctx stop) := by
  refine Call.keeps_get.bind fun s => Call.Keeps.ite (Call.keeps_pure _) ?_
  refine Call.Keeps.bind ?_ fun _ => Call.keeps_modify fun s hs => h _ _ hs
  exact Call.keeps_on (Q := fun _ => True) (fun _ _ => trivial) (fun _ _ => trivial)
    fun _ _ hs _ => hs

/-- However a persist ends, it writes the metadata of the stores or none. -/
theorem keeps_persistToDisk {P : WorkDir D F → Prop}
    (h : ∀ dir n, P dir → P (dir.writeIndexedRows n))
    (hindex : ∀ dir index, P dir → P { dir with index := index })
    (hmeta : ∀ dir n, P dir →
      P (dir.writeMetadata ctx.trainX.nrows ctx.numDim ctx.numMetrics ctx.scaleX n)) :
    Call.Keeps (fun s => P s.dir) (persistToDisk env ctx) := by
  refine (keeps_ensureSync h _).bind fun _ => Call.keeps_get.bind fun s => ?_
  refine Call.Keeps.ite (Call.keeps_pure _) ?_
  have hpersist : ∀ idx, Call.Keeps (fun s : IndexState D F => P s.dir)
      (Call.modify (persistIndex idx)) :=
    fun idx => Call.keeps_modify fun s hs => hindex _ _ hs
  have hwrite : Call.Keeps (fun s : IndexState D F => P s.dir) (Call.modify fun s =>
      { s with
        dir := (s.dir.writeMetadata ctx.trainX.nrows ctx.numDim ctx.numMetrics ctx.scaleX
          s.index.indexedRows).writeIndexedRows s.index.indexedRows }) :=
    Call.keeps_modify fun s hs => h _ _ (hmeta _ _ hs)
  split
  · exact hwrite
  · exact (hpersist _).bind fun _ => hwrite
  · refine Call.Keeps.bind (Call.keeps_ofOutcome _) fun merged => ?_
    exact (hpersist merged).bind fun _ => hwrite

theorem keepsFailing_persistToDisk {P : WorkDir D F → Prop}
    (h : ∀ dir n, P dir → P (dir.writeIndexedRows n))
    (hindex : ∀ dir index, P dir → P { dir with index := index }) :
    Call.KeepsFailing (fun s => P s.dir) (persistToDisk env ctx) := by
  refine (keeps_ensureSync h _).bind_failing fun _ => Call.keeps_get.bind_failing fun s => ?_
  refine Call.KeepsFailing.ite (Call.keepsFailing_pure _) ?_
  have hpersist : ∀ idx, Call.Keeps (fun s : IndexState D F => P s.dir)
      (Call.modify (persistIndex idx)) :=
    fun idx => Call.keeps_modify fun s hs => hindex _ _ hs
  split
  · exact Call.keepsFailing_modify _
  · exact (hpersist _).bind_failing fun _ => Call.keepsFailing_modify _
  · refine Call.Keeps.bind_failing (Call.keeps_ofOutcome _) fun merged => ?_
    exact (hpersist merged).bind_failing fun _ => Call.keepsFailing_modify _

theorem storedBounds_persistToDisk {s s' : IndexState D F} (hn : 0 < ctx.trainX.nrows)
    (h : (persistToDisk env ctx).Returns s () s') : s'.dir.storedBounds = none := by
  obtain ⟨s₁, hsync, hs⟩ := returns_persistToDisk h
  rcases hs with ⟨-, hzero, -⟩ | ⟨-, -, rfl⟩ | ⟨merged, -, -, rfl⟩
  · rcases returns_ensureSync hsync with ⟨hle, rfl⟩ | ⟨-, -, hrows, -⟩
    · omega
    · omega
  · rfl
  · rfl

theorem persistToDisk_of_empty (env : Env F) (ctx : IndexBuildContext D) {s : IndexState D F}
    (hn : ctx.trainX.nrows = 0) (hrows : s.index.indexedRows = 0)
    (hindices : s.index.indices = []) :
    (persistToDisk env ctx).Returns s () s := by
  have hget : (Call.get : Call (IndexState D F) _).Returns s s s := Call.returns_get.mpr ⟨rfl, rfl⟩
  have hsync : (ensureSync env ctx ctx.trainX.nrows).Returns s () s := by
    apply Call.returns_bind.mpr
    exact ⟨s, s, hget, by simp [hn]⟩
  apply Call.returns_bind.mpr
  refine ⟨(), s, hsync, ?_⟩
  apply Call.returns_bind.mpr
  exact ⟨s, s, hget, by simp [hrows, hindices]⟩

end IndexState

namespace BpannBackend

def Bare (b : BpannBackend D F) : Prop :=
  b.len = 0 → b.index.indexedRows = 0 ∧ b.index.indices = []

/-- The files record what the stores hold. -/
structure Filed (b : BpannBackend D F) : Prop where
  dir : b.dir.Filed b.len b.numDim b.numMetrics
  ncols_x : b.trainX.ncols = b.numDim
  ncols_y : b.trainY.ncols = b.numMetrics
  nrows_y : b.trainY.nrows = b.len
  bare : b.Bare

/-- The same stores, with files of the given kind. -/
structure SameStores (P : WorkDir D F → Prop) (b₀ b : BpannBackend D F) : Prop where
  trainX_eq : b.trainX = b₀.trainX
  trainY_eq : b.trainY = b₀.trainY
  trainYvar_eq : b.trainYvar = b₀.trainYvar
  numDim_eq : b.numDim = b₀.numDim
  numMetrics_eq : b.numMetrics = b₀.numMetrics
  dir : P b.dir
  bare : b.Bare

/-- The files record the rows of `b`. -/
def Records (b : BpannBackend D F) (dir : WorkDir D F) : Prop :=
  dir.Filed b.len b.numDim b.numMetrics

variable {b b₀ : BpannBackend D F} {env : Env F} {P : WorkDir D F → Prop}

omit [Floating D] [Floating F] [FloatCast D F] in
theorem SameStores.refl (hP : P b.dir) (hb : b.Bare) : SameStores P b b :=
  ⟨rfl, rfl, rfl, rfl, rfl, hP, hb⟩

omit [Floating D] [Floating F] [FloatCast D F] in
theorem SameStores.len_eq (h : SameStores P b₀ b) : b.len = b₀.len := by
  unfold len
  rw [h.trainX_eq]

omit [Floating D] [Floating F] [FloatCast D F] in
theorem Filed.sameStores (h : b.Filed) : SameStores b.Records b b := .refl h.dir h.bare

omit [Floating D] [Floating F] [FloatCast D F] in
theorem SameStores.filed (h : SameStores b₀.Records b₀ b) (h₀ : b₀.Filed) : b.Filed where
  dir := by
    rw [h.len_eq, h.numDim_eq, h.numMetrics_eq]
    exact h.dir
  ncols_x := by rw [h.trainX_eq, h.numDim_eq, h₀.ncols_x]
  ncols_y := by rw [h.trainY_eq, h.numMetrics_eq, h₀.ncols_y]
  nrows_y := by rw [h.trainY_eq, h.len_eq, h₀.nrows_y]
  bare := h.bare

def SidecarFree (P : WorkDir D F → Prop) : Prop := ∀ dir n, P dir → P (dir.writeIndexedRows n)

omit [Floating D] [Floating F] [FloatCast D F] in
theorem sidecarFree_records (b : BpannBackend D F) : SidecarFree b.Records :=
  fun _ _ h => { h with }

omit [Floating D] [Floating F] [FloatCast D F] in
theorem SameStores.withIndex (h : SameStores P b₀ b) (h0 : b₀.len ≠ 0) {s : IndexState D F}
    (hs : P s.dir) : SameStores P b₀ (b.withIndex s) :=
  { h with
    dir := hs
    bare := fun hlen => absurd (h.len_eq.symm.trans hlen) h0 }

section Calls

theorem ensureIndexSync_of_empty (h0 : b.len = 0) :
    (ensureIndexSync env).Returns b () b.clearPending := by
  simp [ensureIndexSync, h0]

theorem keeps_ensureIndexSync (hP : SidecarFree P) (b₀ : BpannBackend D F) (env : Env F) :
    Call.Keeps (SameStores P b₀) (ensureIndexSync env) := by
  have hclear : ∀ c, SameStores P b₀ c → SameStores P b₀ c.clearPending :=
    fun c hc => { hc with bare := hc.bare }
  intro b hb
  by_cases h0 : b₀.len = 0
  · rw [show ensureIndexSync env b = _ from ensureIndexSync_of_empty (hb.len_eq.trans h0)]
    exact hclear b hb
  · refine Call.Keeps.get_bind (P := SameStores P b₀) ?_ hb
    refine Call.Keeps.ite (Call.keeps_modify hclear)
      (Call.Keeps.bind ?_ fun _ => Call.keeps_modify hclear)
    exact Call.keeps_on (IndexState.keeps_ensureSync hP _) (fun c hc => hc.dir)
      fun c s hc hs => hc.withIndex h0 hs

omit [Floating F] [FloatCast D F] in
theorem sameStores_setScale (hb : SameStores P b₀ b) (scaleX : Bool) (xScale : List D) :
    SameStores P b₀ (b.setScale scaleX xScale) := by
  unfold setScale
  split
  · exact { hb with bare := fun _ => ⟨rfl, rfl⟩ }
  · exact hb

theorem keeps_ensureIndexSyncWithScale (hP : SidecarFree P) (b₀ : BpannBackend D F) (env : Env F)
    (scaleX : Bool) (xScale : List D) :
    Call.Keeps (SameStores P b₀) (ensureIndexSyncWithScale env scaleX xScale) :=
  (Call.keeps_modify fun _ hb => sameStores_setScale hb scaleX xScale).bind fun _ =>
    keeps_ensureIndexSync hP b₀ env

theorem softSyncBuild_of_empty (h0 : b.len = 0) : (softSyncBuild env).Returns b none b := by
  simp [softSyncBuild, h0]

theorem keeps_softSyncBuild (hP : SidecarFree P) (b₀ : BpannBackend D F) (env : Env F) :
    Call.Keeps (SameStores P b₀) (softSyncBuild env) := by
  intro b hb
  refine Call.Keeps.get_bind (P := SameStores P b₀) ?_ hb
  refine Call.Keeps.ite (Call.keeps_pure _) ?_
  refine Call.keeps_on (Q := fun s => P s.dir) ?_ (fun c hc => hc.dir)
    fun c s hc hs => { hc with dir := hs, bare := hc.bare }
  refine (IndexState.keeps_ensureSync hP _).bind fun _ => ?_
  exact Call.keeps_get.bind fun _ => Call.keeps_pure _

section Persist

variable [DecidableEq F]

omit [Floating D] [Floating F] [FloatCast D F] [DecidableEq F] in
theorem sameStores_markPersisted (hb : SameStores P b₀ b) : SameStores P b₀ b.markPersisted :=
  { hb with bare := hb.bare }

theorem persistIndexToDisk_of_empty (hb : b.Bare) (h0 : b.len = 0) :
    (persistIndexToDisk env).Returns b () b.markPersisted := by
  obtain ⟨hrows, hindices⟩ := hb h0
  have h := IndexState.persistToDisk_of_empty env b.context
    (s := ⟨b.index, b.dir⟩) h0 hrows hindices
  refine Call.returns_bind.mpr ⟨b, b, by simp, ?_⟩
  rw [Call.returns_ite]
  split
  · exact Call.returns_bind.mpr ⟨(), b, Call.returns_on.mpr ⟨_, h, rfl⟩, by simp⟩
  · simp

theorem keeps_persistIndexToDisk (b₀ : BpannBackend D F) (hP : SidecarFree P)
    (hindex : ∀ dir index, P dir → P { dir with index := index })
    (hmeta : ∀ dir scaleX n, P dir →
      P (dir.writeMetadata b₀.len b₀.numDim b₀.numMetrics scaleX n)) (env : Env F) :
    Call.Keeps (SameStores P b₀) (persistIndexToDisk env) := by
  intro b hb
  by_cases h0 : b₀.len = 0
  · rw [show persistIndexToDisk env b = _ from
      persistIndexToDisk_of_empty hb.bare (hb.len_eq.trans h0)]
    exact sameStores_markPersisted hb
  · have hmark : Call.Keeps (SameStores P b₀) (Call.modify markPersisted) :=
      Call.keeps_modify fun _ hc => sameStores_markPersisted hc
    refine Call.Keeps.get_bind (P := SameStores P b₀) ?_ hb
    refine Call.Keeps.ite (Call.Keeps.bind ?_ fun _ => hmark) hmark
    refine Call.keeps_on (Q := fun s => P s.dir) ?_ (fun c hc => hc.dir)
      fun c s hc hs => hc.withIndex h0 hs
    refine IndexState.keeps_persistToDisk hP hindex fun dir n hdir => ?_
    have h := hmeta dir b.scaleX n hdir
    rwa [← hb.len_eq, ← hb.numDim_eq, ← hb.numMetrics_eq] at h

theorem filed_persistIndexToDisk (b₀ : BpannBackend D F) (env : Env F) :
    Call.Keeps (SameStores b₀.Records b₀) (persistIndexToDisk env) := by
  apply keeps_persistIndexToDisk b₀ (sidecarFree_records b₀)
  · intro dir index h
    exact { h with }
  · intro dir scaleX n h
    exact ⟨h.numObs, _, rfl, le_rfl, rfl, rfl⟩

def Rewrites (env : Env F) (b : BpannBackend D F) : Prop :=
  (persistIndexToDisk env b).1 = .ok () ∧ b.needsDiskRewrite = true ∧ 0 < b.len

theorem storedBounds_of_rewrites (h : b.Rewrites env) :
    (persistIndexToDisk env b).2.dir.storedBounds = none := by
  obtain ⟨hok, hneeds, hlen⟩ := h
  have hret : (persistIndexToDisk env).Returns b () (persistIndexToDisk env b).2 :=
    Prod.ext hok rfl
  rcases returns_persistIndexToDisk hret with ⟨hn, -⟩ | ⟨-, s, hs, he⟩
  · simp [hneeds] at hn
  · rw [he]
    exact IndexState.storedBounds_persistToDisk hlen hs

theorem metadata_of_not_rewrites (hb : b.Bare) (h : ¬ b.Rewrites env) :
    (persistIndexToDisk env b).2.dir.metadata = b.dir.metadata := by
  by_cases hok : (persistIndexToDisk env b).1 = .ok ()
  · have hret : (persistIndexToDisk env).Returns b () (persistIndexToDisk env b).2 :=
      Prod.ext hok rfl
    rcases returns_persistIndexToDisk hret with ⟨-, he⟩ | ⟨hneeds, -⟩
    · rw [he]
      rfl
    · have h0 : b.len = 0 := by
        by_contra hne
        exact h ⟨hok, hneeds, Nat.pos_of_ne_zero hne⟩
      rw [show persistIndexToDisk env b = _ from persistIndexToDisk_of_empty hb h0]
      rfl
  · have hfail : Call.KeepsFailing (fun c : BpannBackend D F => c.dir.metadata = b.dir.metadata)
        (persistIndexToDisk env) := by
      refine Call.keeps_get.bind_failing fun c => ?_
      refine Call.KeepsFailing.ite (Call.KeepsFailing.bind_returns ?_ fun _ _ => ⟨(), rfl⟩)
        (Call.keepsFailing_modify _)
      exact Call.keepsFailing_on
        (IndexState.keepsFailing_persistToDisk (P := fun dir => dir.metadata = b.dir.metadata)
          (fun _ _ h => h) fun _ _ h => h)
        (fun _ h => h) fun _ _ _ h => h
    exact hfail b rfl fun _ => hok

end Persist

end Calls

section Open

variable {dir : WorkDir D F}

theorem filed_openIndexed {trainX trainY : MmapColumnStore D}
    {trainYvar : Option (MmapColumnStore D)} {scaleX : Bool} {xScale : List D}
    (hrows : trainY.nrows = trainX.nrows)
    (h : openIndexed env dir trainX trainY trainYvar scaleX xScale = .ok b) :
    b.Filed ∧ b.trainX = trainX ∧ b.trainY = trainY ∧ b.trainYvar = trainYvar := by
  obtain ⟨s, hs, rfl⟩ := openIndexed_eq_ok h
  refine ⟨⟨⟨rfl, _, rfl, le_rfl, rfl, rfl⟩, rfl, rfl, hrows, ?_⟩, rfl, rfl, rfl⟩
  intro h0
  have hopened : openedRows dir trainX.nrows = 0 := by
    change trainX.nrows = 0 at h0
    unfold openedRows
    omega
  refine ⟨hopened, ?_⟩
  rcases hs with ⟨-, rfl⟩ | ⟨hlt, -⟩
  · change openedIndices env dir (openedRows dir trainX.nrows) = []
    rw [hopened]
    unfold openedIndices
    split <;> rfl
  · omega

theorem filed_new {x y : Array2 D} {yvar : Option (Array2 D)} {scaleX : Bool} {xScale : List D}
    (hrows : x.nrows = y.nrows) (h : new env dir x y yvar scaleX xScale = .ok b) : b.Filed := by
  obtain ⟨trainX, trainY, trainYvar, hopen, -, ho⟩ := new_eq_ok h
  obtain ⟨storeX, storeY, hX, hY, hrX, hrY⟩ := hopen.rows
  refine (filed_openIndexed ?_ ho).1
  rw [dir.loadNumObs_openNumObsCounter] at hX hY
  have hlen : storeY.rows.length = storeX.rows.length := by
    rw [storeX.length_rows, storeY.length_rows, (MmapColumnStore.mmapOpenOrCreate_eq_ok hX).2.1,
      (MmapColumnStore.mmapOpenOrCreate_eq_ok hY).2.1]
  rw [trainX.nrows_eq_length_rows, trainY.nrows_eq_length_rows, hrX, hrY, List.length_append,
    List.length_append, hlen]
  split
  · exact congrArg _ hrows.symm
  · rfl

theorem widths_new {x y : Array2 D} {yvar : Option (Array2 D)} {scaleX : Bool} {xScale : List D}
    (h : new env dir x y yvar scaleX xScale = .ok b) :
    b.numDim = x.ncols ∧ b.numMetrics = y.ncols := by
  obtain ⟨trainX, trainY, trainYvar, hopen, -, ho⟩ := new_eq_ok h
  obtain ⟨s, -, rfl⟩ := openIndexed_eq_ok ho
  exact ⟨hopen.ncols_x, hopen.ncols_y⟩

/-- An empty directory takes the rows of the constructor, any other one keeps its own. -/
theorem rows_new {x y : Array2 D} {yvar : Option (Array2 D)} {scaleX : Bool} {xScale : List D}
    (hrows : x.nrows = y.nrows) (h : new env dir x y yvar scaleX xScale = .ok b) :
    (dir.storedRows = 0 → b.trainX.rows = x.rows ∧ b.trainY.rows = y.rows) ∧
      (dir.storedRows ≠ 0 → b.len = dir.storedRows) := by
  obtain ⟨trainX, trainY, trainYvar, hopen, -, ho⟩ := new_eq_ok h
  obtain ⟨storeX, storeY, hX, hY, hrX, hrY⟩ := hopen.rows
  obtain ⟨s, -, rfl⟩ := openIndexed_eq_ok ho
  rw [dir.loadNumObs_openNumObsCounter] at hX hY
  have hnX := (MmapColumnStore.mmapOpenOrCreate_eq_ok hX).2.1
  have hnY := (MmapColumnStore.mmapOpenOrCreate_eq_ok hY).2.1
  constructor
  · intro h0
    have hempty : ∀ {t : MmapColumnStore D}, t.nrows = 0 → t.rows = [] := fun {t} ht =>
      List.eq_nil_of_length_eq_zero (t.length_rows.trans ht)
    rw [hempty (hnX.trans h0), List.nil_append, hnX] at hrX
    rw [hempty (hnY.trans h0), List.nil_append, hnX] at hrY
    change trainX.rows = x.rows ∧ trainY.rows = y.rows
    rw [hrX, hrY]
    by_cases hpos : 0 < x.nrows
    · rw [if_pos ⟨h0, hpos⟩, if_pos ⟨h0, hpos⟩]
      exact ⟨rfl, rfl⟩
    · have hx : x.rows = [] := List.eq_nil_of_length_eq_zero (by unfold Array2.nrows at hpos; omega)
      have hy : y.rows = [] := by
        unfold Array2.nrows at hrows hpos
        exact List.eq_nil_of_length_eq_zero (by omega)
      rw [if_neg fun h => hpos h.2, if_neg fun h => hpos h.2, hx, hy]
      exact ⟨rfl, rfl⟩
  · intro h0
    rw [if_neg fun h => h0 (hnX.symm.trans h.1), List.append_nil] at hrX
    change trainX.nrows = _
    rw [trainX.nrows_eq_length_rows, hrX, ← storeX.nrows_eq_length_rows, hnX]

theorem trainYvar_new {x y : Array2 D} {yvar : Option (Array2 D)} {scaleX : Bool}
    {xScale : List D} (h : new env dir x y yvar scaleX xScale = .ok b) :
    ∀ store, b.trainYvar = some store → store.ncols = b.numMetrics := by
  obtain ⟨trainX, trainY, trainYvar, hopen, hV, ho⟩ := new_eq_ok h
  obtain ⟨s, -, rfl⟩ := openIndexed_eq_ok ho
  intro store hstore
  change trainYvar = some store at hstore
  change store.ncols = trainY.ncols
  rw [hopen.ncols_y]
  subst hstore
  unfold bpannOpenOrAppendYvar at hV
  cases yvar with
  | none => exact absurd (Outcome.pure_eq_ok.mp hV) (by simp)
  | some yv =>
    simp only [Outcome.bind_eq_ok] at hV
    obtain ⟨s₀, hs₀, hV⟩ := hV
    have hcols := MmapColumnStore.ncols_mmapOpenOrCreate hs₀
    split at hV
    · obtain ⟨out, hout, he⟩ := Outcome.map_eq_ok.mp hV
      obtain rfl := Option.some.inj he
      rw [(MmapColumnStore.rows_of_mmapAppend hout).1, hcols]
    · obtain rfl := Option.some.inj (Outcome.pure_eq_ok.mp hV)
      exact hcols

/-- Reopening finds the rows, but never the variances. -/
theorem reopen_rows (hb : b₀.Filed) (h : reopen env b₀.workDir = .ok b) :
    b.Filed ∧ b.trainX.rows = b₀.trainX.rows ∧ b.trainY.rows = b₀.trainY.rows ∧
      b.trainYvar = none := by
  obtain ⟨m, hm, -, hdim, hmetrics⟩ := hb.dir.metadata
  have hwork : b₀.workDir.Filed b₀.len b₀.numDim b₀.numMetrics := ⟨hb.dir.numObs, hb.dir.metadata⟩
  replace h : new env b₀.workDir (Array2.empty m.numDim) (Array2.empty m.numMetrics) none m.scaleX
      (List.replicate m.numDim 1) = .ok b := by
    rw [← h, reopen, show b₀.workDir.metadata = some m from hm]
  have hempty : (Array2.empty m.numDim : Array2 D).nrows = (Array2.empty m.numMetrics).nrows := rfl
  have hfiled := filed_new hempty h
  obtain ⟨trainX, trainY, trainYvar, hopen, hV, ho⟩ := new_eq_ok h
  obtain ⟨storeX, storeY, hX, hY, hrX, hrY⟩ := hopen.rows
  have hrows : trainY.nrows = trainX.nrows := by
    obtain ⟨s, -, rfl⟩ := openIndexed_eq_ok ho
    exact hfiled.nrows_y
  obtain ⟨-, rfl, rfl, rfl⟩ := filed_openIndexed hrows ho
  rw [hwork.openNumObsCounter] at hX hY
  rw [hwork.loadNumObs] at hX hY
  have hstoreX : storeX = b₀.trainX := by
    have h := b₀.trainX.mmapOpenOrCreate_mmap
    rw [hb.ncols_x, ← hdim] at h
    exact Except.ok.inj (hX.symm.trans h)
  have hstoreY : storeY = b₀.trainY := by
    have h := b₀.trainY.mmapOpenOrCreate_mmap
    rw [hb.ncols_y, ← hmetrics, hb.nrows_y] at h
    exact Except.ok.inj (hY.symm.trans h)
  subst hstoreX hstoreY
  refine ⟨hfiled, ?_, ?_, (Outcome.pure_eq_ok.mp hV).symm⟩
  · simpa [Array2.empty, Array2.nrows] using hrX
  · simpa [Array2.empty, Array2.nrows] using hrY

end Open

section Append

omit [Floating F] [FloatCast D F] in
theorem Filed.afterAppend {x y : Array2 D} {yvar : Option (Array2 D)}
    {trainX trainY : MmapColumnStore D} {trainYvar : Option (MmapColumnStore D)} (hb : b.Filed)
    (h : Appended b x y yvar trainX trainY trainYvar) :
    (b.afterAppend x trainX trainY trainYvar).Filed := by
  obtain ⟨hcX, hrX⟩ := MmapColumnStore.rows_of_mmapAppend h.trainX_eq
  obtain ⟨hcY, hrY⟩ := MmapColumnStore.rows_of_mmapAppend h.trainY_eq
  have hX : trainX.nrows = b.len + x.nrows := MmapColumnStore.nrows_of_rows hrX
  have hY : trainY.nrows = b.trainY.nrows + y.nrows := MmapColumnStore.nrows_of_rows hrY
  obtain ⟨m, hm, hle, hdim⟩ := hb.dir.metadata
  have hpos := h.nrows_pos
  refine ⟨⟨rfl, m, hm, hle.trans ?_, hdim⟩, hcX.trans hb.ncols_x, hcY.trans hb.ncols_y, ?_, ?_⟩
  · change b.len ≤ trainX.nrows
    omega
  · change trainY.nrows = trainX.nrows
    rw [hX, hY, hb.nrows_y, h.nrows_y]
  · intro h0
    change trainX.nrows = 0 at h0
    omega

theorem filed_appendRows {x y : Array2 D} {yvar : Option (Array2 D)} (hb : b₀.Filed)
    (h : (appendRows env x y yvar).Returns b₀ () b) : b.Filed := by
  rcases returns_appendRows h with ⟨-, rfl⟩ | ⟨_, _, _, ha, rfl | hs⟩
  · exact hb
  · exact hb.afterAppend ha
  · have hfiled := hb.afterAppend ha
    have hkeeps := keeps_ensureIndexSync (sidecarFree_records _) _ env _ hfiled.sameStores
    rw [show ensureIndexSync env _ = _ from hs] at hkeeps
    exact hkeeps.filed hfiled

end Append

end BpannBackend

end Ennbo
