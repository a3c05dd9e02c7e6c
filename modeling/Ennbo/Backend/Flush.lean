import Ennbo.Backend.Coverage
import Ennbo.Backend.Search
import Mathlib.Logic.Function.Basic

/-! # The background flush

Callers schedule flushes, wait for them and search; workers build an index from
what they read and publish it later; an owner that has the handle to itself
appends and persists. The job slot and the callers hold the handles of all workers
that are not done, so the owner's wait leaves no worker behind.
-/

namespace Ennbo

variable {ι D F : Type} [Floating D] [Floating F] [FloatCast D F]

/-- A worker thread. Its build succeeds, so it ends without an error. -/
inductive Worker (D F : Type) where
  | spawned
  | built (result : Option (IncrementalIndex D F))
  | finished

def Worker.live : Worker D F → Bool
  | .finished => false
  | _ => true

/-- Where a caller is in its current call. -/
inductive Caller where
  | idle
  /-- In `schedule_background_flush`, with what it read of the backend. -/
  | scheduling (defer : Bool) (pending soft hard : ℕ)
  /-- At the hard cap, with the handle that `wait_for_flush` took. -/
  | hardWaiting (job : Option ℕ)
  | hardFlushing
  /-- The slot was free and enough rows are pending. -/
  | spawning
  | spawned (worker : ℕ)
  /-- The slot was taken meanwhile; the spare worker is joined. -/
  | joining (worker : ℕ)
  /-- In `wait_for_flush`, with the handle it took. -/
  | waiting (job : Option ℕ)
  deriving DecidableEq, Repr

/-- The worker whose handle a caller has. -/
def Caller.held : Caller → Option ℕ
  | .hardWaiting job => job
  | .waiting job => job
  | .spawned worker => some worker
  | .joining worker => some worker
  | _ => none

/-- The owner has the handle to itself while it waits and works. -/
inductive Owner where
  | absent
  | waiting (job : Option ℕ)
  | working
  deriving DecidableEq, Repr

def Owner.held : Owner → Option ℕ
  | .waiting job => job
  | _ => none

/-- A disk backend handle with the threads that use it. -/
structure FlushSystem (ι D F : Type) where
  data : BpannBackend D F
  job : Option ℕ
  workers : List (Worker D F)
  callers : ι → Caller
  owner : Owner

/-- What happens in a step of the system. -/
inductive FlushAction (D : Type) where
  | call
  | search
  | build
  | publish
  | append (x y : Array2 D) (yvar : Option (Array2 D))
  | persist
  /-- What an append of a model that scales its inputs does after it. -/
  | markStale

/-- Whether the owner acts on the backend. -/
def FlushAction.ofOwner : FlushAction D → Bool
  | .append .. | .persist | .markStale => true
  | _ => false

namespace FlushSystem

variable [DecidableEq ι] [DecidableEq F]

section System

variable (s : FlushSystem ι D F)

def setCaller (i : ι) (caller : Caller) : FlushSystem ι D F :=
  { s with callers := Function.update s.callers i caller }

def Joinable (job : Option ℕ) : Prop := ∀ w ∈ job, s.workers[w]? = some .finished

def new (data : BpannBackend D F) : FlushSystem ι D F :=
  { data, job := none, workers := [], callers := fun _ => .idle, owner := .absent }

end System

/-- The atomic steps on the job slot and on the backend behind its lock. -/
inductive Step : FlushSystem ι D F → FlushAction D → FlushSystem ι D F → Prop where
  | schedule {s : FlushSystem ι D F} {i : ι} : s.callers i = .idle → s.owner = .absent →
      Step s .call (s.setCaller i (.scheduling s.data.deferAppendIndexing s.data.pendingRows
        s.data.pendingFlushThreshold s.data.pendingHardFlushThreshold))
  | hardCap {s : FlushSystem ι D F} {i : ι} {pending soft hard : ℕ} :
      s.callers i = .scheduling true pending soft hard → hard ≤ pending →
      Step s .call { s.setCaller i (.hardWaiting s.job) with job := none }
  | hardJoined {s : FlushSystem ι D F} {i : ι} {job : Option ℕ} :
      s.callers i = .hardWaiting job → s.Joinable job →
      Step s .call (s.setCaller i .hardFlushing)
  /-- Under the write lock the pending rows are counted again. -/
  | hardDrained {s : FlushSystem ι D F} {i : ι} : s.callers i = .hardFlushing →
      s.data.pendingRows < s.data.pendingHardFlushThreshold →
      Step s .call (s.setCaller i .idle)
  | hardNothing {s : FlushSystem ι D F} {i : ι} {data : BpannBackend D F} (env : Env F) :
      s.callers i = .hardFlushing → s.data.pendingHardFlushThreshold ≤ s.data.pendingRows →
      (BpannBackend.softSyncBuild env).Returns s.data none data →
      Step s .publish { s.setCaller i .idle with data }
  | hardFlush {s : FlushSystem ι D F} {i : ι} {data : BpannBackend D F}
      {built : IncrementalIndex D F} (env : Env F) : s.callers i = .hardFlushing →
      s.data.pendingHardFlushThreshold ≤ s.data.pendingRows →
      (BpannBackend.softSyncBuild env).Returns s.data (some built) data →
      Step s .publish { s.setCaller i .idle with data := data.softSyncPublish built }
  | slotTaken {s : FlushSystem ι D F} {i : ι} {defer : Bool} {pending soft hard : ℕ} :
      s.callers i = .scheduling defer pending soft hard → ¬ (defer = true ∧ hard ≤ pending) →
      s.job ≠ none → Step s .call (s.setCaller i .idle)
  | notEnough {s : FlushSystem ι D F} {i : ι} {defer : Bool} {pending soft hard : ℕ} :
      s.callers i = .scheduling defer pending soft hard → ¬ (defer = true ∧ hard ≤ pending) →
      s.job = none → ¬ (defer = true ∧ soft ≤ pending) → Step s .call (s.setCaller i .idle)
  | slotFree {s : FlushSystem ι D F} {i : ι} {pending soft hard : ℕ} :
      s.callers i = .scheduling true pending soft hard → pending < hard →
      s.job = none → soft ≤ pending → Step s .call (s.setCaller i .spawning)
  | spawn {s : FlushSystem ι D F} {i : ι} : s.callers i = .spawning →
      Step s .call
        { s.setCaller i (.spawned s.workers.length) with workers := s.workers ++ [.spawned] }
  | install {s : FlushSystem ι D F} {i : ι} {worker : ℕ} : s.callers i = .spawned worker →
      s.job = none → Step s .call { s.setCaller i .idle with job := some worker }
  | spare {s : FlushSystem ι D F} {i : ι} {worker : ℕ} : s.callers i = .spawned worker →
      s.job ≠ none → Step s .call (s.setCaller i (.joining worker))
  | spareJoined {s : FlushSystem ι D F} {i : ι} {worker : ℕ} : s.callers i = .joining worker →
      s.Joinable (some worker) → Step s .call (s.setCaller i .idle)
  | wait {s : FlushSystem ι D F} {i : ι} : s.callers i = .idle → s.owner = .absent →
      Step s .call { s.setCaller i (.waiting s.job) with job := none }
  | waited {s : FlushSystem ι D F} {i : ι} {job : Option ℕ} : s.callers i = .waiting job →
      s.Joinable job → Step s .call (s.setCaller i .idle)
  | search {s : FlushSystem ι D F} {i : ι} (t : Tuning) (queries : Array2 D) (searchK : ℕ)
      (excludeNearest : Bool) : s.callers i = .idle → s.owner = .absent →
      Step s .search
        { s with data := (BpannBackend.search t queries searchK excludeNearest s.data).2 }
  | build {s : FlushSystem ι D F} {worker : ℕ} {data : BpannBackend D F}
      {result : Option (IncrementalIndex D F)} (env : Env F) :
      s.workers[worker]? = some .spawned →
      (BpannBackend.softSyncBuild env).Returns s.data result data →
      Step s .build { s with data, workers := s.workers.set worker (.built result) }
  | publish {s : FlushSystem ι D F} {worker : ℕ} {built : IncrementalIndex D F} :
      s.workers[worker]? = some (.built (some built)) →
      Step s .publish
        { s with data := s.data.softSyncPublish built
                 workers := s.workers.set worker .finished }
  | publishNothing {s : FlushSystem ι D F} {worker : ℕ} :
      s.workers[worker]? = some (.built none) →
      Step s .publish { s with workers := s.workers.set worker .finished }
  /-- The owner gets the handle once no caller is in a call. -/
  | own {s : FlushSystem ι D F} : s.owner = .absent → (∀ i, s.callers i = .idle) →
      Step s .call { s with owner := .waiting s.job, job := none }
  | owned {s : FlushSystem ι D F} {job : Option ℕ} : s.owner = .waiting job → s.Joinable job →
      Step s .call { s with owner := .working }
  | append {s : FlushSystem ι D F} {data : BpannBackend D F} (env : Env F) (x y : Array2 D)
      (yvar : Option (Array2 D)) : s.owner = .working →
      (BpannBackend.appendRows env x y yvar).Returns s.data () data →
      Step s (.append x y yvar) { s with data }
  | persist {s : FlushSystem ι D F} {data : BpannBackend D F} (env : Env F) :
      s.owner = .working → (BpannBackend.persistIndexToDisk env).Returns s.data () data →
      Step s .persist { s with data }
  | markStale {s : FlushSystem ι D F} : s.owner = .working →
      Step s .markStale { s with data := s.data.markIndexStale }
  | leave {s : FlushSystem ι D F} : s.owner = .working →
      Step s .call { s with owner := .absent }

section Data

variable {b b' : BpannBackend D F} {built : IncrementalIndex D F} {env : Env F}

def Full (b : BpannBackend D F) (built : IncrementalIndex D F) : Prop :=
  Covers 0 built.indices built.indexedRows ∧ built.indexedRows = b.len

omit [DecidableEq F] in
theorem covered_softSyncBuild {result : Option (IncrementalIndex D F)} (hb : b.Covered)
    (h : (BpannBackend.softSyncBuild env).Returns b result b') :
    b'.Covered ∧ b'.len = b.len ∧ b'.index = b.index ∧ ∀ built ∈ result, Full b built := by
  rcases BpannBackend.returns_softSyncBuild h with ⟨-, rfl, rfl⟩ | ⟨-, s, hs, rfl, rfl⟩
  · exact ⟨hb, rfl, rfl, by rintro _ ⟨⟩⟩
  · obtain ⟨hc, he, hd⟩ :=
      BpannBackend.covered_ensureSync hb.covers hb.indexed_le hb.len_lt hb.dir hs
    refine ⟨{ hb with dir := hd }, rfl, rfl, ?_⟩
    rintro _ ⟨⟩
    exact ⟨hc, he⟩

omit [Floating D] [Floating F] [FloatCast D F] [DecidableEq F] in
theorem covered_softSyncPublish (hb : b.Covered) (h : Full b built) :
    (b.softSyncPublish built).Covered where
  covers := h.1
  indexed_le := h.2.le
  pending := (Nat.sub_eq_zero_of_le h.2.ge).symm
  len_lt := hb.len_lt
  clean := fun _ => h.2
  dir := hb.dir

omit [DecidableEq F] in
theorem covered_search (hb : b.Covered) (t : Tuning) (queries : Array2 D) (searchK : ℕ)
    (excludeNearest : Bool) :
    (BpannBackend.search t queries searchK excludeNearest b).2.Covered ∧
      (BpannBackend.search t queries searchK excludeNearest b).2.len = b.len ∧
      (BpannBackend.search t queries searchK excludeNearest b).2.index = b.index := by
  rcases BpannBackend.search_state t queries searchK excludeNearest b with he | he
  · rw [he]
    exact ⟨hb, rfl, rfl⟩
  · rw [he]
    exact ⟨{ hb with }, rfl, rfl⟩

omit [DecidableEq F] in
theorem indexedRows_le_ensureIndexSync (hb : b.Covered)
    (h : (BpannBackend.ensureIndexSync env).Returns b () b') :
    b.index.indexedRows ≤ b'.index.indexedRows := by
  rcases BpannBackend.returns_ensureIndexSync h with ⟨-, rfl⟩ | ⟨-, ⟨index', dir'⟩, hs, rfl⟩
  · exact le_rfl
  · have he := (BpannBackend.covered_ensureSync hb.covers hb.indexed_le hb.len_lt hb.dir hs).2.1
    exact hb.indexed_le.trans he.ge

omit [DecidableEq F] in
theorem indexedRows_le_appendRows {x y : Array2 D} {yvar : Option (Array2 D)} (hb : b.Covered)
    (h : (BpannBackend.appendRows env x y yvar).Returns b () b') :
    b.index.indexedRows ≤ b'.index.indexedRows := by
  rcases BpannBackend.returns_appendRows h with ⟨-, rfl⟩ | ⟨_, _, _, ha, rfl | hs⟩
  · exact le_rfl
  · exact (b.index.sameFragments_notePendingRows x b.scaleX b.xScale).2.ge
  · exact (b.index.sameFragments_notePendingRows x b.scaleX b.xScale).2.ge.trans
      (indexedRows_le_ensureIndexSync (BpannBackend.covered_afterAppend hb ha) hs)

theorem indexedRows_le_persist (hb : b.Covered)
    (h : (BpannBackend.persistIndexToDisk env).Returns b () b') :
    b.index.indexedRows ≤ b'.index.indexedRows := by
  have hb' := BpannBackend.covered_persistIndexToDisk hb h
  have hpersisted : b'.len = b.len ∧ b'.pendingUnindexed = 0 := by
    rcases BpannBackend.returns_persistIndexToDisk h with ⟨-, rfl⟩ | ⟨-, s, -, rfl⟩
    · exact ⟨rfl, rfl⟩
    · exact ⟨rfl, rfl⟩
  have hpending := hb'.pending
  rw [hpersisted.1, hpersisted.2] at hpending
  exact hb.indexed_le.trans (Nat.sub_eq_zero_iff_le.1 hpending.symm)

end Data

section Invariant

variable {s s' : FlushSystem ι D F}

def Held (s : FlushSystem ι D F) (worker : ℕ) : Prop :=
  s.job = some worker ∨ (∃ i, (s.callers i).held = some worker) ∨ s.owner.held = some worker

/-- What holds between any two steps. -/
structure Inv (s : FlushSystem ι D F) : Prop where
  covered : s.data.Covered
  full : ∀ built, Worker.built (some built) ∈ s.workers → Full s.data built
  held : ∀ (w : ℕ) (worker : Worker D F), s.workers[w]? = some worker → worker.live = true →
    s.Held w
  alone : s.owner ≠ .absent → ∀ i, s.callers i = .idle
  slot : s.owner ≠ .absent → s.job = none

omit [Floating D] [Floating F] [FloatCast D F] [DecidableEq ι] [DecidableEq F] in
theorem Inv.finished (h : s.Inv) (ho : s.owner = .working) :
    ∀ worker ∈ s.workers, worker.live = false := by
  intro worker hworker
  obtain ⟨w, hw⟩ := List.mem_iff_getElem?.1 hworker
  by_contra hlive
  rw [Bool.not_eq_false] at hlive
  rcases h.held w worker hw hlive with hjob | ⟨i, hi⟩ | howner
  · rw [h.slot (by rw [ho]; nofun)] at hjob
    cases hjob
  · rw [h.alone (by rw [ho]; nofun) i] at hi
    cases hi
  · rw [ho] at howner
    cases howner

omit [Floating D] [Floating F] [FloatCast D F] [DecidableEq ι] [DecidableEq F] in
theorem Inv.withData (h : s.Inv) {data : BpannBackend D F} (hc : data.Covered)
    (hlen : data.len = s.data.len) : Inv { s with data } where
  covered := hc
  full built hbuilt := by
    obtain ⟨hcovers, hrows⟩ := h.full built hbuilt
    exact ⟨hcovers, hrows.trans hlen.symm⟩
  held := h.held
  alone := h.alone
  slot := h.slot

omit [Floating D] [Floating F] [FloatCast D F] [DecidableEq F] in
/-- A caller goes on, and no handle of a live worker gets lost. -/
theorem Inv.move (h : s.Inv) {i : ι} (hi : s.callers i ≠ .idle ∨ s.owner = .absent)
    {caller : Caller} {job : Option ℕ}
    (hkeep : ∀ (w : ℕ) (worker : Worker D F), s.workers[w]? = some worker → worker.live = true →
      s.job = some w ∨ (s.callers i).held = some w → job = some w ∨ caller.held = some w) :
    Inv { s.setCaller i caller with job } := by
  have habsent : s.owner = .absent := by
    rcases hi with hi | hi
    · by_contra hne
      exact hi (h.alone hne i)
    · exact hi
  refine ⟨h.covered, h.full, ?_, ?_, ?_⟩
  · intro w worker hw hlive
    have hnew : job = some w ∨ caller.held = some w →
        Held { s.setCaller i caller with job } w := by
      rintro (hjob | hcaller)
      · exact .inl hjob
      · refine .inr (.inl ⟨i, ?_⟩)
        simp only [setCaller, Function.update_self]
        exact hcaller
    rcases h.held w worker hw hlive with hjob | ⟨k, hk⟩ | howner
    · exact hnew (hkeep w worker hw hlive (.inl hjob))
    · by_cases hki : k = i
      · rw [hki] at hk
        exact hnew (hkeep w worker hw hlive (.inr hk))
      · refine .inr (.inl ⟨k, ?_⟩)
        simp only [setCaller, Function.update_of_ne hki]
        exact hk
    · rw [habsent] at howner
      cases howner
  · exact fun howner => absurd habsent howner
  · exact fun howner => absurd habsent howner

omit [Floating D] [Floating F] [FloatCast D F] [DecidableEq ι] [DecidableEq F] in
theorem not_live_of_joinable {job : Option ℕ} (h : s.Joinable job) {w : ℕ}
    {worker : Worker D F} (hw : s.workers[w]? = some worker) (hlive : worker.live = true) :
    job ≠ some w := by
  rintro rfl
  have hfinished := h w rfl
  rw [hw] at hfinished
  cases hfinished
  cases hlive

omit [Floating D] [Floating F] [FloatCast D F] [DecidableEq F] in
theorem Inv.go (h : s.Inv) {i : ι} (hi : s.callers i ≠ .idle ∨ s.owner = .absent)
    (hheld : (s.callers i).held = none) (caller : Caller) : (s.setCaller i caller).Inv := by
  refine h.move hi fun w worker _ _ hw => ?_
  rw [hheld] at hw
  exact hw.imp_right nofun

omit [Floating D] [Floating F] [FloatCast D F] [DecidableEq F] in
theorem Inv.join (h : s.Inv) {i : ι} (hi : s.callers i ≠ .idle)
    (hjoin : s.Joinable (s.callers i).held) (caller : Caller) : (s.setCaller i caller).Inv :=
  h.move (.inl hi) fun _ _ hw hlive hheld =>
    .inl (hheld.resolve_right (not_live_of_joinable hjoin hw hlive))

omit [Floating D] [Floating F] [FloatCast D F] [DecidableEq F] in
theorem Inv.take (h : s.Inv) {i : ι} (hi : s.callers i ≠ .idle ∨ s.owner = .absent)
    (hheld : (s.callers i).held = none) {caller : Caller} (hcaller : caller.held = s.job) :
    Inv { s.setCaller i caller with job := none } := by
  refine h.move hi fun w worker _ _ hw => ?_
  rw [hheld] at hw
  exact .inr (hcaller.trans (hw.resolve_right nofun))

omit [Floating D] [Floating F] [FloatCast D F] [DecidableEq F] in
/-- A caller spawns a worker and has its handle. -/
theorem Inv.spawn (h : s.Inv) {i : ι} (hi : s.callers i = .spawning) :
    Inv { s.setCaller i (.spawned s.workers.length) with workers := s.workers ++ [.spawned] } := by
  have habsent : s.owner = .absent := by
    by_contra hne
    rw [h.alone hne i] at hi
    cases hi
  have hheld : (s.callers i).held = none := by rw [hi]; rfl
  have hgo := h.go (.inr habsent) hheld (.spawned s.workers.length)
  refine ⟨h.covered, ?_, ?_, hgo.alone, hgo.slot⟩
  · intro built hbuilt
    rcases List.mem_append.1 hbuilt with hold | hnew
    · exact h.full built hold
    · cases List.mem_singleton.1 hnew
  · intro w worker hw hlive
    by_cases hlt : w < s.workers.length
    · exact hgo.held w worker (List.getElem?_append_left hlt ▸ hw) hlive
    · have hlength := (List.getElem?_eq_some_iff.1 hw).1
      rw [List.length_append, List.length_singleton] at hlength
      obtain rfl : w = s.workers.length := by omega
      refine .inr (.inl ⟨i, ?_⟩)
      simp only [setCaller, Function.update_self]
      rfl

omit [Floating D] [Floating F] [FloatCast D F] [DecidableEq ι] [DecidableEq F] in
theorem Inv.setWorker (h : s.Inv) {w : ℕ} {worker worker' : Worker D F}
    (hw : s.workers[w]? = some worker) (hlive : worker.live = true)
    (hfull : ∀ built, worker' = .built (some built) → Full s.data built) :
    Inv { s with workers := s.workers.set w worker' } := by
  refine ⟨h.covered, ?_, ?_, h.alone, h.slot⟩
  · intro built hbuilt
    rcases List.mem_or_eq_of_mem_set hbuilt with hold | hnew
    · exact h.full built hold
    · exact hfull built hnew.symm
  · intro v u hu hulive
    by_cases hv : w = v
    · subst hv
      exact h.held w worker hw hlive
    · rw [List.getElem?_set_ne hv] at hu
      exact h.held v u hu hulive

omit [Floating D] [Floating F] [FloatCast D F] [DecidableEq ι] [DecidableEq F] in
theorem Inv.own (h : s.Inv) (ho : s.owner = .working) {data : BpannBackend D F}
    (hc : data.Covered) : Inv { s with data } where
  covered := hc
  full built hbuilt := by
    have hlive := h.finished ho _ hbuilt
    cases hlive
  held := h.held
  alone := h.alone
  slot := h.slot

omit [Floating D] [Floating F] [FloatCast D F] [DecidableEq ι] [DecidableEq F] in
theorem inv_new {data : BpannBackend D F} (h : data.Covered) :
    Inv (new data : FlushSystem ι D F) where
  covered := h
  full := by rintro built ⟨⟩
  held := by rintro w worker ⟨⟩
  alone hne := absurd rfl hne
  slot hne := absurd rfl hne

/-- Every step keeps the invariant, and what is indexed stays so unless the index is reset. -/
theorem Inv.step (h : s.Inv) {action : FlushAction D} (hstep : Step s action s') :
    s'.Inv ∧ (action ≠ .markStale → s.data.index.indexedRows ≤ s'.data.index.indexedRows) := by
  have busy {i : ι} {caller : Caller} (hi : s.callers i = caller) (hne : caller ≠ .idle) :
      s.callers i ≠ .idle := by rwa [hi]
  have none {i : ι} {caller : Caller} (hi : s.callers i = caller) (hne : caller.held = none) :
      (s.callers i).held = none := by rwa [hi]
  cases hstep with
  | schedule hi ho => exact ⟨h.go (.inr ho) (none hi rfl) _, fun _ => le_rfl⟩
  | hardCap hi hle => exact ⟨h.take (.inl (busy hi nofun)) (none hi rfl) rfl, fun _ => le_rfl⟩
  | hardJoined hi hjoin =>
    exact ⟨h.join (busy hi nofun) (by rwa [hi]) _, fun _ => le_rfl⟩
  | hardDrained hi hlt => exact ⟨h.go (.inl (busy hi nofun)) (none hi rfl) _, fun _ => le_rfl⟩
  | hardNothing env hi hle hbuild =>
    obtain ⟨hc, hlen, hindex, -⟩ := covered_softSyncBuild h.covered hbuild
    refine ⟨(h.go (.inl (busy hi nofun)) (none hi rfl) _).withData hc hlen, fun _ => ?_⟩
    rw [hindex]
  | hardFlush env hi hle hbuild =>
    obtain ⟨hc, hlen, hindex, hfull⟩ := covered_softSyncBuild h.covered hbuild
    obtain ⟨hcovers, hrows⟩ := hfull _ rfl
    have hpublished := covered_softSyncPublish hc ⟨hcovers, hrows.trans hlen.symm⟩
    exact ⟨(h.go (.inl (busy hi nofun)) (none hi rfl) _).withData hpublished hlen,
      fun _ => h.covered.indexed_le.trans hrows.ge⟩
  | slotTaken hi hnot hjob =>
    exact ⟨h.go (.inl (busy hi nofun)) (none hi rfl) _, fun _ => le_rfl⟩
  | notEnough hi hnot hjob hfew =>
    exact ⟨h.go (.inl (busy hi nofun)) (none hi rfl) _, fun _ => le_rfl⟩
  | slotFree hi hlt hjob hle =>
    exact ⟨h.go (.inl (busy hi nofun)) (none hi rfl) _, fun _ => le_rfl⟩
  | spawn hi => exact ⟨h.spawn hi, fun _ => le_rfl⟩
  | install hi hjob =>
    refine ⟨h.move (.inl (busy hi nofun)) fun w worker _ _ hheld => ?_, fun _ => le_rfl⟩
    rw [hi, hjob] at hheld
    exact .inl (hheld.resolve_left nofun)
  | spare hi hjob =>
    refine ⟨h.move (.inl (busy hi nofun)) fun w worker _ _ hheld => ?_, fun _ => le_rfl⟩
    rw [hi] at hheld
    exact hheld
  | spareJoined hi hjoin =>
    exact ⟨h.join (busy hi nofun) (by rwa [hi]) _, fun _ => le_rfl⟩
  | wait hi ho => exact ⟨h.take (.inr ho) (none hi rfl) rfl, fun _ => le_rfl⟩
  | waited hi hjoin =>
    exact ⟨h.join (busy hi nofun) (by rwa [hi]) _, fun _ => le_rfl⟩
  | search t queries searchK excludeNearest hi ho =>
    obtain ⟨hc, hlen, hindex⟩ := covered_search h.covered t queries searchK excludeNearest
    refine ⟨h.withData hc hlen, fun _ => ?_⟩
    rw [hindex]
  | build env hw hbuild =>
    obtain ⟨hc, hlen, hindex, hfull⟩ := covered_softSyncBuild h.covered hbuild
    refine ⟨(h.withData hc hlen).setWorker hw rfl ?_, fun _ => ?_⟩
    · rintro built ⟨⟩
      obtain ⟨hcovers, hrows⟩ := hfull built rfl
      exact ⟨hcovers, hrows.trans hlen.symm⟩
    · rw [hindex]
  | publish hw =>
    have hfull := h.full _ (List.mem_iff_getElem?.2 ⟨_, hw⟩)
    refine ⟨(h.withData (covered_softSyncPublish h.covered hfull) rfl).setWorker hw rfl nofun,
      fun _ => ?_⟩
    exact h.covered.indexed_le.trans hfull.2.ge
  | publishNothing hw => exact ⟨h.setWorker hw rfl nofun, fun _ => le_rfl⟩
  | own ho hidle =>
    refine ⟨⟨h.covered, h.full, fun w worker hw hlive => ?_, fun _ => hidle, fun _ => rfl⟩,
      fun _ => le_rfl⟩
    rcases h.held w worker hw hlive with hjob | hcaller | howner
    · exact .inr (.inr hjob)
    · exact .inr (.inl hcaller)
    · rw [ho] at howner
      cases howner
  | owned ho hjoin =>
    have hne : s.owner ≠ .absent := by rw [ho]; nofun
    refine ⟨⟨h.covered, h.full, fun w worker hw hlive => ?_, fun _ => h.alone hne,
      fun _ => h.slot hne⟩, fun _ => le_rfl⟩
    rcases h.held w worker hw hlive with hjob | hcaller | howner
    · exact .inl hjob
    · exact .inr (.inl hcaller)
    · rw [ho] at howner
      exact absurd howner (not_live_of_joinable hjoin hw hlive)
  | append env x y yvar ho happend =>
    exact ⟨h.own ho (BpannBackend.covered_appendRows h.covered happend),
      fun _ => indexedRows_le_appendRows h.covered happend⟩
  | persist env ho hpersist =>
    exact ⟨h.own ho (BpannBackend.covered_persistIndexToDisk h.covered hpersist),
      fun _ => indexedRows_le_persist h.covered hpersist⟩
  | markStale ho =>
    exact ⟨h.own ho (BpannBackend.covered_resetIndex h.covered), fun hne => absurd rfl hne⟩
  | leave ho =>
    refine ⟨⟨h.covered, h.full, fun w worker hw hlive => ?_, fun hne => absurd rfl hne,
      fun hne => absurd rfl hne⟩, fun _ => le_rfl⟩
    have hended := h.finished ho worker (List.mem_iff_getElem?.2 ⟨w, hw⟩)
    rw [hlive] at hended
    cases hended

end Invariant

section Runs

/-- Give a backend flush thresholds, as its constructors and setters do. -/
def configured (b : BpannBackend D F) (soft hard : ℕ) (defer : Bool) : BpannBackend D F :=
  { b with
    pendingFlushThreshold := soft
    pendingHardFlushThreshold := hard
    deferAppendIndexing := defer }

/-- The states that any interleaving of the threads leads to. -/
inductive Reachable : FlushSystem ι D F → Prop where
  | new {data : BpannBackend D F} (soft hard : ℕ) (defer : Bool) : data.Reachable →
      Reachable (new (configured data soft hard defer))
  | step {s s' : FlushSystem ι D F} {action : FlushAction D} :
      Reachable s → Step s action s' → Reachable s'

theorem Reachable.inv {s : FlushSystem ι D F} (h : s.Reachable) : s.Inv := by
  induction h with
  | new soft hard defer h =>
    have hc := h.covered
    exact inv_new { hc with }
  | step _ hstep ih => exact (ih.step hstep).1

/--
In every state the index lists the indexed rows once each and the others are
pending. The owner finds no worker between its build and its publish, and what is
indexed stays indexed unless a new input scale resets the index.
-/
theorem flush_keeps_rows {s : FlushSystem ι D F} (h : s.Reachable) :
    s.data.Coverage ∧ ∀ (action : FlushAction D) (s' : FlushSystem ι D F), Step s action s' →
      (action.ofOwner = true → ∀ result, Worker.built result ∉ s.workers) ∧
        (action ≠ .markStale → s.data.indexedRows ≤ s'.data.indexedRows) := by
  refine ⟨h.inv.covered.coverage, fun action s' hstep => ⟨fun howner result hresult => ?_,
    (h.inv.step hstep).2⟩⟩
  have hworking : s.owner = .working := by
    cases hstep with
    | append env x y yvar ho => exact ho
    | persist env ho => exact ho
    | markStale ho => exact ho
    | _ => cases howner
  have hlive := h.inv.finished hworking _ hresult
  cases hlive

/-- A handle over two rows, with a caller about to schedule a flush. -/
theorem flush_keeps_two_rows :
    ∃ s : FlushSystem Bool ℚ ℚ, s.callers true = .scheduling true 2 1 4 ∧ s.data.len = 2 ∧
      s.data.Coverage ∧ ∀ (action : FlushAction ℚ) (s' : FlushSystem Bool ℚ ℚ), Step s action s' →
        (action.ofOwner = true → ∀ result, Worker.built result ∉ s.workers) ∧
          (action ≠ .markStale → s.data.indexedRows ≤ s'.data.indexedRows) :=
  ⟨_, rfl, rfl, flush_keeps_rows
    (.step
      (.new 1 4 true (.new defaultEnv (.column [0, 1]) (.column [0, 1]) none false [1]
        (by decide) rfl))
      (.schedule (i := true) rfl rfl))⟩

end Runs

end FlushSystem

end Ennbo
