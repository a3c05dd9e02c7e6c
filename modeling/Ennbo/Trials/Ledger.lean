import Ennbo.Trials.Commands

/-! # Live rows are never overwritten

The ledger knows rows but no slots: the base row, the rows and values of the
history and the row of the pending trial. Along every run of single-region calls
the slots of the search hold what the ledger says they must.
-/

namespace Ennbo.Trials

variable {F : Type} [TrialFloat F]

structure Ledger (F : Type) where
  leaves : List (Leaf F)
  rowBytes : ℕ
  capacity : ℕ
  base : Row
  history : List (Row × F)
  pending : Option Row

namespace Ledger

/-- The ledger of a new search. -/
def new (base : Row) (baseValue : F) (leaves : List (Leaf F)) (capacity : ℕ) : Ledger F :=
  { leaves, rowBytes := base.length, capacity, base, history := [(base, baseValue)],
    pending := none }

variable (l : Ledger F)

def propose (length : F) (seed : UInt64) : Ledger F :=
  { l with pending := some (materialize l.base l.leaves (makeSteps l.leaves length) seed) }

/-- The oldest record is evicted once the history is full. -/
def tell (value : F) (accept : Bool) : Ledger F :=
  match l.pending with
  | none => l
  | some row =>
    { l with
      base := if accept then row else l.base
      history := (if l.history.length = l.capacity then l.history.drop 1 else l.history) ++
        [(row, value)]
      pending := none }

/-- Whether the history may be replaced by `n` rows. -/
def replaces (n : ℕ) : Bool := l.pending.isNone && decide (0 < n ∧ n ≤ l.capacity)

/-- What a call that ended with an answer does to the ledger. -/
def step (command : Command F) (answer : Except String (Answer F)) : Ledger F :=
  match command, answer with
  | .ask _ config, .ok (.trial trial) => l.propose config.length trial.seed
  | .askLazy _ config, .ok (.trial trial) => l.propose config.length trial.seed
  | .tell _ value accept, .ok _ => l.tell value accept
  | .replaceHistory rows values, .ok _ =>
    { l with history := Search.supplied l.rowBytes rows values }
  | .replaceIndexedHistory observations resolve, _ =>
    if l.replaces observations.length then
      { l with history := Search.resolved resolve l.rowBytes observations 0 }
    else l
  | _, _ => l

end Ledger

namespace Search

def pendingRow (s : Search F Cpu) (pending : Pending F) : Row :=
  materialize (s.engine.read s.base) s.leaves (makeSteps s.leaves pending.length) pending.seed

/-- The slots of the search hold what the ledger says. -/
structure Records (s : Search F Cpu) (l : Ledger F) : Prop where
  leaves : s.leaves = l.leaves
  rowBytes : s.rowBytes = l.rowBytes
  capacity : s.capacity = l.capacity
  base : s.engine.read s.base = l.base
  history : s.observations = l.history
  pending : s.pending.map s.pendingRow = l.pending
  materialized : ∀ pending ∈ s.pending, pending.materialized = true →
    s.engine.read pending.slot = s.pendingRow pending

section Records

variable {s : Search F Cpu} {l : Ledger F}

theorem Records.settle (hs : s.SlotsOk) (h : Records s l) : Records s.settle l := by
  cases hp : s.pending with
  | none =>
    rw [Search.settle, hp]
    exact h
  | some pending =>
    rw [s.settle_of_pending hp]
    split
    next => exact h
    next =>
      have hlt := hs.pending_lt pending hp
      have hbase : (s.filled pending).engine.read s.base = s.engine.read s.base :=
        Cpu.read_materialize_of_ne hs.fits hs.base_lt hlt (hs.pending_ne_base pending hp)
      have hrow : ∀ p, (s.filled pending).pendingRow p = s.pendingRow p := by
        intro p
        exact congrArg (fun row => materialize row s.leaves (makeSteps s.leaves p.length) p.seed)
          hbase
      have hhistory : (s.filled pending).observations = s.observations := by
        refine observations_congr rfl fun record hrecord => ?_
        exact Cpu.read_materialize_of_ne hs.fits hs.base_lt hlt
          (hs.pending_ne pending hp record hrecord)
      refine ⟨h.leaves, h.rowBytes, h.capacity, hbase.trans h.base, hhistory.trans h.history,
        ?_, ?_⟩
      · rw [← h.pending, hp]
        exact congrArg some (hrow _)
      · rintro _ ⟨⟩ -
        rw [hrow]
        exact Cpu.read_materialize_self hs.fits hs.base_lt hlt

theorem Records.proposed (h : Records s l) {slot : ℕ} (seeds : List UInt64) (config : Ask F) :
    Records (s.proposed slot seeds config)
      (l.propose config.length (s.chosen seeds config).seed) := by
  refine ⟨h.leaves, h.rowBytes, h.capacity, h.base, h.history, ?_, ?_⟩
  · rw [Ledger.propose, ← h.base, ← h.leaves]
    rfl
  · rintro _ ⟨⟩ ⟨⟩

theorem Records.record (h : Records s l) {pending : Pending F}
    (hp : s.pending = some pending) (hm : pending.materialized = true) (value : F)
    (accept : Bool) : Records (s.record pending value accept) (l.tell value accept) := by
  have hrow := h.materialized pending hp hm
  have hpending : l.pending = some (s.pendingRow pending) := by
    rw [← h.pending, hp, Option.map_some]
  have hlen : s.history.length = l.history.length := by
    rw [← h.history, observations, List.length_map]
  rw [Ledger.tell, hpending]
  refine ⟨h.leaves, h.rowBytes, h.capacity, ?_, ?_, rfl, ?_⟩
  · cases accept with
    | true => exact hrow
    | false => exact h.base
  · simp only [observations, Search.record, List.map_append, List.map_cons, List.map_nil, hrow,
      hlen, h.capacity]
    congr 1
    rw [← h.history, observations]
    split
    · exact List.map_drop
    · rfl
  · rintro _ ⟨⟩

theorem Records.loaded (hs : s.SlotsOk) (h : Records s l) (hp : s.pending = none) {n : ℕ}
    {rows : List (Row × F)} (hlen : rows.length ≤ (s.replacementSlots n).length)
    (hrows : ∀ p ∈ rows, p.1.length = s.rowBytes) :
    Records (s.loaded (s.replacementSlots n) rows) { l with history := rows } := by
  have hnone : l.pending = none := by rw [← h.pending, hp, Option.map_none]
  refine ⟨h.leaves, h.rowBytes, h.capacity, (hs.read_base_loaded hrows).trans h.base,
    hs.observations_loaded hlen hrows, ?_, ?_⟩
  · simp only [Search.loaded, hp, hnone, Option.map_none]
  · intro pending hpending
    rw [Search.loaded, hp] at hpending
    cases hpending

theorem Records.askWithMaterialization (hs : s.SlotsOk) (h : Records s l) (seeds : List UInt64)
    (config : Ask F) (m : Bool) {command : Command F}
    (hstep : ∀ trial, l.step command (.ok (.trial trial)) = l.propose config.length trial.seed)
    (herror : ∀ e, l.step command (.error e) = l) :
    Records (s.askWithMaterialization seeds config m).2
      (l.step command (Answer.wrap .trial (s.askWithMaterialization seeds config m)).1) := by
  simp only [Answer.wrap, askWithMaterialization_eq]
  cases hslot : s.askSlot seeds config with
  | error e =>
    rw [Except.map, herror]
    exact h
  | ok slot =>
    rw [Except.map, hstep]
    have hp : Records (s.proposed slot seeds config) _ := h.proposed seeds config
    cases m with
    | false => exact hp
    | true => exact hp.settle (hs.proposed (askSlot_eq_ok hslot).2.2 seeds config)

/-- One call, other than a batch of regions around the base, keeps the ledger's account. -/
theorem Records.run (hs : s.SlotsOk) (h : Records s l) {command : Command F}
    (hc : ∀ n k seeds config, command ≠ .askMultiTr n k seeds config) :
    Records (command.run s).2 (l.step command (command.run s).1) := by
  cases command with
  | ask seeds config =>
    exact h.askWithMaterialization hs seeds config true (fun _ => rfl) fun _ => rfl
  | askLazy seeds config =>
    exact h.askWithMaterialization hs seeds config false (fun _ => rfl) fun _ => rfl
  | askMultiTr n k seeds config => exact absurd rfl (hc n k seeds config)
  | askMultiTrTree n k centers regionCenters seeds config =>
    simp only [Command.run, Answer.wrap, askMultiTrTree_snd, Ledger.step]
    exact h
  | materializePending trial =>
    simp only [Command.run, Answer.wrap, materializePending_eq, Ledger.step]
    cases s.pendingFor trial with
    | error e => exact h
    | ok pending => exact h.settle hs
  | tell trial value accept =>
    simp only [Command.run, Answer.wrap, tell_eq]
    split
    · exact h
    · cases hfor : s.pendingFor trial with
      | error e => exact h
      | ok pending =>
        exact (h.settle hs).record (s.pending_settle (s.pendingFor_eq_ok.1 hfor).1) rfl value
          accept
  | replaceHistory rows values =>
    simp only [Command.run, Answer.wrap]
    rcases s.replaceHistory_cases rows values with ⟨e, he⟩ | ⟨hcheck, hlen, hslots, heq⟩
    · rw [he]
      exact h
    · rw [h.rowBytes] at hlen heq
      have hrows : ∀ p ∈ supplied l.rowBytes rows values, p.1.length = s.rowBytes := by
        rw [h.rowBytes]
        exact length_of_mem_supplied hlen
      rw [heq]
      exact h.loaded hs (s.checkReplacement_eq_ok hcheck).1
        ((length_supplied _ _ _).trans hslots.symm).le hrows
  | replaceIndexedHistory observations resolve =>
    simp only [Command.run, Answer.wrap, Ledger.step]
    have hreplaces : l.replaces observations.length =
        (s.pending.isNone && decide (0 < observations.length ∧ observations.length ≤ s.capacity)) := by
      rw [Ledger.replaces, ← h.pending, Option.isNone_map, h.capacity]
    rw [hreplaces]
    rcases hs.replaceIndexedHistory_cases observations resolve with
      ⟨e, hcheck, he⟩ | ⟨hcheck, heq⟩
    · rw [he, if_neg]
      · exact h
      · intro hallowed
        rw [Bool.and_eq_true, decide_eq_true_eq, Option.isNone_iff_eq_none] at hallowed
        obtain ⟨hp, hpos, hle⟩ := hallowed
        rw [checkReplacement, if_neg (by simp [hp]), if_neg hpos.ne', if_neg hle.not_gt] at hcheck
        cases hcheck
    · obtain ⟨hp, hpos, hn⟩ := s.checkReplacement_eq_ok hcheck
      have hslots := hs.length_replacementSlots hn
      rw [h.rowBytes] at heq
      have hrows : ∀ p ∈ resolved resolve l.rowBytes observations 0,
          p.1.length = s.rowBytes := by
        rw [h.rowBytes]
        exact length_of_mem_resolved
      rw [heq, if_pos (by simp [hp, hpos, hn])]
      exact h.loaded hs hp ((length_resolved_le _ _ _ _).trans hslots.symm.le) hrows

end Records

/--
A search and the ledger of the calls made on it, other than asks for a batch of
regions around the base.
-/
inductive Recorded : Search F Cpu → Ledger F → Prop
  | new {base : Row} {baseValue : F} {leaves : List (Leaf F)} {capacity : ℕ} {s : Search F Cpu} :
      Search.new base baseValue leaves capacity = .ok s →
      Recorded s (.new base baseValue leaves capacity)
  | run {s : Search F Cpu} {l : Ledger F} (command : Command F) :
      (∀ n k seeds config, command ≠ .askMultiTr n k seeds config) → Recorded s l →
      Recorded (command.run s).2 (l.step command (command.run s).1)

theorem records_new {base : Row} {baseValue : F} {leaves : List (Leaf F)} {capacity : ℕ}
    {s : Search F Cpu} (h : Search.new base baseValue leaves capacity = .ok s) :
    Records s (.new base baseValue leaves capacity) := by
  obtain ⟨-, rfl⟩ := new_eq_ok h
  refine ⟨rfl, rfl, rfl, read_base_new _ _, ?_, rfl, ?_⟩
  · rw [observations, List.map_singleton, read_base_new]
    rfl
  · rintro pending ⟨⟩

theorem Recorded.records {s : Search F Cpu} {l : Ledger F} (h : Recorded s l) :
    s.SlotsOk ∧ Records s l := by
  induction h with
  | new h => exact ⟨slotsOk_new h, records_new h⟩
  | run command hc _ ih => exact ⟨ih.1.run command, ih.2.run ih.1 hc⟩

/--
In every state a search reaches, its live rows are in slots of their own, a free
slot is left for the next ask, and each live row has the bytes it came with.
-/
theorem live_rows_kept {s : Search F Cpu} {l : Ledger F} (h : Recorded s l) :
    s.history.length ≤ s.capacity ∧ (s.history.map Record.slot).Nodup ∧
      (s.pending = none → s.freeSlot.isSome = true) ∧
      s.engine.read s.base = l.base ∧
      s.history.map (fun record => (s.engine.read record.slot, record.value)) = l.history := by
  obtain ⟨hs, hr⟩ := h.records
  exact ⟨hs.length_le, hs.nodup, hs.exists_freeSlot, hr.base, hr.history⟩

/-- A trial is asked for and told. -/
def oneByteTold : Search ℚ Cpu :=
  ((Command.tell (oneByteSearch.chosen [5] oneByteAsk) 1 true).run
    ((Command.ask [5] oneByteAsk).run oneByteSearch).2).2

theorem live_rows_kept_oneByte :
    oneByteTold.history.length ≤ oneByteTold.capacity ∧
      (oneByteTold.history.map Record.slot).Nodup ∧
      (oneByteTold.pending = none → oneByteTold.freeSlot.isSome = true) ∧
      oneByteTold.engine.read oneByteTold.base = [101] ∧
      oneByteTold.history.map (fun record =>
        (oneByteTold.engine.read record.slot, record.value)) = [([100], 0), ([101], 1)] := by
  have hkept := live_rows_kept (.run (.tell (oneByteSearch.chosen [5] oneByteAsk) 1 true) (by nofun)
    (.run (.ask [5] oneByteAsk) (by nofun) (.new new_oneByte)))
  refine ⟨hkept.1, hkept.2.1, hkept.2.2.1, hkept.2.2.2.1.trans ?_, hkept.2.2.2.2.trans ?_⟩
  · decide +kernel
  · decide +kernel

end Search

end Ennbo.Trials
