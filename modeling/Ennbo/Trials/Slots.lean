import Ennbo.Trials.Search
import Mathlib.Data.List.Nodup
import Mathlib.Data.List.Perm.Subperm

/-! # The slots of a search

On the CPU engine every call of the search is one of a few changes of its state.
All of them keep the slots of the base, of the records and of the pending trial
apart.
-/

namespace Ennbo.Trials

namespace Cpu

/-- The engine holds `n` rows. -/
def Fits (engine : Cpu) (n : ℕ) : Prop := Buffer.Holds engine.rowBytes n engine.rows

def writeAll (engine : Cpu) (writes : List (ℕ × Row)) : Cpu :=
  writes.foldl (fun engine p => engine.write p.1 p.2) engine

section Write

variable {engine : Cpu} {n slot slot' : ℕ} {row : Row} {writes : List (ℕ × Row)}

@[simp] theorem rowBytes_write : (engine.write slot row).rowBytes = engine.rowBytes := rfl

theorem length_read (h : engine.Fits n) (hslot : slot < n) :
    (engine.read slot).length = engine.rowBytes := Buffer.length_row h hslot

theorem Fits.write (h : engine.Fits n) (hslot : slot < n) (hrow : row.length = engine.rowBytes) :
    (engine.write slot row).Fits n := Buffer.Holds.setRow h hslot hrow

theorem read_write_self (h : engine.Fits n) (hslot : slot < n)
    (hrow : row.length = engine.rowBytes) : (engine.write slot row).read slot = row :=
  Buffer.row_setRow_self h hslot hrow

theorem read_write_of_ne (h : engine.Fits n) (hslot : slot < n)
    (hrow : row.length = engine.rowBytes) (hne : slot ≠ slot') :
    (engine.write slot row).read slot' = engine.read slot' :=
  Buffer.row_setRow_of_ne h hslot hrow hne

theorem write_read : engine.write slot (engine.read slot) = engine := by
  rw [write, read, Buffer.setRow_row]

def Fitting (engine : Cpu) (n : ℕ) (writes : List (ℕ × Row)) : Prop :=
  ∀ p ∈ writes, p.1 < n ∧ p.2.length = engine.rowBytes

@[simp] theorem rowBytes_writeAll : (engine.writeAll writes).rowBytes = engine.rowBytes := by
  induction writes generalizing engine with
  | nil => rfl
  | cons p writes ih => exact ih.trans rowBytes_write

theorem Fits.writeAll (h : engine.Fits n) (hw : engine.Fitting n writes) :
    (engine.writeAll writes).Fits n := by
  induction writes generalizing engine with
  | nil => exact h
  | cons p writes ih =>
    obtain ⟨hp, hw⟩ := List.forall_mem_cons.1 hw
    exact ih (h.write hp.1 hp.2) hw

theorem read_writeAll_of_notMem (h : engine.Fits n) (hw : engine.Fitting n writes)
    (hslot : slot ∉ writes.map Prod.fst) : (engine.writeAll writes).read slot = engine.read slot := by
  induction writes generalizing engine with
  | nil => rfl
  | cons p writes ih =>
    obtain ⟨hp, hw⟩ := List.forall_mem_cons.1 hw
    rw [List.map_cons, List.mem_cons, not_or] at hslot
    have hread := ih (h.write hp.1 hp.2) hw hslot.2
    exact hread.trans (read_write_of_ne h hp.1 hp.2 (Ne.symm hslot.1))

theorem map_read_writeAll (h : engine.Fits n) (hw : engine.Fitting n writes)
    (hnodup : (writes.map Prod.fst).Nodup) :
    writes.map (fun p => (engine.writeAll writes).read p.1) = writes.map Prod.snd := by
  induction writes generalizing engine with
  | nil => rfl
  | cons p writes ih =>
    obtain ⟨hp, hw⟩ := List.forall_mem_cons.1 hw
    obtain ⟨hnotMem, hnodup⟩ := List.nodup_cons.1 hnodup
    have hfits := h.write hp.1 hp.2
    have hread : (engine.writeAll (p :: writes)).read p.1 = p.2 :=
      (read_writeAll_of_notMem hfits hw hnotMem).trans (read_write_self h hp.1 hp.2)
    rw [List.map_cons, List.map_cons, hread]
    exact congrArg _ (ih hfits hw hnodup)

end Write

section Engine

variable {F : Type} [TrialFloat F] {engine : Cpu} {n baseSlot trialSlot : ℕ} {seed : UInt64}
  {leaves : List (Leaf F)} {length : F}

@[simp] theorem rowBytes_materialize :
    (engine.materialize baseSlot trialSlot seed leaves length).rowBytes = engine.rowBytes := rfl

theorem Fits.materialize (h : engine.Fits n) (hbase : baseSlot < n) (htrial : trialSlot < n) :
    (engine.materialize baseSlot trialSlot seed leaves length).Fits n :=
  h.write htrial (by rw [length_materialize, length_read h hbase])

theorem read_materialize_self (h : engine.Fits n) (hbase : baseSlot < n)
    (htrial : trialSlot < n) :
    (engine.materialize baseSlot trialSlot seed leaves length).read trialSlot =
      Trials.materialize (engine.read baseSlot) leaves (makeSteps leaves length) seed :=
  read_write_self h htrial (by rw [length_materialize, length_read h hbase])

theorem read_materialize_of_ne (h : engine.Fits n) (hbase : baseSlot < n)
    (htrial : trialSlot < n) {slot : ℕ} (hne : trialSlot ≠ slot) :
    (engine.materialize baseSlot trialSlot seed leaves length).read slot = engine.read slot :=
  read_write_of_ne h htrial (by rw [length_materialize, length_read h hbase]) hne

end Engine

end Cpu

namespace Search

variable {F : Type} [TrialFloat F]

section Changes

variable (s : Search F Cpu)

def observations : List (Row × F) :=
  s.history.map fun record => (s.engine.read record.slot, record.value)

def winner (seeds : List UInt64) (config : Ask F) : ℕ × F :=
  askRows (s.engine.read s.base) s.observations seeds s.leaves config

/-- The slot an ask takes, unless it is refused. -/
def askSlot (seeds : List UInt64) (config : Ask F) : Except String ℕ :=
  if s.pending.isSome then .error "tell must finish the pending trial before ask"
  else
    match checkAsk seeds s.history.length config with
    | .error e => .error e
    | .ok () =>
      match s.freeSlot with
      | none => .error "no free model slot"
      | some slot => .ok slot

/-- The trial an accepted ask returns. -/
def chosen (seeds : List UInt64) (config : Ask F) : Trial F :=
  { id := s.nextId
    index := (s.winner seeds config).1
    seed := seeds.getD (s.winner seeds config).1 0
    score := (s.winner seeds config).2 }

/-- The state after an accepted lazy ask. -/
def proposed (slot : ℕ) (seeds : List UInt64) (config : Ask F) : Search F Cpu :=
  { s with
    nextId := s.nextId + 1
    pending := some { id := s.nextId, slot, seed := (s.chosen seeds config).seed,
                      length := config.length, materialized := false } }

/-- The state with the row of a pending trial in its slot. -/
def filled (pending : Pending F) : Search F Cpu :=
  { s with
    engine := s.engine.materialize s.base pending.slot pending.seed s.leaves pending.length
    pending := some { pending with materialized := true } }

/-- The state with the row of the pending trial, if there is one, in its slot. -/
def settle : Search F Cpu :=
  match s.pending with
  | none => s
  | some pending => if pending.materialized then s else s.filled pending

/-- The state after new rows took the place of the history. -/
def loaded (slots : List ℕ) (rows : List (Row × F)) : Search F Cpu :=
  { s with
    engine := s.engine.writeAll (slots.zip (rows.map Prod.fst))
    history := (slots.zip (rows.map Prod.snd)).map fun p => ⟨p.1, p.2⟩ }

omit [TrialFloat F] in
theorem observations_eq : s.engine.observations s.observed = s.observations := by
  simp only [Cpu.observations, observed, observations, List.map_map, Function.comp_def]

theorem askWithMaterialization_eq (seeds : List UInt64) (config : Ask F) (m : Bool) :
    s.askWithMaterialization seeds config m =
      match s.askSlot seeds config with
      | .error e => (.error e, s)
      | .ok slot =>
        (.ok (s.chosen seeds config),
          if m then (s.proposed slot seeds config).settle else s.proposed slot seeds config) := by
  rw [askWithMaterialization, askSlot]
  by_cases hp : s.pending.isSome = true
  · rw [if_pos hp, if_pos hp]
  · rw [if_neg hp, if_neg hp]
    cases checkAsk seeds s.history.length config with
    | error e => rfl
    | ok u =>
      cases s.freeSlot with
      | none => rfl
      | some slot =>
        cases m
        · simp only [TrialEngine.ask, Cpu.ask, observations_eq]
          rfl
        · simp only [TrialEngine.ask, Cpu.ask, observations_eq]
          rfl

omit [TrialFloat F] in
theorem pendingFor_eq_ok {trial : Trial F} {pending : Pending F} :
    s.pendingFor trial = .ok pending ↔ s.pending = some pending ∧ pending.id = trial.id := by
  rw [pendingFor]
  cases s.pending with
  | none => simp
  | some p =>
    dsimp only
    split
    next hid =>
      constructor
      · rintro ⟨⟩
        exact ⟨rfl, hid⟩
      · rintro ⟨⟨⟩, -⟩
        rfl
    next hid =>
      constructor
      · rintro ⟨⟩
      · rintro ⟨⟨⟩, h⟩
        exact absurd h hid

theorem settle_of_pending {pending : Pending F} (h : s.pending = some pending) :
    s.settle = if pending.materialized then s else s.filled pending := by
  rw [settle, h]

theorem materializePending_eq (trial : Trial F) :
    s.materializePending trial =
      match s.pendingFor trial with
      | .error e => (.error e, s)
      | .ok _ => (.ok (), s.settle) := by
  rw [materializePending]
  cases hfor : s.pendingFor trial with
  | error e => rfl
  | ok pending =>
    dsimp only
    rw [s.settle_of_pending ((s.pendingFor_eq_ok).1 hfor).1]
    split
    · rfl
    · rfl

theorem pending_settle {pending : Pending F} (h : s.pending = some pending) :
    s.settle.pending = some { pending with materialized := true } := by
  rw [s.settle_of_pending h]
  split
  next hm => rw [h, ← hm]
  next => rfl

theorem tell_eq (trial : Trial F) (value : F) (accept : Bool) :
    s.tell trial value accept =
      if !isFinite value then (.error "trial value must be finite", s)
      else
        match s.pendingFor trial with
        | .error e => (.error e, s)
        | .ok pending => (.ok (), s.settle.record pending value accept) := by
  rw [tell, materializePending_eq]
  split
  · rfl
  · cases hfor : s.pendingFor trial with
    | error e => rfl
    | ok pending =>
      obtain ⟨hp, hid⟩ := (s.pendingFor_eq_ok).1 hfor
      have hfor' : s.settle.pendingFor trial = .ok { pending with materialized := true } :=
        (s.settle.pendingFor_eq_ok).2 ⟨s.pending_settle hp, hid⟩
      dsimp only
      rw [hfor']
      rfl

theorem writeRows_eq (writes : List (ℕ × Row)) (engine : Cpu) :
    writeRows F writes engine = (.ok (), engine.writeAll writes) := by
  induction writes generalizing engine with
  | nil => rfl
  | cons p writes ih =>
    rw [writeRows]
    exact ih _

/-- The rows and values that a caller packs for `replace_history`. -/
def supplied (rowBytes : ℕ) (rows : List UInt8) (values : List F) : List (Row × F) :=
  values.zipIdx.map fun p => (Buffer.row rowBytes rows p.2, p.1)

/-- The rows that a resolver returns before the first one it fails on. -/
def resolved (resolve : ℕ → UInt64 → Except String Row) (rowBytes : ℕ) :
    List (IndexedObservation F) → ℕ → List (Row × F)
  | [], _ => []
  | observation :: observations, calls =>
    match resolve calls observation.id with
    | .error _ => []
    | .ok row =>
      if row.length ≠ rowBytes then []
      else (row, observation.value) :: resolved resolve rowBytes observations (calls + 1)

omit [TrialFloat F] in
theorem length_supplied (rowBytes : ℕ) (rows : List UInt8) (values : List F) :
    (supplied rowBytes rows values).length = values.length := by
  rw [supplied, List.length_map, List.length_zipIdx]

omit [TrialFloat F] in
theorem length_resolved_le (resolve : ℕ → UInt64 → Except String Row) (rowBytes : ℕ)
    (observations : List (IndexedObservation F)) (calls : ℕ) :
    (resolved resolve rowBytes observations calls).length ≤ observations.length := by
  induction observations generalizing calls with
  | nil => exact le_rfl
  | cons observation observations ih =>
    rw [resolved]
    split
    · exact Nat.zero_le _
    · split
      · exact Nat.zero_le _
      · exact Nat.succ_le_succ (ih _)

/-- A replacement that is accepted loads the rows supplied. -/
theorem replaceHistory_cases (rows : List UInt8) (values : List F) :
    (∃ e, s.replaceHistory rows values = (.error e, s)) ∨
      s.checkReplacement values.length = .ok () ∧
      rows.length = values.length * s.rowBytes ∧
      (s.replacementSlots values.length).length = values.length ∧
      s.replaceHistory rows values =
        (.ok (), s.loaded (s.replacementSlots values.length)
          (supplied s.rowBytes rows values)) := by
  rw [replaceHistory]
  cases hcheck : s.checkReplacement values.length with
  | error e => exact .inl ⟨e, rfl⟩
  | ok u =>
    dsimp only
    split
    next => exact .inl ⟨_, rfl⟩
    next =>
      split
      next => exact .inl ⟨_, rfl⟩
      next hrows =>
        split
        next => exact .inl ⟨_, rfl⟩
        next hslots =>
          refine .inr ⟨rfl, not_not.1 hrows, not_not.1 hslots, ?_⟩
          have hwrites : ((s.replacementSlots values.length).zipIdx.map
              fun p => (p.1, Buffer.row s.rowBytes rows p.2)) =
              (s.replacementSlots values.length).zip
                ((supplied s.rowBytes rows values).map Prod.fst) := by
            apply List.ext_getElem
            · simp [length_supplied, not_not.1 hslots]
            · intro i h₁ h₂
              simp [supplied]
          have hvalues : (supplied s.rowBytes rows values).map Prod.snd = values := by
            apply List.ext_getElem
            · simp [length_supplied]
            · intro i h₁ h₂
              simp [supplied]
          rw [writeRows_eq, hwrites, loaded, hvalues]

theorem resolveRows_eq (resolve : ℕ → UInt64 → Except String Row)
    (observations : List (IndexedObservation F)) (slots : List ℕ) (calls : ℕ) :
    (resolveRows resolve (slots.zip observations) calls s).2 =
      { s with
        engine := s.engine.writeAll
          (slots.zip ((resolved resolve s.rowBytes observations calls).map Prod.fst))
        history := s.history ++
          (slots.zip ((resolved resolve s.rowBytes observations calls).map Prod.snd)).map
            fun p => ⟨p.1, p.2⟩ } := by
  induction observations generalizing slots calls s with
  | nil => simp [resolveRows, resolved, Cpu.writeAll]
  | cons observation observations ih =>
    cases slots with
    | nil => simp [resolveRows, Cpu.writeAll]
    | cons slot slots =>
      rw [List.zip_cons_cons, resolveRows, resolved]
      cases resolve calls observation.id with
      | error e => simp [Cpu.writeAll]
      | ok row =>
        dsimp only
        split
        next => simp [Cpu.writeAll]
        next hrow =>
          have h := ih
            { s with
              engine := s.engine.write slot row
              history := s.history ++ [⟨slot, observation.value⟩] }
            slots (calls + 1)
          simp only [List.append_assoc] at h
          exact h

omit [TrialFloat F] in
theorem checkReplacement_eq_ok {n : ℕ} (h : s.checkReplacement n = .ok ()) :
    s.pending = none ∧ 0 < n ∧ n ≤ s.capacity := by
  rw [checkReplacement] at h
  split at h
  · cases h
  next hp =>
    split at h
    · cases h
    next hn =>
      split at h
      · cases h
      next hle =>
        exact ⟨Option.not_isSome_iff_eq_none.1 hp, Nat.pos_of_ne_zero hn, not_lt.1 hle⟩

end Changes

/-- The rows that a search must not lose live in slots of their own. -/
structure SlotsOk (s : Search F Cpu) : Prop where
  fits : s.engine.Fits s.slots
  width : s.engine.rowBytes = s.rowBytes
  slots_eq : s.slots = s.capacity + 2
  capacity_pos : 0 < s.capacity
  length_le : s.history.length ≤ s.capacity
  nodup : (s.history.map Record.slot).Nodup
  base_lt : s.base < s.slots
  history_lt : ∀ record ∈ s.history, record.slot < s.slots
  pending_lt : ∀ pending ∈ s.pending, pending.slot < s.slots
  pending_ne_base : ∀ pending ∈ s.pending, pending.slot ≠ s.base
  pending_ne : ∀ pending ∈ s.pending, ∀ record ∈ s.history, pending.slot ≠ record.slot

section SlotsOk

variable {s : Search F Cpu}

/-- What an accepted construction builds. -/
theorem new_eq_ok {base : Row} {baseValue : F} {leaves : List (Leaf F)} {capacity : ℕ}
    (h : new base baseValue leaves capacity = .ok s) :
    0 < capacity ∧
      s = { leaves, rowBytes := base.length, capacity, slots := capacity + 2, base := 0,
            history := [{ slot := 0, value := baseValue }], pending := none, nextId := 0,
            engine := Cpu.new base (capacity + 2) } := by
  rw [new] at h
  split at h
  · cases h
  split at h
  · cases h
  next hcap =>
    split at h
    · cases h
    next rowBytes _ =>
      split at h
      · cases h
      next hbase =>
        cases h
        rw [not_or] at hcap
        rw [not_not.1 hbase]
        exact ⟨Nat.pos_of_ne_zero hcap.1, rfl⟩

theorem read_base_new (base : Row) (n : ℕ) : (Cpu.new base n).read 0 = base := by
  simp [Cpu.read, Cpu.new, Buffer.row]

theorem slotsOk_new {base : Row} {baseValue : F} {leaves : List (Leaf F)} {capacity : ℕ}
    (h : new base baseValue leaves capacity = .ok s) : s.SlotsOk := by
  obtain ⟨hcap, rfl⟩ := new_eq_ok h
  have hle : base.length ≤ (capacity + 2) * base.length :=
    Nat.le_mul_of_pos_left _ (Nat.succ_pos _)
  have hfits : (Cpu.new base (capacity + 2)).Fits (capacity + 2) := by
    simp only [Cpu.Fits, Cpu.new, Buffer.Holds, List.length_append, List.length_replicate]
    omega
  refine ⟨hfits, rfl, rfl, hcap, hcap, List.nodup_singleton 0, Nat.succ_pos _, ?_, ?_, ?_, ?_⟩
  · rintro record (_ | ⟨_, ⟨⟩⟩)
    exact Nat.succ_pos _
  all_goals
    rintro pending ⟨⟩

omit [TrialFloat F] in
theorem isFree_iff {slot : ℕ} : s.isFree slot = true ↔ slot ≠ s.base ∧
    (∀ record ∈ s.history, record.slot ≠ slot) ∧ ∀ pending ∈ s.pending, pending.slot ≠ slot := by
  cases hp : s.pending with
  | none => simp [isFree, hp]
  | some pending => simp [isFree, hp, and_assoc]

omit [TrialFloat F] in
theorem freeSlot_eq_some {slot : ℕ} (h : s.freeSlot = some slot) :
    slot < s.slots ∧ s.isFree slot = true :=
  ⟨List.mem_range.1 (List.mem_of_find?_eq_some h), List.find?_some h⟩

omit [TrialFloat F] in
theorem SlotsOk.exists_freeSlot (h : s.SlotsOk) (hp : s.pending = none) :
    s.freeSlot.isSome = true := by
  by_contra hnone
  have hall : ∀ slot ∈ List.range s.slots, slot ∈ s.base :: s.history.map Record.slot := by
    intro slot hslot
    rw [Bool.not_eq_true, Option.isSome_eq_false_iff, Option.isNone_iff_eq_none] at hnone
    have hfree := List.find?_eq_none.1 hnone slot hslot
    rw [isFree_iff, hp] at hfree
    by_contra hmem
    rw [List.mem_cons, not_or, List.mem_map] at hmem
    exact hfree ⟨hmem.1, fun record hr he => hmem.2 ⟨record, hr, he⟩, by rintro p ⟨⟩⟩
  have hlen := (List.Nodup.subperm List.nodup_range hall).length_le
  have h₁ := h.length_le
  have h₂ := h.slots_eq
  simp only [List.length_range, List.length_cons, List.length_map] at hlen
  omega

omit [TrialFloat F] in
theorem mem_replacementSlots {n slot : ℕ} (h : slot ∈ s.replacementSlots n) :
    slot < s.slots ∧ slot ≠ s.base := by
  have hmem := List.mem_of_mem_take h
  rw [List.mem_filter, List.mem_range, bne_iff_ne] at hmem
  exact hmem

omit [TrialFloat F] in
theorem nodup_replacementSlots (n : ℕ) : (s.replacementSlots n).Nodup :=
  (List.Nodup.filter _ List.nodup_range).sublist (List.take_sublist _ _)

theorem SlotsOk.proposed (h : s.SlotsOk) {slot : ℕ} (hslot : s.freeSlot = some slot)
    (seeds : List UInt64) (config : Ask F) : (s.proposed slot seeds config).SlotsOk := by
  obtain ⟨hlt, hfree⟩ := freeSlot_eq_some hslot
  obtain ⟨hbase, hhistory, -⟩ := isFree_iff.1 hfree
  refine { h with pending_lt := ?_, pending_ne_base := ?_, pending_ne := ?_ }
  · rintro pending ⟨⟩
    exact hlt
  · rintro pending ⟨⟩
    exact hbase
  · rintro pending ⟨⟩ record hrecord
    exact (hhistory record hrecord).symm

theorem SlotsOk.settle (h : s.SlotsOk) : s.settle.SlotsOk := by
  rw [Search.settle]
  split
  next => exact h
  next pending hp =>
    split
    next => exact h
    next =>
      refine { h with fits := ?_, pending_lt := ?_, pending_ne_base := ?_, pending_ne := ?_ }
      · exact h.fits.materialize h.base_lt (h.pending_lt pending hp)
      · rintro _ ⟨⟩
        exact h.pending_lt pending hp
      · rintro _ ⟨⟩
        exact h.pending_ne_base pending hp
      · rintro _ ⟨⟩
        exact h.pending_ne pending hp

theorem SlotsOk.read_settle (h : s.SlotsOk) {slot : ℕ}
    (hne : ∀ pending ∈ s.pending, pending.slot ≠ slot) :
    s.settle.engine.read slot = s.engine.read slot := by
  rw [Search.settle]
  split
  next => rfl
  next pending hp =>
    split
    next => rfl
    next =>
      exact Cpu.read_materialize_of_ne h.fits h.base_lt (h.pending_lt pending hp)
        (hne pending hp)

omit [TrialFloat F] in
theorem observations_congr {s' : Search F Cpu} (hh : s'.history = s.history)
    (hr : ∀ record ∈ s.history, s'.engine.read record.slot = s.engine.read record.slot) :
    s'.observations = s.observations := by
  rw [observations, observations, hh]
  apply List.map_congr_left
  intro record hrecord
  rw [hr record hrecord]

theorem mem_of_mem_trim {α : Type} {p : Prop} [Decidable p] {xs : List α} {a : α}
    (h : a ∈ if p then xs.drop 1 else xs) : a ∈ xs := by
  split at h
  · exact List.mem_of_mem_drop h
  · exact h

omit [TrialFloat F] in
theorem SlotsOk.record (h : s.SlotsOk) {pending : Pending F} (hp : s.pending = some pending)
    (value : F) (accept : Bool) : (s.record pending value accept).SlotsOk := by
  have hlen := h.length_le
  have hlt := h.pending_lt pending hp
  have hne := h.pending_ne pending hp
  refine ⟨h.fits, h.width, h.slots_eq, h.capacity_pos, ?_, ?_, ?_, ?_, ?_, ?_, ?_⟩
  · simp only [Search.record, List.length_append, List.length_singleton]
    have hcap := h.capacity_pos
    split
    next hfull =>
      rw [List.length_drop]
      omega
    next => omega
  · simp only [Search.record, List.map_append, List.map_cons, List.map_nil]
    rw [List.nodup_append]
    refine ⟨?_, List.nodup_singleton _, ?_⟩
    · split
      · exact h.nodup.sublist ((List.drop_sublist 1 _).map _)
      · exact h.nodup
    · intro slot hslot slot' hslot'
      obtain ⟨record, hrecord, rfl⟩ := List.mem_map.1 hslot
      rw [List.mem_singleton.1 hslot']
      exact (hne record (mem_of_mem_trim hrecord)).symm
  · simp only [Search.record]
    split
    · exact hlt
    · exact h.base_lt
  · intro record hrecord
    rcases List.mem_append.1 hrecord with hold | hnew
    · exact h.history_lt record (mem_of_mem_trim hold)
    · rw [List.mem_singleton.1 hnew]
      exact hlt
  all_goals
    rintro pending ⟨⟩

omit [TrialFloat F] in
theorem SlotsOk.length_replacementSlots (h : s.SlotsOk) {n : ℕ} (hn : n ≤ s.capacity) :
    (s.replacementSlots n).length = n := by
  have herase := List.length_erase_of_mem (List.mem_range.2 h.base_lt)
  rw [List.Nodup.erase_eq_filter List.nodup_range, List.length_range, h.slots_eq] at herase
  rw [replacementSlots, List.length_take, h.slots_eq, herase]
  omega

theorem SlotsOk.replaceIndexedHistory_cases (h : s.SlotsOk)
    (observations : List (IndexedObservation F)) (resolve : ℕ → UInt64 → Except String Row) :
    (∃ e, s.checkReplacement observations.length = .error e ∧
      s.replaceIndexedHistory observations resolve = (.error e, s)) ∨
    s.checkReplacement observations.length = .ok () ∧
      (s.replaceIndexedHistory observations resolve).2 =
        s.loaded (s.replacementSlots observations.length)
          (resolved resolve s.rowBytes observations 0) := by
  rw [replaceIndexedHistory]
  cases hcheck : s.checkReplacement observations.length with
  | error e => exact .inl ⟨e, rfl, rfl⟩
  | ok u =>
    have hslots := h.length_replacementSlots (s.checkReplacement_eq_ok hcheck).2.2
    refine .inr ⟨rfl, ?_⟩
    dsimp only
    rw [if_neg (not_not.2 hslots), resolveRows_eq, List.nil_append, loaded]

theorem map_fst_zip_sublist {α β : Type} (as : List α) (bs : List β) :
    ((as.zip bs).map Prod.fst).Sublist as := by
  induction as generalizing bs with
  | nil => exact List.Sublist.refl []
  | cons a as ih =>
    cases bs with
    | nil => exact List.nil_sublist _
    | cons b bs => exact (ih bs).cons_cons a

omit [TrialFloat F] in
theorem mem_zip_replacementSlots {n : ℕ} {rows : List Row} {p : ℕ × Row}
    (h : p ∈ (s.replacementSlots n).zip rows) : p.1 < s.slots ∧ p.1 ≠ s.base ∧ p.2 ∈ rows :=
  have hmem := List.of_mem_zip h
  ⟨(mem_replacementSlots hmem.1).1, (mem_replacementSlots hmem.1).2, hmem.2⟩

section Loaded

variable {n : ℕ} {rows : List (Row × F)}

omit [TrialFloat F] in
theorem SlotsOk.fitting (h : s.SlotsOk) (hrows : ∀ p ∈ rows, p.1.length = s.rowBytes) :
    s.engine.Fitting s.slots ((s.replacementSlots n).zip (rows.map Prod.fst)) := by
  intro p hp
  obtain ⟨hlt, -, hrow⟩ := mem_zip_replacementSlots hp
  obtain ⟨q, hq, hqp⟩ := List.mem_map.1 hrow
  refine ⟨hlt, ?_⟩
  rw [← hqp, hrows q hq, h.width]

omit [TrialFloat F] in
theorem SlotsOk.loaded (h : s.SlotsOk) (hp : s.pending = none) (hn : n ≤ s.capacity)
    (hlen : rows.length ≤ n) (hrows : ∀ p ∈ rows, p.1.length = s.rowBytes) :
    (s.loaded (s.replacementSlots n) rows).SlotsOk := by
  have hslots : ∀ {slot : ℕ}, slot ∈ ((s.replacementSlots n).zip (rows.map Prod.snd)).map Prod.fst →
      slot ∈ s.replacementSlots n := by
    intro slot hslot
    obtain ⟨p, hmem, rfl⟩ := List.mem_map.1 hslot
    exact (List.of_mem_zip hmem).1
  have hmap : (s.loaded (s.replacementSlots n) rows).history.map Record.slot =
      ((s.replacementSlots n).zip (rows.map Prod.snd)).map Prod.fst := by
    simp only [Search.loaded, List.map_map, Function.comp_def]
  refine ⟨h.fits.writeAll (h.fitting hrows), ?_, h.slots_eq, h.capacity_pos, ?_, ?_, h.base_lt,
    ?_, ?_, ?_, ?_⟩
  · rw [Search.loaded, Cpu.rowBytes_writeAll, h.width]
  · rw [Search.loaded]
    simp only [List.length_map, List.length_zip]
    exact (min_le_right _ _).trans (hlen.trans hn)
  · rw [hmap]
    exact (nodup_replacementSlots n).sublist (map_fst_zip_sublist _ _)
  · intro record hrecord
    have hmem := hslots (hmap ▸ List.mem_map_of_mem hrecord)
    exact (mem_replacementSlots hmem).1
  all_goals
    intro pending hpending
    rw [Search.loaded, hp] at hpending
    cases hpending

omit [TrialFloat F] in
theorem SlotsOk.read_base_loaded (h : s.SlotsOk) (hrows : ∀ p ∈ rows, p.1.length = s.rowBytes) :
    (s.loaded (s.replacementSlots n) rows).engine.read s.base = s.engine.read s.base := by
  apply Cpu.read_writeAll_of_notMem h.fits (h.fitting hrows)
  intro hmem
  obtain ⟨p, hp, hbase⟩ := List.mem_map.1 hmem
  exact (mem_zip_replacementSlots hp).2.1 hbase

omit [TrialFloat F] in
theorem SlotsOk.observations_loaded (h : s.SlotsOk)
    (hlen : rows.length ≤ (s.replacementSlots n).length)
    (hrows : ∀ p ∈ rows, p.1.length = s.rowBytes) :
    (s.loaded (s.replacementSlots n) rows).observations = rows := by
  have hnodup : (((s.replacementSlots n).zip (rows.map Prod.fst)).map Prod.fst).Nodup :=
    (nodup_replacementSlots n).sublist (map_fst_zip_sublist _ _)
  have hread := Cpu.map_read_writeAll h.fits (h.fitting hrows) hnodup
  rw [List.map_snd_zip (by rwa [List.length_map])] at hread
  apply List.ext_getElem
  · simp [observations, Search.loaded, hlen]
  · intro i h₁ h₂
    have hi := congrArg (·[i]?) hread
    simp only [observations, Search.loaded, List.getElem_map, List.getElem_zip]
    rw [List.getElem?_map, List.getElem?_map, List.getElem?_eq_getElem h₂,
      List.getElem?_eq_getElem (by simp; omega)] at hi
    simp only [Option.map_some, List.getElem_zip, Option.some_inj] at hi
    exact Prod.ext hi rfl

end Loaded

end SlotsOk

section Regions

variable (s : Search F Cpu) (seedsPerRegion : ℕ) (seeds : List UInt64) (config : Ask F)

/-- The winner of one region on an engine. -/
def regionWinner (engine : Cpu) (region : ℕ) : ℕ × F :=
  askRows (engine.read s.base) (engine.observations s.observed)
    (regionSeeds seedsPerRegion seeds region) s.leaves config

/-- The engine after the row of a region's winner went to slot 0. -/
def regionEngine (engine : Cpu) (region : ℕ) : Cpu :=
  engine.materialize s.base 0
    ((regionSeeds seedsPerRegion seeds region).getD
      (s.regionWinner seedsPerRegion seeds config engine region).1 0) s.leaves config.length

/-- The answers to regions taken one after the other. -/
def regionAnswers : List ℕ → Cpu → List (ℕ × F)
  | [], _ => []
  | region :: regions, engine =>
    let winner := s.regionWinner seedsPerRegion seeds config engine region
    (region * seedsPerRegion + winner.1, winner.2) ::
      regionAnswers regions (s.regionEngine seedsPerRegion seeds config engine region)

theorem askRegions_eq (regions : List ℕ) (engine : Cpu) :
    s.askRegions seedsPerRegion seeds config regions engine =
      (.ok (s.regionAnswers seedsPerRegion seeds config regions engine),
        regions.foldl (s.regionEngine seedsPerRegion seeds config) engine) := by
  induction regions generalizing engine with
  | nil => rfl
  | cons region regions ih =>
    have hask : TrialEngine.ask engine s.base s.observed 0
        (regionSeeds seedsPerRegion seeds region) s.leaves config true =
        (.ok (s.regionWinner seedsPerRegion seeds config engine region),
          s.regionEngine seedsPerRegion seeds config engine region) := rfl
    rw [askRegions, hask]
    dsimp only
    rw [ih]
    rfl

theorem askMultiTr_eq (numRegions : ℕ) :
    s.askMultiTr numRegions seedsPerRegion seeds config =
      match s.checkAskMultiTr numRegions seedsPerRegion seeds config with
      | .error e => (.error e, s)
      | .ok () =>
        (.ok (s.regionAnswers seedsPerRegion seeds config (List.range numRegions) s.engine),
          { s with
            engine := (List.range numRegions).foldl
              (s.regionEngine seedsPerRegion seeds config) s.engine }) := by
  unfold askMultiTr
  cases s.checkAskMultiTr numRegions seedsPerRegion seeds config with
  | error e => rfl
  | ok u =>
    have hregions := s.askRegions_eq seedsPerRegion seeds config (List.range numRegions) s.engine
    exact congrArg (fun answer => (answer.1, { s with engine := answer.2 })) hregions

variable {s} {engine : Cpu}

theorem fits_regionEngine (hbase : s.base < s.slots) (h : engine.Fits s.slots) (region : ℕ) :
    (s.regionEngine seedsPerRegion seeds config engine region).Fits s.slots :=
  h.materialize hbase ((Nat.zero_le _).trans_lt hbase)

theorem fits_foldl_regionEngine (hbase : s.base < s.slots) (h : engine.Fits s.slots)
    (seedsPerRegion : ℕ) (seeds : List UInt64) (config : Ask F) (regions : List ℕ) :
    (regions.foldl (s.regionEngine seedsPerRegion seeds config) engine).Fits s.slots ∧
      (regions.foldl (s.regionEngine seedsPerRegion seeds config) engine).rowBytes =
        engine.rowBytes := by
  induction regions generalizing engine with
  | nil => exact ⟨h, rfl⟩
  | cons region regions ih =>
    exact ih (fits_regionEngine seedsPerRegion seeds config hbase h region)

end Regions

end Search

end Ennbo.Trials
