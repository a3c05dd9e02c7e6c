import Ennbo.Trials.Slots

/-! # Runs of a search

The calls that a caller can make on a search, in any order, and the states they
lead to.
-/

namespace Ennbo.Trials

/-- A call on a search, with its arguments. -/
inductive Command (F : Type) where
  | ask (seeds : List UInt64) (config : Ask F)
  | askLazy (seeds : List UInt64) (config : Ask F)
  | askMultiTr (numRegions seedsPerRegion : ℕ) (seeds : List UInt64) (config : Ask F)
  | askMultiTrTree (numRegions seedsPerRegion : ℕ) (centers : List Center)
      (regionCenters : List ℕ) (seeds : List UInt64) (config : Ask F)
  | materializePending (trial : Trial F)
  | tell (trial : Trial F) (value : F) (accept : Bool)
  | replaceHistory (rows : List UInt8) (values : List F)
  | replaceIndexedHistory (observations : List (IndexedObservation F))
      (resolve : ℕ → UInt64 → Except String Row)

/-- What a call returns. -/
inductive Answer (F : Type) where
  | trial (trial : Trial F)
  | regions (results : List (ℕ × F))
  | done

variable {F : Type} [TrialFloat F]

def Answer.wrap {α : Type} (f : α → Answer F) (p : Except String α × Search F Cpu) :
    Except String (Answer F) × Search F Cpu := (p.1.map f, p.2)

def Command.run (command : Command F) (s : Search F Cpu) :
    Except String (Answer F) × Search F Cpu :=
  match command with
  | .ask seeds config => Answer.wrap .trial (s.ask seeds config)
  | .askLazy seeds config => Answer.wrap .trial (s.askLazy seeds config)
  | .askMultiTr numRegions seedsPerRegion seeds config =>
    Answer.wrap .regions (s.askMultiTr numRegions seedsPerRegion seeds config)
  | .askMultiTrTree numRegions seedsPerRegion centers regionCenters seeds config =>
    Answer.wrap .regions
      (s.askMultiTrTree numRegions seedsPerRegion centers regionCenters seeds config)
  | .materializePending trial => Answer.wrap (fun _ => .done) (s.materializePending trial)
  | .tell trial value accept => Answer.wrap (fun _ => .done) (s.tell trial value accept)
  | .replaceHistory rows values => Answer.wrap (fun _ => .done) (s.replaceHistory rows values)
  | .replaceIndexedHistory observations resolve =>
    Answer.wrap (fun _ => .done) (s.replaceIndexedHistory observations resolve)

namespace Search

theorem askSlot_eq_ok {s : Search F Cpu} {seeds : List UInt64} {config : Ask F} {slot : ℕ}
    (h : s.askSlot seeds config = .ok slot) :
    s.pending = none ∧ checkAsk seeds s.history.length config = .ok () ∧
      s.freeSlot = some slot := by
  rw [askSlot] at h
  split at h
  · cases h
  next hp =>
    split at h
    · cases h
    next hcheck =>
      split at h
      · cases h
      next hslot =>
        cases h
        exact ⟨Option.not_isSome_iff_eq_none.1 hp, hcheck, hslot⟩

theorem askMultiTrTree_snd (s : Search F Cpu) (numRegions seedsPerRegion : ℕ)
    (centers : List Center) (regionCenters : List ℕ) (seeds : List UInt64) (config : Ask F) :
    (s.askMultiTrTree numRegions seedsPerRegion centers regionCenters seeds config).2 = s := by
  rw [askMultiTrTree]
  cases checkCenters centers regionCenters numRegions with
  | error e => rfl
  | ok u =>
    dsimp only
    split
    · rfl
    split
    · rfl
    split
    · rfl
    cases checkAsk seeds s.history.length config with
    | error e => rfl
    | ok u => rfl

theorem SlotsOk.askWithMaterialization {s : Search F Cpu} (h : s.SlotsOk)
    (seeds : List UInt64) (config : Ask F) (m : Bool) :
    (s.askWithMaterialization seeds config m).2.SlotsOk := by
  rw [askWithMaterialization_eq]
  cases hslot : s.askSlot seeds config with
  | error e => exact h
  | ok slot =>
    have hp := h.proposed (askSlot_eq_ok hslot).2.2 seeds config
    cases m with
    | false => exact hp
    | true => exact hp.settle

omit [TrialFloat F] in
theorem length_of_mem_supplied {rowBytes : ℕ} {rows : List UInt8} {values : List F}
    (hlen : rows.length = values.length * rowBytes) :
    ∀ p ∈ supplied rowBytes rows values, p.1.length = rowBytes := by
  intro p hp
  obtain ⟨⟨value, i⟩, hmem, rfl⟩ := List.mem_map.1 hp
  have hi := (List.mem_zipIdx hmem).2.1
  rw [Nat.zero_add] at hi
  exact Buffer.length_row hlen hi

omit [TrialFloat F] in
theorem length_of_mem_resolved {resolve : ℕ → UInt64 → Except String Row} {rowBytes : ℕ}
    {observations : List (IndexedObservation F)} {calls : ℕ} :
    ∀ p ∈ resolved resolve rowBytes observations calls, p.1.length = rowBytes := by
  induction observations generalizing calls with
  | nil =>
    rintro p ⟨⟩
  | cons observation observations ih =>
    intro p hp
    rw [resolved] at hp
    split at hp
    · cases hp
    split at hp
    · cases hp
    next hrow =>
      rcases List.mem_cons.1 hp with rfl | hp
      · exact not_not.1 hrow
      · exact ih p hp

/-- Every call keeps the slots of the live rows apart, however it ends. -/
theorem SlotsOk.run {s : Search F Cpu} (h : s.SlotsOk) (command : Command F) :
    (command.run s).2.SlotsOk := by
  cases command with
  | ask seeds config => exact h.askWithMaterialization seeds config true
  | askLazy seeds config => exact h.askWithMaterialization seeds config false
  | askMultiTr numRegions seedsPerRegion seeds config =>
    simp only [Command.run, Answer.wrap, askMultiTr_eq]
    cases s.checkAskMultiTr numRegions seedsPerRegion seeds config with
    | error e => exact h
    | ok u =>
      have hfits := fits_foldl_regionEngine h.base_lt h.fits seedsPerRegion seeds config
        (List.range numRegions)
      exact { h with fits := hfits.1, width := hfits.2.trans h.width }
  | askMultiTrTree numRegions seedsPerRegion centers regionCenters seeds config =>
    simp only [Command.run, Answer.wrap, askMultiTrTree_snd]
    exact h
  | materializePending trial =>
    simp only [Command.run, Answer.wrap, materializePending_eq]
    cases s.pendingFor trial with
    | error e => exact h
    | ok pending => exact h.settle
  | tell trial value accept =>
    simp only [Command.run, Answer.wrap, tell_eq]
    split
    · exact h
    · cases hfor : s.pendingFor trial with
      | error e => exact h
      | ok pending =>
        exact h.settle.record (s.pending_settle (s.pendingFor_eq_ok.1 hfor).1) value accept
  | replaceHistory rows values =>
    simp only [Command.run, Answer.wrap]
    rcases s.replaceHistory_cases rows values with ⟨e, he⟩ | ⟨hcheck, hlen, -, heq⟩
    · rw [he]
      exact h
    · obtain ⟨hp, -, hn⟩ := s.checkReplacement_eq_ok hcheck
      rw [heq]
      exact h.loaded hp hn (length_supplied _ _ _).le (length_of_mem_supplied hlen)
  | replaceIndexedHistory observations resolve =>
    simp only [Command.run, Answer.wrap]
    rcases h.replaceIndexedHistory_cases observations resolve with ⟨e, -, he⟩ | ⟨hcheck, heq⟩
    · rw [he]
      exact h
    · obtain ⟨hp, -, hn⟩ := s.checkReplacement_eq_ok hcheck
      rw [heq]
      exact h.loaded hp hn (length_resolved_le _ _ _ _) length_of_mem_resolved

/-- A search that some calls lead to from a new one. -/
inductive Reachable : Search F Cpu → Prop
  | new {base : Row} {baseValue : F} {leaves : List (Leaf F)} {capacity : ℕ} {s : Search F Cpu} :
      Search.new base baseValue leaves capacity = .ok s → Reachable s
  | run {s : Search F Cpu} (command : Command F) : Reachable s → Reachable (command.run s).2

theorem Reachable.slotsOk {s : Search F Cpu} (h : s.Reachable) : s.SlotsOk := by
  induction h with
  | new h => exact slotsOk_new h
  | run command _ ih => exact ih.run command

end Search

section Example

/-- A row of one code of eight bits. -/
def oneByteLeaf : Leaf ℚ :=
  { offset := 0, length := 1, bits := 8, encoding := .int8, scale := 1, weight := 1, radius := 1,
    bits_eq := eight_eq_or }

def oneByteAsk : Ask ℚ :=
  { length := 1, neighbors := 1, epistemicScale := 1, aleatoricScale := 0, yScale := 0, beta := 0,
    acquisition := .ucb, seed := 0 }

/-- A new search around the row `[100]`. -/
def oneByteSearch : Search ℚ Cpu :=
  { leaves := [oneByteLeaf], rowBytes := 1, capacity := 2, slots := 4, base := 0,
    history := [{ slot := 0, value := 0 }], pending := none, nextId := 0,
    engine := { rows := [100, 0, 0, 0], rowBytes := 1 } }

theorem new_oneByte : Search.new [100] 0 [oneByteLeaf] 2 = .ok oneByteSearch := by rfl

end Example

end Ennbo.Trials
