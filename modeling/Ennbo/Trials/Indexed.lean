import Ennbo.Trials.Commands

/-! # Histories resolved from an index

A replacement resolves its rows one by one and drops the old history before the
first of them. When the resolver fails, what is left is the part that was
resolved.
-/

namespace Ennbo.Trials

variable {F : Type} [TrialFloat F]

namespace Search

section Ask

variable {E : Type} [TrialEngine F E] (s : Search F E)

/-- What `ask_indexed` does before it asks: read the shortlist and load its rows. -/
def loadShortlist (descriptors : ℕ) (shortlist : ℕ → Except String (List (IndexedObservation F)))
    (seeds : List UInt64) (resolve : ℕ → UInt64 → Except String Row) :
    Except String Unit × Search F E :=
  if descriptors ≠ seeds.length then
    (.error s!"candidate descriptor rows {descriptors} do not match seed count {seeds.length}", s)
  else
    match shortlist s.capacity with
    | .error e => (.error e, s)
    | .ok observations =>
      if observations.isEmpty then (.error "BPANN history returned an empty shortlist", s)
      else s.replaceIndexedHistory observations resolve

/--
The number of descriptors, and the shortlist of the index for a number of
observations, stand for the index and the descriptors it is asked with.
-/
def askIndexed (descriptors : ℕ) (shortlist : ℕ → Except String (List (IndexedObservation F)))
    (seeds : List UInt64) (config : Ask F) (resolve : ℕ → UInt64 → Except String Row) :
    Except String (Trial F) × Search F E :=
  match s.loadShortlist descriptors shortlist seeds resolve with
  | (.error e, s) => (.error e, s)
  | (.ok (), s) => s.ask seeds config

end Ask

section Failed

variable {s s' : Search F Cpu} {observations : List (IndexedObservation F)}
  {resolve : ℕ → UInt64 → Except String Row}

/-- The records, their rows, the base with its row and the pending trial are the same. -/
structure Unchanged (s s' : Search F Cpu) : Prop where
  history : s'.history = s.history
  rows : s'.observations = s.observations
  base : s'.base = s.base
  baseRow : s'.engine.read s'.base = s.engine.read s.base
  pending : s'.pending = s.pending

omit [TrialFloat F] in
theorem Unchanged.refl (s : Search F Cpu) : Unchanged s s := ⟨rfl, rfl, rfl, rfl, rfl⟩

/-- The resolver has a row of the right size for every observation. -/
def Resolves (resolve : ℕ → UInt64 → Except String Row) (rowBytes : ℕ)
    (observations : List (IndexedObservation F)) (calls : ℕ) : Prop :=
  ∀ i observation, observations[i]? = some observation →
    ∃ row, resolve (calls + i) observation.id = .ok row ∧ row.length = rowBytes

/-- The rows are those of the history, and would go to the slots that these have. -/
structure Repeats (s : Search F Cpu) (n : ℕ) (rows : List (Row × F)) : Prop where
  rows_eq : rows = s.observations
  slots_eq : (s.replacementSlots n).take rows.length = s.history.map Record.slot

/-- When a failed replacement leaves the history as it was. -/
def KeepsHistory (s : Search F Cpu) (observations : List (IndexedObservation F))
    (resolve : ℕ → UInt64 → Except String Row) : Prop :=
  (∃ e, s.checkReplacement observations.length = .error e) ∨
    Resolves resolve s.rowBytes observations 0 ∨
    s.Repeats observations.length (resolved resolve s.rowBytes observations 0)

/-- The loop ends well when every row is resolved. -/
theorem resolveRows_ok_iff (slots : List ℕ) (calls : ℕ) (hlen : slots.length = observations.length) :
    (resolveRows resolve (slots.zip observations) calls s).1 = .ok () ↔
      Resolves resolve s.rowBytes observations calls := by
  induction observations generalizing slots calls s with
  | nil =>
    constructor
    · rintro - i observation ⟨⟩
    · rintro -
      rw [List.zip_nil_right]
      rfl
  | cons observation observations ih =>
    obtain ⟨slot, slots, rfl⟩ := List.exists_cons_of_length_eq_add_one hlen
    rw [List.length_cons, List.length_cons, Nat.add_right_cancel_iff] at hlen
    rw [List.zip_cons_cons, resolveRows]
    constructor
    · intro h
      cases hrow : resolve calls observation.id with
      | error e =>
        rw [hrow] at h
        cases h
      | ok row =>
        rw [hrow] at h
        dsimp only at h
        split at h
        next => cases h
        next hwidth =>
          have hrest := (ih slots (calls + 1) hlen).mp h
          rintro (_ | i) obs hobs
          · obtain rfl := Option.some.inj hobs
            exact ⟨row, hrow, not_not.mp hwidth⟩
          · obtain ⟨row', hrow', hwidth'⟩ := hrest i obs hobs
            exact ⟨row', by rw [← hrow', Nat.add_assoc, Nat.add_comm 1], hwidth'⟩
    · intro h
      obtain ⟨row, hrow, hwidth⟩ := h 0 observation rfl
      rw [Nat.add_zero] at hrow
      rw [hrow]
      dsimp only
      rw [if_neg (not_not.mpr hwidth)]
      apply (ih slots (calls + 1) hlen).mpr
      intro i obs hobs
      obtain ⟨row', hrow', hwidth'⟩ := h (i + 1) obs hobs
      exact ⟨row', by rw [← hrow', Nat.add_assoc, Nat.add_comm 1], hwidth'⟩

theorem SlotsOk.replaceIndexedHistory_ok_iff (h : s.SlotsOk)
    (hcheck : s.checkReplacement observations.length = .ok ()) :
    (s.replaceIndexedHistory observations resolve).1 = .ok () ↔
      Resolves resolve s.rowBytes observations 0 := by
  have hslots := h.length_replacementSlots (s.checkReplacement_eq_ok hcheck).2.2
  rw [replaceIndexedHistory, hcheck]
  dsimp only
  rw [if_neg (not_not.mpr hslots)]
  exact resolveRows_ok_iff _ 0 hslots

omit [TrialFloat F] in
theorem records_ext {l l' : List (Record F)} (hslot : l.map Record.slot = l'.map Record.slot)
    (hvalue : l.map Record.value = l'.map Record.value) : l = l' := by
  induction l generalizing l' with
  | nil => exact (List.map_eq_nil_iff.mp hslot.symm).symm
  | cons a l ih =>
    cases l' with
    | nil => cases hslot
    | cons b l' =>
      obtain ⟨slot, value⟩ := a
      rw [List.map_cons, List.map_cons, List.cons.injEq] at hslot hvalue
      obtain ⟨rfl, hslot⟩ := hslot
      obtain ⟨rfl, hvalue⟩ := hvalue
      rw [ih hslot hvalue]

omit [TrialFloat F] in
/-- Loading rows changes nothing exactly when they repeat the history. -/
theorem SlotsOk.unchanged_loaded_iff (h : s.SlotsOk) {n : ℕ} {rows : List (Row × F)}
    (hlen : rows.length ≤ (s.replacementSlots n).length)
    (hrows : ∀ p ∈ rows, p.1.length = s.rowBytes) :
    Unchanged s (s.loaded (s.replacementSlots n) rows) ↔ s.Repeats n rows := by
  have hobservations := h.observations_loaded hlen hrows
  have hslots : (s.loaded (s.replacementSlots n) rows).history.map Record.slot =
      (s.replacementSlots n).take rows.length := by
    simp only [Search.loaded, List.map_map, Function.comp_def]
    apply List.ext_getElem
    · simp [Nat.min_comm]
    · intro i h₁ h₂
      simp
  constructor
  · rintro ⟨hhistory, hsame, -, -, -⟩
    constructor
    · rw [← hsame, hobservations]
    · rw [← hslots, hhistory]
  · rintro ⟨hsame, htake⟩
    have hvalues : ∀ t : Search F Cpu, t.history.map Record.value = t.observations.map Prod.snd := by
      intro t
      simp [observations]
    constructor
    · apply records_ext
      · rw [hslots, htake]
      · rw [hvalues, hvalues, hobservations, hsame]
    · rw [hobservations, hsame]
    · rfl
    · exact h.read_base_loaded hrows
    · rfl

/-- When a replacement fails, the history stays as it was in these cases only. -/
theorem SlotsOk.replaceIndexedHistory_keeps_iff (h : s.SlotsOk)
    (observations : List (IndexedObservation F)) (resolve : ℕ → UInt64 → Except String Row) :
    ((∃ e, (s.replaceIndexedHistory observations resolve).1 = .error e) →
        Unchanged s (s.replaceIndexedHistory observations resolve).2) ↔
      KeepsHistory s observations resolve := by
  obtain ⟨e, hcheck, heq⟩ | ⟨hcheck, hstate⟩ := h.replaceIndexedHistory_cases observations resolve
  · constructor
    · exact fun _ => .inl ⟨e, hcheck⟩
    · rintro - -
      rw [heq]
      exact Unchanged.refl s
  · have hcapacity := (s.checkReplacement_eq_ok hcheck).2.2
    have hlen : (resolved resolve s.rowBytes observations 0).length ≤
        (s.replacementSlots observations.length).length := by
      rw [h.length_replacementSlots hcapacity]
      exact length_resolved_le _ _ _ _
    have hok : (s.replaceIndexedHistory observations resolve).1 = .ok () ↔
        Resolves resolve s.rowBytes observations 0 := h.replaceIndexedHistory_ok_iff hcheck
    rw [hstate, h.unchanged_loaded_iff hlen length_of_mem_resolved, KeepsHistory, hcheck, ← hok]
    cases (s.replaceIndexedHistory observations resolve).1 with
    | error e => simp
    | ok u => simp

theorem loadShortlist_of_ok {descriptors : ℕ} {seeds : List UInt64}
    {shortlist : ℕ → Except String (List (IndexedObservation F))}
    (hlen : descriptors = seeds.length) (hlist : shortlist s.capacity = .ok observations)
    (hne : observations ≠ []) :
    s.loadShortlist descriptors shortlist seeds resolve =
      s.replaceIndexedHistory observations resolve := by
  rw [loadShortlist, if_neg (not_not.mpr hlen), hlist]
  exact if_neg (by simpa using hne)

/-- A failed indexed ask keeps the history when its shortlist could have replaced it in vain. -/
theorem SlotsOk.askIndexed_keeps_iff (h : s.SlotsOk) (descriptors : ℕ)
    (shortlist : ℕ → Except String (List (IndexedObservation F))) (seeds : List UInt64)
    (config : Ask F) (resolve : ℕ → UInt64 → Except String Row) :
    ((∃ e, (s.loadShortlist descriptors shortlist seeds resolve).1 = .error e) →
        Unchanged s (s.askIndexed descriptors shortlist seeds config resolve).2) ↔
      (descriptors = seeds.length → ∀ observations, shortlist s.capacity = .ok observations →
        observations ≠ [] → KeepsHistory s observations resolve) := by
  have hask : (∃ e, (s.loadShortlist descriptors shortlist seeds resolve).1 = .error e) →
      (s.askIndexed descriptors shortlist seeds config resolve).2 =
        (s.loadShortlist descriptors shortlist seeds resolve).2 := by
    rintro ⟨e, he⟩
    rw [askIndexed]
    split
    next heq => rw [heq]
    next heq =>
      rw [heq] at he
      cases he
  have hiff : ((∃ e, (s.loadShortlist descriptors shortlist seeds resolve).1 = .error e) →
      Unchanged s (s.askIndexed descriptors shortlist seeds config resolve).2) ↔
      ((∃ e, (s.loadShortlist descriptors shortlist seeds resolve).1 = .error e) →
        Unchanged s (s.loadShortlist descriptors shortlist seeds resolve).2) := by
    constructor
    · intro hkeep he
      exact hask he ▸ hkeep he
    · intro hkeep he
      exact (hask he).symm ▸ hkeep he
  rw [hiff]
  by_cases hlen : descriptors = seeds.length
  · cases hlist : shortlist s.capacity with
    | error e =>
      rw [loadShortlist, if_neg (not_not.mpr hlen), hlist]
      constructor
      · rintro - - observations ⟨⟩
      · rintro - -
        exact Unchanged.refl s
    | ok found =>
      by_cases hne : found = []
      · rw [loadShortlist, if_neg (not_not.mpr hlen), hlist, hne]
        constructor
        · rintro - - observations ⟨⟩ hcontra
          exact absurd rfl hcontra
        · rintro - -
          exact Unchanged.refl s
      · rw [loadShortlist_of_ok hlen hlist hne, h.replaceIndexedHistory_keeps_iff]
        constructor
        · rintro hkeep - observations ⟨⟩ -
          exact hkeep
        · intro hkeep
          exact hkeep hlen found rfl hne
  · rw [loadShortlist, if_pos hlen]
    constructor
    · rintro - hcontra
      exact absurd hcontra hlen
    · rintro - -
      exact Unchanged.refl s

/-- An indexed ask leads where a replacement and an ask lead. -/
theorem Reachable.askIndexed (h : s.Reachable) (descriptors : ℕ)
    (shortlist : ℕ → Except String (List (IndexedObservation F))) (seeds : List UInt64)
    (config : Ask F) (resolve : ℕ → UInt64 → Except String Row) :
    (s.askIndexed descriptors shortlist seeds config resolve).2.Reachable := by
  have hload : (s.loadShortlist descriptors shortlist seeds resolve).2.Reachable := by
    rw [loadShortlist]
    split
    next => exact h
    next =>
      split
      next => exact h
      next observations _ =>
        split
        next => exact h
        next => exact h.run (.replaceIndexedHistory observations resolve)
  rw [Search.askIndexed]
  split
  next heq =>
    rw [heq] at hload
    exact hload
  next heq =>
    rw [heq] at hload
    exact hload.run (.ask seeds config)

/-- A failed replacement leaves the search as it was exactly in the cases named. -/
theorem unchanged_of_failed_iff (h : s.Reachable) (observations : List (IndexedObservation F))
    (resolve : ℕ → UInt64 → Except String Row) :
    (((∃ e, (s.replaceIndexedHistory observations resolve).1 = .error e) →
        Unchanged s (s.replaceIndexedHistory observations resolve).2) ↔
      KeepsHistory s observations resolve) ∧
    ∀ descriptors shortlist seeds config,
      (((∃ e, (s.loadShortlist descriptors shortlist seeds resolve).1 = .error e) →
          Unchanged s (s.askIndexed descriptors shortlist seeds config resolve).2) ↔
        (descriptors = seeds.length → ∀ observations, shortlist s.capacity = .ok observations →
          observations ≠ [] → KeepsHistory s observations resolve)) := by
  constructor
  · exact h.slotsOk.replaceIndexedHistory_keeps_iff observations resolve
  · intro descriptors shortlist seeds config
    exact h.slotsOk.askIndexed_keeps_iff descriptors shortlist seeds config resolve

theorem unchanged_of_failed_oneByte :
    (((∃ e, (oneByteSearch.replaceIndexedHistory [⟨0, 1⟩] fun _ _ => .ok [5]).1 = .error e) →
        Unchanged oneByteSearch
          (oneByteSearch.replaceIndexedHistory [⟨0, 1⟩] fun _ _ => .ok [5]).2) ↔
      KeepsHistory oneByteSearch [⟨0, 1⟩] fun _ _ => .ok [5]) ∧
    ∀ descriptors shortlist seeds config,
      (((∃ e, (oneByteSearch.loadShortlist descriptors shortlist seeds
            fun _ _ => .ok [5]).1 = .error e) →
          Unchanged oneByteSearch
            (oneByteSearch.askIndexed descriptors shortlist seeds config fun _ _ => .ok [5]).2) ↔
        (descriptors = seeds.length → ∀ observations,
          shortlist oneByteSearch.capacity = .ok observations → observations ≠ [] →
          KeepsHistory oneByteSearch observations fun _ _ => .ok [5])) :=
  unchanged_of_failed_iff (.new new_oneByte) [⟨0, 1⟩] fun _ _ => .ok [5]

/-- An archive that is gone takes the history with it. -/
theorem not_unchanged_of_failed :
    oneByteSearch.Reachable ∧
      (oneByteSearch.replaceIndexedHistory [⟨0, 1⟩] fun _ _ => .error "gone").1 =
        .error "gone" ∧
      ¬ Unchanged oneByteSearch
        (oneByteSearch.replaceIndexedHistory [⟨0, 1⟩] fun _ _ => .error "gone").2 := by
  refine ⟨.new new_oneByte, rfl, ?_⟩
  rintro ⟨hhistory, -, -, -, -⟩
  cases hhistory

end Failed

end Search

end Ennbo.Trials
