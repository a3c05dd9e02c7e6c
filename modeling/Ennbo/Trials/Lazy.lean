import Ennbo.Trials.Commands

/-! # Lazy and eager trials

A lazy ask leaves the row of its trial to be built later. Settling a search builds
it at once, and every call on a search gives what it gives on the settled one.
So runs that differ in where rows are built cannot be told apart.
-/

namespace Ennbo.Trials

variable {F : Type} [TrialFloat F]

/-- The same call with the row of the trial built at once. -/
def Command.eager : Command F → Command F
  | .askLazy seeds config => .ask seeds config
  | command => command

/-- Whether the call does no more than build a pending row. -/
def Command.materializes : Command F → Bool
  | .materializePending _ => true
  | _ => false

/-- Whether the call tells a trial. -/
def Command.tells : Command F → Bool
  | .tell .. => true
  | _ => false

namespace Search

variable {s t : Search F Cpu}

theorem settle_of_none (h : s.pending = none) : s.settle = s := by
  rw [settle, h]

@[simp] theorem settle_settle (s : Search F Cpu) : s.settle.settle = s.settle := by
  cases hp : s.pending with
  | none => rw [settle_of_none hp, settle_of_none hp]
  | some pending =>
    rw [s.settle.settle_of_pending (s.pending_settle hp)]
    rfl

@[simp] theorem isSome_pending_settle (s : Search F Cpu) : s.settle.pending.isSome = s.pending.isSome := by
  cases hp : s.pending with
  | none => rw [settle_of_none hp, hp]
  | some pending =>
    rw [s.pending_settle hp]
    rfl

/-- While a trial is pending, a call that neither tells nor builds it is refused. -/
theorem exists_refused (command : Command F) (ht : command.tells = false)
    (hm : command.materializes = false) :
    ∃ e, ∀ u : Search F Cpu, u.pending.isSome = true → command.run u = (.error e, u) := by
  cases command with
  | ask seeds config =>
    refine ⟨"tell must finish the pending trial before ask", fun u hu => ?_⟩
    simp only [Command.run, ask, askWithMaterialization, if_pos hu]
    rfl
  | askLazy seeds config =>
    refine ⟨"tell must finish the pending trial before ask", fun u hu => ?_⟩
    simp only [Command.run, askLazy, askWithMaterialization, if_pos hu]
    rfl
  | askMultiTr n k seeds config =>
    refine ⟨"tell must finish the pending trial before ask", fun u hu => ?_⟩
    simp only [Command.run, askMultiTr, checkAskMultiTr, if_pos hu]
    rfl
  | askMultiTrTree n k centers regionCenters seeds config =>
    simp only [Command.run, askMultiTrTree]
    cases checkCenters centers regionCenters n with
    | error e => exact ⟨e, fun u hu => rfl⟩
    | ok c =>
      refine ⟨"tell must finish the pending trial before ask", fun u hu => ?_⟩
      simp only [if_pos hu]
      rfl
  | materializePending trial => cases hm
  | tell trial value accept => cases ht
  | replaceHistory rows values =>
    refine ⟨"tell must finish the pending trial before replacing history", fun u hu => ?_⟩
    simp only [Command.run, replaceHistory, checkReplacement, if_pos hu]
    rfl
  | replaceIndexedHistory observations resolve =>
    refine ⟨"tell must finish the pending trial before replacing history", fun u hu => ?_⟩
    simp only [Command.run, replaceIndexedHistory, checkReplacement, if_pos hu]
    rfl

theorem pendingFor_settle (s : Search F Cpu) (trial : Trial F) :
    s.settle.pendingFor trial =
      (s.pendingFor trial).map fun pending => { pending with materialized := true } := by
  cases hp : s.pending with
  | none =>
    rw [settle_of_none hp, pendingFor, hp]
    rfl
  | some pending =>
    simp only [pendingFor, s.pending_settle hp, hp]
    split
    · rfl
    · rfl

theorem ask_settle (s : Search F Cpu) (seeds : List UInt64) (config : Ask F) (m : Bool) :
    (s.settle.askWithMaterialization seeds config true).1 =
        (s.askWithMaterialization seeds config m).1 ∧
      (s.settle.askWithMaterialization seeds config true).2.settle =
        (s.askWithMaterialization seeds config m).2.settle := by
  by_cases hp : s.pending.isSome = true
  · rw [askWithMaterialization, askWithMaterialization, isSome_pending_settle, if_pos hp,
      if_pos hp]
    exact ⟨rfl, settle_settle _⟩
  · rw [settle_of_none (Option.not_isSome_iff_eq_none.1 hp), askWithMaterialization_eq,
      askWithMaterialization_eq]
    cases s.askSlot seeds config with
    | error e => exact ⟨rfl, rfl⟩
    | ok slot =>
      refine ⟨rfl, ?_⟩
      cases m with
      | false => exact settle_settle (s.proposed slot seeds config)
      | true => rfl

/-- A call gives the same answer on the settled search, and leaves the same search once settled. -/
theorem run_settle (s : Search F Cpu) (command : Command F) (hm : command.materializes = false) :
    (command.eager.run s.settle).1 = (command.run s).1 ∧
      (command.eager.run s.settle).2.settle = (command.run s).2.settle := by
  have hother (ht : command.tells = false) (he : command.eager = command) :
      (command.eager.run s.settle).1 = (command.run s).1 ∧
        (command.eager.run s.settle).2.settle = (command.run s).2.settle := by
    rw [he]
    by_cases hp : s.pending.isSome = true
    · obtain ⟨e, hrefused⟩ := exists_refused command ht hm
      rw [hrefused s hp, hrefused s.settle ((isSome_pending_settle _).trans hp)]
      exact ⟨rfl, settle_settle _⟩
    · rw [settle_of_none (Option.not_isSome_iff_eq_none.1 hp)]
      exact ⟨rfl, rfl⟩
  cases command with
  | askLazy seeds config =>
    obtain ⟨htrial, hstate⟩ := s.ask_settle seeds config false
    exact ⟨congrArg (Except.map Answer.trial) htrial, hstate⟩
  | tell trial value accept =>
    simp only [Command.eager, Command.run, Answer.wrap, tell_eq, pendingFor_settle]
    split
    · exact ⟨rfl, settle_settle _⟩
    · cases s.pendingFor trial with
      | error e => exact ⟨rfl, settle_settle _⟩
      | ok pending =>
        refine ⟨rfl, ?_⟩
        simp only [Except.map, settle_settle]
        rfl
  | materializePending trial => cases hm
  | _ => exact hother rfl rfl

theorem settle_run_materialize (s : Search F Cpu) {command : Command F}
    (hm : command.materializes = true) : (command.run s).2.settle = s.settle := by
  cases command with
  | materializePending trial =>
    simp only [Command.run, Answer.wrap, materializePending_eq]
    cases s.pendingFor trial with
    | error e => rfl
    | ok pending => exact settle_settle _
  | _ => cases hm

/-- What a caller sees after a call: its answer, the base row, and the history. -/
structure Report (F : Type) where
  answer : Except String (Answer F)
  base : Row
  history : List (Row × F)

/-- What the calls of a run show, those left out that only build a pending row. -/
def reports : List (Command F) → Search F Cpu → List (Report F)
  | [], _ => []
  | command :: commands, s =>
    let rest := reports commands (command.run s).2
    if command.materializes then rest
    else
      { answer := (command.run s).1
        base := (command.run s).2.engine.read (command.run s).2.base
        history := (command.run s).2.observations } :: rest

/-- The same calls in the same order, but for where the rows of trials are built. -/
inductive Interchange : List (Command F) → List (Command F) → Prop
  | nil : Interchange [] []
  | same {commands commands' : List (Command F)} (command : Command F) :
      Interchange commands commands' → Interchange (command :: commands) (command :: commands')
  | lazyLeft {commands commands' : List (Command F)} (seeds : List UInt64) (config : Ask F) :
      Interchange commands commands' →
      Interchange (.askLazy seeds config :: commands) (.ask seeds config :: commands')
  | lazyRight {commands commands' : List (Command F)} (seeds : List UInt64) (config : Ask F) :
      Interchange commands commands' →
      Interchange (.ask seeds config :: commands) (.askLazy seeds config :: commands')
  | materializeLeft {commands commands' : List (Command F)} (trial : Trial F) :
      Interchange commands commands' →
      Interchange (.materializePending trial :: commands) commands'
  | materializeRight {commands commands' : List (Command F)} (trial : Trial F) :
      Interchange commands commands' →
      Interchange commands (.materializePending trial :: commands')

theorem base_settle (s : Search F Cpu) : s.settle.base = s.base := by
  rw [Search.settle]
  split
  · rfl
  · split
    · rfl
    · rfl

theorem history_settle (s : Search F Cpu) : s.settle.history = s.history := by
  rw [Search.settle]
  split
  · rfl
  · split
    · rfl
    · rfl

theorem SlotsOk.seen_settle (h : s.SlotsOk) :
    s.settle.engine.read s.settle.base = s.engine.read s.base ∧
      s.settle.observations = s.observations := by
  constructor
  · rw [base_settle]
    exact h.read_settle h.pending_ne_base
  · apply observations_congr (history_settle s)
    intro record hrecord
    exact h.read_settle fun pending hp => h.pending_ne pending hp record hrecord

theorem run_eq_of_settle_eq (h : s.settle = t.settle) {command command' : Command F}
    (he : command.eager = command'.eager) (hm : command.materializes = false)
    (hm' : command'.materializes = false) :
    (command.run s).1 = (command'.run t).1 ∧
      (command.run s).2.settle = (command'.run t).2.settle := by
  obtain ⟨hanswer, hstate⟩ := s.run_settle command hm
  obtain ⟨hanswer', hstate'⟩ := t.run_settle command' hm'
  rw [h, he] at hanswer hstate
  exact ⟨hanswer.symm.trans hanswer', hstate.symm.trans hstate'⟩

theorem reports_cons (hs : s.SlotsOk) (ht : t.SlotsOk) (h : s.settle = t.settle)
    {command command' : Command F} (he : command.eager = command'.eager)
    (hm : command.materializes = false) (hm' : command'.materializes = false)
    {commands commands' : List (Command F)}
    (ih : ∀ {s t : Search F Cpu}, s.SlotsOk → t.SlotsOk → s.settle = t.settle →
      reports commands s = reports commands' t) :
    reports (command :: commands) s = reports (command' :: commands') t := by
  obtain ⟨hanswer, hstate⟩ := run_eq_of_settle_eq h he hm hm'
  have hs' := hs.run command
  have ht' := ht.run command'
  have hbase := (hs'.seen_settle).1.symm.trans ((congrArg (fun u : Search F Cpu =>
    u.engine.read u.base) hstate).trans (ht'.seen_settle).1)
  have hhistory := (hs'.seen_settle).2.symm.trans ((congrArg observations hstate).trans
    (ht'.seen_settle).2)
  simp only [reports, hm, hm', Bool.false_eq_true, if_false]
  rw [hanswer, hbase, hhistory, ih hs' ht' hstate]

theorem reports_eq_of_settle_eq {commands commands' : List (Command F)}
    (hcommands : Interchange commands commands') (hs : s.SlotsOk) (ht : t.SlotsOk)
    (h : s.settle = t.settle) : reports commands s = reports commands' t := by
  induction hcommands generalizing s t with
  | nil => rfl
  | same command _ ih =>
    cases hm : command.materializes with
    | false => exact reports_cons hs ht h rfl hm hm ih
    | true =>
      simp only [reports, hm, if_true]
      apply ih (hs.run command) (ht.run command)
      rw [settle_run_materialize s hm, settle_run_materialize t hm, h]
  | lazyLeft seeds config _ ih =>
    have he : (Command.askLazy seeds config).eager = (Command.ask seeds config).eager := rfl
    exact reports_cons hs ht h he rfl rfl ih
  | lazyRight seeds config _ ih =>
    have he : (Command.ask seeds config).eager = (Command.askLazy seeds config).eager := rfl
    exact reports_cons hs ht h he rfl rfl ih
  | materializeLeft trial _ ih =>
    have hm : (Command.materializePending trial).materializes = true := rfl
    have hsettle := settle_run_materialize s hm
    exact ih (hs.run _) ht (hsettle.trans h)
  | materializeRight trial _ ih =>
    have hm : (Command.materializePending trial).materializes = true := rfl
    exact ih hs (ht.run _) (h.trans (settle_run_materialize t hm).symm)

/--
Runs that differ only in where the rows of trials are built report the same, call
by call: the answers, the base row, and the rows and values of the history.
-/
theorem reports_eq (h : s.Reachable) {commands commands' : List (Command F)}
    (hcommands : Interchange commands commands') : reports commands s = reports commands' s :=
  reports_eq_of_settle_eq hcommands h.slotsOk h.slotsOk rfl

theorem reports_oneByte :
    reports [.askLazy [5] oneByteAsk, .tell (oneByteSearch.chosen [5] oneByteAsk) 1 true]
        oneByteSearch =
      reports [.ask [5] oneByteAsk,
        .materializePending (oneByteSearch.chosen [5] oneByteAsk),
        .tell (oneByteSearch.chosen [5] oneByteAsk) 1 true] oneByteSearch :=
  reports_eq (.new new_oneByte)
    (.lazyLeft [5] oneByteAsk (.materializeRight _ (.same _ .nil)))

end Search

end Ennbo.Trials
