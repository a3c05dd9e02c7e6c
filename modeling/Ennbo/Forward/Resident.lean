import Ennbo.Trials.Commands

/-! # Resident forward sessions

A session pairs a trial search with the round it has asked for. Both keep a marker
of what is pending; a session goes on as long as the two markers move together.
-/

namespace Ennbo.Forward

open Trials

inductive ForwardOp where
  | embeddingLookup
  | perturbPackedWeights
  | dequantize
  | matmul
  | kdaStateUpdate
  | routeExperts
  | activation
  | normalize
  | residual
  | reduceObjective
  deriving DecidableEq, Repr

structure ForwardProgram where
  ops : List ForwardOp
  version : ℕ
  deriving DecidableEq, Repr

def ForwardProgram.new (ops : List ForwardOp) : Except String ForwardProgram :=
  if .perturbPackedWeights ∉ ops then .error "forward program must perturb packed weights"
  else if .matmul ∉ ops then .error "forward program must contain a matrix multiply"
  else if .reduceObjective ∉ ops then .error "forward program must reduce an objective"
  else .ok { ops, version := 1 }

structure ResidentRound (F : Type) where
  trial : Trial F
  programVersion : ℕ

variable {F E : Type} [TrialFloat F]

/-- The derived comparison of rounds. A round whose score is not a number differs from itself. -/
def ResidentRound.same (a b : ResidentRound F) : Bool :=
  a.trial.id == b.trial.id && a.trial.index == b.trial.index && a.trial.seed == b.trial.seed &&
    feq a.trial.score b.trial.score && a.programVersion == b.programVersion

structure ResidentBoState (F E : Type) where
  search : Search F E
  program : ForwardProgram
  pending : Option (ResidentRound F)
  rewards : List F

namespace ResidentBoState

variable [TrialEngine F E]

def new (base : Row) (baseValue : F) (leaves : List (Leaf F)) (historyCapacity : ℕ)
    (program : ForwardProgram) : Except String (ResidentBoState F E) :=
  match Search.new base baseValue leaves historyCapacity with
  | .error e => .error e
  | .ok search => .ok { search, program, pending := none, rewards := [] }

variable (s : ResidentBoState F E)

def ask (seeds : List UInt64) (config : Ask F) :
    Except String (ResidentRound F) × ResidentBoState F E :=
  if s.pending.isSome then (.error "tell must finish the resident forward round before ask", s)
  else
    match s.search.ask seeds config with
    | (.error e, search) => (.error e, { s with search })
    | (.ok trial, search) =>
      let round : ResidentRound F := { trial, programVersion := s.program.version }
      (.ok round, { s with search, pending := some round })

def tell (round : ResidentRound F) (reward : F) (accept : Bool) :
    Except String Unit × ResidentBoState F E :=
  match s.pending with
  | none => (.error "no resident forward round is pending", s)
  | some pending =>
    -- the round is taken before anything is checked
    let taken := { s with pending := none }
    if !pending.same round then
      (.error "resident forward round does not match pending trial",
        { taken with pending := some pending })
    else
      match taken.search.tell round.trial reward accept with
      | (.error e, search) => (.error e, { taken with search })
      | (.ok (), search) => (.ok (), { taken with search, rewards := taken.rewards ++ [reward] })

/-- The evaluator may keep a state of its own; this call sees one function of it. -/
def askEvaluate (seeds : List UInt64) (config : Ask F)
    (evaluate : ResidentRound F → ForwardProgram → Except String F) (accept : Bool) :
    Except String (ResidentRound F × F) × ResidentBoState F E :=
  match s.ask seeds config with
  | (.error e, s) => (.error e, s)
  | (.ok round, s) =>
    match evaluate round s.program with
    | .error e => (.error e, s)
    | .ok reward =>
      match s.tell round reward accept with
      | (.error e, s) => (.error e, s)
      | (.ok (), s) => (.ok (round, reward), s)

end ResidentBoState

/-- A call on a session. -/
inductive Command (F : Type) where
  | ask (seeds : List UInt64) (config : Ask F)
  | tell (round : ResidentRound F) (reward : F) (accept : Bool)
  | askEvaluate (seeds : List UInt64) (config : Ask F)
      (evaluate : ResidentRound F → ForwardProgram → Except String F) (accept : Bool)

/-- What an ask answers only because something is pending. -/
def pendingRefusals : List String :=
  ["tell must finish the resident forward round before ask",
    "tell must finish the pending trial before ask"]

namespace ResidentBoState

variable [TrialEngine F E]

/-- The state that a call leaves. -/
def run (s : ResidentBoState F E) : Command F → ResidentBoState F E
  | .ask seeds config => (s.ask seeds config).2
  | .tell round reward accept => (s.tell round reward accept).2
  | .askEvaluate seeds config evaluate accept => (s.askEvaluate seeds config evaluate accept).2

/-- No ask with valid arguments is refused because of a pending trial. -/
def AcceptsAsk (s : ResidentBoState F E) : Prop :=
  s.pending = none ∧
    ∀ seeds config, checkAsk seeds s.search.history.length config = .ok () →
      ∀ e ∈ pendingRefusals, (s.ask seeds config).1 ≠ .error e

/-- A call that fails leaves a session that can go on. -/
def GoesOn (s : ResidentBoState F E) : Command F → Prop
  | .ask _ _ => True
  | .tell round reward accept =>
    ∀ e, (s.tell round reward accept).1 = .error e → (s.tell round reward accept).2 = s
  | .askEvaluate seeds config evaluate accept =>
    s.pending = none → ∀ e, (s.askEvaluate seeds config evaluate accept).1 = .error e →
      (s.askEvaluate seeds config evaluate accept).2.AcceptsAsk

/--
The pending round is told finite rewards only, and rounds that are asked for are
numbers and evaluated to finite rewards.
-/
def Finite (s : ResidentBoState F E) : Command F → Prop
  | .ask _ _ => True
  | .tell round reward _ =>
    ∀ pending ∈ s.pending, pending.same round = true → isFinite reward = true
  | .askEvaluate seeds config evaluate _ =>
    ∀ round, (s.ask seeds config).1 = .ok round →
      round.same round = true ∧
        ∃ reward, evaluate round s.program = .ok reward ∧ isFinite reward = true

/-- The markers of the session and of the search agree, and the row of the trial is built. -/
def Paired (s : ResidentBoState F E) : Prop :=
  match s.pending with
  | none => s.search.pending = none
  | some round => ∃ pending, s.search.pending = some pending ∧ pending.id = round.trial.id ∧
      pending.materialized = true

section Lemmas

variable {s : ResidentBoState F E} {seeds : List UInt64} {config : Ask F}

/-- What an eager ask of a search does to its marker and its history. -/
theorem search_ask_cases (search : Search F E) (seeds : List UInt64) (config : Ask F) :
    (∃ e engine, search.ask seeds config = (.error e, { search with engine })) ∨
    ∃ trial pending, (search.ask seeds config).1 = .ok trial ∧ search.pending = none ∧
      (search.ask seeds config).2.pending = some pending ∧ pending.id = trial.id ∧
      pending.materialized = true ∧
      (search.ask seeds config).2.history.length = search.history.length ∧
      checkAsk seeds search.history.length config = .ok () := by
  rw [Search.ask, Search.askWithMaterialization]
  split
  next => exact .inl ⟨_, search.engine, rfl⟩
  next hp =>
    cases hcheck : checkAsk seeds search.history.length config with
    | error e => exact .inl ⟨e, search.engine, rfl⟩
    | ok u =>
      dsimp only
      cases search.freeSlot with
      | none => exact .inl ⟨_, search.engine, rfl⟩
      | some slot =>
        dsimp only
        rcases TrialEngine.ask search.engine search.base search.observed slot seeds search.leaves
          config true with ⟨e | ⟨index, score⟩, engine⟩
        · exact .inl ⟨e, engine, rfl⟩
        · exact .inr ⟨_, _, rfl, Option.not_isSome_iff_eq_none.1 hp, rfl, rfl, rfl, rfl, rfl⟩

theorem search_tell_cases {search : Search F E} {pending : Pending F} {trial : Trial F}
    (hp : search.pending = some pending) (hid : pending.id = trial.id)
    (hm : pending.materialized = true) (value : F) (accept : Bool) :
    (isFinite value = false ∧
      search.tell trial value accept = (.error "trial value must be finite", search)) ∨
    isFinite value = true ∧ ∃ search', search.tell trial value accept = (.ok (), search') ∧
      search'.pending = none := by
  have hfor : search.pendingFor trial = .ok pending := by
    rw [Search.pendingFor, hp]
    exact if_pos hid
  rw [Search.tell]
  cases hfin : isFinite value with
  | false => exact .inl ⟨rfl, rfl⟩
  | true =>
    refine .inr ⟨rfl, search.record pending value accept, ?_, rfl⟩
    have hmat : search.materializePending trial = (.ok (), search) := by
      rw [Search.materializePending, hfor]
      exact if_pos hm
    simp only [Bool.not_true, Bool.false_eq_true, if_false, hmat, hfor]

omit [TrialFloat F] [TrialEngine F E] in
theorem paired_some {round : ResidentRound F} (hr : s.pending = some round) (h : s.Paired) :
    ∃ pending, s.search.pending = some pending ∧ pending.id = round.trial.id ∧
      pending.materialized = true := by
  rw [Paired, hr] at h
  exact h

omit [TrialFloat F] [TrialEngine F E] in
theorem paired_none (hr : s.pending = none) (h : s.Paired) : s.search.pending = none := by
  rw [Paired, hr] at h
  exact h

/-- An ask fails and leaves both markers, or sets both. -/
theorem ask_cases (s : ResidentBoState F E) (seeds : List UInt64) (config : Ask F) :
    (∃ e search, s.ask seeds config = (.error e, { s with search }) ∧
      search.pending = s.search.pending) ∨
    ∃ round search, s.ask seeds config = (.ok round, { s with search, pending := some round }) ∧
      s.pending = none ∧ ResidentBoState.Paired { s with search, pending := some round } ∧
      checkAsk seeds search.history.length config = .ok () := by
  rw [ask]
  split
  next => exact .inl ⟨_, s.search, rfl, rfl⟩
  next hp =>
    rcases search_ask_cases s.search seeds config with
      ⟨e, engine, he⟩ | ⟨trial, pending, htrial, -, hpending, hid, hm, hlen, hcheck⟩
    · rw [he]
      exact .inl ⟨e, _, rfl, rfl⟩
    · obtain ⟨search, hsearch⟩ : ∃ search, s.search.ask seeds config = (.ok trial, search) :=
        ⟨_, Prod.ext htrial rfl⟩
      rw [hsearch] at hpending hlen ⊢
      refine .inr ⟨_, search, rfl, Option.not_isSome_iff_eq_none.1 hp,
        ⟨pending, hpending, hid, hm⟩, ?_⟩
      rwa [hlen]

/-- Only the matching round with a reward that is not finite makes a tell lose the marker. -/
theorem Paired.tell_cases (h : s.Paired) (round : ResidentRound F) (reward : F) (accept : Bool) :
    ((∀ pending ∈ s.pending, pending.same round = false) ∧
      ∃ e, s.tell round reward accept = (.error e, s)) ∨
    ∃ pending, s.pending = some pending ∧ pending.same round = true ∧
      ((isFinite reward = false ∧
          s.tell round reward accept =
            (.error "trial value must be finite", { s with pending := none })) ∨
        isFinite reward = true ∧ ∃ search rewards, search.pending = none ∧
          s.tell round reward accept = (.ok (), { s with search, pending := none, rewards })) := by
  cases hp : s.pending with
  | none =>
    refine .inl ⟨by rintro _ ⟨⟩, "no resident forward round is pending", ?_⟩
    rw [tell, hp]
  | some pending =>
    cases hsame : pending.same round with
    | false =>
      refine .inl ⟨?_, "resident forward round does not match pending trial", ?_⟩
      · rintro _ ⟨⟩
        exact hsame
      · simp only [tell, hp, hsame, Bool.not_false, if_true]
        rw [← hp]
    | true =>
      obtain ⟨p, hsearch, hid, hm⟩ := paired_some hp h
      have hround : pending.trial.id = round.trial.id := by
        simp only [ResidentRound.same, Bool.and_eq_true, beq_iff_eq] at hsame
        exact hsame.1.1.1.1
      refine .inr ⟨pending, rfl, hsame, ?_⟩
      rcases search_tell_cases hsearch (hid.trans hround) hm reward accept with
        ⟨hfin, htell⟩ | ⟨hfin, search', htell, hnone⟩
      · refine .inl ⟨hfin, ?_⟩
        simp only [tell, hp, hsame, Bool.not_true, Bool.false_eq_true, if_false, htell]
      · refine .inr ⟨hfin, search', s.rewards ++ [reward], hnone, ?_⟩
        simp only [tell, hp, hsame, Bool.not_true, Bool.false_eq_true, if_false, htell]

theorem not_acceptsAsk (hp : s.search.pending.isSome = true)
    (hcheck : checkAsk seeds s.search.history.length config = .ok ()) : ¬ s.AcceptsAsk := by
  rintro ⟨hnone, haccepts⟩
  refine haccepts seeds config hcheck "tell must finish the pending trial before ask"
    (List.mem_cons_of_mem _ (List.mem_singleton_self _)) ?_
  rw [ask, hnone, Search.ask, Search.askWithMaterialization, if_pos hp]
  rfl

/-- Asking and evaluating ends well, or fails before the round, or blocks the session. -/
theorem askEvaluate_cases (s : ResidentBoState F E) (seeds : List UInt64) (config : Ask F)
    (evaluate : ResidentRound F → ForwardProgram → Except String F) (accept : Bool) :
    (∃ e search, s.ask seeds config = (.error e, { s with search }) ∧
      search.pending = s.search.pending ∧
      s.askEvaluate seeds config evaluate accept = (.error e, { s with search })) ∨
    s.pending = none ∧
      ((s.Finite (.askEvaluate seeds config evaluate accept) ∧
          ∃ result s', s.askEvaluate seeds config evaluate accept = (.ok result, s') ∧
            s'.pending = none ∧ s'.search.pending = none) ∨
        ¬ s.Finite (.askEvaluate seeds config evaluate accept) ∧
          ∃ e s', s.askEvaluate seeds config evaluate accept = (.error e, s') ∧
            ¬ s'.AcceptsAsk) := by
  rcases s.ask_cases seeds config with
    ⟨e, search, he, hp⟩ | ⟨round, search, hask, hnone, hpaired, hcheck⟩
  · refine .inl ⟨e, search, he, hp, ?_⟩
    rw [askEvaluate, he]
  · refine .inr ⟨hnone, ?_⟩
    rw [Finite, askEvaluate, hask]
    dsimp only
    cases heval : evaluate round s.program with
    | error e =>
      refine .inr ⟨?_, e, _, rfl, ?_⟩
      · intro hfin
        obtain ⟨-, reward, hreward, -⟩ := hfin round rfl
        rw [heval] at hreward
        cases hreward
      · rintro ⟨⟨⟩, -⟩
    | ok reward =>
      dsimp only
      rcases hpaired.tell_cases round reward accept with
        ⟨hdiffers, e, he⟩ | ⟨pending, hp, hsame, ⟨hinf, he⟩ | ⟨hfin, search', rewards, hp', he⟩⟩
      · rw [he]
        refine .inr ⟨?_, e, _, rfl, ?_⟩
        · intro hfin
          have hsame := hdiffers round rfl
          rw [(hfin round rfl).1] at hsame
          cases hsame
        · rintro ⟨⟨⟩, -⟩
      · cases hp
        rw [he]
        refine .inr ⟨?_, _, _, rfl, ?_⟩
        · intro hfin
          obtain ⟨-, reward', hreward, hreward'⟩ := hfin round rfl
          rw [heval] at hreward
          cases hreward
          rw [hinf] at hreward'
          cases hreward'
        · obtain ⟨p, hp, -⟩ := hpaired
          exact not_acceptsAsk (Option.isSome_iff_exists.2 ⟨p, hp⟩) hcheck
      · cases hp
        rw [he]
        refine .inl ⟨?_, _, _, rfl, rfl, hp'⟩
        rintro _ ⟨⟩
        exact ⟨hsame, reward, heval, hfin⟩

/-- A call with finite rewards keeps the markers together. -/
theorem Paired.run (h : s.Paired) {command : Command F} (hfin : s.Finite command) :
    (s.run command).Paired := by
  cases command with
  | ask seeds config =>
    rw [ResidentBoState.run]
    rcases s.ask_cases seeds config with ⟨e, search, he, hp⟩ | ⟨round, search, he, -, hpaired, -⟩
    · rw [he]
      simp only [Paired, hp] at h ⊢
      exact h
    · rw [he]
      exact hpaired
  | tell round reward accept =>
    rw [ResidentBoState.run]
    rcases h.tell_cases round reward accept with
      ⟨-, e, he⟩ | ⟨pending, hp, hsame, ⟨hinf, -⟩ | ⟨-, search, rewards, hnone, he⟩⟩
    · rw [he]
      exact h
    · rw [hfin pending hp hsame] at hinf
      cases hinf
    · rw [he]
      exact hnone
  | askEvaluate seeds config evaluate accept =>
    rw [ResidentBoState.run]
    rcases s.askEvaluate_cases seeds config evaluate accept with
      ⟨e, search, -, hp, he⟩ | ⟨-, ⟨-, result, s', he, hp, hp'⟩ | ⟨hnot, -⟩⟩
    · rw [he]
      simp only [Paired, hp] at h ⊢
      exact h
    · rw [he, Paired, hp]
      exact hp'
    · exact absurd hfin hnot

end Lemmas

/-- A session that calls with finite rewards lead to. -/
inductive Reachable : ResidentBoState F E → Prop
  | new {base : Row} {baseValue : F} {leaves : List (Leaf F)} {capacity : ℕ}
      {program : ForwardProgram} {s : ResidentBoState F E} :
      ResidentBoState.new base baseValue leaves capacity program = .ok s → Reachable s
  | run {s : ResidentBoState F E} {command : Command F} :
      Reachable s → s.Finite command → Reachable (s.run command)

theorem paired_new {base : Row} {baseValue : F} {leaves : List (Leaf F)} {capacity : ℕ}
    {program : ForwardProgram} {s : ResidentBoState F E}
    (h : ResidentBoState.new base baseValue leaves capacity program = .ok s) : s.Paired := by
  rw [ResidentBoState.new] at h
  split at h
  · cases h
  next search hsearch =>
    cases h
    rw [Search.new] at hsearch
    split at hsearch
    · cases hsearch
    split at hsearch
    · cases hsearch
    split at hsearch
    · cases hsearch
    split at hsearch
    · cases hsearch
    split at hsearch
    · cases hsearch
    · cases hsearch
      rfl

theorem Reachable.paired {s : ResidentBoState F E} (h : Reachable s) : s.Paired := by
  induction h with
  | new h => exact paired_new h
  | run _ hfin ih => exact ih.run hfin

/-- The engine's own errors are not the refusals of a pending trial. -/
def OwnErrors (F E : Type) [TrialFloat F] [TrialEngine F E] : Prop :=
  ∀ (engine engine' : E) (base : ℕ) (history : List (ℕ × F)) (slot : ℕ) (seeds : List UInt64)
    (leaves : List (Leaf F)) (config : Ask F) (materializeRow : Bool) (e : String),
    TrialEngine.ask engine base history slot seeds leaves config materializeRow =
      (.error e, engine') → e ∉ pendingRefusals

/-- With neither marker set, an ask is refused for other reasons only. -/
theorem acceptsAsk (hE : OwnErrors F E) {s : ResidentBoState F E} (hp : s.pending = none)
    (hp' : s.search.pending = none) : s.AcceptsAsk := by
  refine ⟨hp, fun seeds config hcheck e he hask => ?_⟩
  rw [ask, hp, Search.ask, Search.askWithMaterialization, hp', hcheck] at hask
  simp only [Option.isSome_none, Bool.false_eq_true, if_false] at hask
  cases hslot : s.search.freeSlot with
  | none =>
    rw [hslot] at hask
    cases hask
    revert he
    decide
  | some slot =>
    rw [hslot] at hask
    dsimp only at hask
    rcases hanswer : TrialEngine.ask s.search.engine s.search.base s.search.observed slot seeds
      s.search.leaves config true with ⟨e' | answer, engine⟩
    · rw [hanswer] at hask
      cases hask
      exact hE _ _ _ _ _ _ _ _ _ _ hanswer he
    · rw [hanswer] at hask
      cases hask

/--
In every session that finite rewards lead to, a call that fails leaves a session
that can go on exactly when its reward is finite.
-/
theorem goesOn_iff (hE : OwnErrors F E) {s : ResidentBoState F E} (h : Reachable s)
    (command : Command F) : s.GoesOn command ↔ s.Finite command := by
  have hpaired := h.paired
  cases command with
  | ask seeds config => exact Iff.rfl
  | tell round reward accept =>
    rw [GoesOn, Finite]
    rcases hpaired.tell_cases round reward accept with
      ⟨hdiffers, e, he⟩ | ⟨pending, hp, hsame, ⟨hinf, he⟩ | ⟨hfin, search, rewards, -, he⟩⟩
    · rw [he]
      refine ⟨fun _ pending hp hsame => ?_, fun _ _ _ => rfl⟩
      rw [hdiffers pending hp] at hsame
      cases hsame
    · rw [he]
      constructor
      · intro hsame'
        have hpending := congrArg ResidentBoState.pending (hsame' _ rfl)
        rw [hp] at hpending
        cases hpending
      · intro hfin
        rw [hfin pending hp hsame] at hinf
        cases hinf
    · rw [he]
      constructor
      · rintro - _ - -
        exact hfin
      · rintro - e ⟨⟩
  | askEvaluate seeds config evaluate accept =>
    rw [GoesOn]
    rcases s.askEvaluate_cases seeds config evaluate accept with
      ⟨e, search, hask, hsearch, he⟩ |
        ⟨hnone, ⟨hfin, result, s', he, -⟩ | ⟨hnot, e, s', he, hblocked⟩⟩
    · rw [he, Finite, hask]
      constructor
      · rintro - round ⟨⟩
      · rintro - hnone _ ⟨⟩
        exact acceptsAsk hE hnone (hsearch.trans (paired_none hnone hpaired))
    · rw [he]
      constructor
      · exact fun _ => hfin
      · rintro - - e ⟨⟩
    · rw [he]
      constructor
      · intro haccepts
        exact absurd (haccepts hnone e rfl) hblocked
      · exact fun hfin => absurd hfin hnot

end ResidentBoState

section Example

def shortProgram : ForwardProgram :=
  { ops := [.perturbPackedWeights, .matmul, .reduceObjective], version := 1 }

def oneByteState : ResidentBoState ℚ Cpu :=
  { search := oneByteSearch, program := shortProgram, pending := none, rewards := [] }

theorem new_oneByteState :
    ResidentBoState.new [100] 0 [oneByteLeaf] 2 shortProgram = .ok oneByteState := by rfl

def oneByteRound : ResidentRound ℚ :=
  { trial := oneByteSearch.chosen [5] oneByteAsk, programVersion := 1 }

def oneByteAsked : ResidentBoState ℚ Cpu := oneByteState.run (.ask [5] oneByteAsk)

theorem reachable_oneByteAsked : oneByteAsked.Reachable :=
  .run (.new new_oneByteState) trivial

/-- After a reward that is not finite, the round can be told no more. -/
theorem not_goesOn_infinite :
    ¬ ∀ (s : ResidentBoState ℚ Cpu) (command : Command ℚ), s.Reachable → s.GoesOn command := by
  intro h
  have hsame := h oneByteAsked (.tell oneByteRound (10 ^ 40) true) reachable_oneByteAsked
    "trial value must be finite" (by decide +kernel)
  have hpending := congrArg (fun s => s.pending.isSome) hsame
  revert hpending
  decide +kernel

theorem ownErrors_cpu : ResidentBoState.OwnErrors ℚ Cpu := by
  intro engine engine' base history slot seeds leaves config m e h
  cases h

theorem goesOn_oneByte_iff :
    oneByteAsked.GoesOn (.tell oneByteRound 1 true) ↔
      oneByteAsked.Finite (.tell oneByteRound 1 true) :=
  ResidentBoState.goesOn_iff ownErrors_cpu reachable_oneByteAsked (.tell oneByteRound 1 true)

end Example

end Ennbo.Forward
