import Ennbo.Strategy.Crediting
import Ennbo.Strategy.TurboProposals

/-! # The initial phase

A hybrid optimizer begins with an initial phase. The phase ends with the batch that
brings the rows taken in to the number asked for, and leaves the region as it was built.
-/

namespace Ennbo

namespace Optimizer

section Strategies

variable {D : Type} [Floating D] [Analysis D] [Rounding D] {st : Strategy}

omit [Floating D] [Analysis D] [Rounding D] in
theorem keeps_strategy_onRegion {α : Type} (c : Call (TrustRegionState D) α) :
    Call.Keeps (fun o : Optimizer D => o.strategy = st) (onRegion c) := fun _ h => h

omit [Rounding D] in
theorem keeps_strategy_tellCommon (t : Tell D) :
    Call.Keeps (fun o : Optimizer D => o.strategy = st) (tellCommon t) := by
  unfold tellCommon
  refine Call.keeps_get.bind fun o => (Call.keeps_ofOutcome _).bind fun _ => ?_
  refine (Call.keeps_ofOutcome _).bind fun counts => (Call.keeps_ofOutcome _).bind fun _ => ?_
  refine Call.Keeps.bind (fun _ h => h) fun _ => ?_
  refine Call.Keeps.bind ?_ fun _ => (Call.keeps_ofOutcome _).bind fun incumbent => ?_
  · unfold morboRanges
    exact Call.keeps_get.bind fun _ => (keeps_strategy_onRegion _).ite (Call.keeps_pure _)
  · refine Call.Keeps.bind (fun _ h => h) fun _ => ?_
    unfold morboIncumbent
    refine Call.keeps_get.bind fun _ => Call.Keeps.ite ?_ (Call.keeps_pure _)
    exact (Call.keeps_ofOutcome _).bind fun _ => keeps_strategy_onRegion _

theorem keeps_strategy_tellTurbo (t : Tell D) :
    Call.Keeps (fun o : Optimizer D => o.strategy = st) (tellTurbo t) := by
  unfold tellTurbo
  refine (keeps_strategy_tellCommon t).bind fun _ => Call.Keeps.bind ?_ fun _ => ?_
  · unfold tellRegion turboWatermark
    refine Call.keeps_get.bind fun _ => (Call.keeps_ofOutcome _).bind fun _ => ?_
    refine (keeps_strategy_onRegion _).bind fun _ => Call.Keeps.ite ?_ (Call.keeps_pure _)
    refine Call.Keeps.bind ?_ fun _ => keeps_strategy_onRegion _
    exact Call.keeps_get.bind fun _ => (keeps_strategy_onRegion _).ite (Call.keeps_pure _)
  · unfold restartRegion morboSyncRangesFromObs
    refine Call.keeps_get.bind fun _ => Call.Keeps.ite ?_ (Call.keeps_pure _)
    refine (keeps_strategy_onRegion _).bind fun _ => Call.Keeps.bind (fun _ h => h) fun _ => ?_
    refine Call.keeps_get.bind fun _ => (Call.keeps_pure _).ite ?_
    refine (Call.keeps_ofOutcome _).bind fun yObs => ?_
    cases yObs with
    | none => exact Call.keeps_pure _
    | some yAll => exact (Call.keeps_pure _).ite (keeps_strategy_onRegion _)

theorem keeps_strategy_ask (numArms : ℕ) (us : ℕ → D) :
    Call.Keeps (fun o : Optimizer D => o.strategy = st) (ask numArms us) := by
  unfold ask
  refine Call.keeps_get.bind fun _ => (Call.keeps_pure _).ite ?_
  refine (keeps_strategy_onRegion _).bind fun _ => (keeps_strategy_onRegion _).bind fun _ => ?_
  exact (keeps_strategy_onRegion _).ite (Call.keeps_pure _)

end Strategies

section Phases

variable {D : Type} [Floating D] [Analysis D] [Rounding D] {numInit : ℕ}
  {region : TrustRegionState D} {sizes : List ℕ} {o : Optimizer D}

/-- A hybrid optimizer that batches of some sizes were taken in by. -/
inductive Phase (numInit : ℕ) (region : TrustRegionState D) (sizes : List ℕ) (o : Optimizer D) :
    Prop where
  | initial (strategy : o.strategy = .hybrid ⟨numInit, sizes.sum⟩ true)
    (room : sizes = [] ∨ sizes.sum < numInit) (trState : o.trState = region)
  | turbo (completed : ℕ) (strategy : o.strategy = .hybrid ⟨numInit, completed⟩ false)
    (ne : sizes ≠ []) (le : numInit ≤ completed) (sum : completed ≤ sizes.sum)

omit [Floating D] [Analysis D] [Rounding D] in
theorem Phase.inInit_iff (h : Phase numInit region sizes o) :
    o.inInit = true ↔ sizes = [] ∨ sizes.sum < numInit := by
  unfold inInit
  cases h with
  | initial hstrategy hroom =>
    rw [hstrategy]
    exact iff_of_true rfl hroom
  | turbo completed hstrategy hne hle hsum =>
    rw [hstrategy]
    exact iff_of_false (by simp) (not_or.mpr ⟨hne, not_lt.mpr (hle.trans hsum)⟩)

/-- The rows of a batch, when it is taken in. -/
def takenIn (t : Tell D) (o : Optimizer D) : List ℕ :=
  match (tell t o).1 with
  | .ok _ => [t.x.nrows]
  | .error _ => []

/-- A tell of the initial phase counts its rows, a later one leaves the phase as it is. -/
theorem Phase.tell (hturbo : region.isMorbo = false) (h : Phase numInit region sizes o)
    (t : Tell D) : Phase numInit region (sizes ++ takenIn t o) (Optimizer.tell t o).2 := by
  cases h with
  | initial hstrategy hroom htrState =>
    have htell : Optimizer.tell t o = (do
        tellCommon t
        Call.modify (completeInit t) : Call (Optimizer D) Unit) o := by
      unfold Optimizer.tell
      rw [Call.get_bind_apply, if_pos (by rw [inInit, hstrategy])]
    have hstrategy' := keeps_strategy_tellCommon t o hstrategy
    have htrState' := keeps_trState_tellCommon t hturbo o htrState
    unfold takenIn
    rw [htell]
    rcases hcommon : tellCommon t o with ⟨e | ⟨⟩, o'⟩
    · rw [Call.bind_apply_of_error _ hcommon, List.append_nil]
      rw [hcommon] at hstrategy' htrState'
      exact .initial hstrategy' hroom htrState'
    · rw [Call.bind_apply_of_ok _ hcommon]
      rw [hcommon] at hstrategy' htrState'
      change Phase numInit region (sizes ++ [t.x.nrows]) (completeInit t o')
      have hcomplete : (completeInit t o').strategy =
          .hybrid ⟨numInit, (sizes ++ [t.x.nrows]).sum⟩
            (decide ((sizes ++ [t.x.nrows]).sum < numInit)) := by
        rw [completeInit, hstrategy']
        simp
      by_cases hlt : (sizes ++ [t.x.nrows]).sum < numInit
      · rw [decide_eq_true hlt] at hcomplete
        exact .initial hcomplete (.inr hlt) htrState'
      · rw [decide_eq_false hlt] at hcomplete
        exact .turbo _ hcomplete (List.concat_ne_nil _ _) (not_lt.mp hlt) le_rfl
  | turbo completed hstrategy hne hle hsum =>
    have hkeeps : (Optimizer.tell t o).2.strategy = .hybrid ⟨numInit, completed⟩ false := by
      unfold Optimizer.tell
      rw [Call.get_bind_apply, if_neg (by rw [inInit, hstrategy]; exact Bool.false_ne_true)]
      exact keeps_strategy_tellTurbo t o hstrategy
    refine .turbo completed hkeeps (List.append_ne_nil_of_left_ne_nil hne _) hle (hsum.trans ?_)
    rw [List.sum_append]
    exact Nat.le_add_right _ _

theorem Phase.keeps_ask (numArms : ℕ) (us : ℕ → D) :
    Call.Keeps (Phase numInit region sizes) (ask numArms us) := by
  intro o h
  cases h with
  | initial hstrategy hroom htrState =>
    unfold ask
    rw [Call.get_bind_apply, if_pos (by rw [inInit, hstrategy])]
    exact .initial hstrategy hroom htrState
  | turbo completed hstrategy hne hle hsum =>
    exact .turbo completed (keeps_strategy_ask numArms us o hstrategy) hne hle hsum

end Phases

end Optimizer

namespace TurboSession

variable {K ρ : Type} [ExactArith K] [Analysis K] [Rounding K] [FloatToUsize K] [FloatRem K]
  [RandomGenerator K ρ] {numInit : ℕ} {region : TrustRegionState K} {sizes : List ℕ}
  {s : TurboSession K ρ}

/-- The sizes of the batches that a run takes in. -/
def takenIn (config : AskConfig K) : List (TurboCall K ρ) → TurboSession K ρ → List ℕ
  | [], _ => []
  | .ask numArms us :: calls, s => takenIn config calls (TurboCall.run config s (.ask numArms us))
  | .tell t :: calls, s =>
    Optimizer.takenIn t.toTell s.optimizer ++
      takenIn config calls (TurboCall.run config s (.tell t))

theorem phase_after (hturbo : region.isMorbo = false) (config : AskConfig K)
    (calls : List (TurboCall K ρ)) (h : s.optimizer.Phase numInit region sizes) :
    (s.after config calls).optimizer.Phase numInit region (sizes ++ takenIn config calls s) := by
  induction calls generalizing s sizes with
  | nil => rwa [takenIn, List.append_nil]
  | cons c calls ih =>
    cases c with
    | ask numArms us =>
      have hask : Call.Keeps (Holds (Optimizer.Phase numInit region sizes)
          (fun _ : Source K ρ => True) (fun _ _ _ => True)) (ask config numArms us) :=
        keeps_ask (Optimizer.Phase.keeps_ask numArms us) (fun _ _ _ _ _ _ => trivial)
          fun _ _ _ => trivial
      exact ih (hask s ⟨h, trivial, trivial⟩).optimizer
    | tell t =>
      rw [takenIn, ← List.append_assoc]
      exact ih (h.tell hturbo t.toTell)

/-- The initial phase lasts until as many rows as are asked for are taken in, and one batch at
least. Until then the region is the one that was built. -/
theorem phase_of_run
    (hstrategy : s.optimizer.strategy = .hybrid ⟨numInit, 0⟩ true)
    (hturbo : s.optimizer.trState.isMorbo = false) (config : AskConfig K)
    (calls : List (TurboCall K ρ)) :
    ((s.after config calls).optimizer.inInit = true ↔
        takenIn config calls s = [] ∨ (takenIn config calls s).sum < numInit) ∧
      ((s.after config calls).optimizer.inInit = true →
        (s.after config calls).optimizer.trState = s.optimizer.trState) := by
  have hphase := phase_after hturbo config calls (.initial hstrategy (.inl rfl) rfl)
  rw [List.nil_append] at hphase
  refine ⟨hphase.inInit_iff, fun hinit => ?_⟩
  cases hphase with
  | initial _ _ htrState => exact htrState
  | turbo completed hturbo =>
    rw [Optimizer.inInit, hturbo] at hinit
    cases hinit

/-- An initial phase of three rows. -/
def hybridRegion : TurboSession ℚ Counter :=
  { oneRegion with
    optimizer := .new (.turbo (.new 1 .default)) (.hybrid ⟨3, 0⟩ true) (.new false []) }

def hybridCalls : List (TurboCall ℚ Counter) :=
  [.ask 2 fun _ => 0, .tell Session.twoValues, .ask 2 fun _ => 0, .tell Session.twoValues]

theorem phase_of_run_hybrid :
    ((hybridRegion.after Session.twoCandidates hybridCalls).optimizer.inInit = true ↔
        takenIn Session.twoCandidates hybridCalls hybridRegion = [] ∨
          (takenIn Session.twoCandidates hybridCalls hybridRegion).sum < 3) ∧
      ((hybridRegion.after Session.twoCandidates hybridCalls).optimizer.inInit = true →
        (hybridRegion.after Session.twoCandidates hybridCalls).optimizer.trState =
          hybridRegion.optimizer.trState) :=
  phase_of_run rfl rfl Session.twoCandidates hybridCalls

end TurboSession

end Ennbo
