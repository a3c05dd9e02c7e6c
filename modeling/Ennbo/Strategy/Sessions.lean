import Ennbo.Strategy.Experimental

/-! # Sessions

A session is a sequence of asks and tells, some of which fail. Whatever is asked
and told, every region stays a box in the unit cube, and as long as the incumbents
have the right width every region is active between the calls.
-/

namespace Ennbo

theorem MorboTrustRegion.ofExcept_eq_ok {α : Type} {x : Except TrustRegionError α} {a : α} :
    MorboTrustRegion.ofExcept x = .ok a ↔ x = .ok a := by
  cases x <;> simp [MorboTrustRegion.ofExcept, Except.mapError]

theorem Call.keeps_foldlM {σ β : Type} {P : σ → Prop} {f : β → Call σ Unit}
    (h : ∀ b, Call.Keeps P (f b)) (bs : List β) :
    Call.Keeps P (bs.foldlM (fun _ b => f b) ()) := by
  induction bs with
  | nil => exact Call.keeps_pure _
  | cons b bs ih =>
    rw [List.foldlM_cons]
    exact (h b).bind fun _ => ih

namespace MultiTrustRegionState

section Regions

variable {D : Type} [Floating D] [Analysis D] {M : ℕ} {R : MultiTrustRegionState D M → Prop}
  {center : List D}

theorem keeps_tellCall {x : Array2 D} {y : List D} {regions : Option (List ℕ)}
    (h : ∀ s s', R s → s.tell x y regions = .ok s' → R s') :
    Call.Keeps R (tellCall x y regions) := by
  intro s hs
  apply Call.Keeps.get_bind _ hs
  apply Call.Keeps.ofOutcome_bind
  intro s' hs'
  exact Call.keeps_modify fun _ _ => h s s' hs (MorboTrustRegion.ofExcept_eq_ok.mp hs')

variable (hrestart : ∀ (s s' : MultiTrustRegionState D M) (r : Fin M), R s →
  s.restartRegion r center = .ok s' → R s')

include hrestart

theorem keeps_restartOne (r : Fin M) : Call.Keeps R (restartOne center r) := by
  intro s hs
  apply Call.Keeps.get_bind _ hs
  apply Call.Keeps.ofOutcome_bind
  intro s' hs'
  exact Call.keeps_modify fun _ _ => hrestart s s' r hs (MorboTrustRegion.ofExcept_eq_ok.mp hs')

theorem keeps_restartAllRegions : Call.Keeps R (restartAllRegions center) :=
  Call.keeps_get.bind fun _ => (Call.keeps_pure ()).ite
    (Call.keeps_foldlM (keeps_restartOne hrestart) _)

theorem keeps_restartInactive : Call.Keeps R (restartInactive center) := by
  refine Call.keeps_get.bind fun _ => (keeps_restartAllRegions hrestart).ite ?_
  apply Call.keeps_foldlM
  intro r
  exact Call.keeps_get.bind fun _ => (Call.keeps_pure ()).ite (keeps_restartOne hrestart r)

end Regions

section Restarts

variable {D : Type} [Floating D] [Analysis D] {M : ℕ} {s : MultiTrustRegionState D M}
  {center : List D}

def revive (config : MultiTrustRegionConfig D) (center : List D) (region : Region D) : Region D :=
  if region.active then region else freshRegion config (center.map fun c => clamp c 0 1)

def revived (s : MultiTrustRegionState D M) (center : List D) : MultiTrustRegionState D M :=
  { s with regions := fun r => revive s.config center (s.regions r) }

theorem returns_restartOne (hwidth : center.length = s.numDim) (r : Fin M) :
    Call.Returns (restartOne center r) s ()
      { s with
        regions := Function.update s.regions r
          (freshRegion s.config (center.map fun c => clamp c 0 1)) } := by
  unfold restartOne
  simp only [Call.returns_bind, Call.returns_get, Call.returns_ofOutcome, Call.returns_modify,
    MorboTrustRegion.ofExcept_eq_ok]
  refine ⟨s, s, ⟨rfl, rfl⟩, _, s, ⟨?_, rfl⟩, rfl⟩
  unfold MultiTrustRegionState.restartRegion
  rw [dif_pos r.isLt, if_neg (not_not.mpr hwidth)]

omit [Floating D] [Analysis D] in
/-- A loop in which each region is changed in its turn. -/
theorem returns_foldlM_regions {step : Fin M → Call (MultiTrustRegionState D M) Unit}
    (g : Region D → Region D)
    (hstep : ∀ r regions, Call.Returns (step r) { s with regions := regions } ()
      { s with regions := Function.update regions r (g (regions r)) }) :
    Call.Returns ((List.finRange M).foldlM (fun _ r => step r) ()) s ()
      { s with regions := fun r => g (s.regions r) } := by
  have hloop : ∀ (rs : List (Fin M)) (regions : Fin M → Region D), rs.Nodup →
      Call.Returns (rs.foldlM (fun _ r => step r) ()) { s with regions := regions } ()
        { s with regions := fun q => if q ∈ rs then g (regions q) else regions q } := by
    intro rs
    induction rs with
    | nil => exact fun regions _ => Call.returns_pure.mpr ⟨rfl, by simp⟩
    | cons r rs ih =>
      intro regions hnodup
      obtain ⟨hr, hrs⟩ := List.nodup_cons.mp hnodup
      rw [List.foldlM_cons, Call.returns_bind]
      refine ⟨(), _, hstep r regions, ?_⟩
      have hrest := ih (Function.update regions r (g (regions r))) hrs
      convert hrest using 2
      ext q
      by_cases hq : q = r
      · subst hq
        simp [hr]
      · simp [hq]
  have h := hloop (List.finRange M) s.regions (List.nodup_finRange M)
  simpa using h

omit [Floating D] [Analysis D] in
theorem activeCount_eq_zero_iff : s.activeCount = 0 ↔ ∀ r, (s.regions r).active = false := by
  simp [activeCount, activeRegions]

theorem returns_restartAllRegions (hwidth : center.length = s.numDim) :
    Call.Returns (restartAllRegions center) s ()
      (if 0 < s.activeCount then s else revived s center) := by
  unfold restartAllRegions
  rw [Call.returns_bind]
  refine ⟨s, s, Call.returns_get.mpr ⟨rfl, rfl⟩, ?_⟩
  by_cases hcount : 0 < s.activeCount
  · rw [if_pos hcount, if_pos hcount]
    exact Call.returns_pure.mpr ⟨rfl, rfl⟩
  · rw [if_neg hcount, if_neg hcount]
    have hinactive := activeCount_eq_zero_iff.mp (Nat.eq_zero_of_not_pos hcount)
    have hrevived : revived s center = { s with
        regions := fun _ => freshRegion s.config (center.map fun c => clamp c 0 1) } := by
      simp [revived, revive, hinactive]
    rw [hrevived]
    exact returns_foldlM_regions (fun _ => freshRegion s.config _) fun r regions =>
      returns_restartOne (s := { s with regions := regions }) hwidth r

theorem returns_restartInactive (hwidth : center.length = s.numDim) :
    Call.Returns (restartInactive center) s () (revived s center) := by
  unfold restartInactive
  rw [Call.returns_bind]
  refine ⟨s, s, Call.returns_get.mpr ⟨rfl, rfl⟩, ?_⟩
  by_cases hcount : s.activeCount = 0
  · have hall := returns_restartAllRegions hwidth
    rw [if_neg (by omega)] at hall
    rw [if_pos hcount]
    exact hall
  · rw [if_neg hcount]
    apply returns_foldlM_regions (revive s.config center)
    intro r regions
    unfold restartIfInactive revive
    rw [Call.returns_bind]
    refine ⟨_, _, Call.returns_get.mpr ⟨rfl, rfl⟩, ?_⟩
    dsimp only
    cases hactive : (regions r).active with
    | true => exact Call.returns_pure.mpr ⟨rfl, by simp⟩
    | false =>
      simpa using returns_restartOne (s := { s with regions := regions }) hwidth r

end Restarts

section Sound

variable {K ρ : Type} [ExactArith K] [Analysis K] {M n : ℕ}
  {config : MultiTrustRegionConfig K}

/-- The regions are as they should be. -/
structure Sound (config : MultiTrustRegionConfig K) (n : ℕ)
    (s : MultiTrustRegionState K M) : Prop where
  config_eq : s.config = config
  numDim_eq : s.numDim = n
  kept : s.Kept

variable {s s' : MultiTrustRegionState K M} {center : List K}

theorem Sound.restartRegion (hvalid : config.Valid) (h : s.Sound config n) {r : Fin M}
    (hrestart : s.restartRegion r center = .ok s') : s'.Sound config n := by
  have hkept := h.kept.restartRegion (h.config_eq.symm ▸ hvalid) hrestart
  rw [restartRegion_eq_ok hrestart] at hkept ⊢
  exact ⟨h.config_eq, h.numDim_eq, hkept⟩

theorem Sound.tell [ExactLiteral K] (hvalid : config.Valid)
    (hshared : config.sharingPolicy = .shared) (h : s.Sound config n) {x : Array2 K} {y : List K}
    {regions : Option (List ℕ)} (htell : s.tell x y regions = .ok s') : s'.Sound config n := by
  have hkept := h.kept.tell (h.config_eq.symm ▸ hvalid) (h.config_eq.symm ▸ hshared) htell
  obtain ⟨-, rfl⟩ | ⟨-, rfl⟩ := tell_eq_ok htell
  · exact ⟨h.config_eq, h.numDim_eq, hkept⟩
  · refine ⟨?_, ?_, hkept⟩
    · rw [foldl_tellRegion_config, h.config_eq]
    · rw [foldl_tellRegion_eq]
      exact h.numDim_eq

/-- All regions are active, and what they have seen is finite. -/
structure Running (config : MultiTrustRegionConfig K) (n : ℕ)
    (s : MultiTrustRegionState K M) : Prop extends s.Sound config n where
  means : s.FiniteMeans
  active : ∀ r, (s.regions r).active = true

theorem Sound.keeps_update [ExactLiteral K] (hvalid : config.Valid)
    (hshared : config.sharingPolicy = .shared) (x : Array2 K) (y : List K)
    (regions : Option (List ℕ)) (center : List K) :
    Call.Keeps (Sound config n : MultiTrustRegionState K M → Prop) (update x y regions center) :=
  (keeps_tellCall fun _ _ hs htell => hs.tell hvalid hshared htell).bind fun _ =>
    keeps_restartInactive fun _ _ _ hs hrestart => hs.restartRegion hvalid hrestart

theorem Sound.revived (hvalid : config.Valid) (h : s.Sound config n) (hwidth : center.length = n) :
    (revived s center).Sound config n where
  config_eq := h.config_eq
  numDim_eq := h.numDim_eq
  kept r := by
    have hvalid : s.config.Valid := h.config_eq.symm ▸ hvalid
    unfold MultiTrustRegionState.revived revive
    dsimp only
    split
    · exact h.kept r
    · apply kept_freshRegion hvalid
      · rw [List.length_map, hwidth, h.numDim_eq]
      · simp only [List.mem_map, forall_exists_index, and_imp]
        rintro _ c - rfl
        exact clamp_mem c

theorem Running.revived [FiniteInterval K] (hvalid : config.Valid) (h : s.Sound config n)
    (hmeans : s.FiniteMeans) (hwidth : center.length = n) :
    (revived s center).Running config n where
  toSound := h.revived hvalid hwidth
  means r := by
    unfold MultiTrustRegionState.revived revive
    dsimp only
    split
    · exact hmeans r
    · exact FiniteInterval.isFinite_zero
  active r := by
    unfold MultiTrustRegionState.revived revive
    dsimp only
    split
    · assumption
    · rfl

theorem Running.keeps_restartAllRegions [FiniteInterval K] (hvalid : config.Valid)
    (hwidth : center.length = n) :
    Call.Keeps (Running config n : MultiTrustRegionState K M → Prop)
      (restartAllRegions center) := by
  intro s hs
  rw [returns_restartAllRegions (hwidth.trans hs.numDim_eq.symm)]
  dsimp only
  split
  · exact hs
  · exact Running.revived hvalid hs.toSound hs.means hwidth

/-- A batch that is refused changes nothing, and after one that is taken in the regions that are
given up start again. -/
theorem Running.keeps_update [ExactLiteral K] [FiniteInterval K] (hvalid : config.Valid)
    (hshared : config.sharingPolicy = .shared) {y : List K} (hy : ∀ v ∈ y, isFinite v = true)
    (hwidth : center.length = n) (x : Array2 K) (regions : Option (List ℕ)) :
    Call.Keeps (Running config n : MultiTrustRegionState K M → Prop)
      (update x y regions center) := by
  have hfailing : Call.KeepsFailing (Running config n : MultiTrustRegionState K M → Prop)
      (tellCall x y regions) := by
    intro s hs hfail
    unfold tellCall at hfail ⊢
    rw [Call.get_bind_apply] at hfail ⊢
    cases htell : MorboTrustRegion.ofExcept (s.tell x y regions) with
    | error e => exact hs
    | ok s' =>
      rw [htell] at hfail
      exact absurd rfl (hfail ())
  apply hfailing.bind_keeps (Q := fun s => s.Sound config n ∧ s.FiniteMeans)
  · intro s hs
    refine keeps_tellCall (R := fun s => s.Sound config n ∧ s.FiniteMeans) ?_ s
      ⟨hs.toSound, hs.means⟩
    rintro s s' ⟨hsound, hmeans⟩ htell
    exact ⟨hsound.tell hvalid hshared htell, hmeans.tell hy htell⟩
  · rintro - s ⟨hsound, hmeans⟩
    rw [returns_restartInactive (hwidth.trans hsound.numDim_eq.symm)]
    exact Running.revived hvalid hsound hmeans hwidth

end Sound

end MultiTrustRegionState

open MultiTrustRegionState

namespace Session

section Keeping

variable {D ρ : Type} [Floating D] [Analysis D] [Rounding D] [FloatToUsize D] [FloatRem D]
  [RandomGenerator D ρ] {M : ℕ} {R : MultiTrustRegionState D M → Prop} {G : Source D ρ → Prop}
  {O : Optimizer D → Prop} {F : ℕ → Option (Surrogate D ρ) → Option (List D) → Prop}

/-- What holds of the parts of a session. -/
structure Holds (R : MultiTrustRegionState D M → Prop) (G : Source D ρ → Prop)
    (O : Optimizer D → Prop) (F : ℕ → Option (Surrogate D ρ) → Option (List D) → Prop)
    (s : Session D ρ M) : Prop where
  regions : R s.strategy.multiTr
  source : G s.source
  optimizer : O s.optimizer
  frame : F s.numDim s.surrogate s.incumbentXUnit

variable {α : Type}

omit [Floating D] [Analysis D] [Rounding D] [FloatToUsize D] [FloatRem D] [RandomGenerator D ρ] in
theorem keeps_onSource {c : Call (Source D ρ) α} (h : Call.Keeps G c) :
    Call.Keeps (Holds (M := M) R G O F) (onSource c) :=
  Call.keeps_on h (fun _ hs => hs.source) fun _ _ hs ht => ⟨hs.regions, ht, hs.optimizer, hs.frame⟩

omit [Floating D] [Analysis D] [Rounding D] [FloatToUsize D] [FloatRem D] [RandomGenerator D ρ] in
theorem keeps_onOptimizer {c : Call (Optimizer D) α} (h : Call.Keeps O c) :
    Call.Keeps (Holds (M := M) R G O F) (onOptimizer c) :=
  Call.keeps_on h (fun _ hs => hs.optimizer) fun _ _ hs ht => ⟨hs.regions, hs.source, ht, hs.frame⟩

omit [Floating D] [Analysis D] [Rounding D] [FloatToUsize D] [FloatRem D] [RandomGenerator D ρ] in
theorem keeps_onRegions {c : Call (MultiTrustRegionState D M) α} (h : Call.Keeps R c) :
    Call.Keeps (Holds R G O F) (onRegions c : Call (Session D ρ M) α) :=
  Call.keeps_on (Q := fun strategy => R strategy.multiTr)
    (Call.keeps_on h (fun _ hs => hs) fun _ _ _ ht => ht) (fun _ hs => hs.regions)
    fun _ _ hs ht => ⟨ht, hs.source, hs.optimizer, hs.frame⟩

omit [Floating D] [Analysis D] [Rounding D] [FloatToUsize D] [FloatRem D] [RandomGenerator D ρ] in
theorem keeps_setPending (pending : Option (List ℕ)) :
    Call.Keeps (Holds R G O F) (setPending pending : Call (Session D ρ M) Unit) :=
  fun _ hs => ⟨hs.regions, hs.source, hs.optimizer, hs.frame⟩

section Calls

variable {config : AskConfig D}

omit [Rounding D] in
theorem keeps_askRegions
    (hcandidates : ∀ (s : Session D ρ M) batch, Holds R G O F s →
      Call.Keeps G (candidatesOf config.candidates s batch))
    (hrng : ∀ {α : Type} (c : Call ρ α), Call.Keeps G (onRng c)) (numArms : ℕ) :
    Call.Keeps (Holds R G O F) (askRegions config numArms : Call (Session D ρ M) _) := by
  intro s hs
  apply Call.Keeps.get_bind _ hs
  apply Call.Keeps.ofOutcome_bind
  intro batches _
  have hblocks : Call.Keeps G (batches.mapM (candidatesOf config.candidates s)) :=
    Call.keeps_mapM (fun batch => hcandidates s batch hs) batches
  apply (keeps_onSource hblocks).bind
  intro blocks
  refine (Call.keeps_ofOutcome _).ite ?_
  apply Call.Keeps.ofOutcome_bind
  intro candidates _
  apply (keeps_onSource (hrng _)).bind
  intro indices
  exact (keeps_setPending _).bind fun _ => Call.keeps_ofOutcome _

omit [Rounding D] in
theorem keeps_ask
    (hrestart : ∀ s : Session D ρ M, Holds R G O F s →
      Call.Keeps R (restartAllRegions s.restartCenter))
    (hcandidates : ∀ (s : Session D ρ M) batch, Holds R G O F s →
      Call.Keeps G (candidatesOf config.candidates s batch))
    (hrng : ∀ {α : Type} (c : Call ρ α), Call.Keeps G (onRng c)) (numArms : ℕ) :
    Call.Keeps (Holds R G O F) (ask config numArms : Call (Session D ρ M) _) := by
  intro s hs
  apply Call.Keeps.get_bind _ hs
  apply Call.Keeps.ite
  · exact (keeps_setPending none).bind fun _ => keeps_onSource (hrng _)
  · exact (keeps_onRegions (hrestart s hs)).bind fun _ =>
      keeps_askRegions hcandidates hrng numArms

omit [Rounding D] [FloatToUsize D] [FloatRem D] [RandomGenerator D ρ] in
theorem keeps_tell {t : ExperimentalTell D ρ}
    (hframe : ∀ n sg x, F n sg x → F n t.surrogate t.incumbentX)
    (hcommon : Call.Keeps O (Optimizer.tellCommon t.toTell))
    (hupdate : ∀ (s : Session D ρ M) pending, Holds R G O F s →
      Call.Keeps R (update t.x t.y.zerothColumn pending s.restartCenter)) :
    Call.Keeps (Holds R G O F) (tell t : Call (Session D ρ M) Unit) := by
  unfold Session.tell
  refine (Call.keeps_ofOutcome _).ite ?_
  refine Call.Keeps.bind (fun _ hs =>
    ⟨hs.regions, hs.source, hs.optimizer, hframe _ _ _ hs.frame⟩) fun _ => ?_
  refine (keeps_onOptimizer hcommon).bind fun _ => ?_
  refine Call.Keeps.bind (fun _ hs => ⟨hs.regions, hs.source, hs.optimizer, hs.frame⟩) ?_
  intro _ s hs
  apply Call.Keeps.get_bind _ hs
  exact (keeps_setPending none).bind fun _ => keeps_onRegions (hupdate s _ hs)

end Calls

end Keeping

section Runs

variable {D ρ : Type} [Floating D] [Analysis D] [Rounding D] [FloatToUsize D] [FloatRem D]
  [RandomGenerator D ρ] {M : ℕ}

/-- A call on a session. -/
inductive SessionCall (D ρ : Type) where
  | ask (numArms : ℕ)
  | tell (t : ExperimentalTell D ρ)

def SessionCall.run (config : AskConfig D) (s : Session D ρ M) :
    SessionCall D ρ → Session D ρ M
  | .ask numArms => (Session.ask config numArms s).2
  | .tell t => (Session.tell t s).2

/-- The session after some calls, each of which may have failed. -/
def after (config : AskConfig D) (calls : List (SessionCall D ρ)) (s : Session D ρ M) :
    Session D ρ M :=
  calls.foldl (SessionCall.run config) s

omit [Rounding D] in
theorem holds_after {P : Session D ρ M → Prop} {config : AskConfig D}
    {calls : List (SessionCall D ρ)} {s : Session D ρ M}
    (h : ∀ c ∈ calls, ∀ s, P s → P (c.run config s)) (hs : P s) : P (s.after config calls) := by
  unfold after
  induction calls generalizing s with
  | nil => exact hs
  | cons c calls ih =>
    rw [List.forall_mem_cons] at h
    exact ih h.2 (h.1 s hs)

/-- A session starts with regions at centres that are drawn. -/
structure Starts (n : ℕ) (s : Session D ρ M) : Prop where
  numDim_eq : s.numDim = n
  strategy : ∃ numInit rng rng', Call.Returns
    (ExperimentalStrategyState.new M n numInit : Call ρ (ExperimentalStrategyState D M)) rng
      s.strategy rng'

end Runs

section Exact

variable {K ρ : Type} [ExactArith K] [Analysis K] [Rounding K] [FloatToUsize K] [FloatRem K]
  [ExactLiteral K] [RandomGenerator K ρ] [LawfulGenerator K ρ] {M n : ℕ} {s : Session K ρ M}

omit [Rounding K] [FloatToUsize K] [FloatRem K] in
theorem valid_new :
    (MultiTrustRegionConfig.new (TRLengthConfig.default : TRLengthConfig K)).Valid := by
  constructor <;> simp only [MultiTrustRegionConfig.new, TRLengthConfig.default,
    ExactLiteral.literal_eq] <;> norm_num

omit [Rounding K] [FloatToUsize K] [FloatRem K] [ExactLiteral K] in
theorem new_eq_ok {numDim : ℕ} {config : MultiTrustRegionConfig K} {draws : Fin M → List K}
    {m : MultiTrustRegionState K M}
    (h : MultiTrustRegionState.new numDim config none draws = .ok m) :
    m = ⟨numDim, fun r => freshRegion config (draws r), config⟩ := by
  unfold MultiTrustRegionState.new at h
  split at h
  next => cases h
  next =>
    split at h
    next => cases h
    next =>
      split at h
      next => cases h
      next => exact (Except.ok.inj h).symm

omit [Rounding K] [FloatToUsize K] [FloatRem K] [ExactLiteral K] in
/-- The centres that are drawn are in the unit cube. -/
theorem Starts.exists_centers (h : s.Starts n) :
    ∃ centers : Fin M → List K, (∀ r, (centers r).length = n ∧ ∀ c ∈ centers r, 0 ≤ c ∧ c ≤ 1) ∧
      s.strategy.multiTr = ⟨n, fun r => freshRegion (.new TRLengthConfig.default) (centers r),
        .new TRLengthConfig.default⟩ := by
  obtain ⟨numInit, rng, rng', hnew⟩ := h.strategy
  unfold ExperimentalStrategyState.new at hnew
  simp only [Call.returns_bind, Call.returns_ofOutcome, Call.returns_pure,
    MorboTrustRegion.ofExcept_eq_ok] at hnew
  obtain ⟨centers, rng₁, hdraws, multiTr, _, ⟨hmulti, rfl⟩, hstrategy, -⟩ := hnew
  have hrow : ∀ i ∈ List.range M, Call.Ends (fun _ : ρ => True) (fun _ => True)
      ((List.range n).mapM fun _ => RandomGenerator.sampleUniform (0 : K) 1)
      fun center => center.length = n ∧ ∀ c ∈ center, 0 ≤ c ∧ c ≤ 1 := by
    intro _ _
    apply (Call.ends_mapM fun _ _ => RandomGenerator.ends_sampleUniform one_pos).mono
    intro center hcenter
    refine ⟨by simpa using hcenter.length_eq.symm, fun c hc => ?_⟩
    obtain ⟨_, -, hmem⟩ := exists_mem_left hcenter hc
    exact ⟨hmem.1, hmem.2.le⟩
  obtain ⟨hcenters, -⟩ := (Call.ends_mapM hrow).of_returns trivial hdraws
  have hcenter : ∀ r : Fin M, (centers.getD r []).length = n ∧
      ∀ c ∈ centers.getD r [], 0 ≤ c ∧ c ≤ 1 := by
    intro r
    have hr : r.val < centers.length := by
      rw [← hcenters.length_eq, List.length_range]
      exact r.isLt
    rw [List.getD_eq_getElem _ _ hr]
    obtain ⟨_, -, hmem⟩ := exists_mem_left hcenters (List.getElem_mem hr)
    exact hmem
  exact ⟨fun r => centers.getD r [], hcenter, by rw [← hstrategy, new_eq_ok hmulti]⟩

omit [Rounding K] [FloatToUsize K] [FloatRem K] [ExactLiteral K] [LawfulGenerator K ρ] in
theorem Starts.regions_pos (h : s.Starts n) : 0 < M := by
  refine Nat.pos_of_ne_zero fun hzero => ?_
  obtain ⟨numInit, rng, rng', hnew⟩ := h.strategy
  unfold ExperimentalStrategyState.new at hnew
  simp only [Call.returns_bind, Call.returns_ofOutcome, Call.returns_pure,
    MorboTrustRegion.ofExcept_eq_ok] at hnew
  obtain ⟨centers, _, -, multiTr, _, ⟨hmulti, -⟩, -⟩ := hnew
  unfold MultiTrustRegionState.new at hmulti
  rw [if_pos hzero] at hmulti
  cases hmulti

omit [Rounding K] [FloatToUsize K] [FloatRem K] in
theorem Starts.sound (h : s.Starts n) :
    s.strategy.multiTr.Sound (.new TRLengthConfig.default) n := by
  obtain ⟨centers, hcenters, hregions⟩ := h.exists_centers
  rw [hregions]
  exact ⟨rfl, rfl, fun r => kept_freshRegion valid_new (hcenters r).1 (hcenters r).2⟩

omit [Rounding K] [FloatToUsize K] [FloatRem K] in
theorem Starts.running [FiniteInterval K] (h : s.Starts n) :
    s.strategy.multiTr.Running (.new TRLengthConfig.default) n where
  toSound := h.sound
  means r := by
    obtain ⟨centers, -, hregions⟩ := h.exists_centers
    rw [hregions]
    exact FiniteInterval.isFinite_zero
  active r := by
    obtain ⟨centers, -, hregions⟩ := h.exists_centers
    rw [hregions]
    rfl

omit [Rounding K] in
/-- Whatever is asked and told, every region stays a box in the unit cube. -/
theorem kept_of_run (hstart : s.Starts n) (config : AskConfig K)
    (calls : List (SessionCall K ρ)) (r : Fin M) :
    ((s.after config calls).strategy.multiTr.regions r).Kept (.new TRLengthConfig.default) n := by
  have hholds : Holds (M := M) (Sound (.new TRLengthConfig.default) n) (fun _ : Source K ρ => True)
      (fun _ => True) (fun _ _ _ => True) (s.after config calls) := by
    apply holds_after
    · intro c _
      cases c with
      | ask numArms =>
        apply keeps_ask
        · exact fun s _ => keeps_restartAllRegions fun _ _ _ hs hrestart =>
            hs.restartRegion valid_new hrestart
        · exact fun _ _ _ _ _ => trivial
        · exact fun _ _ _ => trivial
      | tell t =>
        apply keeps_tell
        · exact fun _ _ _ _ => trivial
        · exact fun _ _ => trivial
        · exact fun s pending _ => Sound.keeps_update valid_new rfl _ _ _ _
    · exact ⟨hstart.sound, trivial, trivial, trivial⟩
  have hsound := hholds.regions
  have hkept := hsound.kept r
  rw [hsound.config_eq, hsound.numDim_eq] at hkept
  exact hkept

end Exact

section Example

def twoCenters : Fin 2 → List ℚ := fun r => [[(0 : ℚ)], [1 / 8]].getD r []

/-- Two regions of one dimension, without an initial phase. -/
def twoRegions : Session ℚ Counter 2 where
  numDim := 1
  optimizer := .new (.turbo (.new 1 .default)) .turbo (.new false [])
  strategy :=
    { strategyType := .lhd
      init := ⟨0, 0⟩
      multiTr := ⟨1, fun r => freshRegion (.new .default) (twoCenters r), .new .default⟩
      inInit := false
      pendingRegions := none }
  surrogate := none
  incumbentXUnit := none
  source := ⟨⟨2⟩, none⟩

theorem starts_twoRegions : twoRegions.Starts 1 where
  numDim_eq := rfl
  strategy := by
    have hdraws : ((List.range 2).mapM fun _ => (List.range 1).mapM fun _ =>
        RandomGenerator.sampleUniform (0 : ℚ) 1) (⟨0⟩ : Counter) = (.ok [[0], [1 / 8]], ⟨2⟩) := by
      decide +kernel
    refine ⟨0, ⟨0⟩, ⟨2⟩, ?_⟩
    unfold ExperimentalStrategyState.new Call.Returns
    rw [Call.bind_apply_of_ok _ hdraws]
    rfl

def twoCandidates : AskConfig ℚ where
  candidates := ⟨1, 2, none, none, 1, .uniform⟩
  acquisition := .ucb 2

/-- Two rows with their values. -/
def twoValues : ExperimentalTell ℚ Counter where
  x := .column [3 / 20, 21 / 64]
  y := .column [1, 2]
  fit := .ok ()
  incumbent := .ok (some [2])
  us := fun _ => 0
  surrogate := some level
  incumbentX := some [21 / 64]

theorem kept_of_run_two :
    ((twoRegions.after twoCandidates
      [.ask 2, .tell twoValues, .ask 2]).strategy.multiTr.regions 0).Kept
        (.new TRLengthConfig.default) 1 :=
  kept_of_run starts_twoRegions twoCandidates [.ask 2, .tell twoValues, .ask 2] 0

end Example

end Session

end Ennbo
