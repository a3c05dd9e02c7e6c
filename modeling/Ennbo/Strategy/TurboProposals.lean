import Ennbo.Strategy.Turbo

/-! # Proposals of a single region

As long as the surrogate serves and the incumbent lies in the unit cube, an ask never
fails: its arms are candidates from the box around the incumbent, none of which the
acquisition would give up for a candidate that is left out.
-/

namespace Ennbo

open MultiTrustRegionState

section Boxes

variable {K : Type} [ExactArith K] [Analysis K] {center : List K}

omit [Analysis K] in
theorem clampedEnds_of_halves {halves : List K} (hlen : halves.length = center.length)
    (hpos : ∀ w ∈ halves, 0 < w) :
    ClampedEnds center ((List.zipWith (· - ·) center halves).map fun v => clamp v 0 1)
      ((List.zipWith (· + ·) center halves).map fun v => clamp v 0 1) where
  length_lower := by simp [hlen]
  length_upper := by simp [hlen]
  ends j hj := by
    have hj' : j < halves.length := hlen.symm ▸ hj
    refine ⟨halves[j], hpos _ (List.getElem_mem hj'), ?_, ?_⟩ <;>
      simp [List.getD_eq_getElem?_getD, hj, hj']

omit [Analysis K] in
/-- The bounds are a box around the centre in the unit cube. -/
theorem TurboTrustRegion.computeBounds1d_eq_ok [Rounding K] {t : TurboTrustRegion K}
    (hlength : 0 < t.length) {lengthscales : Option (List K)}
    (hls : PositiveScales center.length lengthscales) :
    ∃ bounds, t.computeBounds1d center lengthscales = .ok bounds ∧
      ClampedEnds center bounds.1 bounds.2 := by
  have hbounds : ∀ halves : List K, halves.length = center.length → (∀ w ∈ halves, 0 < w) →
      ∃ bounds, (do
        let lb ← broadcast (· - ·) center halves
        let ub ← broadcast (· + ·) center halves
        return (lb.map fun v => clamp v 0 1, ub.map fun v => clamp v 0 1) :
          Outcome (List K × List K)) = .ok bounds ∧ ClampedEnds center bounds.1 bounds.2 := by
    intro halves hlen hpos
    rw [broadcast_eq _ hlen.symm, broadcast_eq _ hlen.symm]
    exact ⟨_, rfl, clampedEnds_of_halves hlen hpos⟩
  have htwo : (0 : K) < ((2 : ℕ) : K) := Nat.cast_pos.mpr two_pos
  cases lengthscales with
  | none =>
    refine hbounds _ List.length_replicate fun w hw => ?_
    rw [List.eq_of_mem_replicate hw]
    exact div_pos hlength htwo
  | some ls =>
    obtain ⟨hlen, hpos⟩ := hls ls rfl
    refine hbounds _ ((List.length_map _).trans hlen) fun w hw => ?_
    obtain ⟨l, hl, rfl⟩ := List.mem_map.mp hw
    exact div_pos (mul_pos (hpos l hl) hlength) htwo

end Boxes

theorem Optimizer.returns_ask {D : Type} [Floating D] [Analysis D] [Rounding D] {o : Optimizer D}
    {t : TurboTrustRegion D} {numArms : ℕ} (hinit : o.inInit = false)
    (ht : o.trState = .turbo t) (us : ℕ → D) :
    Call.Returns (ask numArms us) o () { o with trState := .turbo (t.setNumArms numArms) } := by
  obtain ⟨trState, strategy, observations, incumbent, generation⟩ := o
  change trState = .turbo t at ht
  subst ht
  unfold ask
  refine Call.returns_bind.mpr ⟨_, _, Call.returns_get.mpr ⟨rfl, rfl⟩, ?_⟩
  rw [if_neg (by simp [hinit])]
  refine Call.returns_bind.mpr ⟨(), _, rfl, ?_⟩
  refine Call.returns_bind.mpr ⟨(), _, rfl, ?_⟩
  rw [if_neg (by simp [TrustRegionState.isMorbo])]
  rfl

namespace TurboSession

variable {K ρ : Type} [ExactArith K] [Analysis K] [Rounding K] [FloatToUsize K] [FloatRem K]
  [ExactOrder K] [ExactLiteral K] [FiniteInterval K] [ExactRem K] [RandomGenerator K ρ]
  [LawfulGenerator K ρ] {limits : TRLengthConfig K} {n numArms : ℕ} {config : AskConfig K}
  {s : TurboSession K ρ}

/-- A surrogate for rows of `n` entries, and an incumbent of the unit cube. -/
structure Fits (n numDim : ℕ) (surrogate : Option (Surrogate K ρ))
    (incumbentX : Option (List K)) : Prop where
  numDim_eq : numDim = n
  surrogate : ∀ sg ∈ surrogate, sg.Serves n
  incumbentX : ∀ x ∈ incumbentX, x.length = n ∧ ∀ c ∈ x, 0 ≤ c ∧ c ≤ 1

abbrev Serving (limits : TRLengthConfig K) (n : ℕ) : TurboSession K ρ → Prop :=
  Holds (Optimizer.HasRegion (TurboTrustRegion.Sound limits)) (Source.Good n) (Fits n)

omit [ExactOrder K] [FiniteInterval K] [ExactRem K] [LawfulGenerator K ρ] in
theorem serving_after (hvalid : limits.Valid) (config : AskConfig K) (calls : List (TurboCall K ρ))
    (hfits : ∀ t, TurboCall.tell t ∈ calls → Fits n n t.surrogate t.incumbentX)
    (h : s.Serving limits n) : (s.after config calls).Serving limits n := by
  refine holds_after ?_ h
  intro c hc
  cases c with
  | ask numArms us =>
    exact keeps_ask (Optimizer.keeps_ask numArms us)
      (fun _ _ _ _ => keeps_generateCandidates _ _ _ _ _ _) keeps_onRng
  | tell t =>
    have ht := hfits t hc
    exact keeps_tell (fun _ _ _ hframe => ⟨hframe.numDim_eq, ht.surrogate, ht.incumbentX⟩)
      (Optimizer.keeps_tell hvalid t.toTell)

omit [Rounding K] [FloatToUsize K] [FloatRem K] [ExactOrder K] [FiniteInterval K] [ExactRem K]
  [RandomGenerator K ρ] [LawfulGenerator K ρ] in
theorem xCenter_mem (h : Fits n s.numDim s.surrogate s.incumbentXUnit) :
    s.xCenter.length = n ∧ ∀ c ∈ s.xCenter, 0 ≤ c ∧ c ≤ 1 := by
  unfold xCenter
  cases hx : s.incumbentXUnit with
  | none =>
    rw [Option.getD_none, List.length_replicate]
    refine ⟨h.numDim_eq, fun c hc => ?_⟩
    rw [List.eq_of_mem_replicate hc]
    exact ⟨half_pos.le, half_le_one⟩
  | some x => exact h.incumbentX x hx

omit [Rounding K] [FloatToUsize K] [FloatRem K] [ExactOrder K] [ExactLiteral K]
  [FiniteInterval K] [ExactRem K] [RandomGenerator K ρ] [LawfulGenerator K ρ] in
theorem positiveScales (h : Fits n s.numDim s.surrogate s.incumbentXUnit) :
    PositiveScales n s.lengthscales :=
  positiveScales_bind h.surrogate

/-- The arms are candidates from the box around the incumbent, chosen by the acquisition. -/
def Chosen (config : AskConfig K) (numArms : ℕ) (s : TurboSession K ρ) (rows : List (List K)) :
    Prop :=
  ∃ bounds, ∃ xCand : Array2 K, ∃ indices,
    s.optimizer.trState.computeBounds1d s.xCenter s.lengthscales = .ok bounds ∧
      xCand.nrows = config.candidates.numCandidates s.numDim numArms ∧
      (∀ row ∈ xCand.rows, InBox bounds.1 bounds.2 row) ∧
      selectByIndices xCand indices = .ok rows ∧
      Picks (fun _ _ _ => False) (whole xCand.nrows numArms) indices ∧
      ∀ sg ∈ s.surrogate, ∀ mu se, sg.predict xCand = .ok (mu, se) →
        Chooses sg config.acquisition xCand mu.zerothColumn se.zerothColumn numArms indices

/-- The rows of an ask; after the initial phase they are chosen. -/
structure Proposed (config : AskConfig K) (n numArms : ℕ) (s : TurboSession K ρ)
    (rows : List (List K)) : Prop where
  length_eq : rows.length = numArms
  unit : ∀ row ∈ rows, row.length = n ∧ ∀ c ∈ row, 0 ≤ c ∧ c ≤ 1
  chosen : s.optimizer.inInit = false → s.Chosen config numArms rows

omit [ExactArith K] [Analysis K] [Rounding K] [FloatToUsize K] [FloatRem K] [ExactOrder K]
  [ExactLiteral K] [FiniteInterval K] [ExactRem K] [RandomGenerator K ρ] [LawfulGenerator K ρ] in
theorem returns_onSource {α : Type} {c : Call (Source K ρ) α} {a : α} {source : Source K ρ}
    (h : Call.Returns c s.source a source) :
    Call.Returns (onSource c) s a { s with source := source } :=
  Call.returns_on.mpr ⟨source, h, rfl⟩

omit [FiniteInterval K] in
theorem exists_askTurbo (config : AskConfig K) (hn : 0 < n) (hpos : 0 < numArms)
    (hroom : config.candidates.Ample numArms) (h : s.Serving limits n) :
    ∃ rows s', Call.Returns (askTurbo config numArms) s rows s' ∧ rows.length = numArms ∧
      (∀ row ∈ rows, row.length = n ∧ ∀ c ∈ row, 0 ≤ c ∧ c ≤ 1) ∧
        s.Chosen config numArms rows := by
  obtain ⟨t, ht, hsound⟩ := h.optimizer
  obtain ⟨hwidth, hcenter⟩ := xCenter_mem h.frame
  have hscales : PositiveScales s.xCenter.length s.lengthscales :=
    hwidth.symm ▸ positiveScales h.frame
  obtain ⟨bounds, hbounds, hends⟩ :=
    TurboTrustRegion.computeBounds1d_eq_ok hsound.length_pos hscales
  have hcandidates := ends_generateCandidates (ρ := ρ) (E := fun _ => False) (hends.box hcenter)
    (hwidth.symm ▸ hn) (fun ls hls => (hscales ls hls).1)
    (config.candidates.numCandidates s.numDim numArms) config.candidates.candidateRv
    config.candidates.numPert
  rw [hwidth] at hcandidates
  obtain ⟨cands, source, hdraw, ⟨hcount, hin⟩, -⟩ := (hcandidates s.source h.source).returns
  have hrow : ∀ row ∈ cands, row.length = s.xCenter.length := by
    intro row hmem
    exact (hin row hmem).length_eq.trans hends.length_lower
  let xCand : Array2 K := ⟨s.xCenter.length, cands, hrow⟩
  have hserves : ∀ sg ∈ s.surrogate, sg.Serves xCand.ncols := by
    intro sg hsg
    change sg.Serves s.xCenter.length
    rw [hwidth]
    exact h.frame.surrogate sg hsg
  have hle : numArms ≤ xCand.nrows := by
    change numArms ≤ cands.length
    rw [hcount]
    exact hroom.le_numCandidates le_rfl _
  obtain ⟨rows, rng, hselect, ⟨indices, hrows, hpicks, hchooses⟩, -⟩ :=
    (ends_selectArms_picks hserves config.acquisition t hpos hle (Nat.lt_succ_self _) source.rng
      trivial).returns
  obtain ⟨rows', hrows', hlength, hmem⟩ := hpicks.rows hpos
  obtain rfl := Except.ok.inj (hrows'.symm.trans hrows)
  have hbounds' : s.optimizer.trState.computeBounds1d s.xCenter s.lengthscales = .ok bounds := by
    rw [ht]
    exact hbounds
  refine ⟨rows', { s with source := { source with rng := rng } }, ?_, hlength, fun row hr => ?_,
    bounds, xCand, indices, hbounds', hcount, hin, hrows, hpicks, hchooses⟩
  · unfold askTurbo
    refine Call.returns_bind.mpr ⟨s, s, Call.returns_get.mpr ⟨rfl, rfl⟩, ?_⟩
    refine Call.returns_bind.mpr ⟨bounds, s, Call.returns_ofOutcome.mpr ⟨hbounds', rfl⟩, ?_⟩
    refine Call.returns_bind.mpr ⟨cands, _, returns_onSource hdraw, ?_⟩
    refine Call.returns_bind.mpr ⟨xCand, _, Call.returns_ofOutcome.mpr ⟨dif_pos hrow, rfl⟩, ?_⟩
    rw [ht]
    exact returns_onSource (s := { s with source := source })
      (Call.returns_on.mpr ⟨rng, hselect, rfl⟩)
  · have hbox := hin row (hmem row hr)
    exact ⟨(hrow row (hmem row hr)).trans hwidth, hends.unit hbox⟩

omit [FiniteInterval K] in
theorem exists_proposed (config : AskConfig K) (us : ℕ → K) (hn : 0 < n) (hpos : 0 < numArms)
    (hroom : config.candidates.Ample numArms) (h : s.Serving limits n) :
    ∃ rows s', Call.Returns (ask config numArms us) s rows s' ∧
      Proposed config n numArms s rows := by
  cases hinit : s.optimizer.inInit with
  | true =>
    obtain ⟨rows, rng, hreturns, ⟨hlen, hunit⟩, -⟩ := (Session.ends_askInit (E := fun _ => False)
      s.initStrategy s.numDim numArms s.source.rng trivial).returns
    rw [h.frame.numDim_eq] at hunit
    refine ⟨rows, { s with source := { s.source with rng := rng } }, ?_, hlen, hunit,
      fun hfalse => ?_⟩
    · unfold ask
      refine Call.returns_bind.mpr ⟨s, s, Call.returns_get.mpr ⟨rfl, rfl⟩, ?_⟩
      rw [if_pos hinit]
      exact returns_onSource (Call.returns_on.mpr ⟨rng, hreturns, rfl⟩)
    · rw [hinit] at hfalse
      cases hfalse
  | false =>
    obtain ⟨t, ht, hsound⟩ := id h.optimizer
    let o : Optimizer K := { s.optimizer with trState := .turbo (t.setNumArms numArms) }
    have hask : Call.Returns (Optimizer.ask numArms us) s.optimizer () o :=
      Optimizer.returns_ask hinit ht us
    have hserving : ({ s with optimizer := o } : TurboSession K ρ).Serving limits n :=
      ⟨⟨_, rfl, hsound.toKept.setNumArms numArms, hsound.lengthMin_le⟩, h.source, h.frame⟩
    obtain ⟨rows, s', hreturns, hlen, hunit, hchosen⟩ :=
      exists_askTurbo config hn hpos hroom hserving
    refine ⟨rows, s', ?_, hlen, hunit, fun _ => ?_⟩
    · unfold ask
      refine Call.returns_bind.mpr ⟨s, s, Call.returns_get.mpr ⟨rfl, rfl⟩, ?_⟩
      rw [if_neg (by simp [hinit])]
      exact Call.returns_bind.mpr ⟨(), _, Call.returns_on.mpr ⟨o, hask, rfl⟩, hreturns⟩
    · obtain ⟨bounds, xCand, indices, hbounds, hrest⟩ := hchosen
      refine ⟨bounds, xCand, indices, ?_, hrest⟩
      rw [ht]
      exact hbounds

theorem fits_twoValues : Fits 1 1 Session.twoValues.surrogate Session.twoValues.incumbentX where
  numDim_eq := rfl
  surrogate := Session.fits_twoValues.surrogate
  incumbentX x hx := by
    obtain rfl := Option.some.inj hx
    norm_num

def toldOnce : List (TurboCall ℚ Counter) := [.ask 2 fun _ => 0, .tell Session.twoValues]

theorem fits_of_mem_toldOnce {t : ExperimentalTell ℚ Counter} (h : TurboCall.tell t ∈ toldOnce) :
    Fits 1 1 t.surrogate t.incumbentX := by
  obtain rfl : t = Session.twoValues := by simpa [toldOnce] using h
  exact fits_twoValues

end TurboSession

end Ennbo
