import Ennbo.Strategy.Sessions

/-! # Proposals of the experimental strategy

As long as the surrogate serves and the tells fit, an ask never fails: it returns
as many rows of the unit cube as it is asked for, each from the box of the region
that is remembered for it.
-/

namespace Ennbo

open MultiTrustRegionState RandomGenerator

section Sources

variable {K ρ : Type} [ExactArith K] [FloatRem K] [RandomGenerator K ρ] {n : ℕ}

theorem keeps_sample : Call.Keeps (fun e : SobolEngine K => e.Good n) SobolEngine.sample := by
  intro e he
  unfold SobolEngine.sample
  apply Call.Keeps.get_bind (P := fun e : SobolEngine K => e.Good n) _ he
  cases e.sequence e.position with
  | none => exact Call.keeps_ofOutcome _
  | some point =>
    refine Call.Keeps.bind (fun e he => ⟨he.dimension_eq, he.sequence, he.shift⟩) fun _ => ?_
    exact (Call.keeps_ofOutcome _).ite (Call.keeps_pure _)

theorem keeps_generateSobol (lower upper : List K) (numDim numCandidates : ℕ) :
    Call.Keeps (fun e : SobolEngine K => e.Good n)
      (generateSobol lower upper numDim numCandidates) := by
  apply Call.keeps_mapM
  intro _
  apply keeps_sample.bind
  intro sample
  apply Call.keeps_mapM
  intro j
  exact (Call.keeps_ofOutcome _).bind fun _ => (Call.keeps_ofOutcome _).bind fun _ =>
    (Call.keeps_ofOutcome _).bind fun _ => Call.keeps_pure _

omit [FloatRem K] [RandomGenerator K ρ] in
theorem keeps_onRng {α : Type} (c : Call ρ α) :
    Call.Keeps (Source.Good n : Source K ρ → Prop) (onRng c) :=
  fun _ hs => hs

theorem keeps_generateCandidates (bounds : List K × List K) (xCenter : List K)
    (lengthscales : Option (List K)) (numCandidates : ℕ) (candidateRv : CandidateRV)
    (numPert : ℕ) :
    Call.Keeps (Source.Good n : Source K ρ → Prop)
      (generateCandidates bounds xCenter lengthscales numCandidates candidateRv numPert) := by
  intro s hs
  unfold generateCandidates
  apply Call.Keeps.get_bind _ hs
  cases candidateRv with
  | uniform => exact keeps_onRng _
  | raasp => exact keeps_onRng _
  | sobol =>
    cases hengine : s.sobol with
    | none => exact keeps_onRng _
    | some engine =>
      refine Call.keeps_on (Q := fun e => e.Good n) (keeps_generateSobol _ _ _ _) ?_ ?_
      · intro s' hs'
        cases hs'engine : s'.sobol with
        | none => exact hs engine hengine
        | some e => exact hs' e hs'engine
      · rintro s' e - he e' ⟨⟩
        exact he

end Sources

section Optimizers

variable {D : Type} [Floating D] [Analysis D] [Rounding D]

omit [Rounding D] in
/-- A tell leaves a TuRBO region to the strategy. -/
theorem keeps_trState_tellCommon (t : Tell D) {tr : TrustRegionState D}
    (htr : tr.isMorbo = false) :
    Call.Keeps (fun o : Optimizer D => o.trState = tr) (Optimizer.tellCommon t) := by
  intro o ho
  unfold Optimizer.tellCommon
  apply Call.Keeps.get_bind (P := fun o : Optimizer D => o.trState = tr) _ ho
  refine Call.Keeps.ofOutcome_bind fun _ _ => Call.Keeps.ofOutcome_bind fun counts _ => ?_
  refine Call.Keeps.ofOutcome_bind fun _ _ => ?_
  refine Call.Keeps.bind (fun _ ho => ho) fun _ => ?_
  have hranges : ∀ oldN newN, Call.Keeps (fun o : Optimizer D => o.trState = tr)
      (Optimizer.morboRanges t.y oldN newN) := by
    intro oldN newN o ho
    unfold Optimizer.morboRanges
    apply Call.Keeps.get_bind (P := fun o : Optimizer D => o.trState = tr) _ ho
    rw [if_neg (by simp [ho, htr])]
    exact Call.keeps_pure _
  refine (hranges _ _).bind fun _ => Call.Keeps.ofOutcome_bind fun incumbent _ => ?_
  refine Call.Keeps.bind (fun _ ho => ho) fun _ => ?_
  intro o ho
  unfold Optimizer.morboIncumbent
  apply Call.Keeps.get_bind (P := fun o : Optimizer D => o.trState = tr) _ ho
  rw [if_neg (by simp [ho, htr])]
  exact Call.keeps_pure _

omit [Rounding D] in
theorem keeps_tellCommon (t : Tell D) :
    Call.Keeps (fun o : Optimizer D => o.trState.isMorbo = false) (Optimizer.tellCommon t) := by
  intro o ho
  have htr := keeps_trState_tellCommon t ho o rfl
  exact (congrArg TrustRegionState.isMorbo htr).trans ho

end Optimizers

section Boxes

variable {K : Type} [ExactArith K] [Analysis K] {n : ℕ} {config : MultiTrustRegionConfig K}
  {region : Region K} {lengthscales : Option (List K)} {center : List K}

/-- The ends of the range of each coordinate, around the centre and clamped to the unit cube. -/
structure ClampedEnds (center lower upper : List K) : Prop where
  length_lower : lower.length = center.length
  length_upper : upper.length = center.length
  ends : ∀ j < center.length, ∃ w > 0, lower.getD j 0 = clamp (center.getD j 0 - w) 0 1 ∧
    upper.getD j 0 = clamp (center.getD j 0 + w) 0 1

omit [Analysis K] in
theorem ClampedEnds.box {lower upper : List K} (h : ClampedEnds center lower upper)
    (hmem : ∀ c ∈ center, 0 ≤ c ∧ c ≤ 1) : Box center lower upper := by
  have hclamp : ∀ j < center.length, lower.getD j 0 < upper.getD j 0 ∧
      lower.getD j 0 ≤ center.getD j 0 ∧ center.getD j 0 ≤ upper.getD j 0 := by
    intro j hj
    obtain ⟨w, hw, hlower, hupper⟩ := h.ends j hj
    have hc := hmem (center.getD j 0) (by
      rw [List.getD_eq_getElem _ _ hj]
      exact List.getElem_mem hj)
    rw [hlower, hupper]
    exact clamp_sub_lt_clamp_add hc hw
  exact ⟨h.length_lower, h.length_upper, fun j hj => (hclamp j hj).1, fun j hj => (hclamp j hj).2⟩

omit [Analysis K] in
theorem ClampedEnds.unit {lower upper row : List K} (h : ClampedEnds center lower upper)
    (hrow : InBox lower upper row) : ∀ c ∈ row, 0 ≤ c ∧ c ≤ 1 := by
  intro c hc
  obtain ⟨j, hj, rfl⟩ := List.getElem_of_mem hc
  have hj' : j < center.length := by
    rw [← h.length_lower, ← hrow.length_eq]
    exact hj
  obtain ⟨w, -, hlower, hupper⟩ := h.ends j hj'
  have hin := hrow.mem j (h.length_lower.symm ▸ hj')
  rw [hlower, hupper, List.getD_eq_getElem _ _ hj] at hin
  exact ⟨(clamp_mem _).1.trans hin.1, hin.2.trans (clamp_mem _).2⟩

def PositiveScales (n : ℕ) (lengthscales : Option (List K)) : Prop :=
  ∀ ls ∈ lengthscales, ls.length = n ∧ ∀ v ∈ ls, 0 < v

/-- The bounds of a region are a box around its centre in the unit cube. -/
theorem regionBounds_eq_ok [ExactLiteral K] (h : region.Kept config n)
    (hls : PositiveScales n lengthscales) :
    ∃ bounds, regionBounds region lengthscales = .ok bounds ∧
      ClampedEnds region.center bounds.1 bounds.2 := by
  have hhalf : 0 < literal 5 1 * region.length := mul_pos half_pos h.length_pos
  cases lengthscales with
  | none =>
    refine ⟨_, rfl, by simp [computeBounds1d], by simp [computeBounds1d], fun j hj => ?_⟩
    refine ⟨_, hhalf, ?_, ?_⟩ <;> simp [computeBounds1d, List.getD_eq_getElem?_getD, hj]
  | some ls =>
    obtain ⟨hlen, hpos⟩ := hls ls rfl
    unfold regionBounds
    dsimp only
    rw [if_neg (by rw [hlen, h.width]; exact lt_irrefl n)]
    refine ⟨_, rfl, by simp [hlen, h.width], by simp [hlen, h.width], fun j hj => ?_⟩
    have hj' : j < ls.length := (hlen.trans h.width.symm).symm ▸ hj
    have hcount : 0 < ls.length := by omega
    have hmean : 0 < ls.foldl (· + ·) 0 / (ls.length : K) := by
      rw [← List.sum_eq_foldl]
      exact div_pos (List.sum_pos ls hpos (List.ne_nil_of_length_pos hcount))
        (Nat.cast_pos.mpr hcount)
    rw [if_neg hcount.ne']
    refine ⟨_, mul_pos hhalf (div_pos (hpos _ (List.getElem_mem hj')) hmean), ?_, ?_⟩ <;>
      simp [List.getD_eq_getElem?_getD, hj, hj']

end Boxes

section Rows

variable {K : Type} {M : ℕ} {pairs : List (RegionBatch M × List (List K))}
  {segments : List CandidateSegment} {parts : List (List ℕ)} {worse : ℕ → ℕ → ℕ → Prop}

theorem consecutive_segmentsFrom (offset : ℕ) (pairs : List (RegionBatch M × List (List K))) :
    Consecutive offset (segmentsFrom offset pairs) := by
  induction pairs generalizing offset with
  | nil => trivial
  | cons p pairs ih => exact ⟨rfl, Nat.le_add_right _ _, ih _⟩

/-- Each batch has a segment of its size, in which its candidates are found. -/
theorem forall₂_segmentsFrom (before : List (List K)) {offset : ℕ} (h : before.length = offset)
    (pairs : List (RegionBatch M × List (List K))) :
    List.Forall₂ (fun p (segment : CandidateSegment) =>
      segment.arms = p.1.len ∧ segment.region = p.1.region ∧ segment.len = p.2.length ∧
        segment.stop ≤ (before ++ (pairs.map Prod.snd).flatten).length ∧
        ∀ i, segment.start ≤ i → i < segment.stop →
          ∃ row ∈ p.2, (before ++ (pairs.map Prod.snd).flatten)[i]? = some row)
      pairs (segmentsFrom offset pairs) := by
  induction pairs generalizing before offset with
  | nil => exact .nil
  | cons p pairs ih =>
    have hoffset : (before ++ p.2).length = offset + p.2.length := by rw [List.length_append, h]
    have hrest := ih _ hoffset
    rw [List.append_assoc] at hrest
    rw [List.map_cons, List.flatten_cons]
    refine .cons ⟨rfl, rfl, Nat.add_sub_cancel_left _ _, ?_, fun i hstart hstop => ?_⟩ hrest
    · dsimp only
      rw [List.length_append, List.length_append]
      omega
    · dsimp only at hstart hstop
      have hi : i - before.length < p.2.length := by omega
      have hstart : before.length ≤ i := h ▸ hstart
      refine ⟨p.2[i - before.length], List.getElem_mem hi, ?_⟩
      rw [List.getElem?_append_right hstart, List.getElem?_append_left hi,
        List.getElem?_eq_getElem hi]

/-- The rows of the arms, each from the region that is remembered for it. -/
theorem exists_rows {R : ℕ → List K → Prop} (rows : List (List K))
    (hrows : ∀ segment ∈ segments, ∀ i, segment.start ≤ i → i < segment.stop →
      ∃ row, rows[i]? = some row ∧ R segment.region row)
    (hpicks : List.Forall₂ (Picks worse) segments parts) :
    ∃ arms, (parts.flatten.mapM fun i => Outcome.ofOption .panic rows[i]?) = .ok arms ∧
      List.Forall₂ R (segments.flatMap fun segment => List.replicate segment.arms segment.region)
        arms := by
  induction hpicks with
  | nil => exact ⟨[], rfl, .nil⟩
  | @cons segment part segments parts hpick _ ih =>
    rw [List.forall_mem_cons] at hrows
    obtain ⟨arms, harms, hR⟩ := ih hrows.2
    have hpart : ∀ i ∈ part, ∃ row,
        Outcome.ofOption .panic rows[i]? = .ok row ∧ R segment.region row := by
      intro i hi
      obtain ⟨row, hrow, hin⟩ := hrows.1 i (hpick.mem i hi).1 (hpick.mem i hi).2
      exact ⟨row, Outcome.ofOption_eq_ok.mpr hrow, hin⟩
    obtain ⟨chosen, hchosen, hpart⟩ := Outcome.exists_mapM hpart
    refine ⟨chosen ++ arms, ?_, ?_⟩
    · rw [List.flatten_cons, List.mapM_append, hchosen, harms]
      rfl
    · rw [List.flatMap_cons, ← hpick.length_eq, ← List.map_const']
      exact List.rel_append (List.forall₂_map_left_iff.mpr hpart) hR

end Rows

section Sessions

variable {K ρ : Type} [ExactArith K] [Analysis K] [Rounding K] [FloatToUsize K] [FloatRem K]
  [ExactOrder K] [ExactLiteral K] [FiniteInterval K] [ExactRem K] [RandomGenerator K ρ]
  [LawfulGenerator K ρ] {M n : ℕ} {s s' : Session K ρ M} {config : AskConfig K} {numArms : ℕ}

/-- A tell that leaves a surrogate and an incumbent for rows of `n` entries, with finite values. -/
structure ExperimentalTell.Fits (n : ℕ) (t : ExperimentalTell K ρ) : Prop where
  surrogate : ∀ sg ∈ t.surrogate, sg.Serves n
  incumbentX : ∀ x ∈ t.incumbentX, x.length = n
  finite : ∀ v ∈ t.y.zerothColumn, isFinite v = true

def CandidateConfig.Ample (c : CandidateConfig K) (numArms : ℕ) : Prop :=
  numArms ≤ c.minCandidates ∨ ∃ m ∈ c.numCandidatesPerArm, 0 < m

omit [Rounding K] [FloatRem K] [ExactOrder K] [ExactLiteral K] [FiniteInterval K] [ExactRem K] in
theorem CandidateConfig.Ample.le_numCandidates {c : CandidateConfig K} (h : c.Ample numArms)
    {arms : ℕ} (hle : arms ≤ numArms) (numDim : ℕ) : arms ≤ c.numCandidates numDim arms := by
  unfold CandidateConfig.numCandidates
  dsimp only
  generalize c.formula numDim = formula
  rcases h with hmin | ⟨m, hm, hpos⟩
  · have hbase : arms ≤ if c.isExactFixed = true then c.minCandidates
        else max formula c.minCandidates := by
      split
      · exact hle.trans hmin
      · exact (hle.trans hmin).trans (le_max_right _ _)
    split
    · exact hbase.trans (le_max_left _ _)
    · exact hbase
  · rw [Option.mem_def.mp hm]
    exact (Nat.le_mul_of_pos_right arms hpos).trans (le_max_right _ _)

omit [Rounding K] [FloatToUsize K] [FloatRem K] [ExactOrder K] [ExactLiteral K]
  [FiniteInterval K] [ExactRem K] [RandomGenerator K ρ] [LawfulGenerator K ρ] in
theorem positiveScales_bind {surrogate : Option (Surrogate K ρ)}
    (h : ∀ sg ∈ surrogate, sg.Serves n) :
    PositiveScales n (surrogate.bind Surrogate.lengthscales) := by
  intro ls hls
  obtain ⟨sg, hsg, hls⟩ := Option.bind_eq_some_iff.mp hls
  exact (h sg hsg).lengthscales ls hls

namespace Session

section Serving

/-- A surrogate and an incumbent for rows of `n` entries. -/
def Fits (n numDim : ℕ) (surrogate : Option (Surrogate K ρ)) (incumbentX : Option (List K)) :
    Prop :=
  numDim = n ∧ (∀ sg ∈ surrogate, sg.Serves n) ∧ ∀ x ∈ incumbentX, x.length = n

/-- All that an ask relies on. -/
abbrev Serving (n : ℕ) : Session K ρ M → Prop :=
  Holds (Running (.new TRLengthConfig.default) n) (Source.Good n)
    (fun o => o.trState.isMorbo = false) (Fits n)

omit [Rounding K] [FloatToUsize K] [FloatRem K] [ExactOrder K] [ExactLiteral K]
  [FiniteInterval K] [ExactRem K] [RandomGenerator K ρ] [LawfulGenerator K ρ] in
theorem length_restartCenter (h : Fits n s.numDim s.surrogate s.incumbentXUnit) :
    s.restartCenter.length = n := by
  obtain ⟨hdim, -, hincumbent⟩ := h
  unfold restartCenter
  cases hx : s.incumbentXUnit with
  | none => rw [Option.getD_none, List.length_replicate, hdim]
  | some x => exact hincumbent x hx

omit [Rounding K] [FloatToUsize K] [FloatRem K] [ExactOrder K] [ExactLiteral K]
  [FiniteInterval K] [ExactRem K] [RandomGenerator K ρ] [LawfulGenerator K ρ] in
theorem positiveScales (h : Fits n s.numDim s.surrogate s.incumbentXUnit) :
    PositiveScales n s.lengthscales :=
  positiveScales_bind h.2.1

omit [ExactOrder K] [ExactRem K] [LawfulGenerator K ρ] [Rounding K] in
theorem serving_after (config : AskConfig K) (calls : List (SessionCall K ρ))
    (hfits : ∀ t, SessionCall.tell t ∈ calls → t.Fits n) (h : s.Serving n) :
    (s.after config calls).Serving n := by
  refine holds_after ?_ h
  intro c hc
  cases c with
  | ask numArms =>
    apply keeps_ask
    · exact fun s hs => Running.keeps_restartAllRegions valid_new (length_restartCenter hs.frame)
    · exact fun s batch _ => Call.Keeps.ofOutcome_bind fun bounds _ =>
        keeps_generateCandidates _ _ _ _ _ _
    · exact keeps_onRng
  | tell t =>
    obtain ⟨hsurrogate, hincumbent, hfinite⟩ := hfits t hc
    apply keeps_tell
    · exact fun _ _ _ hframe => ⟨hframe.1, hsurrogate, hincumbent⟩
    · exact keeps_tellCommon _
    · exact fun s pending hs => Running.keeps_update valid_new rfl hfinite
        (length_restartCenter hs.frame) _ _

end Serving

section Asking

/-- A row from the box of a region. -/
def InRegion (s : Session K ρ M) (id : ℕ) (row : List K) : Prop :=
  ∃ r : Fin M, r.val = id ∧ ∃ bounds,
    regionBounds (s.strategy.multiTr.regions r) s.lengthscales = .ok bounds ∧
      InBox bounds.1 bounds.2 row

omit [Rounding K] [FloatToUsize K] [FloatRem K] [ExactOrder K] [FiniteInterval K] [ExactRem K]
  [RandomGenerator K ρ] [LawfulGenerator K ρ] in
theorem InRegion.unit (h : s.Serving n) {id : ℕ} {row : List K} (hrow : s.InRegion id row) :
    row.length = n ∧ ∀ c ∈ row, 0 ≤ c ∧ c ≤ 1 := by
  obtain ⟨r, -, bounds, hbounds, hin⟩ := hrow
  have hkept := h.regions.kept r
  rw [h.regions.numDim_eq] at hkept
  obtain ⟨bounds', hbounds', hends⟩ := regionBounds_eq_ok hkept (positiveScales h.frame)
  obtain rfl := Except.ok.inj (hbounds.symm.trans hbounds')
  exact ⟨hin.length_eq.trans (hends.length_lower.trans hkept.width), hends.unit hin⟩

omit [Rounding K] [ExactOrder K] [FiniteInterval K] in
/-- The candidates of a batch are drawn from the box of its region. -/
theorem ends_candidatesOf (hn : 0 < n) (h : s.Serving n) (batch : RegionBatch M) :
    Call.Ends (Source.Good n) (fun _ => False) (candidatesOf config.candidates s batch) fun rows =>
      rows.length = config.candidates.numCandidates n batch.len ∧
        ∀ row ∈ rows, s.InRegion batch.region row := by
  have hkept := h.regions.kept batch.region
  rw [h.regions.numDim_eq] at hkept
  obtain ⟨bounds, hbounds, hends⟩ := regionBounds_eq_ok hkept (positiveScales h.frame)
  have hscales : Sized (s.strategy.multiTr.regions batch.region).center.length s.lengthscales :=
    fun ls hls => (positiveScales h.frame ls hls).1.trans hkept.width.symm
  unfold candidatesOf
  dsimp only
  rw [hbounds]
  apply (Call.ends_ok (P := fun b => b = bounds) rfl).bind
  intro b hb
  rw [hb]
  have hdraw := ends_generateCandidates (ρ := ρ) (E := fun _ => False) (hends.box hkept.center_mem)
    (hkept.width.symm ▸ hn) hscales
    (config.candidates.numCandidates s.numDim batch.len) config.candidates.candidateRv
    config.candidates.numPert
  rw [hkept.width] at hdraw
  apply hdraw.mono
  rintro rows ⟨hlen, hmem⟩
  refine ⟨by rw [hlen, h.frame.1], fun row hrow => ⟨batch.region, rfl, bounds, hbounds, ?_⟩⟩
  exact hmem row hrow

omit [ExactArith K] [Analysis K] [Rounding K] [FloatToUsize K] [FloatRem K] [ExactOrder K]
  [ExactLiteral K] [FiniteInterval K] [ExactRem K] in
/-- The segments of the batches suit their candidates. -/
theorem allotted_segmentsFrom {batches : List (RegionBatch M)} {blocks : List (List (List K))}
    (hblocks : List.Forall₂ (fun (b : RegionBatch M) (rows : List (List K)) => b.len ≤ rows.length)
      batches blocks) (hpos : ∀ b ∈ batches, 0 < b.len) :
    Allotted blocks.flatten.length (segmentsFrom 0 (batches.zip blocks)) := by
  have hsnd : (batches.zip blocks).map Prod.snd = blocks :=
    List.map_snd_zip hblocks.length_eq.ge
  have hspec := forall₂_segmentsFrom (K := K) [] rfl (batches.zip blocks)
  rw [hsnd, List.nil_append] at hspec
  have hpair : ∀ p ∈ batches.zip blocks, 0 < p.1.len ∧ p.1.len ≤ p.2.length := by
    rintro ⟨b, rows⟩ hp
    exact ⟨hpos b (List.of_mem_zip hp).1, List.forall₂_zip hblocks hp⟩
  refine ⟨consecutive_segmentsFrom 0 _, ?_, ?_, ?_⟩
  · intro segment hsegment
    obtain ⟨p, hp, harms, -⟩ := exists_mem_left hspec hsegment
    exact harms ▸ (hpair p hp).1
  · intro segment hsegment
    obtain ⟨p, hp, harms, -, hlen, -⟩ := exists_mem_left hspec hsegment
    unfold CandidateSegment.Ample
    rw [harms, hlen]
    exact (hpair p hp).2
  · intro segment hsegment
    obtain ⟨p, hp, -, -, -, hstop, -⟩ := exists_mem_left hspec hsegment
    exact hstop

omit [ExactArith K] [Analysis K] [Rounding K] [FloatToUsize K] [FloatRem K] [ExactOrder K]
  [ExactLiteral K] [FiniteInterval K] [ExactRem K] in
theorem arms_segmentsFrom {batches : List (RegionBatch M)} {blocks : List (List (List K))}
    (hlen : batches.length = blocks.length) (offset : ℕ) :
    (segmentsFrom offset (batches.zip blocks)).map CandidateSegment.arms =
      batches.map RegionBatch.len := by
  induction batches generalizing blocks offset with
  | nil => rfl
  | cons b batches ih =>
    obtain ⟨rows, blocks, rfl⟩ := List.exists_cons_of_length_eq_add_one hlen.symm
    rw [List.zip_cons_cons, segmentsFrom, List.map_cons, ih (Nat.succ.inj hlen), List.map_cons]

omit [ExactArith K] [Analysis K] [Rounding K] [FloatToUsize K] [FloatRem K] [ExactOrder K]
  [ExactLiteral K] [FiniteInterval K] [ExactRem K] [RandomGenerator K ρ] [LawfulGenerator K ρ] in
theorem returns_onSource {α : Type} {c : Call (Source K ρ) α} {a : α} {source : Source K ρ}
    (h : Call.Returns c s.source a source) :
    Call.Returns (onSource c) s a { s with source := source } :=
  Call.returns_on.mpr ⟨source, h, rfl⟩

omit [ExactArith K] [Analysis K] [Rounding K] [FloatToUsize K] [FloatRem K] [ExactOrder K]
  [ExactLiteral K] [FiniteInterval K] [ExactRem K] [RandomGenerator K ρ] [LawfulGenerator K ρ] in
theorem returns_onRegions {α : Type} {c : Call (MultiTrustRegionState K M) α} {a : α}
    {m : MultiTrustRegionState K M} (h : Call.Returns c s.strategy.multiTr a m) :
    Call.Returns (onRegions c) s a { s with strategy := { s.strategy with multiTr := m } } := by
  unfold onRegions onStrategy
  rw [Call.returns_on]
  exact ⟨_, Call.returns_on.mpr ⟨m, h, rfl⟩, rfl⟩

omit [Rounding K] [FloatToUsize K] [FloatRem K] [FiniteInterval K] [ExactRem K] in
/-- The arms that are chosen among the candidates of some batches, with their rows. -/
theorem exists_arms (config : AskConfig K) (h : s.Serving n) {batches : List (RegionBatch M)}
    {blocks : List (List (List K))} (hpos : 0 < numArms)
    (hshares : s.strategy.multiTr.Shares numArms batches)
    (hblocks : List.Forall₂ (fun (b : RegionBatch M) (rows : List (List K)) =>
      b.len ≤ rows.length ∧ ∀ row ∈ rows, s.InRegion b.region row) batches blocks) (rng : ρ) :
    ∃ candidates indices rng' arms,
      concatenate s.strategy.multiTr.numDim blocks = .ok candidates ∧
        Call.Returns (selectSegmentedArms (candidates.nrows + 1) config.acquisition
          s.optimizer.trState s.surrogate candidates (segmentsFrom 0 (batches.zip blocks))) rng
          indices rng' ∧
        selectByIndices candidates indices = .ok arms ∧
        List.Forall₂ s.InRegion ((segmentsFrom 0 (batches.zip blocks)).flatMap fun segment =>
          List.replicate segment.arms segment.region) arms := by
  have hwidth : ∀ row ∈ blocks.flatten, row.length = s.strategy.multiTr.numDim := by
    intro row hrow
    obtain ⟨block, hblock, hrow⟩ := List.mem_flatten.mp hrow
    obtain ⟨b, -, -, hin⟩ := exists_mem_left hblocks hblock
    exact ((hin row hrow).unit h).1.trans h.regions.numDim_eq.symm
  have hallotted := allotted_segmentsFrom (hblocks.imp fun _ _ => And.left) hshares.len_pos
  have harms := arms_segmentsFrom hblocks.length_eq 0
  have hne : segmentsFrom 0 (batches.zip blocks) ≠ [] := by
    intro hnil
    rw [hnil] at harms
    rw [List.map_eq_nil_iff.mp harms.symm] at hshares
    exact hpos.ne hshares.sum_eq
  obtain ⟨t, ht⟩ : ∃ t, s.optimizer.trState = .turbo t := by
    cases htr : s.optimizer.trState with
    | turbo t => exact ⟨t, rfl⟩
    | morbo m =>
      have hmorbo := h.optimizer
      rw [htr] at hmorbo
      cases hmorbo
  have hserves : ∀ sg ∈ s.surrogate, sg.Serves s.strategy.multiTr.numDim := by
    intro sg hsg
    rw [h.regions.numDim_eq]
    exact h.frame.2.1 sg hsg
  let candidates : Array2 K := ⟨s.strategy.multiTr.numDim, blocks.flatten, hwidth⟩
  have hserves' : ∀ sg ∈ s.surrogate, sg.Serves candidates.ncols := hserves
  have hallotted' : Allotted candidates.nrows (segmentsFrom 0 (batches.zip blocks)) := hallotted
  have hends := ends_selectSegmented hserves' config.acquisition t hne hallotted'
    (Nat.lt_succ_self _) rng trivial
  obtain ⟨indices, rng', hselect, ⟨worse, parts, rfl, hpicks⟩, -⟩ := hends.returns
  -- a place of a segment is one of the rows of its batch
  have hspec := forall₂_segmentsFrom (K := K) [] rfl (batches.zip blocks)
  rw [List.map_snd_zip hblocks.length_eq.ge, List.nil_append] at hspec
  obtain ⟨arms, hrows, hin⟩ := exists_rows (R := s.InRegion) blocks.flatten (by
    intro segment hsegment i hstart hstop
    obtain ⟨p, hp, -, hregion, -, -, hget⟩ := exists_mem_left hspec hsegment
    obtain ⟨row, hrow, hi⟩ := hget i hstart hstop
    exact ⟨row, hi, hregion ▸ (List.forall₂_zip hblocks hp).2 row hrow⟩) hpicks
  refine ⟨_, _, rng', arms, dif_pos hwidth, ht ▸ hselect, ?_, hin⟩
  have hsome : parts.flatten ≠ [] := by
    obtain ⟨segment, segments, hsegments⟩ := List.exists_cons_of_ne_nil hne
    rw [hsegments] at hpicks hallotted
    obtain ⟨part, parts, hpick, -, rfl⟩ := List.forall₂_cons_left_iff.mp hpicks
    intro hnil
    have hpart := List.flatten_eq_nil_iff.mp hnil part List.mem_cons_self
    have hlength := hpick.length_eq
    rw [hpart] at hlength
    exact (hallotted.arms_pos segment List.mem_cons_self).ne hlength
  unfold selectByIndices
  rw [if_neg hsome]
  exact hrows

omit [Rounding K] [FiniteInterval K] in
/-- The arms of the regions: as many as are asked for, each from the box of its region. -/
theorem returns_askRegions (hM : 0 < M) (hn : 0 < n) (hpos : 0 < numArms)
    (hroom : config.candidates.Ample numArms) (h : s.Serving n) :
    ∃ rows s' ids, Call.Returns (askRegions config numArms) s rows s' ∧
      s'.strategy.pendingRegions = some ids ∧ ids.length = numArms ∧
        List.Forall₂ s.InRegion ids rows := by
  have hmeans : ∀ u ∈ (List.finRange M).map fun r => (s.strategy.multiTr.regions r).meanY,
      isFinite u = true := by
    intro u hu
    obtain ⟨r, -, rfl⟩ := List.mem_map.mp hu
    exact h.regions.means r
  obtain ⟨batches, hallocate, hshares⟩ :=
    allocateWith_eq_ok hpos (by simp) hmeans (h.regions.active ⟨0, hM⟩)
  have hcandidates : ∀ b ∈ batches, Call.Ends (Source.Good n) (fun _ => False)
      (candidatesOf config.candidates s b) fun rows => b.len ≤ rows.length ∧
        ∀ row ∈ rows, s.InRegion b.region row := by
    intro b hb
    apply (ends_candidatesOf hn h b).mono
    rintro rows ⟨hlen, hin⟩
    have hle : b.len ≤ numArms := hshares.sum_eq ▸
      List.single_le_sum (fun _ _ => Nat.zero_le _) _ (List.mem_map_of_mem hb)
    exact ⟨hlen ▸ hroom.le_numCandidates hle n, hin⟩
  obtain ⟨blocks, source, hdraw, hblocks, -⟩ :=
    (Call.ends_mapM hcandidates s.source h.source).returns
  have hne : blocks ≠ [] := by
    rintro rfl
    rw [List.eq_nil_of_length_eq_zero hblocks.length_eq] at hshares
    exact hpos.ne hshares.sum_eq
  obtain ⟨candidates, indices, rng, rows, hconcatenate, hselect, hrows, hin⟩ :=
    exists_arms config h hpos hshares hblocks source.rng
  have hids : ((segmentsFrom 0 (batches.zip blocks)).flatMap fun segment =>
      List.replicate segment.arms segment.region).length = numArms := by
    simp only [List.length_flatMap, List.length_replicate]
    exact (congrArg List.sum (arms_segmentsFrom hblocks.length_eq 0)).trans hshares.sum_eq
  refine ⟨rows, { s with
    source := { source with rng := rng }
    strategy := { s.strategy with pendingRegions := some _ } }, _, ?_, rfl, hids, hin⟩
  unfold askRegions
  refine Call.returns_bind.mpr ⟨s, s, Call.returns_get.mpr ⟨rfl, rfl⟩, ?_⟩
  refine Call.returns_bind.mpr ⟨batches, s, Call.returns_ofOutcome.mpr
    ⟨MorboTrustRegion.ofExcept_eq_ok.mpr hallocate, rfl⟩, ?_⟩
  refine Call.returns_bind.mpr ⟨blocks, _, returns_onSource hdraw, ?_⟩
  dsimp only
  rw [if_neg hne]
  refine Call.returns_bind.mpr ⟨candidates, _, Call.returns_ofOutcome.mpr ⟨hconcatenate, rfl⟩, ?_⟩
  refine Call.returns_bind.mpr ⟨indices, _, returns_onSource
    (Call.returns_on.mpr ⟨rng, hselect, rfl⟩), ?_⟩
  refine Call.returns_bind.mpr ⟨(), _, rfl, ?_⟩
  exact Call.returns_ofOutcome.mpr ⟨hrows, rfl⟩

omit [Analysis K] [Rounding K] [FloatToUsize K] [FloatRem K] [ExactOrder K] [ExactLiteral K]
  [FiniteInterval K] [ExactRem K] in
theorem ends_askInit {E : Failure → Prop} (strategyType : InitStrategy) (n numArms : ℕ) :
    Call.Ends (fun _ => True) E (askInit strategyType n numArms : Call ρ (List (List K)))
      fun rows =>
      rows.length = numArms ∧ ∀ row ∈ rows, row.length = n ∧ ∀ c ∈ row, 0 ≤ c ∧ c ≤ 1 := by
  cases strategyType with
  | lhd =>
    have hbounds : ∀ b ∈ List.replicate n ((0 : K), (1 : K)), b.1 < b.2 := by
      intro b hb
      rw [List.eq_of_mem_replicate hb]
      exact one_pos
    have hlhd := ends_generateLhd (ρ := ρ) (E := E) (n := numArms) hbounds
    rw [List.length_replicate] at hlhd
    apply hlhd.mono
    intro rows hrows
    refine ⟨hrows.length_eq, fun row hrow => ?_⟩
    have hwithin := hrows.within row hrow
    refine ⟨by simpa using hwithin.length_eq.symm, fun c hc => ?_⟩
    obtain ⟨b, hb, hmem⟩ := exists_mem_left hwithin hc
    rw [List.eq_of_mem_replicate hb] at hmem
    exact ⟨hmem.1, hmem.2.le⟩
  | random =>
    have hbox : Box (List.replicate n (0 : K)) (List.replicate n 0) (List.replicate n 1) := by
      refine ⟨by simp, by simp, ?_, ?_⟩ <;> intro j hj <;>
        simp [List.getD_eq_getElem?_getD, show j < n by simpa using hj]
    apply (ends_generateUniform hbox numArms).mono
    rintro rows ⟨hlen, hin⟩
    refine ⟨hlen, fun row hrow => ⟨by simpa using (hin row hrow).length_eq, fun c hc => ?_⟩⟩
    obtain ⟨j, hj, rfl⟩ := List.getElem_of_mem hc
    have hlength : row.length = n := by simpa using (hin row hrow).length_eq
    have hmem := (hin row hrow).mem j (by simpa using hlength ▸ hj)
    rw [List.getD_eq_getElem _ _ hj] at hmem
    simpa [List.getD_eq_getElem?_getD, hlength ▸ hj] using hmem

/-- What an ask returns, and what it remembers for the next tell. -/
structure Proposed (n numArms : ℕ) (s s' : Session K ρ M) (rows : List (List K)) : Prop where
  length_eq : rows.length = numArms
  unit : ∀ row ∈ rows, row.length = n ∧ ∀ c ∈ row, 0 ≤ c ∧ c ≤ 1
  init : s.strategy.inInit = true → s'.strategy.pendingRegions = none
  regions : s.strategy.inInit = false → ∃ ids, s'.strategy.pendingRegions = some ids ∧
    List.Forall₂ s.InRegion ids rows

omit [Rounding K] [FiniteInterval K] in
theorem exists_proposed (config : AskConfig K) (hM : 0 < M) (hn : 0 < n) (hpos : 0 < numArms)
    (hroom : config.candidates.Ample numArms) (h : s.Serving n) :
    ∃ rows s', Call.Returns (ask config numArms) s rows s' ∧ Proposed n numArms s s' rows := by
  cases hinit : s.strategy.inInit with
  | true =>
    obtain ⟨rows, rng, hreturns, ⟨hlen, hunit⟩, -⟩ := (ends_askInit (E := fun _ => False)
      s.strategy.strategyType s.numDim numArms s.source.rng trivial).returns
    rw [h.frame.1] at hunit
    refine ⟨rows, { s with
      source := { s.source with rng := rng }
      strategy := { s.strategy with pendingRegions := none } }, ?_, hlen, hunit, fun _ => rfl,
      fun hfalse => ?_⟩
    · unfold ask
      refine Call.returns_bind.mpr ⟨s, s, Call.returns_get.mpr ⟨rfl, rfl⟩, ?_⟩
      rw [if_pos hinit]
      refine Call.returns_bind.mpr ⟨(), _, rfl, ?_⟩
      exact returns_onSource (s := { s with
        strategy := { s.strategy with pendingRegions := none } })
        (Call.returns_on.mpr ⟨rng, hreturns, rfl⟩)
    · rw [hinit] at hfalse
      cases hfalse
  | false =>
    obtain ⟨rows, s', ids, hreturns, hids, hlen, hin⟩ := returns_askRegions hM hn hpos hroom h
    refine ⟨rows, s', ?_, hin.length_eq.symm.trans hlen, fun row hrow => ?_, fun htrue => ?_,
      fun _ => ⟨ids, hids, hin⟩⟩
    · unfold ask
      refine Call.returns_bind.mpr ⟨s, s, Call.returns_get.mpr ⟨rfl, rfl⟩, ?_⟩
      rw [if_neg (by simp [hinit])]
      refine Call.returns_bind.mpr ⟨(), s, ?_, hreturns⟩
      have hrestart := returns_restartAllRegions (s := s.strategy.multiTr)
        ((length_restartCenter h.frame).trans h.regions.numDim_eq.symm)
      have hcount : 0 < s.strategy.multiTr.activeCount := by
        refine Nat.pos_of_ne_zero fun hzero => ?_
        have hactive := h.regions.active ⟨0, hM⟩
        rw [activeCount_eq_zero_iff.mp hzero] at hactive
        cases hactive
      rw [if_pos hcount] at hrestart
      exact returns_onRegions hrestart
    · obtain ⟨id, -, hregion⟩ := exists_mem_left hin hrow
      exact hregion.unit h
    · rw [hinit] at htrue
      cases htrue

theorem fits_twoValues : twoValues.Fits 1 where
  surrogate sg hsg := by
    obtain rfl := Option.some.inj hsg
    exact serves_level 1
  incumbentX x hx := by
    obtain rfl := Option.some.inj hx
    rfl
  finite := by decide +kernel

end Asking

end Session

end Sessions

end Ennbo
