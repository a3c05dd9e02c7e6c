import Ennbo.Trials.Commands

/-! # Batches of regions

A batch of regions goes through the engine's single-region ask, with slot 0 as
the trial slot. The batch is one of independent asks as long as what is written
there cannot be told from what was there.
-/

namespace Ennbo.Trials.Search

variable {F : Type} [TrialFloat F]

def Live (s : Search F Cpu) (slot : ℕ) : Prop :=
  slot = s.base ∨ ∃ record ∈ s.history, record.slot = slot

/-- The row that an ask for the seeds generates. -/
def trialRow (s : Search F Cpu) (seeds : List UInt64) (config : Ask F) : Row :=
  materialize (s.engine.read s.base) s.leaves (makeSteps s.leaves config.length)
    (s.chosen seeds config).seed

/-- Each region gets the answer of its own ask, and nothing live changes. -/
structure IndependentBatch (s : Search F Cpu) (numRegions seedsPerRegion : ℕ)
    (seeds : List UInt64) (config : Ask F) : Prop where
  answers : ∃ results : List (ℕ × F),
    (s.askMultiTr numRegions seedsPerRegion seeds config).1 = .ok results ∧
      results.length = numRegions ∧
      ∀ r < numRegions, ∃ trial, (s.ask (regionSeeds seedsPerRegion seeds r) config).1 = .ok trial ∧
        results[r]? = some (r * seedsPerRegion + trial.index, trial.score)
  base : (s.askMultiTr numRegions seedsPerRegion seeds config).2.base = s.base
  history : (s.askMultiTr numRegions seedsPerRegion seeds config).2.history = s.history
  pending : (s.askMultiTr numRegions seedsPerRegion seeds config).2.pending = s.pending
  base_row : (s.askMultiTr numRegions seedsPerRegion seeds config).2.engine.read s.base =
    s.engine.read s.base
  history_rows : (s.askMultiTr numRegions seedsPerRegion seeds config).2.observations =
    s.observations

section Batch

variable {s : Search F Cpu} {seedsPerRegion : ℕ} {seeds : List UInt64} {config : Ask F}

theorem row_ask (h : s.SlotsOk) {trial : Trial F}
    (htrial : (s.ask seeds config).1 = .ok trial) :
    (s.ask seeds config).2.row trial = .ok (s.trialRow seeds config) := by
  rw [ask, askWithMaterialization_eq] at htrial ⊢
  cases hslot : s.askSlot seeds config with
  | error e =>
    rw [hslot] at htrial
    cases htrial
  | ok slot =>
    rw [hslot] at htrial
    cases htrial
    have hok := h.proposed (askSlot_eq_ok hslot).2.2 seeds config
    have hp := (s.proposed slot seeds config).pending_settle rfl
    have hfor : (s.proposed slot seeds config).settle.pendingFor (s.chosen seeds config) = .ok _ :=
      (pendingFor_eq_ok _).2 ⟨hp, rfl⟩
    dsimp only
    rw [if_pos rfl, row, hfor]
    exact congrArg Except.ok (Cpu.read_materialize_self hok.fits hok.base_lt
      (hok.pending_lt _ rfl))

/-- The engine cannot be told from the one of the search by what lives in it. -/
def Agrees (s : Search F Cpu) (engine : Cpu) : Prop :=
  engine.Fits s.slots ∧ engine.rowBytes = s.engine.rowBytes ∧
    engine.read s.base = s.engine.read s.base ∧ engine.observations s.observed = s.observations

theorem Agrees.regionWinner {engine : Cpu} (h : s.Agrees engine) (region : ℕ) :
    s.regionWinner seedsPerRegion seeds config engine region =
      s.winner (regionSeeds seedsPerRegion seeds region) config := by
  rw [Search.regionWinner, winner, h.2.2.1, h.2.2.2]

theorem Agrees.regionEngine {engine : Cpu} (h : s.Agrees engine) (region : ℕ) :
    s.regionEngine seedsPerRegion seeds config engine region =
      engine.write 0 (s.trialRow (regionSeeds seedsPerRegion seeds region) config) := by
  rw [Search.regionEngine, Cpu.materialize, h.regionWinner, h.2.2.1]
  rfl

omit [TrialFloat F] in
theorem agrees_engine (h : s.SlotsOk) : s.Agrees s.engine :=
  ⟨h.fits, rfl, rfl, s.observations_eq⟩

theorem regionAnswers_eq {regions : List ℕ} {engine : Cpu} (h : s.Agrees engine)
    (hkeep : ∀ r ∈ regions, ∀ engine, s.Agrees engine →
      s.Agrees (s.regionEngine seedsPerRegion seeds config engine r)) :
    s.regionAnswers seedsPerRegion seeds config regions engine =
        regions.map (fun r =>
          (r * seedsPerRegion + (s.chosen (regionSeeds seedsPerRegion seeds r) config).index,
            (s.chosen (regionSeeds seedsPerRegion seeds r) config).score)) ∧
      s.Agrees (regions.foldl (s.regionEngine seedsPerRegion seeds config) engine) := by
  induction regions generalizing engine with
  | nil => exact ⟨rfl, h⟩
  | cons r regions ih =>
    rw [List.forall_mem_cons] at hkeep
    obtain ⟨hanswers, hagrees⟩ := ih (hkeep.1 engine h) hkeep.2
    refine ⟨?_, hagrees⟩
    rw [regionAnswers, hanswers, h.regionWinner, List.map_cons]
    rfl

omit [TrialFloat F] in
theorem Agrees.write_of_not_live (hs : s.SlotsOk) {engine : Cpu} (h : s.Agrees engine)
    (hlive : ¬ s.Live 0) {row : Row} (hrow : row.length = engine.rowBytes) :
    s.Agrees (engine.write 0 row) := by
  obtain ⟨hfits, hwidth, hbase, hobserved⟩ := h
  rw [Live, not_or] at hlive
  have hpos : 0 < s.slots := (Nat.zero_le _).trans_lt hs.base_lt
  refine ⟨hfits.write hpos hrow, hwidth, ?_, ?_⟩
  · rw [Cpu.read_write_of_ne hfits hpos hrow hlive.1, hbase]
  · rw [← hobserved]
    apply List.map_congr_left
    rintro p hp
    obtain ⟨record, hrecord, rfl⟩ := List.mem_map.1 hp
    rw [Cpu.read_write_of_ne hfits hpos hrow]
    exact fun heq => hlive.2 ⟨record, hrecord, heq.symm⟩

theorem length_trialRow (h : s.SlotsOk) :
    (s.trialRow seeds config).length = s.engine.rowBytes := by
  rw [trialRow, length_materialize, Cpu.length_read h.fits h.base_lt]

theorem checkAsk_congr {seeds' : List UInt64} (hne : seeds' ≠ []) {n : ℕ}
    (h : checkAsk seeds n config = .ok ()) : checkAsk seeds' n config = .ok () := by
  rw [checkAsk] at h ⊢
  split at h
  · cases h
  · rwa [if_neg (by simpa using hne)]

theorem checkAskMultiTr_eq_ok {n : ℕ} :
    s.checkAskMultiTr n seedsPerRegion seeds config = .ok () ↔
      s.pending = none ∧ 0 < n ∧ 0 < seedsPerRegion ∧ n * seedsPerRegion ≤ usizeMax ∧
        seeds.length = n * seedsPerRegion ∧ checkAsk seeds s.history.length config = .ok () := by
  rw [checkAskMultiTr]
  split
  next hp => simp [Option.isSome_iff_ne_none.1 hp]
  next hp =>
    rw [Option.not_isSome_iff_eq_none] at hp
    split
    next hz =>
      have : ¬ (0 < n ∧ 0 < seedsPerRegion) := by omega
      simp only [reduceCtorEq, false_iff]
      exact fun h => this ⟨h.2.1, h.2.2.1⟩
    next hz =>
      split
      next hover =>
        simp only [reduceCtorEq, false_iff]
        exact fun h => absurd h.2.2.2.1 hover.not_ge
      next hover =>
        split
        next hlen =>
          simp only [reduceCtorEq, false_iff]
          exact fun h => absurd h.2.2.2.2.1 hlen
        next hlen =>
          rw [not_or] at hz
          constructor
          · intro hcheck
            exact ⟨hp, Nat.pos_of_ne_zero hz.1, Nat.pos_of_ne_zero hz.2, not_lt.1 hover,
              not_not.1 hlen, hcheck⟩
          · exact fun h => h.2.2.2.2.2

theorem regionSeeds_take {k r : ℕ} (h : r < k) :
    regionSeeds seedsPerRegion (seeds.take (k * seedsPerRegion)) r =
      regionSeeds seedsPerRegion seeds r := by
  have hle := Nat.mul_le_mul_right seedsPerRegion h
  rw [Nat.succ_eq_add_one, Nat.add_one_mul] at hle
  rw [regionSeeds, regionSeeds, List.drop_take, List.take_take, min_eq_left (by omega)]

theorem regionSeeds_ne_nil {n r : ℕ} (hlen : seeds.length = n * seedsPerRegion)
    (hpos : 0 < seedsPerRegion) (hr : r < n) : regionSeeds seedsPerRegion seeds r ≠ [] := by
  have hle := Nat.mul_le_mul_right seedsPerRegion hr
  rw [Nat.succ_eq_add_one, Nat.add_one_mul] at hle
  rw [regionSeeds, ← List.length_pos_iff, List.length_take, List.length_drop]
  omega

theorem checkAskMultiTr_take {n k : ℕ} (hk : 0 < k) (hkn : k ≤ n)
    (h : s.checkAskMultiTr n seedsPerRegion seeds config = .ok ()) :
    s.checkAskMultiTr k seedsPerRegion (seeds.take (k * seedsPerRegion)) config = .ok () := by
  obtain ⟨hp, -, hpos, hmax, hlen, hcheck⟩ := checkAskMultiTr_eq_ok.1 h
  have hle := Nat.mul_le_mul_right seedsPerRegion hkn
  have htake : (seeds.take (k * seedsPerRegion)).length = k * seedsPerRegion := by
    rw [List.length_take, hlen, min_eq_left hle]
  refine checkAskMultiTr_eq_ok.2 ⟨hp, hk, hpos, hle.trans hmax, htake, checkAsk_congr ?_ hcheck⟩
  rw [← List.length_pos_iff, htake]
  exact Nat.mul_pos hk hpos

theorem ask_region {n r : ℕ} (hs : s.SlotsOk)
    (h : s.checkAskMultiTr n seedsPerRegion seeds config = .ok ()) (hr : r < n) :
    (s.ask (regionSeeds seedsPerRegion seeds r) config).1 =
      .ok (s.chosen (regionSeeds seedsPerRegion seeds r) config) := by
  obtain ⟨hp, -, hpos, -, hlen, hcheck⟩ := checkAskMultiTr_eq_ok.1 h
  obtain ⟨slot, hslot⟩ := Option.isSome_iff_exists.1 (hs.exists_freeSlot hp)
  have hask : s.askSlot (regionSeeds seedsPerRegion seeds r) config = .ok slot := by
    rw [askSlot, hp, checkAsk_congr (regionSeeds_ne_nil hlen hpos hr) hcheck, hslot]
    rfl
  rw [ask, askWithMaterialization_eq, hask]

theorem independentBatch_of_agrees {n : ℕ} (hs : s.SlotsOk)
    (h : s.checkAskMultiTr n seedsPerRegion seeds config = .ok ())
    (hkeep : ∀ r < n, ∀ engine, s.Agrees engine →
      s.Agrees (s.regionEngine seedsPerRegion seeds config engine r)) :
    s.IndependentBatch n seedsPerRegion seeds config := by
  obtain ⟨hanswers, -, -, hbase, hobserved⟩ := regionAnswers_eq (agrees_engine hs)
    fun r hr => hkeep r (List.mem_range.1 hr)
  have heq := s.askMultiTr_eq seedsPerRegion seeds config n
  rw [h] at heq
  refine ⟨⟨_, congrArg Prod.fst heq, ?_, ?_⟩, ?_, ?_, ?_, ?_, ?_⟩
  · rw [hanswers, List.length_map, List.length_range]
  · intro r hr
    refine ⟨_, ask_region hs h hr, ?_⟩
    rw [hanswers, List.getElem?_map, List.getElem?_range hr]
    rfl
  all_goals rw [heq]
  · exact hbase
  · rw [← hobserved]
    exact (observations_eq _).symm

omit [TrialFloat F] in
theorem Agrees.read_live {engine : Cpu} (h : s.Agrees engine) {slot : ℕ} (hlive : s.Live slot) :
    engine.read slot = s.engine.read slot := by
  rcases hlive with rfl | ⟨record, hrecord, rfl⟩
  · exact h.2.2.1
  · have hobserved := h.2.2.2
    rw [← observations_eq, Cpu.observations, Cpu.observations, List.map_inj_left] at hobserved
    exact congrArg Prod.fst (hobserved (record.slot, record.value)
      (List.mem_map.2 ⟨record, hrecord, rfl⟩))

theorem IndependentBatch.agrees {n : ℕ} (hs : s.SlotsOk)
    (hcheck : s.checkAskMultiTr n seedsPerRegion seeds config = .ok ())
    (h : s.IndependentBatch n seedsPerRegion seeds config) :
    s.Agrees ((List.range n).foldl (s.regionEngine seedsPerRegion seeds config) s.engine) := by
  have heq := s.askMultiTr_eq seedsPerRegion seeds config n
  rw [hcheck] at heq
  have hfits := fits_foldl_regionEngine hs.base_lt hs.fits seedsPerRegion seeds config
    (List.range n)
  have hbase := h.base_row
  have hrows := h.history_rows
  rw [heq] at hbase hrows
  exact ⟨hfits.1, hfits.2, hbase, (observations_eq _).trans hrows⟩

theorem foldl_regionEngine_take (k : ℕ) (engine : Cpu) :
    (List.range k).foldl
        (s.regionEngine seedsPerRegion (seeds.take (k * seedsPerRegion)) config) engine =
      (List.range k).foldl (s.regionEngine seedsPerRegion seeds config) engine := by
  apply List.foldl_ext
  intro engine r hr
  rw [regionEngine, regionEngine, regionWinner, regionWinner,
    regionSeeds_take (List.mem_range.1 hr)]

/--
Where slot 0 is live and every leading batch is independent, each region writes
back the row that is there already.
-/
theorem trialRow_eq_of_live {n : ℕ} (hs : s.SlotsOk)
    (hcheck : s.checkAskMultiTr n seedsPerRegion seeds config = .ok ()) (hlive : s.Live 0)
    (hbatch : ∀ k, 0 < k → k ≤ n →
      s.IndependentBatch k seedsPerRegion (seeds.take (k * seedsPerRegion)) config)
    {k : ℕ} (hk : k ≤ n) :
    (∀ r < k, s.trialRow (regionSeeds seedsPerRegion seeds r) config = s.engine.read 0) ∧
      (List.range k).foldl (s.regionEngine seedsPerRegion seeds config) s.engine = s.engine := by
  have hpos : 0 < s.slots := (Nat.zero_le _).trans_lt hs.base_lt
  induction k with
  | zero =>
    refine ⟨?_, rfl⟩
    rintro r ⟨⟩
  | succ k ih =>
    obtain ⟨hrows, hfold⟩ := ih (Nat.le_of_succ_le hk)
    have hagrees := (hbatch (k + 1) k.succ_pos hk).agrees hs
      (checkAskMultiTr_take k.succ_pos hk hcheck)
    rw [foldl_regionEngine_take, List.range_succ, List.foldl_append, hfold, List.foldl_cons,
      List.foldl_nil, (agrees_engine hs).regionEngine] at hagrees
    have hread := hagrees.read_live hlive
    rw [Cpu.read_write_self hs.fits hpos (length_trialRow hs)] at hread
    refine ⟨?_, ?_⟩
    · intro r hr
      rcases Nat.lt_succ_iff_lt_or_eq.1 hr with hlt | rfl
      · exact hrows r hlt
      · exact hread
    · rw [List.range_succ, List.foldl_append, hfold, List.foldl_cons, List.foldl_nil,
        (agrees_engine hs).regionEngine, hread, Cpu.write_read]

/--
A batch and its leading batches are all made of independent asks exactly when
nothing lives in slot 0, or what lives there is the very row that the ask for each
region generates.
-/
theorem independentBatch_iff {n : ℕ} (hreach : s.Reachable)
    (hcheck : s.checkAskMultiTr n seedsPerRegion seeds config = .ok ()) :
    (∀ k, 0 < k → k ≤ n →
      s.IndependentBatch k seedsPerRegion (seeds.take (k * seedsPerRegion)) config) ↔
    ¬ s.Live 0 ∨ ∀ r < n,
      s.trialRow (regionSeeds seedsPerRegion seeds r) config = s.engine.read 0 := by
  have hs := hreach.slotsOk
  constructor
  · intro hbatch
    by_cases hlive : s.Live 0
    · exact .inr (trialRow_eq_of_live hs hcheck hlive hbatch le_rfl).1
    · exact .inl hlive
  · intro hcond k hk hkn
    apply independentBatch_of_agrees hs (checkAskMultiTr_take hk hkn hcheck)
    intro r hr engine hagrees
    rw [hagrees.regionEngine, regionSeeds_take hr]
    by_cases hlive : s.Live 0
    · have hrow := (hcond.resolve_left (not_not.2 hlive)) r (hr.trans_le hkn)
      rw [hrow, ← hagrees.read_live hlive, Cpu.write_read]
      exact hagrees
    · exact hagrees.write_of_not_live hs hlive ((length_trialRow hs).trans hagrees.2.1.symm)

end Batch

/-- On a new search, whose base is in slot 0, a batch of one region moves the base row. -/
theorem not_independentBatch_oneByte :
    ¬ ∀ (s : Search ℚ Cpu) (n m : ℕ) (seeds : List UInt64) (config : Ask ℚ),
      s.Reachable → s.pending = none → s.checkAskMultiTr n m seeds config = .ok () →
        s.IndependentBatch n m seeds config := by
  intro h
  have hbatch := h oneByteSearch 1 1 [5] oneByteAsk (.new new_oneByte) rfl (by decide +kernel)
  have hrow := hbatch.base_row
  revert hrow
  decide +kernel

theorem independentBatch_oneByte_iff :
    (∀ k, 0 < k → k ≤ 2 →
      oneByteSearch.IndependentBatch k 1 (List.take (k * 1) [5, 9]) oneByteAsk) ↔
      ¬ oneByteSearch.Live 0 ∨ ∀ r < 2,
        oneByteSearch.trialRow (regionSeeds 1 [5, 9] r) oneByteAsk =
          oneByteSearch.engine.read 0 :=
  independentBatch_iff (.new new_oneByte) (by decide +kernel)

end Ennbo.Trials.Search
