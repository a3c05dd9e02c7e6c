import Ennbo.Ranking.Displacement
import Ennbo.Trials.Codes
import Ennbo.Trials.Ledger
import Ennbo.Trials.MultiRegion

/-! # The best trial

When comparisons are those of an order, the bounded insertion keeps the nearest
observations, and an ask proposes the first seed whose row scores best.
-/

namespace Ennbo.Trials

open Ranking

/-- Comparisons are those of an order. -/
class OrderedTrialFloat (F : Type) [TrialFloat F] [LinearOrder F] : Prop where
  partialCmp_eq : ∀ a b : F, partialCmp a b = some (compare a b)

instance : OrderedTrialFloat ℚ := ⟨fun _ _ => rfl⟩

variable {F : Type} [TrialFloat F] [LinearOrder F]

def NearerLe (a b : F × ℕ) : Prop := a.1 < b.1 ∨ a.1 = b.1 ∧ a.2 ≤ b.2

instance : DecidableRel (NearerLe (F := F)) := fun a b =>
  inferInstanceAs (Decidable (a.1 < b.1 ∨ a.1 = b.1 ∧ a.2 ≤ b.2))

instance : Std.Total (NearerLe (F := F)) where
  total a b := by
    rcases lt_trichotomy a.1 b.1 with h | h | h
    · exact .inl (.inl h)
    · exact (le_total a.2 b.2).imp (fun hid => .inr ⟨h, hid⟩) fun hid => .inr ⟨h.symm, hid⟩
    · exact .inr (.inl h)

instance : IsTrans (F × ℕ) NearerLe where
  trans := by
    rintro a b c (h | ⟨h, hid⟩) (h' | ⟨h', hid'⟩)
    · exact .inl (h.trans h')
    · exact .inl (h' ▸ h)
    · exact .inl (h ▸ h')
    · exact .inr ⟨h.trans h', hid.trans hid'⟩

instance : Std.Antisymm (NearerLe (F := F)) where
  antisymm := by
    rintro a b (h | ⟨h, hid⟩) (h' | ⟨h', hid'⟩)
    · exact absurd h' h.not_gt
    · exact absurd h (h' ▸ lt_irrefl _)
    · exact absurd h' (h ▸ lt_irrefl _)
    · exact Prod.ext h (hid.antisymm hid')

section Insertion

variable [OrderedTrialFloat F]

theorem flt_eq (a b : F) : flt a b = decide (a < b) := by
  rw [flt, OrderedTrialFloat.partialCmp_eq, Bool.eq_iff_iff]
  simp [compare_lt_iff_lt]

theorem fgt_eq (a b : F) : fgt a b = decide (b < a) := by
  rw [fgt, OrderedTrialFloat.partialCmp_eq, Bool.eq_iff_iff]
  simp [compare_gt_iff_gt]

theorem feq_eq (a b : F) : feq a b = decide (a = b) := by
  rw [feq, OrderedTrialFloat.partialCmp_eq, Bool.eq_iff_iff]
  simp

/-- Taking in the observations leaves the nearest ones. -/
theorem foldl_insertNeighbor {k : ℕ} (xs : List (F × ℕ)) (hk : k ≤ xs.length)
    (hxs : ∀ x ∈ xs, x.1 < infinity) :
    xs.foldl (fun nearest x => insertNeighbor nearest x.1 x.2) (List.replicate k (infinity, 0)) =
      topK NearerLe k xs := by
  have hbefore : ∀ x y : F × ℕ, (flt x.1 y.1 || (feq x.1 y.1 && decide (x.2 < y.2))) = true ↔
      ¬ NearerLe y x := by
    intro x y
    simp only [flt_eq, feq_eq, Bool.or_eq_true, Bool.and_eq_true, decide_eq_true_eq, NearerLe]
    constructor
    · rintro (h | ⟨h, hid⟩) (h' | ⟨h', hid'⟩)
      · exact h.not_gt h'
      · exact h.ne' h'
      · exact h'.ne' h
      · omega
    · intro h
      rcases lt_trichotomy x.1 y.1 with hlt | heq | hgt
      · exact .inl hlt
      · exact .inr ⟨heq, not_le.mp fun hid => h (.inr ⟨heq.symm, hid⟩)⟩
      · exact absurd (.inl hgt) h
  have hpadding : (List.replicate k ((infinity : F), 0)).Pairwise NearerLe :=
    List.pairwise_replicate.mpr (.inr (.inr ⟨rfl, le_rfl⟩))
  have hfold := foldl_displace NearerLe hbefore xs _ hpadding
  rw [List.length_replicate] at hfold
  refine hfold.trans (topK_append_padding NearerLe (p := fun x => decide (x.1 < infinity))
    ?_ ?_ ?_ hk)
  · rintro a b (h | ⟨h, -⟩) hb
    · exact decide_eq_true (h.trans (of_decide_eq_true hb))
    · exact decide_eq_true (h ▸ of_decide_eq_true hb)
  · intro a ha
    rw [List.eq_of_mem_replicate ha]
    exact decide_eq_false (lt_irrefl _)
  · intro a ha
    exact decide_eq_true (hxs a ha)

end Insertion

/-- The observations nearest to a row, by its own distances. -/
def nearestTo (k : ℕ) (row : Row) (observations : List (Row × F)) (leaves : List (Leaf F))
    (steps : List Step) : List (F × ℕ) :=
  topK NearerLe k
    (observations.zipIdx.map fun p => (rowDistance row p.1.1 leaves steps, p.2))

/-- The score of a row, by the observations nearest to it. -/
def rowScore (row : Row) (observations : List (Row × F)) (leaves : List (Leaf F))
    (config : Ask F) (draw : F) : F :=
  score (nearestTo config.neighbors row observations leaves (makeSteps leaves config.length))
    (observations.map Prod.snd) draw config

/-- The first of the greatest values of `g` below `n`, unless none is above `low`. -/
def FirstBest (g : ℕ → F) (low : F) (n : ℕ) (best : ℕ × F) : Prop :=
  best = (0, low) ∧ (∀ j < n, g j ≤ low) ∨
    best.1 < n ∧ best.2 = g best.1 ∧ (∀ j < n, g j ≤ best.2) ∧ ∀ j < best.1, g j < best.2

section Scores

variable [OrderedTrialFloat F] {base : Row} {observations : List (Row × F)}
  {leaves : List (Leaf F)} {config : Ask F} {rowBytes : ℕ}

theorem scoreSeed_eq (hlayout : checkLayout leaves = .ok rowBytes) (hbase : base.length = rowBytes)
    (hneighbors : config.neighbors ≤ observations.length) (draw : F) (seed : UInt64)
    (hfinite : ∀ o ∈ observations, rowDistance (materialize base leaves
      (makeSteps leaves config.length) seed) o.1 leaves (makeSteps leaves config.length) < infinity) :
    scoreSeed base observations leaves (makeSteps leaves config.length) config draw seed =
      rowScore (materialize base leaves (makeSteps leaves config.length) seed) observations leaves
        config draw := by
  unfold scoreSeed rowScore nearestTo
  rw [← foldl_insertNeighbor, List.foldl_map]
  · simp only [trialDistance_eq hlayout hbase]
  · simpa using hneighbors
  · simp only [List.mem_map, forall_exists_index, and_imp]
    rintro x p hp rfl
    exact hfinite p.1 (List.fst_mem_of_mem_zipIdx hp)

omit [OrderedTrialFloat F] [TrialFloat F] in
theorem FirstBest.congr {g g' : ℕ → F} {low : F} {n : ℕ} {best : ℕ × F}
    (h : FirstBest g low n best) (hg : ∀ j < n, g j = g' j) : FirstBest g' low n best := by
  rcases h with ⟨hbest, hlow⟩ | ⟨hlt, hvalue, hgreatest, hfirst⟩
  · exact .inl ⟨hbest, fun j hj => hg j hj ▸ hlow j hj⟩
  · exact .inr ⟨hlt, hvalue.trans (hg _ hlt), fun j hj => hg j hj ▸ hgreatest j hj,
      fun j hj => hg j (hj.trans hlt) ▸ hfirst j hj⟩

theorem FirstBest.keepBest {scoreAt : ℕ → UInt64 → F} {g : ℕ → F} {low : F} {n : ℕ}
    {best : ℕ × F} (h : FirstBest g low n best) {seed : UInt64} (hg : g n = scoreAt n seed) :
    FirstBest g low (n + 1) (keepBest scoreAt best (seed, n)) := by
  have hlater : ¬ n < best.1 := by
    rcases h with ⟨rfl, -⟩ | ⟨hlt, -⟩
    · exact Nat.not_lt_zero _
    · exact hlt.not_gt
  unfold Trials.keepBest
  simp only [fgt_eq, hlater, decide_false, Bool.and_false, Bool.or_false, decide_eq_true_eq, ← hg]
  split
  next hbetter =>
    have hbelow : ∀ j < n, g j < g n := by
      intro j hj
      rcases h with ⟨rfl, hlow⟩ | ⟨-, -, hgreatest, -⟩
      · exact (hlow j hj).trans_lt hbetter
      · exact (hgreatest j hj).trans_lt hbetter
    refine .inr ⟨Nat.lt_succ_self n, rfl, fun j hj => ?_, hbelow⟩
    rcases Nat.lt_succ_iff_lt_or_eq.mp hj with hlt | rfl
    · exact (hbelow j hlt).le
    · exact le_rfl
  next hnot =>
    have hlast : ∀ {v : F}, best.2 ≤ v → (∀ j < n, g j ≤ v) → ∀ j < n + 1, g j ≤ v := by
      intro v hv hall j hj
      rcases Nat.lt_succ_iff_lt_or_eq.mp hj with hlt | rfl
      · exact hall j hlt
      · exact (not_lt.mp hnot).trans hv
    rcases h with ⟨rfl, hlow⟩ | ⟨hlt, hvalue, hgreatest, hfirst⟩
    · exact .inl ⟨rfl, hlast le_rfl hlow⟩
    · exact .inr ⟨hlt.trans (Nat.lt_succ_self n), hvalue, hlast le_rfl hgreatest, hfirst⟩

theorem firstBest_foldl (scoreAt : ℕ → UInt64 → F) (low : F) (seeds : List UInt64) :
    FirstBest (fun i => scoreAt i (seeds.getD i 0)) low seeds.length
      (seeds.zipIdx.foldl (keepBest scoreAt) (0, low)) := by
  induction seeds using List.reverseRecOn with
  | nil => exact .inl ⟨rfl, nofun⟩
  | append_singleton seeds seed ih =>
    rw [List.zipIdx_append, List.foldl_append, List.length_append, Nat.zero_add,
      List.zipIdx_singleton, List.foldl_cons, List.foldl_nil, List.length_singleton]
    have hsame : ∀ j < seeds.length, scoreAt j (seeds.getD j 0) =
        scoreAt j ((seeds ++ [seed]).getD j 0) := by
      intro j hj
      rw [List.getD_append _ _ _ _ hj]
    have hlast : (seeds ++ [seed]).getD seeds.length 0 = seed := by simp
    exact (ih.congr hsame).keepBest (congrArg (scoreAt seeds.length) hlast)

theorem firstBest_askRows (hlayout : checkLayout leaves = .ok rowBytes)
    (hbase : base.length = rowBytes) (hneighbors : config.neighbors ≤ observations.length)
    {seeds : List UInt64}
    (hfinite : ∀ seed ∈ seeds, ∀ o ∈ observations, rowDistance (materialize base leaves
      (makeSteps leaves config.length) seed) o.1 leaves (makeSteps leaves config.length) < infinity) :
    FirstBest (fun i => rowScore (materialize base leaves (makeSteps leaves config.length)
        (seeds.getD i 0)) observations leaves config
        ((thompsonDraws seeds.length config.seed).getD i 0)) (-infinity) seeds.length
      (askRows base observations seeds leaves config) := by
  refine (firstBest_foldl _ _ _).congr fun j hj => ?_
  apply scoreSeed_eq hlayout hbase hneighbors
  apply hfinite
  rw [List.getD_eq_getElem _ _ hj]
  exact List.getElem_mem hj

end Scores

namespace Search

section Layout

variable {s : Search F Cpu} {seeds : List UInt64} {config : Ask F}

omit [LinearOrder F] in
/-- The searches hold rows of one layout, and as many. -/
structure SameLayout (s t : Search F Cpu) : Prop where
  leaves_eq : t.leaves = s.leaves
  rowBytes_eq : t.rowBytes = s.rowBytes
  capacity_eq : t.capacity = s.capacity

omit [LinearOrder F] in
/-- No call changes how a row is laid out. -/
theorem sameLayout_run (s : Search F Cpu) (hs : s.SlotsOk) (command : Command F) :
    SameLayout s (command.run s).2 := by
  have hsettle : SameLayout s s.settle := by
    unfold settle
    split
    · exact ⟨rfl, rfl, rfl⟩
    · split
      · exact ⟨rfl, rfl, rfl⟩
      · exact ⟨rfl, rfl, rfl⟩
  have hask : ∀ seeds config m,
      SameLayout s (s.askWithMaterialization seeds config m).2 := by
    intro seeds config m
    rw [askWithMaterialization_eq]
    cases s.askSlot seeds config with
    | error e => exact ⟨rfl, rfl, rfl⟩
    | ok slot =>
      cases m with
      | false => exact ⟨rfl, rfl, rfl⟩
      | true => exact ⟨rfl, rfl, rfl⟩
  cases command with
  | ask seeds config => exact hask seeds config true
  | askLazy seeds config => exact hask seeds config false
  | askMultiTr numRegions seedsPerRegion seeds config =>
    simp only [Command.run, Answer.wrap, askMultiTr_eq]
    cases s.checkAskMultiTr numRegions seedsPerRegion seeds config with
    | error e => exact ⟨rfl, rfl, rfl⟩
    | ok u => exact ⟨rfl, rfl, rfl⟩
  | askMultiTrTree numRegions seedsPerRegion centers regionCenters seeds config =>
    simp only [Command.run, Answer.wrap, askMultiTrTree_snd]
    exact ⟨rfl, rfl, rfl⟩
  | materializePending trial =>
    simp only [Command.run, Answer.wrap, materializePending_eq]
    cases s.pendingFor trial with
    | error e => exact ⟨rfl, rfl, rfl⟩
    | ok pending => exact hsettle
  | tell trial value accept =>
    simp only [Command.run, Answer.wrap, tell_eq]
    split
    · exact ⟨rfl, rfl, rfl⟩
    · cases s.pendingFor trial with
      | error e => exact ⟨rfl, rfl, rfl⟩
      | ok pending => exact ⟨hsettle.leaves_eq, hsettle.rowBytes_eq, hsettle.capacity_eq⟩
  | replaceHistory rows values =>
    simp only [Command.run, Answer.wrap]
    rcases s.replaceHistory_cases rows values with ⟨e, he⟩ | ⟨-, -, -, heq⟩
    · rw [he]
      exact ⟨rfl, rfl, rfl⟩
    · rw [heq]
      exact ⟨rfl, rfl, rfl⟩
  | replaceIndexedHistory observations resolve =>
    simp only [Command.run, Answer.wrap]
    rcases hs.replaceIndexedHistory_cases observations resolve with ⟨e, -, he⟩ | ⟨-, heq⟩
    · rw [he]
      exact ⟨rfl, rfl, rfl⟩
    · rw [heq]
      exact ⟨rfl, rfl, rfl⟩

omit [LinearOrder F] in
theorem checkAsk_neighbors {n : ℕ} (h : checkAsk seeds n config = .ok ()) :
    seeds ≠ [] ∧ 0 < config.neighbors ∧ config.neighbors ≤ n := by
  unfold checkAsk at h
  split at h
  next => cases h
  next hseeds =>
    split at h
    next => cases h
    next hneighbors =>
      refine ⟨by simpa using hseeds, ?_⟩
      omega

omit [LinearOrder F] in
theorem Reachable.layout (h : s.Reachable) :
    checkLayout s.leaves = .ok s.rowBytes ∧ s.capacity ≤ maxHistory := by
  induction h with
  | @new base baseValue leaves capacity s hnew =>
    obtain ⟨-, rfl⟩ := new_eq_ok hnew
    unfold Search.new at hnew
    split at hnew
    · cases hnew
    split at hnew
    · cases hnew
    next hcapacity =>
      split at hnew
      · cases hnew
      next rowBytes hlayout =>
        split at hnew
        · cases hnew
        next hbase =>
          dsimp only
          rw [hlayout, not_not.mp hbase]
          exact ⟨rfl, by omega⟩
  | run command hs ih =>
    obtain ⟨hleaves, hbytes, hcapacity⟩ := sameLayout_run _ hs.slotsOk command
    rwa [hleaves, hbytes, hcapacity]

omit [LinearOrder F] in
theorem Reachable.length_base (h : s.Reachable) : (s.engine.read s.base).length = s.rowBytes :=
  (Cpu.length_read h.slotsOk.fits h.slotsOk.base_lt).trans h.slotsOk.width

end Layout

def seedRow (s : Search F Cpu) (config : Ask F) (seed : UInt64) : Row :=
  materialize (s.engine.read s.base) s.leaves (makeSteps s.leaves config.length) seed

/-- The score of the row of one of the seeds. -/
def seedScore (s : Search F Cpu) (seeds : List UInt64) (config : Ask F) (i : ℕ) : F :=
  rowScore (s.seedRow config (seeds.getD i 0)) s.observations s.leaves config
    ((thompsonDraws seeds.length config.seed).getD i 0)

/-- The trial is the first one with the best row. -/
structure Best (s : Search F Cpu) (seeds : List UInt64) (config : Ask F) (trial : Trial F) :
    Prop where
  index_lt : trial.index < seeds.length
  seed_eq : trial.seed = seeds.getD trial.index 0
  score_eq : trial.score = s.seedScore seeds config trial.index
  greatest : ∀ j < seeds.length, s.seedScore seeds config j ≤ trial.score
  first : ∀ j < trial.index, s.seedScore seeds config j < trial.score

section Asking

variable [OrderedTrialFloat F] {s : Search F Cpu} {seeds : List UInt64} {config : Ask F}
  {trial : Trial F}

/-- An ask proposes the first of its seeds whose row scores best, and the slot holds that row. -/
theorem best_of_ask (h : s.Reachable) (htrial : (s.ask seeds config).1 = .ok trial)
    (hfinite : ∀ seed ∈ seeds, ∀ o ∈ s.observations, rowDistance (s.seedRow config seed) o.1
      s.leaves (makeSteps s.leaves config.length) < infinity)
    (hscore : ∃ j < seeds.length, -infinity < s.seedScore seeds config j) :
    s.Best seeds config trial ∧
      (s.ask seeds config).2.row trial = .ok (s.seedRow config trial.seed) := by
  have hrow := row_ask h.slotsOk htrial
  rw [ask, askWithMaterialization_eq] at htrial
  split at htrial
  next => cases htrial
  next slot hslot =>
    cases htrial
    obtain ⟨-, hcheck, -⟩ := askSlot_eq_ok hslot
    have hneighbors : config.neighbors ≤ s.observations.length := by
      rw [observations, List.length_map]
      exact (checkAsk_neighbors hcheck).2.2
    refine ⟨?_, hrow⟩
    rcases firstBest_askRows h.layout.1 h.length_base hneighbors hfinite with
      ⟨-, hlow⟩ | ⟨hlt, hvalue, hgreatest, hfirst⟩
    · obtain ⟨j, hj, hlt⟩ := hscore
      exact absurd (hlow j hj) hlt.not_ge
    · exact ⟨hlt, rfl, hvalue, hgreatest, hfirst⟩

end Asking

theorem reachable_oneByteTold : oneByteTold.Reachable := .run _ (.run _ (.new new_oneByte))

theorem ask_oneByteTold : (oneByteTold.ask [2, 1, 3] oneByteAsk).1 =
    .ok (oneByteTold.chosen [2, 1, 3] oneByteAsk) := by
  have hslot : oneByteTold.askSlot [2, 1, 3] oneByteAsk = .ok 2 := by decide +kernel
  rw [ask, askWithMaterialization_eq, hslot]

theorem best_of_ask_oneByte :
    oneByteTold.Best [2, 1, 3] oneByteAsk (oneByteTold.chosen [2, 1, 3] oneByteAsk) ∧
      (oneByteTold.ask [2, 1, 3] oneByteAsk).2.row (oneByteTold.chosen [2, 1, 3] oneByteAsk) =
        .ok [102] := by
  have hall : ([2, 1, 3].all fun seed => oneByteTold.observations.all fun o =>
      decide (rowDistance (oneByteTold.seedRow oneByteAsk seed) o.1 oneByteTold.leaves
        (makeSteps oneByteTold.leaves oneByteAsk.length) < infinity)) = true := by decide +kernel
  have hfinite : ∀ seed ∈ [(2 : UInt64), 1, 3], ∀ o ∈ oneByteTold.observations,
      rowDistance (oneByteTold.seedRow oneByteAsk seed) o.1 oneByteTold.leaves
        (makeSteps oneByteTold.leaves oneByteAsk.length) < infinity := by
    intro seed hseed o ho
    exact of_decide_eq_true (List.all_eq_true.mp (List.all_eq_true.mp hall seed hseed) o ho)
  have hscore : -infinity < oneByteTold.seedScore [2, 1, 3] oneByteAsk 0 := by decide +kernel
  obtain ⟨hbest, hrow⟩ := best_of_ask reachable_oneByteTold ask_oneByteTold hfinite
    ⟨0, by decide, hscore⟩
  exact ⟨hbest, hrow.trans (by decide +kernel)⟩

end Search

end Ennbo.Trials
