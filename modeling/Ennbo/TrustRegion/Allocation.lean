import Ennbo.TrustRegion.Regions
import Ennbo.TrustRegion.Rounding
import Mathlib.Algebra.Order.BigOperators.Group.Finset
import Mathlib.Data.Finset.Prod
import Mathlib.Order.Interval.Finset.Nat

/-! # Dividing a budget

Every candidate of a budget goes to the active region with the greatest bound. A
budget that is smaller than the number of active regions is given to the first
regions of a ranking. Both take the first of all candidates, ranked by the bound that
their region has when they are reached, so that regions of one trial count are only
out of order where rounding or a division by zero makes their bounds equal.
-/

namespace Ennbo

open Ranking

namespace MultiTrustRegionState

variable {D : Type} [Floating D] [Analysis D] {M : ℕ}

section Priority

variable {s : MultiTrustRegionState D M} {r a b : Fin M} {m n : ℕ}

/-- The weight of the exploration is what `new` accepts. -/
def Explores (s : MultiTrustRegionState D M) : Prop :=
  isFinite s.config.exploration = true ∧ ltB s.config.exploration 0 = false

def effectiveTrials (s : MultiTrustRegionState D M) (r : Fin M) (queued : ℕ) : D :=
  ((s.regions r).trialCount : D) + (queued : D)

def uncertainty (s : MultiTrustRegionState D M) (r : Fin M) (queued : ℕ) : D :=
  sqrt (ln (s.totalTrials + (M : D) + 1) / s.effectiveTrials r queued)

theorem priority_eq (u : D) :
    s.priority r n u = u + s.config.exploration * s.uncertainty r n := rfl

theorem uncertainty_congr (h : (s.regions a).trialCount = (s.regions b).trialCount) :
    s.uncertainty a n = s.uncertainty b n := by
  unfold uncertainty effectiveTrials
  rw [h]

variable [OrderedRounding D]

theorem isNumber_natCast (n : ℕ) : IsNumber (n : D) :=
  OrderedRounding.isNumber_of_isFinite _ (OrderedRounding.natCast_nonneg n).2

theorem isNumber_effectiveTrials : IsNumber (s.effectiveTrials r n) :=
  OrderedRounding.add_isNumber _ _ (OrderedRounding.natCast_nonneg _).2 (isNumber_natCast n)

theorem effectiveTrials_le (h : m ≤ n) :
    TotalLe (s.effectiveTrials r m) (s.effectiveTrials r n) :=
  OrderedRounding.add_le_add_left _ _ _ (OrderedRounding.natCast_nonneg _).2 (isNumber_natCast m)
    (isNumber_natCast n) (OrderedRounding.natCast_le m n h)

theorem one_le_effectiveTrials (h : 0 < n) : TotalLe 1 (s.effectiveTrials r n) :=
  Std.TransCmp.isLE_trans (OrderedRounding.one_le_natCast n h)
    (OrderedRounding.le_add _ _ (OrderedRounding.natCast_nonneg _) (OrderedRounding.natCast_nonneg n)).2

theorem ln_totalTrials_nonneg : NonNeg (ln (s.totalTrials + (M : D) + 1)) :=
  OrderedRounding.ln_nonneg _ M (lt_of_lt_of_le one_pos (le_max_right _ _))

theorem div_effectiveTrials_nonneg (h : 0 < n) :
    NonNeg (ln (s.totalTrials + (M : D) + 1) / s.effectiveTrials r n) :=
  OrderedRounding.div_nonneg _ _ ln_totalTrials_nonneg (one_le_effectiveTrials h) isNumber_effectiveTrials

theorem uncertainty_nonneg (h : 0 < n) : NonNeg (s.uncertainty r n) :=
  OrderedRounding.sqrt_nonneg _ (div_effectiveTrials_nonneg h)

theorem uncertainty_le (hm : 0 < m) (h : m ≤ n) :
    TotalLe (s.uncertainty r n) (s.uncertainty r m) :=
  OrderedRounding.sqrt_le_sqrt _ _ (div_effectiveTrials_nonneg (hm.trans_le h))
    (div_effectiveTrials_nonneg hm)
    (OrderedRounding.div_le_div _ _ _ ln_totalTrials_nonneg (one_le_effectiveTrials hm)
      (effectiveTrials_le h) isNumber_effectiveTrials)

theorem priority_le_of_queued (he : s.Explores) {u : D} (hu : isFinite u = true) (hm : 0 < m)
    (h : m ≤ n) : TotalLe (s.priority r n u) (s.priority r m u) := by
  rw [priority_eq, priority_eq]
  have hpos : 0 < n := hm.trans_le h
  apply OrderedRounding.add_le_add_left _ _ _ hu
  · exact OrderedRounding.mul_isNumber _ _ he.1 he.2 (uncertainty_nonneg hpos)
  · exact OrderedRounding.mul_isNumber _ _ he.1 he.2 (uncertainty_nonneg hm)
  · exact OrderedRounding.mul_le_mul _ _ _ he.1 he.2 (uncertainty_nonneg hpos) (uncertainty_nonneg hm)
      (uncertainty_le hm h)

theorem priority_le_of_utility {u v : D} (hu : isFinite u = true) (hv : isFinite v = true)
    (h : ltB u v = true) (htrials : (s.regions a).trialCount = (s.regions b).trialCount) :
    TotalLe (s.priority b n u) (s.priority a n v) := by
  rw [priority_eq, priority_eq, uncertainty_congr htrials]
  exact OrderedRounding.add_le_add_right _ _ _ hu hv h

end Priority

section Batches

variable {bs : List (RegionBatch M)} {len : Fin M → ℕ} {start : ℕ} {rs : List (Fin M)} {r : Fin M}

/-- The ranges lie one behind the other. -/
def Contiguous : ℕ → List (RegionBatch M) → Prop
  | _, [] => True
  | start, b :: rest => b.start = start ∧ Contiguous (start + b.len) rest

def candidates (bs : List (RegionBatch M)) (r : Fin M) : ℕ :=
  ((bs.filter fun b => b.region = r).map RegionBatch.len).sum

theorem contiguous_batches : Contiguous start (batches len start rs) := by
  induction rs generalizing start with
  | nil => trivial
  | cons r rs ih => exact ⟨rfl, ih⟩

theorem region_batches : (batches len start rs).map RegionBatch.region = rs := by
  induction rs generalizing start with
  | nil => rfl
  | cons r rs ih => rw [batches, List.map_cons, ih]

theorem len_batches : (batches len start rs).map RegionBatch.len = rs.map len := by
  induction rs generalizing start with
  | nil => rfl
  | cons r rs ih => rw [batches, List.map_cons, List.map_cons, ih]

theorem candidates_batches (h : rs.Nodup) :
    candidates (batches len start rs) r = if r ∈ rs then len r else 0 := by
  induction rs generalizing start with
  | nil => rfl
  | cons q rs ih =>
    obtain ⟨hq, hrs⟩ := List.nodup_cons.mp h
    have hrest : candidates (batches len (start + len q) rs) r = if r ∈ rs then len r else 0 :=
      ih hrs
    unfold candidates at hrest ⊢
    rw [batches, List.filter_cons]
    by_cases hqr : q = r
    · subst hqr
      rw [if_neg hq] at hrest
      rw [if_pos (by simp), if_pos List.mem_cons_self, List.map_cons, List.sum_cons, hrest]
      rfl
    · rw [if_neg (by simpa using hqr), hrest]
      simp [Ne.symm hqr]

end Batches

section Items

variable {s : MultiTrustRegionState D M} {utility : Fin M → D} {budget : ℕ} {a b c : Fin M × ℕ}

/-- Candidates, each with its region and the number that the region has before it, in the order
of their bounds, descending, and then of the regions. -/
def ItemLe (s : MultiTrustRegionState D M) (utility : Fin M → D) (a b : Fin M × ℕ) : Prop :=
  let cmp := totalCmp (s.priority b.1 b.2 (utility b.1)) (s.priority a.1 a.2 (utility a.1))
  cmp = .lt ∨ cmp = .eq ∧ toLex a ≤ toLex b

instance : DecidableRel (s.ItemLe utility) := fun _ _ => inferInstanceAs (Decidable (_ ∨ _))

/-- A budget below the number of active regions ranks their first candidates. A greater one gives
each its first candidate and ranks those behind. -/
def items (s : MultiTrustRegionState D M) (budget : ℕ) : Finset (Fin M × ℕ) :=
  s.activeRegions.toFinset ×ˢ
    if budget < s.activeRegions.length then {0} else .Icc 1 (budget - s.activeRegions.length)

def ranked (s : MultiTrustRegionState D M) (budget : ℕ) : ℕ :=
  if budget < s.activeRegions.length then budget else budget - s.activeRegions.length

/-- Whether a budget reaches a candidate: fewer than it has places for come before. -/
def Reached (s : MultiTrustRegionState D M) (utility : Fin M → D) (budget : ℕ) (a : Fin M × ℕ) :
    Prop :=
  a ∈ s.items budget ∧
    ((s.items budget).filter fun b => ¬ s.ItemLe utility a b).card < s.ranked budget

variable [OrderedRounding D]

instance : Std.Total (s.ItemLe utility) where
  total a b := by
    unfold ItemLe
    rw [@Std.OrientedCmp.eq_swap D totalCmp _ (s.priority a.1 a.2 (utility a.1))]
    cases totalCmp (s.priority b.1 b.2 (utility b.1)) (s.priority a.1 a.2 (utility a.1)) with
    | lt => simp
    | gt => simp
    | eq => simpa using le_total (toLex a) (toLex b)

instance : IsTrans (Fin M × ℕ) (s.ItemLe utility) where
  trans a b c := by
    unfold ItemLe
    dsimp only
    rintro (hab | ⟨hab, hab'⟩) (hbc | ⟨hbc, hbc'⟩)
    · exact .inl (Std.TransCmp.lt_trans hbc hab)
    · exact .inl (Std.TransCmp.lt_of_eq_of_lt hbc hab)
    · exact .inl (Std.TransCmp.lt_of_lt_of_eq hbc hab)
    · exact .inr ⟨Std.TransCmp.eq_trans hbc hab, hab'.trans hbc'⟩

instance : Std.Antisymm (s.ItemLe utility) where
  antisymm a b := by
    unfold ItemLe
    rw [@Std.OrientedCmp.eq_swap D totalCmp _ (s.priority a.1 a.2 (utility a.1))]
    rintro (hab | ⟨hab, hab'⟩) (hba | ⟨hba, hba'⟩)
    · simp [hab] at hba
    · simp [hab] at hba
    · simp [hab] at hba
    · exact toLex.injective (hab'.antisymm hba')

theorem itemLe_of_le
    (h : TotalLe (s.priority b.1 b.2 (utility b.1)) (s.priority a.1 a.2 (utility a.1)))
    (hlex : s.priority a.1 a.2 (utility a.1) = s.priority b.1 b.2 (utility b.1) →
      toLex a ≤ toLex b) : s.ItemLe utility a b := by
  rcases Ordering.isLE_iff_eq_lt_or_eq_eq.mp h with hlt | heq
  · exact .inl hlt
  · exact .inr ⟨heq, hlex (Std.LawfulEqCmp.eq_of_compare heq).symm⟩

theorem reached_of_itemLe (ha : a ∈ s.items budget) (hab : s.ItemLe utility a b)
    (hb : s.Reached utility budget b) : s.Reached utility budget a := by
  refine ⟨ha, lt_of_le_of_lt (Finset.card_le_card ?_) hb.2⟩
  apply Finset.monotone_filter_right
  intro c _ hac hbc
  exact hac (IsTrans.trans a b c hab hbc)

theorem reached_iff_mem (chosen : Finset (Fin M × ℕ)) (hsub : chosen ⊆ s.items budget)
    (hcard : chosen.card = s.ranked budget)
    (hfront : ∀ a ∈ chosen, ∀ b ∈ s.items budget, b ∉ chosen → s.ItemLe utility a b)
    (ha : a ∈ s.items budget) : s.Reached utility budget a ↔ a ∈ chosen := by
  unfold Reached
  rw [and_iff_right ha, ← hcard]
  exact (mem_iff_card_before_lt (s.ItemLe utility) hsub hfront ha).symm

end Items

section Queue

variable {s : MultiTrustRegionState D M} {utility : Fin M → D} {counts : Fin M → ℕ}
  {active : List (Fin M)}

omit [Floating D] [Analysis D] in
theorem nodup_activeRegions (s : MultiTrustRegionState D M) : s.activeRegions.Nodup :=
  (List.nodup_finRange M).filter _

omit [Floating D] [Analysis D] in
theorem mem_activeRegions {r : Fin M} :
    r ∈ s.activeRegions ↔ (s.regions r).active = true := by
  simp [activeRegions]

theorem sum_map_update {active : List (Fin M)} {r : Fin M} (hnodup : active.Nodup)
    (hr : r ∈ active) :
    (active.map (Function.update counts r (counts r + 1))).sum = (active.map counts).sum + 1 := by
  obtain ⟨before, after, rfl⟩ := List.append_of_mem hr
  rw [List.nodup_append] at hnodup
  obtain ⟨-, hafter, hbefore⟩ := hnodup
  have hsame : ∀ {l : List (Fin M)}, r ∉ l →
      l.map (Function.update counts r (counts r + 1)) = l.map counts := fun h =>
    List.map_congr_left fun q hq => Function.update_of_ne (ne_of_mem_of_not_mem hq h) _ _
  have hr' : r ∉ before := fun h => hbefore r h r List.mem_cons_self rfl
  simp only [List.map_append, List.map_cons, List.sum_append, List.sum_cons, hsame hr',
    hsame (List.nodup_cons.mp hafter).1, Function.update_self]
  omega

theorem exists_preferred (s : MultiTrustRegionState D M) (utility : Fin M → D)
    (counts : Fin M → ℕ) (h : active ≠ []) :
    ∃ best ∈ active, s.preferred utility counts active = some best := by
  obtain ⟨r, rs, rfl⟩ := List.exists_cons_of_ne_nil h
  refine ⟨_, ?_, rfl⟩
  clear h
  induction rs using List.reverseRecOn with
  | nil => exact List.mem_cons_self
  | append_singleton rs q ih =>
    rw [List.foldl_concat]
    split
    · simp
    · rcases List.mem_cons.mp ih with heq | hmem
      · rw [heq]
        exact List.mem_cons_self
      · exact List.mem_cons_of_mem _ (List.mem_append_left _ hmem)

/-- Each candidate of the loop goes to an active region. -/
theorem queue_iterate_spec (s : MultiTrustRegionState D M) (utility : Fin M → D)
    (hne : active ≠ []) (hnodup : active.Nodup) (n : ℕ) :
    (∀ r, 0 < (s.queue utility active)^[n] (fun _ => 1) r) ∧
      (active.map ((s.queue utility active)^[n] fun _ => 1)).sum = active.length + n := by
  induction n with
  | zero => simp
  | succ n ih =>
    rw [Function.iterate_succ_apply']
    generalize (s.queue utility active)^[n] (fun _ => 1) = counts at ih
    obtain ⟨best, hmem, hbest⟩ := s.exists_preferred utility counts hne
    unfold queue
    rw [hbest]
    dsimp only
    refine ⟨fun r => ?_, ?_⟩
    · by_cases hr : r = best
      · subst hr
        simp
      · rw [Function.update_of_ne hr]
        exact ih.1 r
    · rw [sum_map_update hnodup hmem, ih.2, Nat.add_assoc]

variable [OrderedRounding D]

instance : Std.Total (s.PreferLe utility counts) :=
  ⟨fun a b => Std.Total.total (r := EntryLe) (b.val, s.priority b (counts b) (utility b))
    (a.val, s.priority a (counts a) (utility a))⟩

instance : IsTrans (Fin M) (s.PreferLe utility counts) :=
  ⟨fun a b c hab hbc => IsTrans.trans (r := EntryLe) (c.val, s.priority c (counts c) (utility c))
    (b.val, s.priority b (counts b) (utility b)) (a.val, s.priority a (counts a) (utility a))
    hbc hab⟩

/-- No region is preferred to the one that is. -/
theorem le_of_preferred {best : Fin M} (h : s.preferred utility counts active = some best) :
    ∀ r ∈ active, s.PreferLe utility counts r best := by
  cases active with
  | nil => cases h
  | cons q rs =>
    obtain rfl := Option.some.inj h
    clear h
    induction rs using List.reverseRecOn with
    | nil =>
      intro r hr
      obtain rfl := List.mem_singleton.mp hr
      exact (Std.Total.total r r).elim id id
    | append_singleton rs p ih =>
      rw [List.foldl_concat, ← List.cons_append]
      split
      next hp =>
        rw [List.forall_mem_append, List.forall_mem_singleton]
        exact ⟨fun r hr => IsTrans.trans r _ p (ih r hr) hp, (Std.Total.total p p).elim id id⟩
      next hp =>
        rw [List.forall_mem_append, List.forall_mem_singleton]
        exact ⟨ih, (Std.Total.total _ p).resolve_left hp⟩

/-- The candidates that are queued come before those that are not. -/
def Front (s : MultiTrustRegionState D M) (utility : Fin M → D) (active : List (Fin M))
    (counts : Fin M → ℕ) : Prop :=
  ∀ a ∈ active, ∀ b ∈ active, ∀ m n, 0 < m → m < counts a → counts b ≤ n →
    s.ItemLe utility (a, m) (b, n)

theorem itemLe_of_preferred (he : s.Explores) (hu : ∀ r, isFinite (utility r) = true)
    {best b : Fin M} (h : s.PreferLe utility counts b best) (hpos : 0 < counts b) {n : ℕ}
    (hn : counts b ≤ n) : s.ItemLe utility (best, counts best) (b, n) := by
  have hfirst : s.ItemLe utility (best, counts best) (b, counts b) := by
    obtain ⟨hle, hindex⟩ := (entryLe_iff (a := (best.val, s.priority best (counts best)
      (utility best))) (b := (b.val, s.priority b (counts b) (utility b)))).mp h
    refine itemLe_of_le (a := (best, counts best)) (b := (b, counts b)) hle fun heq => ?_
    have hindex : best ≤ b := hindex.resolve_left fun hlt => by
      simp only [heq, Std.ReflCmp.compare_self, reduceCtorEq] at hlt
    rcases hindex.lt_or_eq with hlt | rfl
    · exact Prod.Lex.toLex_le_toLex.mpr (.inl hlt)
    · exact le_rfl
  refine IsTrans.trans _ _ _ hfirst (itemLe_of_le ?_ fun _ => ?_)
  · exact priority_le_of_queued he (hu b) hpos hn
  · exact Prod.Lex.toLex_le_toLex.mpr (.inr ⟨rfl, hn⟩)

theorem front_iterate (he : s.Explores) (hu : ∀ r, isFinite (utility r) = true)
    (hne : active ≠ []) (hnodup : active.Nodup) (n : ℕ) :
    s.Front utility active ((s.queue utility active)^[n] fun _ => 1) := by
  induction n with
  | zero =>
    intro a _ b _ m n hm hlt _
    exact absurd hlt (not_lt.mpr hm)
  | succ n ih =>
    have hpos := (s.queue_iterate_spec utility hne hnodup n).1
    rw [Function.iterate_succ_apply']
    generalize (s.queue utility active)^[n] (fun _ => 1) = counts at ih hpos
    obtain ⟨best, hmem, hbest⟩ := s.exists_preferred utility counts hne
    unfold queue
    rw [hbest]
    dsimp only
    intro a ha b hb m k hm hlt hle
    have hcount : counts b ≤ k := by
      refine le_trans ?_ hle
      by_cases hb : b = best
      · rw [hb, Function.update_self]
        exact Nat.le_succ _
      · rw [Function.update_of_ne hb]
    by_cases hmcount : m < counts a
    · exact ih a ha b hb m k hm hmcount hcount
    · -- the candidate that was just queued
      obtain rfl : a = best := by
        by_contra hne
        rw [Function.update_of_ne hne] at hlt
        exact hmcount hlt
      rw [Function.update_self] at hlt
      obtain rfl : m = counts a := by omega
      exact itemLe_of_preferred he hu (le_of_preferred hbest b hb) (hpos b) hcount

end Queue

section Counts

variable {s : MultiTrustRegionState D M} {counts : Fin M → ℕ} {active : List (Fin M)} {k : ℕ}

omit [Floating D] [Analysis D]

theorem sum_pred_counts (hnodup : active.Nodup) (hpos : ∀ r, 0 < counts r)
    (hsum : (active.map counts).sum = active.length + k) :
    ∑ r ∈ active.toFinset, (counts r - 1) = k := by
  rw [← List.sum_toFinset counts hnodup, ← List.toFinset_card_of_nodup hnodup] at hsum
  have hsucc : ∑ r ∈ active.toFinset, counts r =
      ∑ r ∈ active.toFinset, (counts r - 1) + active.toFinset.card := by
    rw [Finset.card_eq_sum_ones, ← Finset.sum_add_distrib]
    exact Finset.sum_congr rfl fun r _ => (Nat.sub_add_cancel (hpos r)).symm
  exact Nat.add_right_cancel (hsucc.symm.trans (hsum.trans (Nat.add_comm _ _)))

theorem counts_le (hnodup : active.Nodup) (hpos : ∀ r, 0 < counts r)
    (hsum : (active.map counts).sum = active.length + k) {r : Fin M} (hr : r ∈ active) :
    counts r ≤ k + 1 := by
  have hle := Finset.single_le_sum (f := fun r => counts r - 1) (fun _ _ => Nat.zero_le _)
    (List.mem_toFinset.mpr hr)
  rw [sum_pred_counts hnodup hpos hsum] at hle
  omega

theorem card_queued (hnodup : active.Nodup) (hpos : ∀ r, 0 < counts r)
    (hsum : (active.map counts).sum = active.length + k) :
    ((active.toFinset ×ˢ Finset.Icc 1 k).filter fun a => a.2 < counts a.1).card = k := by
  rw [Finset.card_filter, Finset.sum_product]
  refine Eq.trans (Finset.sum_congr rfl fun r hr => ?_) (sum_pred_counts hnodup hpos hsum)
  have hle := counts_le hnodup hpos hsum (List.mem_toFinset.mp hr)
  have hfilter : (Finset.Icc 1 k).filter (fun n => n < counts r) = Finset.Icc 1 (counts r - 1) := by
    ext n
    simp only [Finset.mem_filter, Finset.mem_Icc]
    omega
  rw [← Finset.card_filter, hfilter, Nat.card_Icc]
  omega

end Counts

section Budget

variable (s : MultiTrustRegionState D M) (utility : List D) (budget : ℕ)
  (bs : List (RegionBatch M))

/-- The batches are ranges of different active regions, one behind the other, that use up the
budget, and each active region has one when there are enough candidates. -/
structure Divides : Prop where
  nodup : (bs.map RegionBatch.region).Nodup
  active : ∀ b ∈ bs, (s.regions b.region).active = true
  contiguous : Contiguous 0 bs
  sum_len : (bs.map RegionBatch.len).sum = budget
  served : s.activeRegions.length ≤ budget →
    ∀ r, (s.regions r).active = true → 1 ≤ candidates bs r

/-- Of two active regions with the same number of trials, the one of the greater utility has no
fewer candidates. -/
def Favours : Prop :=
  ∀ a b, (s.regions a).active = true → (s.regions b).active = true →
    (s.regions a).trialCount = (s.regions b).trialCount →
    ltB (utility.getD b 0) (utility.getD a 0) = true → candidates bs b ≤ candidates bs a

/-- A budget does not end between candidates of two regions that have one trial count, one bound and
different utilities, when the region of the smaller utility has the lower index. -/
def TiesServed : Prop :=
  ∀ a b, (s.regions a).active = true → (s.regions b).active = true →
    (s.regions a).trialCount = (s.regions b).trialCount →
    ltB (utility.getD b 0) (utility.getD a 0) = true → b < a →
    ∀ n, s.priority a n (utility.getD a 0) = s.priority b n (utility.getD b 0) →
      s.Reached (fun r => utility.getD r 0) budget (b, n) →
      s.Reached (fun r => utility.getD r 0) budget (a, n)

variable {s utility budget bs}

omit [Floating D] [Analysis D] in
theorem mem_items {a : Fin M × ℕ} : a ∈ s.items budget ↔ (s.regions a.1).active = true ∧
    a.2 ∈ if budget < s.activeRegions.length then {0}
      else Finset.Icc 1 (budget - s.activeRegions.length) := by
  rw [items, Finset.mem_product, List.mem_toFinset, mem_activeRegions]

omit [Floating D] [Analysis D] in
theorem divides_batches {rs : List (Fin M)} {len : Fin M → ℕ} (hnodup : rs.Nodup)
    (hactive : ∀ r ∈ rs, (s.regions r).active = true) (hsum : (rs.map len).sum = budget)
    (hserved : s.activeRegions.length ≤ budget →
      ∀ r, (s.regions r).active = true → r ∈ rs ∧ 1 ≤ len r) :
    s.Divides budget (batches len 0 rs) where
  nodup := by rwa [region_batches]
  active b hb := by
    have hmem := List.mem_map_of_mem (f := RegionBatch.region) hb
    rw [region_batches] at hmem
    exact hactive _ hmem
  contiguous := contiguous_batches
  sum_len := by rw [len_batches, hsum]
  served hle r hr := by
    rw [candidates_batches hnodup, if_pos (hserved hle r hr).1]
    exact (hserved hle r hr).2

variable [OrderedRounding D]

/-- What decides when the candidates of a region are those that the budget reaches. -/
theorem favours_iff_tiesServed (hfinite : ∀ r : Fin M, isFinite (utility.getD r 0) = true)
    (hreached : ∀ r n, (r, n) ∈ s.items budget →
      (s.Reached (fun r => utility.getD r 0) budget (r, n) ↔ n < candidates bs r))
    (hitems : ∀ a b, (s.regions a).active = true → (s.regions b).active = true →
      candidates bs a < candidates bs b → (b, candidates bs a) ∈ s.items budget) :
    s.Favours utility bs ↔ s.TiesServed utility budget := by
  have hcongr : ∀ a b n, (s.regions a).active = true → (b, n) ∈ s.items budget →
      (a, n) ∈ s.items budget := fun a b n ha hb => mem_items.mpr ⟨ha, (mem_items.mp hb).2⟩
  constructor
  · intro hfavours a b ha hb htrials hu _ n _ hbn
    rw [hreached a n (hcongr a b n ha hbn.1)]
    rw [hreached b n hbn.1] at hbn
    exact hbn.trans_le (hfavours a b ha hb htrials hu)
  · intro hties a b ha hb htrials hu
    by_contra hlt
    have hlt := not_le.mp hlt
    -- the first candidate of `a` that is not reached is reached for `b`
    have hbn := hitems a b ha hb hlt
    have han := hcongr a b _ ha hbn
    have hreachedB := (hreached b _ hbn).mpr hlt
    have hnot := mt (hreached a _ han).mp (lt_irrefl _)
    refine hnot (reached_of_itemLe han (itemLe_of_le ?_ fun heq => ?_) hreachedB)
    · exact priority_le_of_utility (hfinite b) (hfinite a) hu htrials
    · refine Prod.Lex.toLex_le_toLex.mpr ?_
      rcases lt_trichotomy a b with hab | hab | hab
      · exact .inl hab
      · exact .inr ⟨hab, le_rfl⟩
      · exact absurd (hties a b ha hb htrials hu hab _ heq hreachedB) hnot

instance {us : Fin M → D} : Std.Total (s.RankLe us) :=
  ⟨fun a b => Std.Total.total (r := EntryLe) (a.val, s.priority a 0 (us a))
    (b.val, s.priority b 0 (us b))⟩

instance {us : Fin M → D} : IsTrans (Fin M) (s.RankLe us) :=
  ⟨fun a b c => IsTrans.trans (r := EntryLe) (a.val, s.priority a 0 (us a))
    (b.val, s.priority b 0 (us b)) (c.val, s.priority c 0 (us c))⟩

instance {us : Fin M → D} : Std.Antisymm (s.RankLe us) :=
  ⟨fun a b hab hba => Fin.ext (congrArg Prod.fst (Std.Antisymm.antisymm (r := EntryLe)
    (a.val, s.priority a 0 (us a)) (b.val, s.priority b 0 (us b)) hab hba))⟩

theorem itemLe_of_rankLe {us : Fin M → D} {a b : Fin M} (h : s.RankLe us a b) :
    s.ItemLe us (a, 0) (b, 0) := by
  obtain ⟨hle, hindex⟩ := (entryLe_iff (a := (a.val, s.priority a 0 (us a)))
    (b := (b.val, s.priority b 0 (us b)))).mp h
  refine itemLe_of_le (a := (a, 0)) (b := (b, 0)) hle fun heq => ?_
  have hindex : a ≤ b := hindex.resolve_left fun hlt => by
    simp only [heq, Std.ReflCmp.compare_self, reduceCtorEq] at hlt
  rcases hindex.lt_or_eq with hlt | rfl
  · exact Prod.Lex.toLex_le_toLex.mpr (.inl hlt)
  · exact le_rfl

/-- A budget for the first of a ranking. -/
theorem divides_ranked (hfinite : ∀ r : Fin M, isFinite (utility.getD r 0) = true)
    (hbudget : budget < s.activeRegions.length) {first : List (Fin M)}
    (hfirst : first = topK (s.RankLe fun r => utility.getD r 0) budget s.activeRegions) :
    s.Divides budget (batches (fun _ => 1) 0 first) ∧
      (s.Favours utility (batches (fun _ => 1) 0 first) ↔ s.TiesServed utility budget) := by
  have hlen : first.length = budget := by
    rw [hfirst, length_topK, min_eq_left hbudget.le]
  have hmem : ∀ r ∈ first, (s.regions r).active = true := fun r hr =>
    mem_activeRegions.mp (mem_of_mem_topK _ (hfirst ▸ hr))
  have hnodup : first.Nodup := by
    obtain ⟨l, hperm, hsub⟩ :=
      subperm_topK (s.RankLe fun r => utility.getD r 0) budget s.activeRegions
    exact hfirst ▸ hperm.nodup_iff.mp (s.nodup_activeRegions.sublist hsub)
  have hcandidates : ∀ r, candidates (batches (fun _ => 1) 0 first) r = if r ∈ first then 1 else 0 :=
    fun r => candidates_batches hnodup
  have hitem : ∀ r n, (r, n) ∈ s.items budget ↔ (s.regions r).active = true ∧ n = 0 := by
    intro r n
    rw [mem_items, if_pos hbudget, Finset.mem_singleton]
  constructor
  · refine divides_batches hnodup hmem ?_ fun hle => absurd hle (not_le.mpr hbudget)
    simp [hlen]
  · apply favours_iff_tiesServed hfinite
    · intro r n hrn
      obtain ⟨-, rfl⟩ := (hitem r n).mp hrn
      rw [reached_iff_mem (first.toFinset ×ˢ {0}) ?_ ?_ ?_ hrn, Finset.mem_product,
        List.mem_toFinset, hcandidates]
      · split <;> simp_all
      · intro a ha
        obtain ⟨ha, h0⟩ := Finset.mem_product.mp ha
        exact (hitem _ _).mpr ⟨hmem _ (List.mem_toFinset.mp ha), Finset.mem_singleton.mp h0⟩
      · rw [Finset.card_product, List.toFinset_card_of_nodup hnodup, Finset.card_singleton, hlen,
          ranked, if_pos hbudget, mul_one]
      · rintro ⟨a, m⟩ ha ⟨b, k⟩ hb hnot
        obtain ⟨ha, hm⟩ := Finset.mem_product.mp ha
        obtain ⟨hbactive, rfl⟩ := (hitem b k).mp hb
        obtain rfl := Finset.mem_singleton.mp hm
        apply itemLe_of_rankLe
        refine (Std.Total.total a b).resolve_right fun hba => hnot ?_
        refine Finset.mem_product.mpr ⟨List.mem_toFinset.mpr ?_, Finset.mem_singleton_self 0⟩
        have ha := List.mem_toFinset.mp ha
        rw [hfirst] at ha ⊢
        exact mem_topK_of_rel _ hba (mem_activeRegions.mpr hbactive) ha
    · intro a b _ hb hlt
      rw [hcandidates, hcandidates] at hlt
      rw [hitem, hcandidates]
      refine ⟨hb, ?_⟩
      split at hlt <;> split at hlt <;> simp_all

/-- A budget for all active regions. -/
theorem divides_queued (hfinite : ∀ r : Fin M, isFinite (utility.getD r 0) = true)
    (he : s.Explores) (hne : s.activeRegions ≠ []) (hbudget : s.activeRegions.length ≤ budget)
    {counts : Fin M → ℕ} (hcounts : counts = (s.queue (fun r => utility.getD r 0)
      s.activeRegions)^[budget - s.activeRegions.length] fun _ => 1) :
    s.Divides budget (batches counts 0 s.activeRegions) ∧
      (s.Favours utility (batches counts 0 s.activeRegions) ↔ s.TiesServed utility budget) := by
  have hnodup := s.nodup_activeRegions
  have hspec := s.queue_iterate_spec (fun r => utility.getD r 0) hne hnodup
    (budget - s.activeRegions.length)
  have hfront := front_iterate he hfinite hne hnodup (budget - s.activeRegions.length)
  rw [← hcounts] at hspec hfront
  obtain ⟨hpos, hsum⟩ := hspec
  have hcandidates : ∀ r, (s.regions r).active = true →
      candidates (batches counts 0 s.activeRegions) r = counts r := fun r hr => by
    rw [candidates_batches hnodup, if_pos (mem_activeRegions.mpr hr)]
  have hitem : ∀ r n, (r, n) ∈ s.items budget ↔ (s.regions r).active = true ∧
      1 ≤ n ∧ n ≤ budget - s.activeRegions.length := by
    intro r n
    rw [mem_items, if_neg (not_lt.mpr hbudget), Finset.mem_Icc]
  constructor
  · refine divides_batches hnodup (fun _ => mem_activeRegions.mp) (by omega) fun _ r hr => ?_
    exact ⟨mem_activeRegions.mpr hr, hpos r⟩
  · apply favours_iff_tiesServed hfinite
    · intro r n hrn
      have hr := ((hitem r n).mp hrn).1
      rw [reached_iff_mem ((s.items budget).filter fun a => a.2 < counts a.1)
        (Finset.filter_subset _ _) ?_ ?_ hrn, Finset.mem_filter, and_iff_right hrn, hcandidates r hr]
      · rw [ranked, if_neg (not_lt.mpr hbudget), items, if_neg (not_lt.mpr hbudget)]
        exact card_queued hnodup hpos hsum
      · rintro ⟨a, m⟩ ha ⟨b, k⟩ hb hnot
        obtain ⟨ha, hlt⟩ := Finset.mem_filter.mp ha
        obtain ⟨ha, hm, -⟩ := (hitem a m).mp ha
        have hle : counts b ≤ k := by
          by_contra hlt
          exact hnot (Finset.mem_filter.mpr ⟨hb, not_le.mp hlt⟩)
        exact hfront a (mem_activeRegions.mpr ha) b (mem_activeRegions.mpr ((hitem b k).mp hb).1) m k
          hm hlt hle
    · intro a b ha hb hlt
      rw [hcandidates a ha, hcandidates b hb] at hlt
      rw [hitem, hcandidates a ha]
      have hle := counts_le hnodup hpos hsum (mem_activeRegions.mpr hb)
      exact ⟨hb, hpos a, by omega⟩

/-- A budget is always divided, and a greater utility never gets fewer candidates exactly when the
budget ends between no two candidates whose bounds are equal although the utilities are not. -/
theorem allocateWith_iff (s : MultiTrustRegionState D M)
    (hexploration : isFinite s.config.exploration = true)
    (hnonneg : ltB s.config.exploration 0 = false) {utility : List D}
    (hlen : utility.length = M) (hfinite : ∀ v ∈ utility, isFinite v = true) {budget : ℕ}
    (hbudget : 1 ≤ budget) (hactive : ∃ r, (s.regions r).active = true) :
    ∃ bs, s.allocateWith budget utility = .ok bs ∧ s.Divides budget bs ∧
      (s.Favours utility bs ↔ s.TiesServed utility budget) := by
  have hvalue : ∀ r : Fin M, isFinite (utility.getD r 0) = true := by
    intro r
    rw [List.getD_eq_getElem _ _ (by omega)]
    exact hfinite _ (List.getElem_mem _)
  obtain ⟨r, hr⟩ := hactive
  have hne : s.activeRegions ≠ [] := List.ne_nil_of_mem (mem_activeRegions.mpr hr)
  unfold allocateWith
  rw [if_neg (by simpa [hlen] using hfinite), if_neg (by simpa using hne), if_neg (by omega)]
  dsimp only
  split
  next hsmall => exact ⟨_, rfl, divides_ranked hvalue hsmall rfl⟩
  next hlarge =>
    exact ⟨_, rfl, divides_queued hvalue ⟨hexploration, hnonneg⟩ hne (not_lt.mp hlarge) rfl⟩

/-- Two regions without trials. -/
def twoUntried : MultiTrustRegionState Fixed 2 where
  numDim := 1
  regions := fun _ => freshRegion ⟨.default, 3, 5, .shared, 1, 0⟩ [0]
  config := ⟨.default, 3, 5, .shared, 1, 0⟩

/-- Three candidates for two regions, of which the second has the greater utility. -/
theorem allocateWith_three :
    ∃ bs, twoUntried.allocateWith 3 [0, .ofInt 10000] = .ok bs ∧ twoUntried.Divides 3 bs ∧
      (twoUntried.Favours [0, .ofInt 10000] bs ↔ twoUntried.TiesServed [0, .ofInt 10000] 3) :=
  allocateWith_iff twoUntried rfl (by decide +kernel) rfl (by decide +kernel) (by decide)
    ⟨0, rfl⟩

/-- With a weight that makes all bounds overflow, the first region has more candidates. -/
example : ({ twoUntried with config := ⟨.default, 3, 5, .shared, .ofInt Fixed.bound, 0⟩ } :
    MultiTrustRegionState Fixed 2).allocateWith 3 [0, .ofInt 10000] =
      .ok [⟨0, 0, 2⟩, ⟨1, 2, 1⟩] := by
  decide +kernel

/-- The only candidate goes to the first region, although the second has the greater utility. -/
theorem not_favours_untried :
    twoUntried.allocateWith 1 [0, .ofInt 10000] = .ok [⟨0, 0, 1⟩] ∧
      ¬ twoUntried.Favours [0, .ofInt 10000] [⟨0, 0, 1⟩] := by
  refine ⟨by decide +kernel, fun h => ?_⟩
  have hle := h 1 0 rfl rfl rfl (by decide +kernel)
  exact absurd hle (by decide)

end Budget

end MultiTrustRegionState

end Ennbo
