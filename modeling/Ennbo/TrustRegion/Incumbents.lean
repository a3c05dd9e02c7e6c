import Ennbo.Model.Bounds
import Ennbo.Ranking.TopK
import Ennbo.SignedZero
import Mathlib.Data.Set.Card

/-! # Candidates for the incumbent

A tracker is told observations one by one and keeps the indices from which the
incumbent is chosen: all of them, those of the greatest value, or for each metric
the best few. Lists are cut after every tell, yet the candidates are those of all
that was told.
-/

namespace Ennbo

def ALL_CANDIDATES_M_THRESHOLD : ℕ := 1000000000

variable {D : Type} [Floating D] [Analysis D]

open BpannBackend (eqB)
open Ranking

structure IncrementalIncumbentTracker (D : Type) where
  m : ℕ
  observationCount : ℕ
  allIndices : List ℕ
  maxY : D
  maxIndices : List ℕ
  maxInitialized : Bool
  topEntries : List (ℕ × D)
  perMetricEntries : List (List (ℕ × D))
  useAllCandidates : Bool
  useNoiselessMax : Bool
  useScalarTopm : Bool

def EntryLe (a b : ℕ × D) : Prop := (totalCmp b.2 a.2).then (compare a.1 b.1) ≠ .gt

instance : DecidableRel (EntryLe (D := D)) := fun _ _ => inferInstanceAs (Decidable (_ ≠ _))

namespace IncrementalIncumbentTracker

/-- Both numbers have to be positive, otherwise the constructor panics. -/
def new (m : ℕ) (noiseAware : Bool) (numMetrics : ℕ) :
    Outcome (IncrementalIncumbentTracker D) :=
  if m < 1 ∨ numMetrics < 1 then throw .panic
  else
    let useAllCandidates := decide (ALL_CANDIDATES_M_THRESHOLD ≤ m)
    pure
      { m := m
        observationCount := 0
        allIndices := []
        maxY := negInfinity
        maxIndices := []
        maxInitialized := false
        topEntries := []
        perMetricEntries :=
          if !useAllCandidates && decide (1 < numMetrics) then List.replicate numMetrics [] else []
        useAllCandidates := useAllCandidates
        useNoiselessMax := !useAllCandidates && numMetrics == 1 && !noiseAware
        useScalarTopm := !useAllCandidates && numMetrics == 1 && noiseAware }

def pushTopM (entries : List (ℕ × D)) (index : ℕ) (value : D) (m : ℕ) : List (ℕ × D) :=
  ((entries ++ [(index, value)]).insertionSort EntryLe).take m

def sortedIndices (entries : List (ℕ × D)) : List ℕ :=
  (entries.map Prod.fst).insertionSort (· ≤ ·)

/-- `y[col]` -/
def entryAt (y : List D) (col : ℕ) : Outcome D := Outcome.ofOption .panic y[col]?

def tellMax (index : ℕ) (value : D) (t : IncrementalIncumbentTracker D) :
    IncrementalIncumbentTracker D :=
  if !t.maxInitialized || ltB t.maxY value then
    { t with
      maxY := value
      maxIndices := [index]
      maxInitialized := true }
  else if eqB value t.maxY then { t with maxIndices := t.maxIndices ++ [index] }
  else t

def tell (index : ℕ) (y : List D) (t : IncrementalIncumbentTracker D) :
    Outcome (IncrementalIncumbentTracker D) :=
  let t := { t with observationCount := t.observationCount + 1 }
  if t.useAllCandidates then pure { t with allIndices := t.allIndices ++ [index] }
  else if t.useNoiselessMax then do
    let value ← entryAt y 0
    return tellMax index value t
  else if t.useScalarTopm then do
    let value ← entryAt y 0
    return { t with topEntries := pushTopM t.topEntries index value t.m }
  else do
    let entries ← t.perMetricEntries.zipIdx.mapM fun e => do
      let value ← entryAt y e.2
      return pushTopM e.1 index value t.m
    return { t with perMetricEntries := entries }

def ask (t : IncrementalIncumbentTracker D) : List ℕ :=
  if t.observationCount = 0 then []
  else if t.useAllCandidates then t.allIndices.insertionSort (· ≤ ·)
  else if t.useNoiselessMax then t.maxIndices.insertionSort (· ≤ ·)
  else if t.useScalarTopm then sortedIndices t.topEntries
  else (t.perMetricEntries.flatMap sortedIndices).dedup.insertionSort (· ≤ ·)

def reset (t : IncrementalIncumbentTracker D) : IncrementalIncumbentTracker D :=
  { t with
    observationCount := 0
    allIndices := []
    maxY := negInfinity
    maxIndices := []
    maxInitialized := false
    topEntries := []
    perMetricEntries := t.perMetricEntries.map fun _ => [] }

def rebuild (yObs : Array2 D) (t : IncrementalIncumbentTracker D) :
    Outcome (IncrementalIncumbentTracker D) :=
  yObs.rows.zipIdx.foldlM (fun t row => t.tell row.2 row.1) t.reset

end IncrementalIncumbentTracker

open IncrementalIncumbentTracker (pushTopM sortedIndices entryAt tellMax)

section Candidates

def Better (a b : ℕ × D) : Prop :=
  ltB b.2 a.2 = true ∨ eqB a.2 b.2 = true ∧ a.1 < b.1

def entryOf (col : ℕ) (p : ℕ × List D) : ℕ × D := (p.1, p.2.getD col 0)

/-- The index was told with one of the `m` best values of a metric. -/
def AmongBest (m col : ℕ) (told : Set (ℕ × List D)) (i : ℕ) : Prop :=
  ∃ p ∈ told, p.1 = i ∧ {q ∈ told | Better (entryOf col q) (entryOf col p)}.ncard < m

def AttainsMax (told : Set (ℕ × List D)) (i : ℕ) : Prop :=
  ∃ p ∈ told, p.1 = i ∧ ∀ q ∈ told, leB (q.2.getD 0 0) (p.2.getD 0 0) = true

/-- The candidates among the pairs of index and values that were told. -/
def IsCandidate (m : ℕ) (noiseAware : Bool) (numMetrics : ℕ) (told : Set (ℕ × List D)) (i : ℕ) :
    Prop :=
  if ALL_CANDIDATES_M_THRESHOLD ≤ m then ∃ p ∈ told, p.1 = i
  else if numMetrics = 1 then if noiseAware then AmongBest m 0 told i else AttainsMax told i
  else ∃ col < numMetrics, AmongBest m col told i

/-- Where the best values of a metric are kept, it is not told two zeros of different sign. -/
def OneZero (m : ℕ) (noiseAware : Bool) (numMetrics : ℕ) (told : Set (ℕ × List D)) : Prop :=
  ALL_CANDIDATES_M_THRESHOLD ≤ m ∨ numMetrics = 1 ∧ noiseAware = false ∨
    ∀ col < numMetrics, ∀ p ∈ told, ∀ q ∈ told,
      eqB (p.2.getD col 0) (q.2.getD col 0) = true → p.2.getD col 0 = q.2.getD col 0

/-- The candidates in ascending order. -/
def ListsCandidates (m : ℕ) (noiseAware : Bool) (numMetrics : ℕ) (told : Set (ℕ × List D))
    (l : List ℕ) : Prop :=
  l.Pairwise (· < ·) ∧ ∀ i, i ∈ l ↔ IsCandidate m noiseAware numMetrics told i

/-- What is done to a tracker. -/
inductive TrackerOp (D : Type) where
  | tell (index : ℕ) (y : List D)
  | reset
  | rebuild (yObs : Array2 D)

namespace TrackerOp

def run (t : IncrementalIncumbentTracker D) : TrackerOp D → Outcome (IncrementalIncumbentTracker D)
  | tell index y => t.tell index y
  | reset => pure t.reset
  | rebuild yObs => t.rebuild yObs

/-- What has been told since the last reset. -/
def told (earlier : List (ℕ × List D)) : TrackerOp D → List (ℕ × List D)
  | tell index y => earlier ++ [(index, y)]
  | reset => []
  | rebuild yObs => yObs.rows.zipIdx.map Prod.swap

/-- There is a value for each metric. -/
def Fits (numMetrics : ℕ) : TrackerOp D → Prop
  | tell _ y => numMetrics ≤ y.length
  | reset => True
  | rebuild yObs => numMetrics ≤ yObs.ncols

end TrackerOp

/-- A tracker after some calls. -/
def tracked (m : ℕ) (noiseAware : Bool) (numMetrics : ℕ) (ops : List (TrackerOp D)) :
    Outcome (IncrementalIncumbentTracker D) := do
  let t ← IncrementalIncumbentTracker.new m noiseAware numMetrics
  ops.foldlM TrackerOp.run t

def toldBy (ops : List (TrackerOp D)) : List (ℕ × List D) := ops.foldl TrackerOp.told []

end Candidates

section Laws

/-- `total_cmp` orders all values, and finite values compare as the numbers that they are. -/
class LawfulOrder (D : Type) [Floating D] [Analysis D] : Prop where
  totalCmp_trans : Std.TransCmp (totalCmp : D → D → Ordering)
  totalCmp_lawful : Std.LawfulEqCmp (totalCmp : D → D → Ordering)
  exists_rank : ∃ (L : Type) (_ : LinearOrder L) (rank : D → L), ∀ a b : D, isFinite a = true →
    isFinite b = true → partialCmp a b = some (compare (rank a) (rank b))

instance : LawfulOrder ℚ where
  totalCmp_trans := inferInstanceAs (Std.TransCmp (compare : ℚ → ℚ → Ordering))
  totalCmp_lawful := inferInstanceAs (Std.LawfulEqCmp (compare : ℚ → ℚ → Ordering))
  exists_rank := ⟨ℚ, inferInstance, id, fun _ _ _ _ => rfl⟩

/-- Moreover, the smaller of two finite numbers comes first in the total order. -/
class LawfulTotalOrder (D : Type) [Floating D] [Analysis D] : Prop extends LawfulOrder D where
  totalCmp_of_lt : ∀ a b : D, isFinite a = true → isFinite b = true → ltB a b = true →
    totalCmp a b = .lt

instance : LawfulTotalOrder ℚ where
  totalCmp_of_lt a b _ _ h := by
    change (some (compare a b) == some Ordering.lt) = true at h
    rwa [beq_iff_eq, Option.some.injEq] at h

section Zeros

variable {K : Type} [ExactArith K] [Analysis K]

omit [Analysis K] in
theorem Signed.ltB_iff {a b : Signed K} : ltB a b = true ↔ a.value < b.value := by
  change (some (compare a.value b.value) == some Ordering.lt) = true ↔ _
  rw [beq_iff_eq, Option.some.injEq, compare_lt_iff_lt]

instance : LawfulTotalOrder (Signed K) where
  totalCmp_trans :=
    { eq_swap := fun {a b} => @Std.OrientedCmp.eq_swap _ compare _ a.place b.place
      isLE_trans := fun {a b c} => @Std.TransCmp.isLE_trans _ compare _ a.place b.place c.place }
  totalCmp_lawful :=
    { compare_self := fun {a} => @Std.ReflCmp.compare_self _ compare _ a.place
      eq_of_compare := fun h => Signed.place_injective (compare_eq_iff_eq.mp h) }
  exists_rank := ⟨K, inferInstance, Signed.value, fun _ _ _ _ => rfl⟩
  totalCmp_of_lt _ _ _ _ h :=
    compare_lt_iff_lt.mpr (Signed.place_lt_of_value_lt (Signed.ltB_iff.mp h))

end Zeros

variable {a b c : ℕ × D} [LawfulOrder D]

instance : Std.TransCmp (totalCmp : D → D → Ordering) := LawfulOrder.totalCmp_trans
instance : Std.LawfulEqCmp (totalCmp : D → D → Ordering) := LawfulOrder.totalCmp_lawful

omit [LawfulOrder D] [Floating D] in
theorem entryLe_iff :
    EntryLe a b ↔ (totalCmp b.2 a.2).isLE = true ∧ (totalCmp b.2 a.2 = .lt ∨ a.1 ≤ b.1) := by
  unfold EntryLe
  rw [Ne, ← Ordering.isLE_iff_ne_gt, Ordering.isLE_then_iff_and, Nat.isLE_compare]

instance : Std.Total (EntryLe (D := D)) where
  total a b := by
    rw [entryLe_iff, entryLe_iff, @Std.OrientedCmp.eq_swap D totalCmp _ a.2 b.2]
    cases totalCmp b.2 a.2 with
    | lt => simp
    | gt => simp
    | eq => simpa using le_total a.1 b.1

instance : IsTrans (ℕ × D) EntryLe where
  trans a b c := by
    simp only [entryLe_iff]
    rintro ⟨hab, hab'⟩ ⟨hbc, hbc'⟩
    refine ⟨Std.TransCmp.isLE_trans hbc hab, ?_⟩
    rcases hab' with hlt | hab'
    · exact .inl (Std.TransCmp.lt_of_isLE_of_lt hbc hlt)
    · rcases hbc' with hlt | hbc'
      · exact .inl (Std.TransCmp.lt_of_lt_of_isLE hlt hab)
      · exact .inr (hab'.trans hbc')

instance : Std.Antisymm (EntryLe (D := D)) where
  antisymm a b := by
    simp only [entryLe_iff]
    rw [@Std.OrientedCmp.eq_swap D totalCmp _ a.2 b.2]
    rintro ⟨hab, hab'⟩ ⟨hba, hba'⟩
    cases hcmp : totalCmp b.2 a.2 with
    | lt => simp [hcmp] at hba
    | gt => simp [hcmp] at hab
    | eq =>
      simp only [hcmp, reduceCtorEq, Ordering.swap_eq, false_or] at hab' hba'
      exact Prod.ext (hab'.antisymm hba') (Std.LawfulEqCmp.eq_of_compare hcmp).symm

end Laws

namespace IncrementalIncumbentTracker

section Greatest

variable {told : List (ℕ × List D)} {t : IncrementalIncumbentTracker D}

def valueOf (p : ℕ × List D) : D := p.2.getD 0 0

/-- The indices of the greatest value so far. -/
def Greatest (told : List (ℕ × List D)) (t : IncrementalIncumbentTracker D) : Prop :=
  (told = [] ∧ t.maxInitialized = false) ∨
    t.maxInitialized = true ∧ (∃ p ∈ told, valueOf p = t.maxY) ∧
      (∀ p ∈ told, leB (valueOf p) t.maxY = true) ∧
      t.maxIndices = (told.filter fun p => eqB (valueOf p) t.maxY).map Prod.fst

def Finite (told : List (ℕ × List D)) : Prop := ∀ p ∈ told, isFinite (valueOf p) = true

variable [LawfulOrder D]

theorem exists_rank_compare : ∃ (L : Type) (_ : LinearOrder L) (rank : D → L), ∀ a b : D,
    isFinite a = true → isFinite b = true → (ltB a b = true ↔ rank a < rank b) ∧
      (leB a b = true ↔ rank a ≤ rank b) ∧ (eqB a b = true ↔ rank a = rank b) := by
  obtain ⟨L, order, rank, hrank⟩ := LawfulOrder.exists_rank (D := D)
  refine ⟨L, order, rank, fun a b ha hb => ?_⟩
  have hcmp := hrank a b ha hb
  rcases lt_trichotomy (rank a) (rank b) with h | h | h
  · rw [compare_lt_iff_lt.mpr h] at hcmp
    simp [ltB, leB, eqB, hcmp, h, h.le, h.ne]
  · rw [compare_eq_iff_eq.mpr h] at hcmp
    simp [ltB, leB, eqB, hcmp, h]
  · rw [compare_gt_iff_gt.mpr h] at hcmp
    simp [ltB, leB, eqB, hcmp, h.not_gt, h.not_ge, h.ne']

theorem greatest_tellMax (h : Greatest told t) (p : ℕ × List D) (hfinite : Finite (told ++ [p])) :
    Greatest (told ++ [p]) (tellMax p.1 (valueOf p) t) := by
  obtain ⟨L, _, rank, hrank⟩ := exists_rank_compare (D := D)
  obtain ⟨htold, hp⟩ := List.forall_mem_append.mp hfinite
  have hp := hp p (List.mem_singleton_self p)
  have hself : eqB (valueOf p) (valueOf p) = true := (hrank _ _ hp hp).2.2.mpr rfl
  have hreplace (hbelow : ∀ z ∈ told, rank (valueOf z) < rank (valueOf p)) :
      Greatest (told ++ [p])
        { t with
          maxY := valueOf p
          maxIndices := [p.1]
          maxInitialized := true } := by
    have hnone : told.filter (fun z => eqB (valueOf z) (valueOf p)) = [] := by
      rw [List.filter_eq_nil_iff]
      intro z hz heq
      exact (hbelow z hz).ne ((hrank _ _ (htold z hz) hp).2.2.mp heq)
    right
    refine ⟨rfl, ⟨p, by simp, rfl⟩, ?_, by simp [List.filter_append, hnone, hself]⟩
    intro z hz
    rcases List.mem_append.mp hz with hz | hz
    · exact (hrank _ _ (htold z hz) hp).2.1.mpr (hbelow z hz).le
    · obtain rfl := List.mem_singleton.mp hz
      exact (hrank _ _ hp hp).2.1.mpr le_rfl
  obtain ⟨rfl, hinit⟩ | ⟨hinit, ⟨q, hq, hmax⟩, hle, hindices⟩ := h
  · have htell : (!t.maxInitialized || ltB t.maxY (valueOf p)) = true := by simp [hinit]
    unfold tellMax
    rw [if_pos htell]
    exact hreplace (by simp)
  · have hqp := hrank _ _ (htold q hq) hp
    have hpq := hrank _ _ hp (htold q hq)
    unfold tellMax
    by_cases hlt : ltB t.maxY (valueOf p) = true
    · rw [if_pos (by simp [hlt])]
      apply hreplace
      intro z hz
      apply lt_of_le_of_lt _ (hqp.1.mp (hmax ▸ hlt))
      exact (hrank _ _ (htold z hz) (htold q hq)).2.1.mp (hmax ▸ hle z hz)
    · rw [if_neg (by simp [hlt, hinit])]
      have hge : rank (valueOf p) ≤ rank (valueOf q) :=
        not_lt.mp fun h => hlt (hmax ▸ hqp.1.mpr h)
      have hall : ∀ z ∈ told ++ [p], leB (valueOf z) t.maxY = true := by
        intro z hz
        rcases List.mem_append.mp hz with hz | hz
        · exact hle z hz
        · obtain rfl := List.mem_singleton.mp hz
          exact hmax ▸ hpq.2.1.mpr hge
      have hex : ∃ z ∈ told ++ [p], valueOf z = t.maxY := ⟨q, by simp [hq], hmax⟩
      by_cases heq : eqB (valueOf p) t.maxY = true
      · rw [if_pos heq]
        exact .inr ⟨hinit, hex, hall, by simp [List.filter_append, heq, hindices]⟩
      · rw [if_neg heq]
        exact .inr ⟨hinit, hex, hall, by simp [List.filter_append, heq, hindices]⟩

theorem mem_maxIndices (h : Greatest told t) (hfinite : Finite told) {i : ℕ} (hne : told ≠ []) :
    i ∈ t.maxIndices ↔ AttainsMax {p | p ∈ told} i := by
  obtain ⟨L, _, rank, hrank⟩ := exists_rank_compare (D := D)
  obtain ⟨hnil, -⟩ | ⟨-, ⟨q, hq, hmax⟩, hle, hindices⟩ := h
  · exact absurd hnil hne
  · rw [hindices, ← hmax]
    rw [← hmax] at hle
    constructor
    · intro hi
      obtain ⟨p, hp, rfl⟩ := List.mem_map.mp hi
      obtain ⟨hp, heq⟩ := List.mem_filter.mp hp
      have hpq := (hrank _ _ (hfinite p hp) (hfinite q hq)).2.2.mp heq
      refine ⟨p, hp, rfl, fun z hz => ?_⟩
      apply (hrank _ _ (hfinite z hz) (hfinite p hp)).2.1.mpr
      rw [hpq]
      exact (hrank _ _ (hfinite z hz) (hfinite q hq)).2.1.mp (hle z hz)
    · rintro ⟨p, hp, rfl, hpmax⟩
      apply List.mem_map_of_mem
      refine List.mem_filter.mpr ⟨hp, (hrank _ _ (hfinite p hp) (hfinite q hq)).2.2.mpr ?_⟩
      apply le_antisymm
      · exact (hrank _ _ (hfinite p hp) (hfinite q hq)).2.1.mp (hle p hp)
      · exact (hrank _ _ (hfinite q hq) (hfinite p hp)).2.1.mp (hpmax q hq)

end Greatest

section Run

variable {m numMetrics : ℕ} {noiseAware : Bool} {told : List (ℕ × List D)}
  {t : IncrementalIncumbentTracker D}

/-- What the tracker holds after it has been told these pairs. -/
structure Tracks (m : ℕ) (noiseAware : Bool) (numMetrics : ℕ) (told : List (ℕ × List D))
    (t : IncrementalIncumbentTracker D) : Prop where
  m_eq : t.m = m
  all_eq : t.useAllCandidates = decide (ALL_CANDIDATES_M_THRESHOLD ≤ m)
  noiseless_eq : t.useNoiselessMax = (!t.useAllCandidates && numMetrics == 1 && !noiseAware)
  scalar_eq : t.useScalarTopm = (!t.useAllCandidates && numMetrics == 1 && noiseAware)
  count : t.observationCount = told.length
  indices : t.useAllCandidates = true → t.allIndices = told.map Prod.fst
  greatest : t.useNoiselessMax = true → Finite told → Greatest told t
  top : t.useScalarTopm = true → t.topEntries = topK EntryLe m (told.map (entryOf 0))
  perMetric : t.useAllCandidates = false → numMetrics ≠ 1 → t.perMetricEntries =
    (List.range numMetrics).map fun col => topK EntryLe m (told.map (entryOf col))

theorem tracks_new (hm : 1 ≤ m) (hmetrics : 1 ≤ numMetrics) :
    ∃ t : IncrementalIncumbentTracker D, new m noiseAware numMetrics = .ok t ∧
      Tracks m noiseAware numMetrics [] t := by
  unfold new
  rw [if_neg (by omega)]
  refine ⟨_, rfl, ⟨rfl, rfl, rfl, rfl, rfl, fun _ => rfl, fun _ _ => .inl ⟨rfl, rfl⟩, fun _ => ?_,
    fun hall hne => ?_⟩⟩
  · rw [List.map_nil, topK_nil]
  · dsimp only at hall ⊢
    rw [hall, if_pos (by simp; omega)]
    simp [List.map_const']

theorem tracks_reset (h : Tracks m noiseAware numMetrics told t) :
    Tracks m noiseAware numMetrics [] t.reset := by
  refine ⟨h.m_eq, h.all_eq, h.noiseless_eq, h.scalar_eq, rfl, fun _ => rfl,
    fun _ _ => .inl ⟨rfl, rfl⟩, fun _ => ?_, fun hall hne => ?_⟩
  · rw [List.map_nil, topK_nil]
    rfl
  · unfold reset
    rw [h.perMetric hall hne, List.map_map]
    simp [Function.comp_def]

variable [LawfulOrder D]

theorem pushTopM_topK (told : List (ℕ × D)) (index : ℕ) (value : D) :
    pushTopM (topK EntryLe m told) index value m = topK EntryLe m (told ++ [(index, value)]) :=
  topK_topK_append EntryLe le_rfl told [(index, value)]

omit [Analysis D] [LawfulOrder D] in
theorem entryAt_eq {y : List D} {col : ℕ} (h : col < y.length) :
    entryAt y col = .ok (y.getD col 0) := by
  rw [entryAt, Outcome.ofOption_eq_ok, List.getD_eq_getElem?_getD, List.getElem?_eq_getElem h]
  rfl

omit [Analysis D] [LawfulOrder D] in
theorem tellMax_frame (index : ℕ) (value : D) (t : IncrementalIncumbentTracker D) :
    ∃ maxY maxIndices maxInitialized, tellMax index value t =
      { t with
        maxY := maxY
        maxIndices := maxIndices
        maxInitialized := maxInitialized } := by
  unfold tellMax
  split
  · exact ⟨_, _, _, rfl⟩
  · split
    · exact ⟨_, _, _, rfl⟩
    · exact ⟨_, _, _, rfl⟩

theorem tracks_tell (hmetrics : 1 ≤ numMetrics) (h : Tracks m noiseAware numMetrics told t)
    (index : ℕ) {y : List D} (hy : numMetrics ≤ y.length) :
    ∃ t', t.tell index y = .ok t' ∧
      Tracks m noiseAware numMetrics (told ++ [(index, y)]) t' := by
  have hcount : t.observationCount + 1 = (told ++ [(index, y)]).length := by simp [h.count]
  unfold tell
  dsimp only
  by_cases hall : t.useAllCandidates = true
  · rw [if_pos hall]
    refine ⟨_, rfl, ⟨h.m_eq, h.all_eq, h.noiseless_eq, h.scalar_eq, hcount, fun _ => ?_,
      fun hnoiseless => ?_, fun hscalar => ?_, fun hmulti => ?_⟩⟩
    · simp [h.indices hall]
    · simp [h.noiseless_eq, hall] at hnoiseless
    · simp [h.scalar_eq, hall] at hscalar
    · exact absurd hmulti (by simp [hall])
  · rw [if_neg hall]
    have hall : t.useAllCandidates = false := by simpa using hall
    by_cases hnoiseless : t.useNoiselessMax = true
    · rw [if_pos hnoiseless, entryAt_eq (by omega)]
      obtain ⟨hone, haware⟩ : numMetrics = 1 ∧ noiseAware = false := by
        simpa [h.noiseless_eq, hall] using hnoiseless
      have hgreatest := fun hfinite : Finite (told ++ [(index, y)]) =>
        greatest_tellMax (t := { t with observationCount := t.observationCount + 1 })
          (h.greatest hnoiseless (List.forall_mem_append.mp hfinite).1) (index, y) hfinite
      change ∃ t', Except.ok (tellMax index (valueOf (index, y)) _) = Except.ok t' ∧ _
      obtain ⟨maxY, maxIndices, maxInitialized, htell⟩ :=
        tellMax_frame index (valueOf (index, y))
          { t with observationCount := t.observationCount + 1 }
      dsimp only at hgreatest
      rw [htell] at hgreatest ⊢
      exact ⟨_, rfl, ⟨h.m_eq, h.all_eq, h.noiseless_eq, h.scalar_eq, hcount,
        fun hall' => absurd hall' (by simp [hall]), fun _ => hgreatest,
        fun hscalar => absurd hscalar (by simp [h.scalar_eq, haware]),
        fun _ hne => absurd hone hne⟩⟩
    · rw [if_neg hnoiseless]
      by_cases hscalar : t.useScalarTopm = true
      · rw [if_pos hscalar, entryAt_eq (by omega)]
        have hone : numMetrics = 1 := by
          have hflags := hscalar
          simp only [h.scalar_eq, Bool.and_eq_true, beq_iff_eq] at hflags
          exact hflags.1.2
        refine ⟨_, rfl, ⟨h.m_eq, h.all_eq, h.noiseless_eq, h.scalar_eq, hcount,
          fun hall' => absurd hall' (by simp [hall]), fun h' => absurd h' hnoiseless,
          fun _ => ?_, fun _ hne => absurd hone hne⟩⟩
        rw [h.top hscalar, h.m_eq, pushTopM_topK, List.map_append]
        rfl
      · rw [if_neg hscalar]
        have hmany : numMetrics ≠ 1 := by
          rintro rfl
          cases noiseAware with
          | false => simp [h.noiseless_eq, hall] at hnoiseless
          | true => simp [h.scalar_eq, hall] at hscalar
        have hentries : t.perMetricEntries.zipIdx.mapM (fun e => do
            let value ← entryAt y e.2
            return pushTopM e.1 index value t.m) =
            (.ok ((List.range numMetrics).map fun col =>
              topK EntryLe m ((told ++ [(index, y)]).map (entryOf col))) : Outcome _) := by
          rw [h.perMetric hall hmany, h.m_eq]
          apply mapM_ok_iff.mpr
          rw [List.forall₂_iff_get]
          refine ⟨by simp, fun col hleft hright => ?_⟩
          have hcol : col < numMetrics := by simpa using hright
          simp only [List.get_eq_getElem, List.getElem_zipIdx, List.getElem_map,
            List.getElem_range, Nat.zero_add]
          rw [entryAt_eq (hcol.trans_le hy), List.map_append]
          exact congrArg Except.ok (pushTopM_topK _ _ _)
        rw [hentries]
        refine ⟨_, rfl, ⟨h.m_eq, h.all_eq, h.noiseless_eq, h.scalar_eq, hcount,
          fun hall' => absurd hall' (by simp [hall]), fun h' => absurd h' hnoiseless,
          fun h' => absurd h' hscalar, fun _ _ => rfl⟩⟩

theorem tracks_foldlM (hmetrics : 1 ≤ numMetrics) {rows : List (List D × ℕ)}
    (h : Tracks m noiseAware numMetrics told t)
    (hrows : ∀ row ∈ rows, numMetrics ≤ row.1.length) :
    ∃ t', rows.foldlM (fun t row => t.tell row.2 row.1) t = .ok t' ∧
      Tracks m noiseAware numMetrics (told ++ rows.map Prod.swap) t' := by
  induction rows generalizing told t with
  | nil => exact ⟨t, rfl, by simpa using h⟩
  | cons row rows ih =>
    rw [List.forall_mem_cons] at hrows
    obtain ⟨t₁, htell, h₁⟩ := tracks_tell hmetrics h row.2 hrows.1
    obtain ⟨t', hrun, h'⟩ := ih h₁ hrows.2
    rw [List.append_assoc] at h'
    refine ⟨t', ?_, h'⟩
    rw [List.foldlM_cons, Outcome.bind_eq_ok]
    exact ⟨t₁, htell, hrun⟩

theorem tracks_run (hmetrics : 1 ≤ numMetrics) (h : Tracks m noiseAware numMetrics told t)
    {op : TrackerOp D} (hfits : op.Fits numMetrics) :
    ∃ t', op.run t = .ok t' ∧ Tracks m noiseAware numMetrics (op.told told) t' := by
  cases op with
  | tell index y => exact tracks_tell hmetrics h index hfits
  | reset => exact ⟨_, rfl, tracks_reset h⟩
  | rebuild yObs =>
    apply tracks_foldlM hmetrics (tracks_reset h)
    intro row hrow
    rw [yObs.width row.1 (List.fst_mem_of_mem_zipIdx hrow)]
    exact hfits

omit [Floating D] [Analysis D] [LawfulOrder D] in
theorem length_toldBy {ops : List (TrackerOp D)} (hfits : ∀ op ∈ ops, op.Fits numMetrics) :
    ∀ p ∈ toldBy ops, numMetrics ≤ p.2.length := by
  unfold toldBy
  induction ops using List.reverseRecOn with
  | nil => simp
  | append_singleton ops op ih =>
    obtain ⟨hops, hop⟩ := List.forall_mem_append.mp hfits
    have hop := hop op (List.mem_singleton_self op)
    rw [List.foldl_append]
    intro p hp
    cases op with
    | tell index y =>
      rcases List.mem_append.mp hp with hp | hp
      · exact ih hops p hp
      · obtain rfl := List.mem_singleton.mp hp
        exact hop
    | reset => cases hp
    | rebuild yObs =>
      obtain ⟨row, hrow, rfl⟩ := List.mem_map.mp hp
      exact hop.trans_eq (yObs.width row.1 (List.fst_mem_of_mem_zipIdx hrow)).symm

theorem tracks_tracked (hm : 1 ≤ m) (hmetrics : 1 ≤ numMetrics) {ops : List (TrackerOp D)}
    (hfits : ∀ op ∈ ops, op.Fits numMetrics) :
    ∃ t, tracked m noiseAware numMetrics ops = .ok t ∧
      Tracks m noiseAware numMetrics (toldBy ops) t := by
  have hrun : ∀ {ops : List (TrackerOp D)} {told t}, (∀ op ∈ ops, op.Fits numMetrics) →
      Tracks m noiseAware numMetrics told t → ∃ t', ops.foldlM TrackerOp.run t = .ok t' ∧
        Tracks m noiseAware numMetrics (ops.foldl TrackerOp.told told) t' := by
    intro ops
    induction ops with
    | nil => exact fun _ h => ⟨_, rfl, h⟩
    | cons op ops ih =>
      intro told t hfits h
      rw [List.forall_mem_cons] at hfits
      obtain ⟨t₁, hop, h₁⟩ := tracks_run hmetrics h hfits.1
      obtain ⟨t', hops, h'⟩ := ih hfits.2 h₁
      refine ⟨t', ?_, h'⟩
      rw [List.foldlM_cons, Outcome.bind_eq_ok]
      exact ⟨t₁, hop, hops⟩
  obtain ⟨t₀, hnew, h₀⟩ : ∃ t₀ : IncrementalIncumbentTracker D, new m noiseAware numMetrics =
    .ok t₀ ∧ Tracks m noiseAware numMetrics [] t₀ := tracks_new hm hmetrics
  obtain ⟨t, ht, h⟩ := hrun hfits h₀
  refine ⟨t, ?_, h⟩
  rw [tracked, Outcome.bind_eq_ok]
  exact ⟨t₀, hnew, ht⟩

end Run

section Answer

variable {m col numMetrics : ℕ} {noiseAware : Bool} {told : List (ℕ × List D)}
  {t : IncrementalIncumbentTracker D} {i : ℕ}

theorem pairwise_insertionSort_lt {l : List ℕ} (h : l.Nodup) :
    (l.insertionSort (· ≤ ·)).Pairwise (· < ·) := by
  have hnodup : (l.insertionSort (· ≤ ·)).Nodup := (List.perm_insertionSort _ l).nodup_iff.mpr h
  exact ((List.pairwise_insertionSort (· ≤ ·) l).and hnodup).imp fun hab =>
    lt_of_le_of_ne hab.1 hab.2

omit [Floating D] [Analysis D] in
theorem mem_sortedIndices {entries : List (ℕ × D)} :
    i ∈ sortedIndices entries ↔ ∃ x ∈ entries, x.1 = i := by
  rw [sortedIndices, List.mem_insertionSort, List.mem_map]

omit [Analysis D] in
theorem map_fst_entryOf : (told.map (entryOf col)).map Prod.fst = told.map Prod.fst := by
  rw [List.map_map]
  rfl

theorem nodup_topK (h : (told.map Prod.fst).Nodup) :
    ((topK EntryLe m (told.map (entryOf col))).map Prod.fst).Nodup := by
  obtain ⟨l, hperm, hsub⟩ := subperm_topK EntryLe m (told.map (entryOf col))
  apply (hperm.map Prod.fst).nodup_iff.mp
  apply (hsub.map Prod.fst).nodup
  rwa [map_fst_entryOf]

variable [LawfulTotalOrder D]

/-- The total order of entries is that of their numbers and indices. -/
theorem not_entryLe_iff {a b : ℕ × D} (ha : isFinite a.2 = true) (hb : isFinite b.2 = true)
    (hzero : eqB b.2 a.2 = true → b.2 = a.2) : ¬ EntryLe a b ↔ Better b a := by
  obtain ⟨L, _, rank, hrank⟩ := exists_rank_compare (D := D)
  obtain ⟨hlt, -, -⟩ := hrank a.2 b.2 ha hb
  obtain ⟨hgt, -, heq⟩ := hrank b.2 a.2 hb ha
  have hself : totalCmp a.2 a.2 = .eq := Std.ReflCmp.compare_self
  unfold EntryLe Better
  rw [not_not, Ordering.then_eq_gt, Nat.compare_eq_gt]
  rcases lt_trichotomy (rank a.2) (rank b.2) with h | h | h
  · have hcmp : totalCmp b.2 a.2 = .gt :=
      Std.OrientedCmp.gt_of_lt (LawfulTotalOrder.totalCmp_of_lt _ _ ha hb (hlt.mpr h))
    exact iff_of_true (.inl hcmp) (.inl (hlt.mpr h))
  · have hnot : ¬ ltB a.2 b.2 = true := fun hab => (hlt.mp hab).ne h
    simp [hzero (heq.mpr h.symm), hself, hzero (heq.mpr h.symm) ▸ hnot,
      hzero (heq.mpr h.symm) ▸ heq.mpr h.symm]
  · have hcmp : totalCmp b.2 a.2 = .lt :=
      LawfulTotalOrder.totalCmp_of_lt _ _ hb ha (hgt.mpr h)
    have hnot : ¬ ltB a.2 b.2 = true := fun hab => absurd (hlt.mp hab) h.not_gt
    have hne : ¬ eqB b.2 a.2 = true := fun hba => h.ne (heq.mp hba)
    simp [hcmp, hnot, hne]

theorem mem_topK_iff (hnodup : (told.map Prod.fst).Nodup)
    (hfinite : ∀ p ∈ told, isFinite (p.2.getD col 0) = true)
    (hzero : ∀ p ∈ told, ∀ q ∈ told,
      eqB (p.2.getD col 0) (q.2.getD col 0) = true → p.2.getD col 0 = q.2.getD col 0) :
    (∃ x ∈ topK EntryLe m (told.map (entryOf col)), x.1 = i) ↔
      AmongBest m col {p | p ∈ told} i := by
  classical
  have hcard : ∀ p ∈ told,
      {q | q ∈ told ∧ Better (entryOf col q) (entryOf col p)}.ncard =
        ((told.map (entryOf col)).filter fun y => !decide (EntryLe (entryOf col p) y)).length := by
    intro p hp
    have hset : {q | q ∈ told ∧ Better (entryOf col q) (entryOf col p)} =
        ((told.filter fun q => !decide (EntryLe (entryOf col p) (entryOf col q))).toFinset :
          Set (ℕ × List D)) := by
      ext q
      simp only [Set.mem_ofPred_eq, List.coe_toFinset, List.mem_filter, Bool.not_eq_true',
        decide_eq_false_iff_not]
      exact and_congr_right fun hq =>
        (not_entryLe_iff (a := entryOf col p) (b := entryOf col q) (hfinite p hp) (hfinite q hq)
          (hzero q hq p hp)).symm
    rw [hset, Set.ncard_coe_finset, List.toFinset_card_of_nodup (hnodup.of_map.filter _),
      List.filter_map, List.length_map]
    rfl
  constructor
  · rintro ⟨x, hx, rfl⟩
    obtain ⟨hmem, hlt⟩ := (mem_topK EntryLe).mp hx
    obtain ⟨p, hp, rfl⟩ := List.mem_map.mp hmem
    exact ⟨p, hp, rfl, (hcard p hp).trans_lt hlt⟩
  · rintro ⟨p, hp, rfl, hlt⟩
    have hmem : entryOf col p ∈ told.map (entryOf col) := List.mem_map_of_mem hp
    exact ⟨entryOf col p, (mem_topK EntryLe).mpr ⟨hmem, (hcard p hp).symm.trans_lt hlt⟩, rfl⟩

omit [Analysis D] [LawfulTotalOrder D] in
theorem nodup_maxIndices (h : Greatest told t) (hne : told ≠ [])
    (hnodup : (told.map Prod.fst).Nodup) : t.maxIndices.Nodup := by
  obtain ⟨hnil, -⟩ | ⟨-, -, -, hindices⟩ := h
  · exact absurd hnil hne
  · rw [hindices]
    exact hnodup.sublist (List.filter_sublist.map Prod.fst)

theorem listsCandidates_ask (hmetrics : 1 ≤ numMetrics) (h : Tracks m noiseAware numMetrics told t)
    (hnodup : (told.map Prod.fst).Nodup)
    (hfinite : ∀ col < numMetrics, ∀ p ∈ told, isFinite (p.2.getD col 0) = true)
    (hzero : OneZero m noiseAware numMetrics {p | p ∈ told}) :
    ListsCandidates m noiseAware numMetrics {p | p ∈ told} t.ask := by
  unfold ask ListsCandidates IsCandidate
  by_cases hnil : told = []
  · subst hnil
    have hcount : t.observationCount = 0 := h.count
    rw [if_pos hcount]
    simp [AmongBest, AttainsMax]
  · have hcount : t.observationCount ≠ 0 := by
      rw [h.count]
      exact fun hlen => hnil (List.eq_nil_of_length_eq_zero hlen)
    rw [if_neg hcount]
    by_cases hall : t.useAllCandidates = true
    · have hm : ALL_CANDIDATES_M_THRESHOLD ≤ m := of_decide_eq_true (h.all_eq.symm.trans hall)
      simp only [if_pos hall, if_pos hm, h.indices hall]
      exact ⟨pairwise_insertionSort_lt hnodup, by simp⟩
    · have hall : t.useAllCandidates = false := by simpa using hall
      have hm : ¬ ALL_CANDIDATES_M_THRESHOLD ≤ m := of_decide_eq_false (h.all_eq.symm.trans hall)
      simp only [hall, Bool.false_eq_true, if_false, if_neg hm, h.noiseless_eq, h.scalar_eq,
        Bool.not_false, Bool.true_and, Bool.and_eq_true, beq_iff_eq, Bool.not_eq_true']
      by_cases hone : numMetrics = 1
      · cases noiseAware with
        | false =>
          have hnoiseless : t.useNoiselessMax = true := by simp [h.noiseless_eq, hall, hone]
          simp only [hone, and_self, if_true, Bool.false_eq_true, if_false]
          have hvalues : Finite told := hfinite 0 hmetrics
          have hgreatest := h.greatest hnoiseless hvalues
          refine ⟨pairwise_insertionSort_lt (nodup_maxIndices hgreatest hnil hnodup), fun i => ?_⟩
          rw [List.mem_insertionSort]
          exact mem_maxIndices hgreatest hvalues hnil
        | true =>
          have hscalar : t.useScalarTopm = true := by simp [h.scalar_eq, hall, hone]
          simp only [hone, Bool.true_eq_false, and_false, and_true, if_true, if_false,
            h.top hscalar]
          refine ⟨pairwise_insertionSort_lt (nodup_topK hnodup), fun i => ?_⟩
          rw [mem_sortedIndices]
          have hzero := (hzero.resolve_left hm).resolve_left (by simp)
          exact mem_topK_iff hnodup (hfinite 0 hmetrics) (hzero 0 hmetrics)
      · simp only [hone, false_and, if_false, h.perMetric hall hone]
        have hzero := (hzero.resolve_left hm).resolve_left (by simp [hone])
        refine ⟨pairwise_insertionSort_lt (List.nodup_dedup _), fun i => ?_⟩
        rw [List.mem_insertionSort, List.mem_dedup, List.mem_flatMap]
        simp only [List.mem_map, List.mem_range, exists_exists_and_eq_and, mem_sortedIndices]
        exact exists_congr fun col => and_congr_right fun hcol =>
          mem_topK_iff hnodup (hfinite col hcol) (hzero col hcol)

end Answer

end IncrementalIncumbentTracker

/-- A tracker that has been told values of distinct indices answers with the candidates
in ascending order, whatever the order of the tells. -/
theorem incumbents_of_told [LawfulTotalOrder D] (m : ℕ) (noiseAware : Bool) (numMetrics : ℕ)
    (hm : 1 ≤ m) (hmetrics : 1 ≤ numMetrics) :
    ∃ answer : Set (ℕ × List D) → List ℕ, ∀ ops : List (TrackerOp D),
      (∀ op ∈ ops, op.Fits numMetrics) → ((toldBy ops).map Prod.fst).Nodup →
      (∀ p ∈ toldBy ops, ∀ v ∈ p.2, isFinite v = true) →
      OneZero m noiseAware numMetrics {p | p ∈ toldBy ops} →
      (∃ t, tracked m noiseAware numMetrics ops = .ok t ∧ t.ask = answer {p | p ∈ toldBy ops}) ∧
        ListsCandidates m noiseAware numMetrics {p | p ∈ toldBy ops}
          (answer {p | p ∈ toldBy ops}) := by
  classical
  refine ⟨fun told => if h : ∃ l, ListsCandidates m noiseAware numMetrics told l then h.choose
    else [], ?_⟩
  intro ops hfits hnodup hfinite hzero
  have hvalues : ∀ col < numMetrics, ∀ p ∈ toldBy ops, isFinite (p.2.getD col 0) = true := by
    intro col hcol p hp
    have hlen := IncrementalIncumbentTracker.length_toldBy hfits p hp
    rw [List.getD_eq_getElem _ _ (hcol.trans_le hlen)]
    exact hfinite p hp _ (List.getElem_mem _)
  obtain ⟨t, ht, h⟩ := IncrementalIncumbentTracker.tracks_tracked hm hmetrics hfits
  have hask : ListsCandidates m noiseAware numMetrics {p | p ∈ toldBy ops} t.ask :=
    IncrementalIncumbentTracker.listsCandidates_ask hmetrics h hnodup hvalues hzero
  have hex : ∃ l, ListsCandidates m noiseAware numMetrics {p | p ∈ toldBy ops} l := ⟨t.ask, hask⟩
  simp only [dif_pos hex]
  have hchosen := hex.choose_spec
  refine ⟨⟨t, ht, ?_⟩, hchosen⟩
  exact hask.1.eq_of_mem_iff hchosen.1 fun i => (hask.2 i).trans (hchosen.2 i).symm

def threeTells : List (TrackerOp ℚ) := [.tell 4 [5], .tell 2 [7], .tell 1 [7]]

theorem incumbents_of_told_three :
    ∃ t, tracked 2 true 1 threeTells = .ok t ∧
      ListsCandidates 2 true 1 {p | p ∈ toldBy threeTells} t.ask := by
  obtain ⟨answer, h⟩ := incumbents_of_told (D := ℚ) 2 true 1 (by decide) (by decide)
  have hzero : OneZero 2 true 1 {p | p ∈ toldBy threeTells} := by
    refine .inr (.inr fun col _ p _ q _ heq => ?_)
    change (some (compare _ _) == some Ordering.eq) = true at heq
    rwa [beq_iff_eq, Option.some.injEq, compare_eq_iff_eq] at heq
  obtain ⟨⟨t, ht, hask⟩, hlists⟩ := h threeTells (by simp [threeTells, TrackerOp.Fits])
    (by decide) (by decide +kernel) hzero
  exact ⟨t, ht, hask ▸ hlists⟩

def zeroTells : List (TrackerOp (Signed ℚ)) := [.tell 0 [.negZero], .tell 1 [.number 0]]

/-- The value at the lower index is the same number, but it comes first in the total order. -/
theorem not_listsCandidates_zeros :
    ∃ t, tracked 1 true 1 zeroTells = .ok t ∧ t.ask = [1] ∧
      ¬ ListsCandidates 1 true 1 {p | p ∈ toldBy zeroTells} t.ask := by
  have hask : ∃ t, tracked 1 true 1 zeroTells = .ok t ∧ t.ask = [1] := ⟨_, rfl, by decide +kernel⟩
  obtain ⟨t, ht, hask⟩ := hask
  refine ⟨t, ht, hask, fun h => ?_⟩
  have hnone : ∀ q ∈ toldBy zeroTells, ¬ Better (entryOf 0 q) (0, .negZero) := by
    unfold Better
    decide +kernel
  have hbest : AmongBest 1 0 {p | p ∈ toldBy zeroTells} 0 := by
    refine ⟨(0, [.negZero]), by decide, rfl, ?_⟩
    rw [Nat.lt_one_iff, Set.ncard_eq_zero ((List.finite_toSet _).subset (Set.sep_subset _ _))]
    exact Set.sep_eq_empty_iff_mem_false.mpr hnone
  have hmem := (h.2 0).mpr (by simpa [IsCandidate, ALL_CANDIDATES_M_THRESHOLD] using hbest)
  rw [hask] at hmem
  exact absurd hmem (by decide)

end Ennbo
