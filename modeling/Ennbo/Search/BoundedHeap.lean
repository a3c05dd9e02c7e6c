import Ennbo.Search.Flat

/-! # The bounded heap of the flat scan

The scan over the flat matrix keeps its best rows in a heap, of which nothing is
known but that the greatest entry is at the front. Rows are compared with it by
distance alone, while the heap is keyed by distance and id.
-/

namespace Ennbo

open Ranking

/-- The operations of a heap. -/
structure MaxHeap (α H : Type) where
  empty : H
  push : α → H → H
  peek : H → Option α
  pop : H → H
  contents : H → List α

/-- A linear order on the elements of a set. -/
structure LinearOn {α : Type} (le : α → α → Prop) (s : Set α) : Prop where
  total : ∀ a ∈ s, ∀ b ∈ s, le a b ∨ le b a
  trans : ∀ a ∈ s, ∀ b ∈ s, ∀ c ∈ s, le a b → le b c → le a c
  antisymm : ∀ a ∈ s, ∀ b ∈ s, le a b → le b a → a = b

/-- A heap whose greatest entry is at the front. -/
structure MaxHeap.Ordered {α H : Type} (heap : MaxHeap α H) (le : α → α → Prop) (s : Set α)
    (ordered : H → Prop) : Prop where
  empty : ordered heap.empty ∧ heap.contents heap.empty = []
  push : ∀ x ∈ s, ∀ h, ordered h → ordered (heap.push x h) ∧
    (heap.contents (heap.push x h)).Perm (x :: heap.contents h)
  peek : ∀ h, ordered h → heap.contents h ≠ [] → ∃ top, heap.peek h = some top ∧
    ordered (heap.pop h) ∧ (top :: heap.contents (heap.pop h)).Perm (heap.contents h) ∧
    ∀ y ∈ heap.contents h, le y top

def MaxHeap.Lawful {α H : Type} (heap : MaxHeap α H) (le : α → α → Prop) : Prop :=
  ∀ s : Set α, LinearOn le s → ∃ ordered, heap.Ordered le s ordered

variable {F H : Type} [Floating F]

/-- One row of the scan. -/
def heapStep (heap : MaxHeap (ℕ × F) H) (k : ℕ) (h : H) (x : ℕ × F) : H :=
  if (heap.contents h).length < k then heap.push x h
  else
    match heap.peek h with
    | some worst => if ltB x.2 worst.2 then heap.push x (heap.pop h) else h
    | none => h

/-- The scan with a heap. -/
def topkFlatHeap (heap : MaxHeap (ℕ × F) H) (query flat : List F) (n d k : ℕ) :
    Outcome (List (ℕ × F)) :=
  if query.length ≠ d ∨ flat.length ≠ n * d then throw .panic
  else if k = 0 ∨ n = 0 then pure []
  else
    let h := (List.range n).foldl (fun h i =>
      heapStep heap (min k n) h (toU32 i, l2SqF32 query ((flat.drop (i * d)).take d))) heap.empty
    pure ((heap.contents h).insertionSort ScoredLe)

def rowDistance (query flat : List F) (d i : ℕ) : F := l2SqF32 query ((flat.drop (i * d)).take d)

/-- Distances that are in a total order: none is NaN. -/
structure TotalDistances {L : Type} [LinearOrder L] (dist : ℕ → F) (n : ℕ) (rank : ℕ → L) :
    Prop where
  partialCmp_eq : ∀ i < n, ∀ j < n, partialCmp (dist i) (dist j) = some (compare (rank i) (rank j))

section Ranked

variable {L : Type} [LinearOrder L] {dist : ℕ → F} {n : ℕ} {rank : ℕ → L}

def RowLe (rank : ℕ → L) (i j : ℕ) : Prop := rank i < rank j ∨ rank i = rank j ∧ i ≤ j

instance (rank : ℕ → L) : DecidableRel (RowLe rank) :=
  fun _ _ => inferInstanceAs (Decidable (_ ∨ _))

instance (rank : ℕ → L) : Std.Total (RowLe rank) where
  total i j := by
    unfold RowLe
    rcases lt_trichotomy (rank i) (rank j) with h | h | h
    · exact .inl (.inl h)
    · rcases le_total i j with hij | hij
      · exact .inl (.inr ⟨h, hij⟩)
      · exact .inr (.inr ⟨h.symm, hij⟩)
    · exact .inr (.inl h)

instance (rank : ℕ → L) : IsTrans ℕ (RowLe rank) where
  trans i j k := by
    rintro (hij | ⟨hij, hij'⟩) (hjk | ⟨hjk, hjk'⟩)
    · exact .inl (hij.trans hjk)
    · exact .inl (hjk ▸ hij)
    · exact .inl (hij ▸ hjk)
    · exact .inr ⟨hij.trans hjk, hij'.trans hjk'⟩

instance (rank : ℕ → L) : Std.Antisymm (RowLe rank) where
  antisymm i j := by
    rintro (hij | ⟨hij, hij'⟩) (hji | ⟨hji, hji'⟩)
    · exact absurd hji hij.asymm
    · exact absurd hij (hji ▸ lt_irrefl _)
    · exact absurd hji (hij ▸ lt_irrefl _)
    · exact le_antisymm hij' hji'

theorem TotalDistances.scoredLe_iff (h : TotalDistances dist n rank) {i j : ℕ} (hi : i < n)
    (hj : j < n) : ScoredLe (i, dist i) (j, dist j) ↔ RowLe rank i j := by
  unfold ScoredLe RowLe cmpOrEqual
  rw [h.partialCmp_eq i hi j hj]
  dsimp only [Option.getD_some]
  rcases lt_trichotomy (rank i) (rank j) with hlt | heq | hgt
  · simp [compare_lt_iff_lt.mpr hlt, hlt]
  · simp [heq, compare_gt_iff_gt]
  · simp [compare_gt_iff_gt.mpr hgt, hgt.asymm, hgt.ne']

theorem TotalDistances.ltB_iff (h : TotalDistances dist n rank) {i j : ℕ} (hi : i < n)
    (hj : j < n) : ltB (dist i) (dist j) = true ↔ rank i < rank j := by
  unfold ltB
  rw [h.partialCmp_eq i hi j hj]
  simp [compare_lt_iff_lt]

theorem TotalDistances.linearOn (h : TotalDistances dist n rank) :
    LinearOn ScoredLe {row : ℕ × F | ∃ i < n, row = (i, dist i)} where
  total := by
    rintro _ ⟨i, hi, rfl⟩ _ ⟨j, hj, rfl⟩
    rw [h.scoredLe_iff hi hj, h.scoredLe_iff hj hi]
    apply Std.Total.total
  trans := by
    rintro _ ⟨i, hi, rfl⟩ _ ⟨j, hj, rfl⟩ _ ⟨l, hl, rfl⟩
    rw [h.scoredLe_iff hi hj, h.scoredLe_iff hj hl, h.scoredLe_iff hi hl]
    apply IsTrans.trans
  antisymm := by
    rintro _ ⟨i, hi, rfl⟩ _ ⟨j, hj, rfl⟩
    rw [h.scoredLe_iff hi hj, h.scoredLe_iff hj hi]
    intro hij hji
    rw [Std.Antisymm.antisymm (r := RowLe rank) i j hij hji]

variable {heap : MaxHeap (ℕ × F) H} {ordered : H → Prop} {h : H} {k : ℕ}

/-- The front of the heap is the last of the rows that it holds. -/
theorem MaxHeap.Ordered.peek_last
    (ord : heap.Ordered ScoredLe {row : ℕ × F | ∃ i < n, row = (i, dist i)} ordered)
    (htotal : TotalDistances dist n rank) {init : List ℕ} {worst : ℕ}
    (hsorted : (init ++ [worst]).Pairwise (RowLe rank)) (hrows : ∀ i ∈ init ++ [worst], i < n)
    (ho : ordered h)
    (hc : (heap.contents h).Perm ((init ++ [worst]).map fun i => (i, dist i))) :
    heap.peek h = some (worst, dist worst) ∧ ordered (heap.pop h) ∧
      (heap.contents (heap.pop h)).Perm (init.map fun i => (i, dist i)) := by
  have hmem : (worst, dist worst) ∈ heap.contents h := hc.mem_iff.mpr (by simp)
  obtain ⟨top, hpeek, hpop, hperm, hgreatest⟩ := ord.peek h ho (List.ne_nil_of_mem hmem)
  -- the front is a row of the list, behind the last one and before it
  obtain ⟨j, hj, rfl⟩ := List.mem_map.mp (hc.mem_iff.mp (hperm.mem_iff.mp List.mem_cons_self))
  have hwj : RowLe rank worst j :=
    (htotal.scoredLe_iff (hrows worst (by simp)) (hrows j hj)).mp (hgreatest _ hmem)
  have hjw : RowLe rank j worst := by
    rcases List.mem_append.mp hj with hinit | hlast
    · exact (List.pairwise_append.mp hsorted).2.2 j hinit worst (by simp)
    · rwa [List.mem_singleton.mp hlast] at hwj ⊢
  obtain rfl : j = worst := Std.Antisymm.antisymm (r := RowLe rank) j worst hjw hwj
  refine ⟨hpeek, hpop, List.Perm.cons_inv (a := (j, dist j)) ?_⟩
  have hinit : ((init ++ [j]).map fun i => (i, dist i)).Perm
      ((j, dist j) :: init.map fun i => (i, dist i)) :=
    (List.perm_append_singleton j init).map _
  exact hperm.trans (hc.trans hinit)

omit [Floating F] in
theorem cons_perm_orderedInsert {rows : List (ℕ × F)} {l : List ℕ}
    (h : rows.Perm (l.map fun i => (i, dist i))) (x : ℕ) :
    ((x, dist x) :: rows).Perm
      ((l.orderedInsert (RowLe rank) x).map fun i => (i, dist i)) := by
  have hins : ((x :: l).map fun i => (i, dist i)).Perm
      ((l.orderedInsert (RowLe rank) x).map fun i => (i, dist i)) :=
    (List.perm_orderedInsert (RowLe rank) x l).symm.map _
  exact (h.cons _).trans hins

/-- One row of the scan: the heap holds the first `k` of what has been read. -/
theorem heapStep_topK
    (ord : heap.Ordered ScoredLe {row : ℕ × F | ∃ i < n, row = (i, dist i)} ordered)
    (htotal : TotalDistances dist n rank) (hk : 0 < k) {l : List ℕ} {x : ℕ} (hx : x < n)
    (hl : ∀ i ∈ l, i < x) (ho : ordered h)
    (hc : (heap.contents h).Perm ((topK (RowLe rank) k l).map fun i => (i, dist i))) :
    ordered (heapStep heap k h (x, dist x)) ∧
      (heap.contents (heapStep heap k h (x, dist x))).Perm
        ((topK (RowLe rank) k (l ++ [x])).map fun i => (i, dist i)) := by
  have hbetter : ∀ y ∈ l, decide (rank x < rank y) = true ↔ ¬ RowLe rank y x := by
    intro y hy
    have hyx := (hl y hy).le
    simp only [decide_eq_true_eq, RowLe, not_or, not_lt, not_and]
    constructor
    · rintro hlt
      exact ⟨hlt.le, fun heq => absurd hlt (heq ▸ lt_irrefl _)⟩
    · rintro ⟨hle, hne⟩
      exact lt_of_le_of_ne hle fun heq => hne heq.symm hyx
  have hlen : (heap.contents h).length = (topK (RowLe rank) k l).length := by
    rw [hc.length_eq, List.length_map]
  have htop : topK (RowLe rank) k (l ++ [x]) =
      select (RowLe rank) (fun i j => decide (rank i < rank j)) k (topK (RowLe rank) k l) x :=
    topK_append_singleton (RowLe rank) hk hbetter
  rw [htop]
  unfold heapStep select
  rw [hlen]
  split
  next hlt =>
    obtain ⟨hpush, hperm⟩ := ord.push (x, dist x) ⟨x, hx, rfl⟩ h ho
    exact ⟨hpush, hperm.trans (cons_perm_orderedInsert hc x)⟩
  next hge =>
    have hsorted := pairwise_topK (RowLe rank) k l
    have hmem : ∀ i ∈ topK (RowLe rank) k l, i < n := fun i hi =>
      (hl i (mem_of_mem_topK (RowLe rank) hi)).trans hx
    obtain ⟨init, worst, hw⟩ : ∃ init worst, topK (RowLe rank) k l = init ++ [worst] := by
      have hne : topK (RowLe rank) k l ≠ [] := by
        intro hnil
        rw [hnil, List.length_nil] at hge
        exact hge hk
      exact ⟨_, _, (List.dropLast_append_getLast hne).symm⟩
    rw [hw] at hc hsorted hmem ⊢
    obtain ⟨hpeek, hpop, hperm⟩ := ord.peek_last htotal hsorted hmem ho hc
    rw [hpeek, List.getLast?_concat, List.dropLast_concat]
    dsimp only
    have hlt := htotal.ltB_iff hx (hmem worst (by simp))
    by_cases hless : rank x < rank worst
    · rw [if_pos (hlt.mpr hless), if_pos (decide_eq_true hless)]
      obtain ⟨hpush, hperm'⟩ := ord.push (x, dist x) ⟨x, hx, rfl⟩ (heap.pop h) hpop
      exact ⟨hpush, hperm'.trans (cons_perm_orderedInsert hperm x)⟩
    · rw [if_neg (fun hb => hless (hlt.mp hb)), if_neg (by simpa using hless)]
      exact ⟨ho, hc⟩

theorem foldl_heapStep
    (ord : heap.Ordered ScoredLe {row : ℕ × F | ∃ i < n, row = (i, dist i)} ordered)
    (htotal : TotalDistances dist n rank) (hk : 0 < k) {m : ℕ} (hm : m ≤ n) :
    ordered ((List.range m).foldl (fun h i => heapStep heap k h (i, dist i)) heap.empty) ∧
      (heap.contents ((List.range m).foldl (fun h i => heapStep heap k h (i, dist i))
        heap.empty)).Perm ((topK (RowLe rank) k (List.range m)).map fun i => (i, dist i)) := by
  induction m with
  | zero =>
    obtain ⟨hempty, hcontents⟩ := ord.empty
    exact ⟨hempty, by simp [hcontents]⟩
  | succ m ih =>
    obtain ⟨ho, hc⟩ := ih (by omega)
    rw [List.range_succ, List.foldl_append, List.foldl_cons, List.foldl_nil]
    exact heapStep_topK ord htotal hk (by omega) (fun i hi => List.mem_range.mp hi) ho hc

theorem TotalDistances.insertionSort_map (htotal : TotalDistances dist n rank) {l : List ℕ}
    (hl : ∀ i ∈ l, i < n) :
    (l.map fun i => (i, dist i)).insertionSort ScoredLe =
      (l.insertionSort (RowLe rank)).map fun i => (i, dist i) := by
  symm
  apply List.map_insertionSort
  intro i hi j hj
  exact (htotal.scoredLe_iff (hl i hi) (hl j hj)).symm

theorem TotalDistances.insertionSort_perm (htotal : TotalDistances dist n rank)
    {rows : List (ℕ × F)} {l : List ℕ} (hl : ∀ i ∈ l, i < n)
    (h : rows.Perm (l.map fun i => (i, dist i))) :
    rows.insertionSort ScoredLe = (l.insertionSort (RowLe rank)).map fun i => (i, dist i) := by
  have hids : (rows.map Prod.fst).Perm l := by
    simpa [Function.comp_def] using h.map Prod.fst
  have hrows : rows = (rows.map Prod.fst).map fun i => (i, dist i) := by
    rw [List.map_map]
    refine (List.map_id _).symm.trans (List.map_congr_left ?_)
    rintro row hrow
    obtain ⟨i, -, rfl⟩ := List.mem_map.mp (h.mem_iff.mp hrow)
    rfl
  rw [hrows, htotal.insertionSort_map fun i hi => hl i (hids.mem_iff.mp hi),
    insertionSort_congr (RowLe rank) hids]

end Ranked

/-- A list in order, with the greatest entry at the end. -/
def listHeap : MaxHeap (ℕ × F) (List (ℕ × F)) where
  empty := []
  push x h := h.orderedInsert ScoredLe x
  peek h := h.getLast?
  pop h := h.dropLast
  contents h := h

theorem heapStep_listHeap (k : ℕ) (h : List (ℕ × F)) (x : ℕ × F) :
    heapStep listHeap k h x = select ScoredLe (fun x worst => ltB x.2 worst.2) k h x := by
  unfold heapStep select
  simp only [listHeap]
  cases h.getLast? <;> rfl

theorem topkFlatSqL2_eq_listHeap (query flat : List F) (n d k : ℕ) :
    topkFlatSqL2 query flat n d k = topkFlatHeap listHeap query flat n d k := by
  unfold topkFlatSqL2 topkFlatHeap
  simp only [heapStep_listHeap]
  rfl

theorem listHeap_lawful {K : Type} [ExactArith K] :
    (listHeap (F := K)).Lawful ScoredLe := by
  intro s _
  refine ⟨fun h => h.Pairwise ScoredLe, ⟨⟨List.Pairwise.nil, rfl⟩, ?_, ?_⟩⟩
  · intro x _ h hsorted
    exact ⟨List.Pairwise.orderedInsert x h hsorted, List.perm_orderedInsert _ x h⟩
  · intro h hsorted hne
    obtain ⟨init, top, rfl⟩ : ∃ init top, h = init ++ [top] :=
      ⟨_, _, (List.dropLast_append_getLast hne).symm⟩
    refine ⟨top, by simp [listHeap], ?_, ?_, ?_⟩
    · simpa [listHeap] using (List.pairwise_append.mp hsorted).1
    · simpa [listHeap] using (List.perm_append_singleton top init).symm
    · intro y hy
      rcases List.mem_append.mp hy with hy | hy
      · exact (List.pairwise_append.mp hsorted).2.2 y hy top (by simp)
      · obtain rfl := List.mem_singleton.mp hy
        exact (Std.Total.total (r := ScoredLe) y y).elim id id

/-- The scan keeps the first rows of the sort of all rows, the lower ids of equidistant ones. -/
theorem topkFlatHeap_eq {L : Type} [LinearOrder L] {heap : MaxHeap (ℕ × F) H}
    (hheap : heap.Lawful ScoredLe) {query flat : List F} {n d k : ℕ} (hquery : query.length = d)
    (hflat : flat.length = n * d) (h32 : n ≤ 2 ^ 32) {rank : ℕ → L}
    (htotal : TotalDistances (rowDistance query flat d) n rank) :
    topkFlatHeap heap query flat n d k =
      .ok ((((List.range n).map fun i => (i, rowDistance query flat d i)).insertionSort
        ScoredLe).take (min k n)) := by
  unfold topkFlatHeap
  rw [if_neg (by simp [hquery, hflat])]
  split
  next h0 =>
    rcases h0 with rfl | rfl
    · simp [pure, Except.pure]
    · simp [pure, Except.pure]
  next h0 =>
    obtain ⟨ordered, ord⟩ := hheap _ htotal.linearOn
    obtain ⟨-, hc⟩ := foldl_heapStep ord htotal (k := min k n) (by omega) le_rfl
    have hfold : ∀ h : H, (List.range n).foldl (fun h i => heapStep heap (min k n) h
        (toU32 i, l2SqF32 query ((flat.drop (i * d)).take d))) h =
        (List.range n).foldl (fun h i => heapStep heap (min k n) h
          (i, rowDistance query flat d i)) h := by
      intro h
      apply List.foldl_ext
      intro h i hi
      rw [toU32_of_lt (by have := List.mem_range.mp hi; omega), rowDistance]
    dsimp only
    rw [hfold, htotal.insertionSort_perm (fun i hi => List.mem_range.mp
      (mem_of_mem_topK (RowLe rank) hi)) hc,
      insertionSort_of_pairwise _ (pairwise_topK _ _ _),
      htotal.insertionSort_map fun i hi => List.mem_range.mp hi, topK, List.map_take]
    rfl

/-- Of two equidistant rows at the cut-off, the lower one is kept. -/
theorem topkFlatHeap_tie :
    topkFlatHeap listHeap ([0] : List ℚ) [1, 1, 0] 3 1 2 =
      .ok ((((List.range 3).map fun i => (i, rowDistance [0] [1, 1, 0] 1 i)).insertionSort
        ScoredLe).take (min 2 3)) ∧
      topkFlatHeap listHeap ([0] : List ℚ) [1, 1, 0] 3 1 2 = .ok [(2, 0), (0, 1)] :=
  have htotal : TotalDistances (rowDistance ([0] : List ℚ) [1, 1, 0] 1) 3
      (rowDistance ([0] : List ℚ) [1, 1, 0] 1) := ⟨fun _ _ _ _ => ExactArith.partialCmp_eq _ _⟩
  ⟨topkFlatHeap_eq listHeap_lawful rfl rfl (by norm_num) htotal, by decide +kernel⟩

end Ennbo
