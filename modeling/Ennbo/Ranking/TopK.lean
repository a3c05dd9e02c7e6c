import Mathlib.Data.Finset.Card
import Mathlib.Data.List.Induction
import Mathlib.Data.List.Sort
import Mathlib.Data.List.TakeDrop

/-! # The first entries of a ranking

Sorting a list by a linear order and keeping a prefix commutes with doing the
same on parts of the list first, provided no part is cut below the length that
is wanted in the end. A bounded selection that replaces its last entry computes
the same prefix.
-/

namespace Ennbo.Ranking

open List

variable {α β : Type*} (r : α → α → Prop) [DecidableRel r]

/-- The first `k` entries of `l` in the order `r`. -/
def topK (k : ℕ) (l : List α) : List α := (l.insertionSort r).take k

@[simp] theorem topK_nil (k : ℕ) : topK r k [] = [] := by simp [topK]

@[simp] theorem topK_zero (l : List α) : topK r 0 l = [] := rfl

theorem length_topK (k : ℕ) (l : List α) : (topK r k l).length = min k l.length := by
  rw [topK, length_take, length_insertionSort]

theorem mem_of_mem_topK {k : ℕ} {l : List α} {x : α} (h : x ∈ topK r k l) : x ∈ l :=
  (mem_insertionSort r).mp (mem_of_mem_take h)

theorem subperm_topK (k : ℕ) (l : List α) : topK r k l <+~ l :=
  (take_sublist k _).subperm.trans (perm_insertionSort r l).subperm

theorem take_topK {k m : ℕ} (h : k ≤ m) (l : List α) : (topK r m l).take k = topK r k l := by
  rw [topK, topK, take_take, min_eq_left h]

theorem topK_of_length_le {k : ℕ} {l : List α} (h : l.length ≤ k) :
    topK r k l = l.insertionSort r :=
  take_of_length_le (by rwa [length_insertionSort])

theorem take_merge_take (le : α → α → Bool) {k m : ℕ} (h : k ≤ m) (xs ys : List α) :
    (merge (xs.take m) ys le).take k = (merge xs ys le).take k := by
  induction k generalizing m xs ys with
  | zero => simp
  | succ k ih =>
    obtain ⟨m, rfl⟩ : ∃ m', m = m' + 1 := ⟨m - 1, by omega⟩
    cases xs with
    | nil => simp
    | cons x xs =>
      cases ys with
      | nil => simp [take_take, show min k m = k by omega]
      | cons y ys =>
        have hx := ih (m := m + 1) (by omega) (x :: xs) ys
        rw [take_succ_cons] at hx
        rw [take_succ_cons, cons_merge_cons, cons_merge_cons]
        split
        · rw [take_succ_cons, take_succ_cons, ih (by omega)]
        · rw [take_succ_cons, take_succ_cons, hx]

section Linear

variable [Std.Total r] [IsTrans α r]

theorem pairwise_topK (k : ℕ) (l : List α) : (topK r k l).Pairwise r :=
  (pairwise_insertionSort r l).sublist (take_sublist k _)

variable [Std.Antisymm r]

theorem insertionSort_congr {l₁ l₂ : List α} (h : l₁ ~ l₂) :
    l₁.insertionSort r = l₂.insertionSort r :=
  Perm.eq_of_pairwise (fun _ _ _ _ => Std.Antisymm.antisymm _ _) (pairwise_insertionSort r l₁)
    (pairwise_insertionSort r l₂)
    ((perm_insertionSort r l₁).trans (h.trans (perm_insertionSort r l₂).symm))

theorem topK_congr {l₁ l₂ : List α} (h : l₁ ~ l₂) (k : ℕ) : topK r k l₁ = topK r k l₂ := by
  rw [topK, topK, insertionSort_congr r h]

theorem insertionSort_of_pairwise {l : List α} (h : l.Pairwise r) : l.insertionSort r = l :=
  Perm.eq_of_pairwise (fun _ _ _ _ => Std.Antisymm.antisymm _ _) (pairwise_insertionSort r l) h
    (perm_insertionSort r l)

theorem insertionSort_append (a b : List α) :
    (a ++ b).insertionSort r =
      merge (a.insertionSort r) (b.insertionSort r) (fun x y => decide (r x y)) := by
  have htrans : ∀ x y z : α, decide (r x y) → decide (r y z) → decide (r x z) := by
    simp only [decide_eq_true_eq]
    exact fun x y z => IsTrans.trans x y z
  have htotal : ∀ x y : α, (decide (r x y) || decide (r y x)) = true := fun x y => by
    simpa using Std.Total.total (r := r) x y
  refine Perm.eq_of_pairwise (fun _ _ _ _ => Std.Antisymm.antisymm _ _)
    (pairwise_insertionSort r _) ?_ ?_
  · have hm := pairwise_merge htrans htotal (a.insertionSort r) (b.insertionSort r)
      ((pairwise_insertionSort r a).imp (by simp)) ((pairwise_insertionSort r b).imp (by simp))
    exact hm.imp (by simp)
  · refine (perm_insertionSort r _).trans ?_
    refine ((perm_insertionSort r a).append (perm_insertionSort r b)).symm.trans ?_
    exact (merge_perm_append _).symm

theorem topK_topK_append {k m : ℕ} (h : k ≤ m) (a b : List α) :
    topK r k (topK r m a ++ b) = topK r k (a ++ b) := by
  rw [topK, insertionSort_append, insertionSort_of_pairwise r (pairwise_topK r m a), topK,
    take_merge_take _ h, ← insertionSort_append, ← topK]

theorem topK_append_topK {k m : ℕ} (h : k ≤ m) (a b : List α) :
    topK r k (a ++ topK r m b) = topK r k (a ++ b) := by
  rw [topK_congr r perm_append_comm, topK_topK_append r h, topK_congr r perm_append_comm]

theorem topK_flatMap_topK {k m : ℕ} (h : k ≤ m) (f : β → List α) (parts : List β) :
    topK r k (parts.flatMap fun p => topK r m (f p)) = topK r k (parts.flatMap f) := by
  induction parts with
  | nil => rfl
  | cons p ps ih =>
    rw [flatMap_cons, flatMap_cons, topK_topK_append r h, ← topK_append_topK r le_rfl (f p), ih,
      topK_append_topK r le_rfl]

omit [DecidableRel r] [Std.Total r] [IsTrans α r] [Std.Antisymm r] in
/-- A property that passes to smaller entries holds on the front of a sorted list. -/
theorem filter_append_filter_not {p : α → Bool} (hp : ∀ a b, r a b → p b = true → p a = true)
    {l : List α} (hl : l.Pairwise r) : l.filter p ++ l.filter (fun a => !p a) = l := by
  induction l with
  | nil => rfl
  | cons a l ih =>
    obtain ⟨ha, hl⟩ := pairwise_cons.mp hl
    cases hpa : p a with
    | true =>
      rw [filter_cons_of_pos hpa, filter_cons_of_neg (by simp [hpa]), cons_append, ih hl]
    | false =>
      have hnone : l.filter p = [] := by
        rw [filter_eq_nil_iff]
        intro b hb hpb
        rw [hp a b (ha b hb) hpb] at hpa
        cases hpa
      have hall : l.filter (fun a => !p a) = l := by
        have hih := ih hl
        rwa [hnone, nil_append] at hih
      rw [filter_cons_of_neg (by simp [hpa]), filter_cons_of_pos (by simp [hpa]), hnone, hall,
        nil_append]

/-- The first `k` entries are those with fewer than `k` entries strictly before them. -/
theorem mem_topK {k : ℕ} {l : List α} {x : α} :
    x ∈ topK r k l ↔ x ∈ l ∧ (l.filter fun y => !decide (r x y)).length < k := by
  have hperm := perm_insertionSort r l
  have hsorted := pairwise_insertionSort r l
  rw [topK, ← (hperm.filter _).length_eq, ← hperm.mem_iff]
  generalize l.insertionSort r = s at hsorted ⊢
  have hsplit := filter_append_filter_not r (p := fun y => !decide (r x y))
    (fun a b hab hb => by
      simp only [Bool.not_eq_true', decide_eq_false_iff_not] at hb ⊢
      exact fun hxa => hb (IsTrans.trans x a b hxa hab)) hsorted
  simp only [Bool.not_not] at hsplit
  have hxx : r x x := (Std.Total.total x x).elim id id
  constructor
  · intro hx
    refine ⟨mem_of_mem_take hx, ?_⟩
    by_contra hlen
    rw [← hsplit, take_append_of_le_length (not_lt.mp hlen)] at hx
    have hstrict := (mem_filter.mp (mem_of_mem_take hx)).2
    simp [hxx] at hstrict
  · rintro ⟨hx, hlen⟩
    -- the entry itself comes right behind those before it
    have hfirst : (s.filter fun y => decide (r x y)).head? = some x := by
      have hmem : x ∈ s.filter fun y => decide (r x y) := mem_filter.mpr ⟨hx, decide_eq_true hxx⟩
      have hrest := hsorted.filter fun y => decide (r x y)
      cases hs : s.filter fun y => decide (r x y) with
      | nil => simp [hs] at hmem
      | cons y ys =>
        have hxy : r x y := by
          have hy : y ∈ s.filter fun y => decide (r x y) := hs ▸ mem_cons_self
          exact of_decide_eq_true (mem_filter.mp hy).2
        rw [hs] at hmem hrest
        rcases mem_cons.mp hmem with rfl | hmem
        · rfl
        · have hyx := (pairwise_cons.mp hrest).1 x hmem
          rw [Std.Antisymm.antisymm x y hxy hyx]
          rfl
    obtain ⟨ys, hys⟩ := head?_eq_some_iff.mp hfirst
    rw [← hsplit, hys, take_append, mem_append]
    right
    obtain ⟨n, hn⟩ : ∃ n, k - (s.filter fun y => !decide (r x y)).length = n + 1 :=
      ⟨k - (s.filter fun y => !decide (r x y)).length - 1, by omega⟩
    rw [hn, take_succ_cons]
    exact mem_cons_self

theorem mem_topK_of_rel {k : ℕ} {l : List α} {x y : α} (hxy : r x y) (hx : x ∈ l)
    (hy : y ∈ topK r k l) : x ∈ topK r k l := by
  rw [mem_topK] at hy ⊢
  refine ⟨hx, lt_of_le_of_lt (Sublist.length_le ?_) hy.2⟩
  apply monotone_filter_right
  intro z hz
  simp only [Bool.not_eq_true', decide_eq_false_iff_not] at hz ⊢
  exact fun hyz => hz (IsTrans.trans x y z hxy hyz)

theorem topK_filter {p : α → Bool} (hp : ∀ a b, r a b → p b = true → p a = true) {k : ℕ}
    {l : List α} (hk : k ≤ (l.filter p).length) : topK r k (l.filter p) = topK r k l := by
  have hsorted := pairwise_insertionSort r l
  have hfilter : (l.filter p).insertionSort r = (l.insertionSort r).filter p := by
    rw [← insertionSort_of_pairwise r (hsorted.filter p)]
    exact insertionSort_congr r ((perm_insertionSort r l).symm.filter p)
  have hlen : k ≤ ((l.insertionSort r).filter p).length := by
    rwa [← hfilter, length_insertionSort]
  have hsplit := filter_append_filter_not r hp hsorted
  rw [topK, topK, hfilter, ← take_append_of_le_length hlen, hsplit]

omit [DecidableRel r] [Std.Antisymm r] in
theorem getElem_of_sublist {l₁ l₂ : List α} (h : l₁ <+ l₂) (hl : l₂.Pairwise r) {j : ℕ}
    (hj₁ : j < l₁.length) (hj₂ : j < l₂.length) : r l₂[j] l₁[j] := by
  induction h generalizing j with
  | slnil => cases hj₁
  | cons a h ih =>
    obtain ⟨ha, hl⟩ := pairwise_cons.mp hl
    cases j with
    | zero => exact ha _ (h.subset (getElem_mem hj₁))
    | succ j =>
      have hlt : j + 1 < _ := hj₁.trans_le h.length_le
      exact IsTrans.trans _ _ _ (pairwise_iff_getElem.mp hl j (j + 1) (by omega) hlt (by omega))
        (ih hl hj₁ hlt)
  | cons_cons a h ih =>
    obtain ⟨-, hl⟩ := pairwise_cons.mp hl
    cases j with
    | zero => exact (Std.Total.total a a).elim id id
    | succ j => exact ih hl (Nat.lt_of_succ_lt_succ hj₁) (Nat.lt_of_succ_lt_succ hj₂)

theorem getElem_topK_of_subperm {l₁ l₂ : List α} (h : l₁ <+~ l₂) (k : ℕ) {j : ℕ}
    (hj₁ : j < (topK r k l₁).length) (hj₂ : j < (topK r k l₂).length) :
    r (topK r k l₂)[j] (topK r k l₁)[j] := by
  have hsorted : l₁.insertionSort r <+ l₂.insertionSort r :=
    sublist_of_subperm_of_pairwise
      (((perm_insertionSort r l₁).subperm.trans h).trans (perm_insertionSort r l₂).symm.subperm)
      (pairwise_insertionSort r l₁) (pairwise_insertionSort r l₂)
  simp only [topK, getElem_take]
  exact getElem_of_sublist r hsorted (pairwise_insertionSort r l₂) _ _

end Linear

section Finite

variable {s t : Finset α} {a : α} [DecidableEq α] [Std.Total r] [Std.Antisymm r]

/-- When those of a set come before all others, they are those with fewer before them than the set
has entries. -/
theorem mem_iff_card_before_lt (hsub : t ⊆ s) (hfront : ∀ a ∈ t, ∀ b ∈ s, b ∉ t → r a b)
    (ha : a ∈ s) : a ∈ t ↔ (s.filter fun b => ¬ r a b).card < t.card := by
  constructor
  · intro hmem
    refine Finset.card_lt_card ((Finset.ssubset_iff_of_subset ?_).mpr ⟨a, hmem, ?_⟩)
    · intro b hb
      obtain ⟨hb, hab⟩ := Finset.mem_filter.mp hb
      by_contra hnot
      exact hab (hfront a hmem b hb hnot)
    · intro hself
      exact (Finset.mem_filter.mp hself).2 ((Std.Total.total a a).elim id id)
  · intro hlt
    by_contra hnot
    refine absurd (Finset.card_le_card fun b hb => ?_) (not_le.mpr hlt)
    refine Finset.mem_filter.mpr ⟨hsub hb, fun hab => hnot ?_⟩
    rwa [Std.Antisymm.antisymm a b hab (hfront b hb a ha hnot)]

end Finite

section Select

/-- A bounded selection, kept in order; the last entry goes when a better one comes. -/
def select (better : α → α → Bool) (k : ℕ) (heap : List α) (x : α) : List α :=
  if heap.length < k then heap.orderedInsert r x
  else
    match heap.getLast? with
    | some worst => if better x worst then heap.dropLast.orderedInsert r x else heap
    | none => heap

theorem orderedInsert_append_singleton {l : List α} {x y : α} (h : r x y) :
    (l ++ [y]).orderedInsert r x = l.orderedInsert r x ++ [y] := by
  induction l with
  | nil => simp [h]
  | cons z l ih =>
    rw [cons_append, orderedInsert_cons, orderedInsert_cons]
    split
    · rfl
    · rw [ih, cons_append]

variable [Std.Total r] [IsTrans α r] [Std.Antisymm r]

theorem insertionSort_append_singleton {l : List α} (h : l.Pairwise r) (x : α) :
    (l ++ [x]).insertionSort r = l.orderedInsert r x := by
  rw [insertionSort_congr r (perm_append_singleton x l), insertionSort_cons,
    insertionSort_of_pairwise r h]

/-- One step of a selection keeps the first `k` entries of what it has read. -/
theorem topK_append_singleton {better : α → α → Bool} {k : ℕ} (hk : 0 < k) {l : List α} {x : α}
    (hb : ∀ y ∈ l, better x y = true ↔ ¬ r y x) :
    topK r k (l ++ [x]) = select r better k (topK r k l) x := by
  have hsorted := pairwise_topK r k l
  rw [← topK_topK_append r le_rfl]
  unfold select
  split
  next hlt =>
    rw [topK, insertionSort_append_singleton r hsorted]
    apply take_of_length_le
    rw [orderedInsert_length]
    exact hlt
  next hge =>
    have hlen : (topK r k l).length = k := by
      have := length_topK r k l
      omega
    obtain ⟨init, worst, hw⟩ : ∃ init worst, topK r k l = init ++ [worst] := by
      have hne : topK r k l ≠ [] := by
        rintro h
        rw [h, length_nil] at hlen
        omega
      exact ⟨_, _, (dropLast_append_getLast hne).symm⟩
    have hwl : worst ∈ l := mem_of_mem_topK r (k := k) (by rw [hw]; simp)
    rw [hw] at hsorted hlen ⊢
    rw [getLast?_concat]
    dsimp only
    split
    next hbetter =>
      have hxw : r x worst := (Std.Total.total x worst).resolve_right ((hb worst hwl).mp hbetter)
      rw [topK, insertionSort_append_singleton r hsorted, orderedInsert_append_singleton r hxw,
        dropLast_concat]
      apply take_left'
      rw [length_append, length_singleton] at hlen
      rw [orderedInsert_length, hlen]
    next hbetter =>
      have hwx : r worst x := by
        by_contra hn
        exact hbetter ((hb worst hwl).mpr hn)
      have hall : (init ++ [worst] ++ [x]).Pairwise r := by
        rw [pairwise_append]
        refine ⟨hsorted, pairwise_singleton _ _, ?_⟩
        intro y hy z hz
        obtain rfl := mem_singleton.mp hz
        rcases mem_append.mp hy with hy | hy
        · exact IsTrans.trans y worst z
            ((pairwise_append.mp hsorted).2.2 y hy worst (mem_singleton_self _)) hwx
        · obtain rfl := mem_singleton.mp hy
          exact hwx
      rw [topK, insertionSort_of_pairwise r hall]
      exact take_left' hlen

theorem foldl_select {better : α → α → Bool} {k : ℕ} (hk : 0 < k) {l : List α}
    (hb : l.Pairwise fun y x => better x y = true ↔ ¬ r y x) :
    l.foldl (select r better k) [] = topK r k l := by
  induction l using List.reverseRecOn with
  | nil => simp [topK]
  | append_singleton l x ih =>
    rw [pairwise_append] at hb
    rw [foldl_append, foldl_cons, foldl_nil, ih hb.1]
    symm
    exact topK_append_singleton r hk fun y hy => hb.2.2 y hy x (mem_singleton_self _)

end Select

end Ennbo.Ranking
