import Ennbo.Ranking.TopK

/-! # Bounded insertion

A list of fixed length takes in one entry after another. A new entry goes before
the first one it is to precede and the last one falls out, so the list holds the
first entries of all that it started with and took in.
-/

namespace Ennbo.Ranking

open List

variable {α : Type*}

/-- Insert before the first entry that the test accepts; the last entry falls out. -/
def displace (p : α → Bool) (l : List α) (x : α) : List α :=
  match l.findIdx? p with
  | none => l
  | some i => l.take i ++ x :: (l.drop i).dropLast

@[simp] theorem displace_nil (p : α → Bool) (x : α) : displace p [] x = [] := rfl

theorem displace_cons_of_pos {p : α → Bool} {y : α} (h : p y = true) (l : List α) (x : α) :
    displace p (y :: l) x = x :: (y :: l).dropLast := by
  simp [displace, findIdx?_cons, h]

theorem displace_cons_of_neg {p : α → Bool} {y : α} (h : p y = false) (l : List α) (x : α) :
    displace p (y :: l) x = y :: displace p l x := by
  rw [displace, displace, findIdx?_cons, h]
  cases l.findIdx? p with
  | none => rfl
  | some i => rfl

variable (r : α → α → Prop) [DecidableRel r]

theorem orderedInsert_self {l : List α} {x : α} (h : ∀ y ∈ l, r x y) :
    l.orderedInsert r x = x :: l := by
  cases l with
  | nil => rfl
  | cons y l => exact if_pos (h y mem_cons_self)

variable [Std.Total r] [IsTrans α r] [Std.Antisymm r]

/-- The entry that falls out is the last one of all. -/
theorem displace_eq {p : α → Bool} {l : List α} {x : α} (hl : l.Pairwise r)
    (hp : ∀ y ∈ l, p y = true ↔ ¬ r y x) :
    displace p l x = topK r l.length (l ++ [x]) := by
  rw [topK, insertionSort_append_singleton r hl]
  induction l with
  | nil => simp
  | cons y l ih =>
    obtain ⟨hy, hl⟩ := pairwise_cons.mp hl
    obtain ⟨hpy, hp⟩ := forall_mem_cons.mp hp
    rw [orderedInsert_cons, length_cons]
    by_cases hyx : r y x
    · have hneg : p y = false := by simpa [hyx] using hpy
      rw [displace_cons_of_neg hneg, ih hl hp]
      split
      next hxy =>
        -- an entry that is already there may go before or after itself
        obtain rfl := Std.Antisymm.antisymm (r := r) x y hxy hyx
        rw [orderedInsert_self r hy, take_succ_cons]
      next => rw [take_succ_cons]
    · have hxy : r x y := (Std.Total.total x y).resolve_right hyx
      rw [displace_cons_of_pos (hpy.mpr hyx), if_pos hxy, take_succ_cons, dropLast_eq_take,
        length_cons, Nat.add_sub_cancel]

theorem foldl_displace {p : α → α → Bool} (hp : ∀ x y, p x y = true ↔ ¬ r y x) (xs l : List α)
    (hl : l.Pairwise r) :
    xs.foldl (fun l x => displace (p x) l x) l = topK r l.length (l ++ xs) := by
  induction xs generalizing l with
  | nil => rw [foldl_nil, append_nil, topK_of_length_le r le_rfl, insertionSort_of_pairwise r hl]
  | cons x xs ih =>
    have hlen : (topK r l.length (l ++ [x])).length = l.length := by
      rw [length_topK, length_append]
      omega
    rw [foldl_cons, displace_eq r hl fun y _ => hp x y, ih _ (pairwise_topK r _ _), hlen,
      topK_topK_append r le_rfl, append_assoc, singleton_append]

theorem topK_append_padding {p : α → Bool} (hdown : ∀ a b, r a b → p b = true → p a = true)
    {padding xs : List α} (hpadding : ∀ a ∈ padding, p a = false) (hxs : ∀ a ∈ xs, p a = true)
    {k : ℕ} (hk : k ≤ xs.length) : topK r k (padding ++ xs) = topK r k xs := by
  have hfilter : (padding ++ xs).filter p = xs := by
    rw [filter_append, filter_eq_self.mpr hxs, filter_eq_nil_iff.mpr (by simpa using hpadding),
      nil_append]
  have h := topK_filter r hdown (l := padding ++ xs) (k := k) (by rwa [hfilter])
  rw [← h, hfilter]

end Ennbo.Ranking
