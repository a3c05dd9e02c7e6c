import Mathlib.Data.List.Basic
import Mathlib.Data.List.Infix

/-! # Greedy passes

A pass over a list keeps each element that is accepted next to those kept before
it, and may stop as soon as enough are kept.
-/

namespace Ennbo

namespace Greedy

variable {α β κ : Type} {accept : List α → α → Bool} {kept l : List α} {n : ℕ}

def keep (accept : List α → α → Bool) (kept : List α) (a : α) : List α :=
  if accept kept a then kept ++ [a] else kept

def greedy (accept : List α → α → Bool) (kept l : List α) : List α := l.foldl (keep accept) kept

/-- Stop at `n` elements. -/
def greedyUpTo (accept : List α → α → Bool) (n : ℕ) (kept : List α) : List α → List α
  | [] => kept
  | a :: l =>
    if accept kept a then
      if (kept ++ [a]).length = n then kept ++ [a] else greedyUpTo accept n (kept ++ [a]) l
    else greedyUpTo accept n kept l

@[simp] theorem greedy_nil : greedy accept kept [] = kept := rfl

theorem greedy_cons (a : α) : greedy accept kept (a :: l) = greedy accept (keep accept kept a) l :=
  rfl

theorem prefix_greedy (accept : List α → α → Bool) (kept l : List α) : kept <+: greedy accept kept l := by
  induction l generalizing kept with
  | nil => exact List.prefix_refl kept
  | cons a l ih =>
    have hstep : kept <+: keep accept kept a := by
      unfold keep
      split
      · exact List.prefix_append kept [a]
      · exact List.prefix_refl kept
    exact hstep.trans (ih _)

theorem greedy_sublist (kept l : List α) : (greedy accept kept l).Sublist (kept ++ l) := by
  induction l generalizing kept with
  | nil => simp
  | cons a l ih =>
    refine (ih _).trans ?_
    unfold keep
    split
    · simp
    · exact List.Sublist.append (List.Sublist.refl kept) (List.sublist_cons_self a l)

theorem greedyUpTo_eq (h : kept.length < n) :
    greedyUpTo accept n kept l = (greedy accept kept l).take n := by
  induction l generalizing kept with
  | nil => exact (List.take_of_length_le h.le).symm
  | cons a l ih =>
    unfold greedyUpTo
    rw [greedy_cons]
    unfold keep
    split
    · by_cases hn : (kept ++ [a]).length = n
      · rw [if_pos hn, ← hn]
        exact List.prefix_iff_eq_take.mp (prefix_greedy _ _ l)
      · rw [if_neg hn]
        apply ih
        rw [List.length_append, List.length_singleton] at hn ⊢
        omega
    · exact ih h

section Map

variable {f : α → β} {acceptOn : List β → β → Bool}

theorem greedy_map (h : ∀ kept a, accept kept a = acceptOn (kept.map f) (f a)) (kept l : List α) :
    greedy acceptOn (kept.map f) (l.map f) = (greedy accept kept l).map f := by
  induction l generalizing kept with
  | nil => rfl
  | cons a l ih =>
    have hstep : keep acceptOn (kept.map f) (f a) = (keep accept kept a).map f := by
      unfold keep
      rw [h]
      split <;> simp
    rw [List.map_cons, greedy_cons, greedy_cons, hstep, ih]

end Map

section Fresh

variable [DecidableEq κ] {key : α → κ}

def fresh (key : α → κ) (kept : List α) (a : α) : Bool := decide (key a ∉ kept.map key)

theorem keep_of_mem {a : α} (h : key a ∈ kept.map key) : keep (fresh key) kept a = kept := by
  unfold keep fresh
  simp [h]

theorem keep_of_not_mem {a : α} (h : key a ∉ kept.map key) :
    keep (fresh key) kept a = kept ++ [a] := by
  unfold keep fresh
  simp [h]

/-- Elements whose keys are kept already are passed over. -/
theorem greedy_fresh_filter {p : α → Bool} (h : ∀ a ∈ l, p a = false → key a ∈ kept.map key) :
    greedy (fresh key) kept (l.filter p) = greedy (fresh key) kept l := by
  induction l generalizing kept with
  | nil => rfl
  | cons a l ih =>
    rw [List.forall_mem_cons] at h
    have hstep : ∀ b ∈ l, p b = false → key b ∈ (keep (fresh key) kept a).map key := by
      intro b hb hpb
      have hsub : kept <+: keep (fresh key) kept a := by
        unfold keep
        split
        · exact List.prefix_append kept [a]
        · exact List.prefix_refl kept
      exact List.map_subset key hsub.subset (h.2 b hb hpb)
    rw [List.filter_cons, greedy_cons]
    cases hp : p a with
    | true =>
      rw [if_pos rfl, greedy_cons]
      exact ih hstep
    | false =>
      rw [if_neg Bool.false_ne_true, keep_of_mem (h.1 hp)]
      exact ih h.2

/-- Each of the first `n` elements has a key of its own, apart from those that are kept. -/
def FreshUpTo (key : α → κ) : List α → List α → ℕ → Prop
  | _, _, 0 => True
  | _, [], _ => True
  | kept, a :: l, n + 1 => key a ∉ kept.map key ∧ FreshUpTo key (kept ++ [a]) l n

omit [DecidableEq κ] in
theorem freshUpTo_zero : FreshUpTo key kept l 0 := by
  cases l <;> trivial

omit [DecidableEq κ] in
theorem freshUpTo_of_nodup (h : ((kept ++ l).map key).Nodup) : FreshUpTo key kept l n := by
  induction l generalizing kept n with
  | nil => cases n <;> trivial
  | cons a l ih =>
    cases n with
    | zero => trivial
    | succ n =>
      constructor
      · rw [List.map_append, List.nodup_append] at h
        intro ha
        exact h.2.2 _ ha _ List.mem_cons_self rfl
      · apply ih
        rwa [List.append_assoc]

theorem key_greedy_fresh {b : α} (h : (greedy (fresh key) kept l)[kept.length]? = some b) :
    key b ∉ kept.map key := by
  induction l with
  | nil => simp at h
  | cons a l ih =>
    rw [greedy_cons] at h
    by_cases ha : key a ∈ kept.map key
    · rw [keep_of_mem ha] at h
      exact ih h
    · rw [keep_of_not_mem ha] at h
      obtain ⟨rest, hrest⟩ := prefix_greedy (fresh key) (kept ++ [a]) l
      rw [← hrest, List.append_assoc, List.getElem?_append_right le_rfl] at h
      obtain rfl : a = b := by simpa using h
      exact ha

theorem take_greedy_fresh (h : FreshUpTo key kept l n) (hn : n ≤ l.length) :
    (greedy (fresh key) kept l).take (kept.length + n) = kept ++ l.take n := by
  induction l generalizing kept n with
  | nil => simp [Nat.le_zero.mp hn]
  | cons a l ih =>
    cases n with
    | zero =>
      rw [List.take_zero, List.append_nil, Nat.add_zero]
      exact (List.prefix_iff_eq_take.mp (prefix_greedy _ kept (a :: l))).symm
    | succ n =>
      have hrest := ih h.2 (Nat.le_of_succ_le_succ hn)
      rw [greedy_cons, keep_of_not_mem h.1, List.take_succ_cons]
      rw [List.length_append, List.length_singleton, List.append_assoc] at hrest
      rw [show kept.length + (n + 1) = kept.length + 1 + n by omega, hrest]
      rfl

/-- When it keeps them, they are new. -/
theorem freshUpTo_of_take (hn : n ≤ l.length)
    (h : ((greedy (fresh key) kept l).take (kept.length + n)).map key =
      (kept ++ l.take n).map key) : FreshUpTo key kept l n := by
  induction l generalizing kept n with
  | nil => cases n <;> trivial
  | cons a l ih =>
    cases n with
    | zero => trivial
    | succ n =>
      have hn := Nat.le_of_succ_le_succ hn
      by_cases ha : key a ∈ kept.map key
      · have hplace := congrArg (fun keys => keys[kept.length]?) h
        simp at hplace
        obtain ⟨b, hb, hkey⟩ := hplace
        exact absurd (hkey ▸ ha) (key_greedy_fresh hb)
      · refine ⟨ha, ih hn ?_⟩
        rw [greedy_cons, keep_of_not_mem ha, List.take_succ_cons] at h
        rw [List.length_append, List.length_singleton, List.append_assoc]
        rw [show kept.length + (n + 1) = kept.length + 1 + n by omega] at h
        exact h

end Fresh

end Greedy

end Ennbo
