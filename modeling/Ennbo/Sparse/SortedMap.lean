import Mathlib.Data.List.Pairwise
import Mathlib.Data.List.Sort
import Mathlib.Order.Basic

/-! # Maps as ascending lists

A finite map is kept as a list of entries whose keys ascend. Two of them are
merged from the front, and many keys are looked up in one pass when the keys
ascend as well.
-/

namespace Ennbo

namespace SortedMap

variable {W V : Type} [LinearOrder W]

def Ascending (l : List (W × V)) : Prop := l.Pairwise fun a b => a.1 < b.1

section Lookup

variable {l r : List (W × V)} {w : W} {v : V}

theorem ascending_nil : Ascending ([] : List (W × V)) := List.Pairwise.nil

theorem ascending_cons {a : W × V} :
    Ascending (a :: l) ↔ (∀ e ∈ l, a.1 < e.1) ∧ Ascending l := List.pairwise_cons

theorem ascending_iff : Ascending l ↔ (l.map Prod.fst).Pairwise (· < ·) := by
  rw [List.pairwise_map]
  rfl

theorem ascending_zip {ws : List W} {vs : List V} (h : ws.Pairwise (· < ·))
    (hlen : ws.length = vs.length) : Ascending (ws.zip vs) := by
  rw [ascending_iff, List.map_fst_zip hlen.le]
  exact h

theorem lookup_cons (a : W × V) (l : List (W × V)) :
    (a :: l).lookup w = if w = a.1 then some a.2 else l.lookup w := by
  rw [List.lookup_cons]
  by_cases h : w = a.1
  · simp [h]
  · have hbeq : (w == a.1) = false := by simpa using h
    rw [hbeq, if_neg h]

theorem lookup_eq_none (h : ∀ e ∈ l, w < e.1) : l.lookup w = none := by
  induction l with
  | nil => rfl
  | cons a l ih =>
    rw [List.forall_mem_cons] at h
    rw [lookup_cons, if_neg h.1.ne, ih h.2]

theorem mem_of_lookup (h : l.lookup w = some v) : (w, v) ∈ l := by
  induction l with
  | nil => cases h
  | cons a l ih =>
    rw [lookup_cons] at h
    split at h
    next hw =>
      obtain rfl := Option.some.inj h
      rw [hw]
      exact List.mem_cons_self
    next => exact List.mem_cons_of_mem _ (ih h)

theorem lookup_eq_some_iff (hl : Ascending l) : l.lookup w = some v ↔ (w, v) ∈ l := by
  refine ⟨mem_of_lookup, fun h => ?_⟩
  induction l with
  | nil => cases h
  | cons a l ih =>
    obtain ⟨ha, hl⟩ := ascending_cons.mp hl
    rw [lookup_cons]
    rcases List.mem_cons.mp h with rfl | h
    · rw [if_pos rfl]
    · rw [if_neg (ha _ h).ne', ih hl h]

theorem isSome_lookup_iff : (l.lookup w).isSome = true ↔ w ∈ l.map Prod.fst := by
  induction l with
  | nil => simp
  | cons a l ih =>
    rw [lookup_cons, List.map_cons, List.mem_cons]
    split
    next hw => simp [hw]
    next hw => rw [ih, or_iff_right hw]

theorem eq_of_lookup (hl : Ascending l) (hr : Ascending r)
    (h : ∀ w, l.lookup w = r.lookup w) : l = r := by
  have hmem : ∀ e, e ∈ l ↔ e ∈ r := by
    rintro ⟨w, v⟩
    rw [← lookup_eq_some_iff hl, ← lookup_eq_some_iff hr, h]
  have hperm : l.Perm r := (List.perm_ext_iff_of_nodup (hl.imp fun h => ?_)
    (hr.imp fun h => ?_)).mpr hmem
  · exact hperm.eq_of_pairwise (fun a b _ _ hab hba => absurd hab hba.asymm) hl hr
  · rintro rfl
    exact lt_irrefl _ h
  · rintro rfl
    exact lt_irrefl _ h

end Lookup

section Merge

/-- Put an entry into a merge whose rest is known. -/
def mergeStep (both : V → V → Option V) (rest : List (W × V) → List (W × V)) (a : W × V) :
    List (W × V) → List (W × V)
  | [] => a :: rest []
  | b :: r =>
    if a.1 < b.1 then a :: rest (b :: r)
    else if b.1 < a.1 then b :: mergeStep both rest a r
    else ((both a.2 b.2).map fun v => (a.1, v)).toList ++ rest r

/-- Merge from the front; what two values under one key become is a parameter. -/
def mergeWith (both : V → V → Option V) : List (W × V) → List (W × V) → List (W × V)
  | [] => id
  | a :: l => mergeStep both (mergeWith both l) a

variable {both : V → V → Option V} {l r : List (W × V)}

@[simp] theorem mergeWith_nil_left : mergeWith both [] r = r := rfl

@[simp] theorem mergeWith_nil_right : mergeWith both l [] = l := by
  induction l with
  | nil => rfl
  | cons a l ih => exact congrArg (a :: ·) ih

theorem mergeWith_cons_cons (a b : W × V) : mergeWith both (a :: l) (b :: r) =
    if a.1 < b.1 then a :: mergeWith both l (b :: r)
    else if b.1 < a.1 then b :: mergeWith both (a :: l) r
    else ((both a.2 b.2).map fun v => (a.1, v)).toList ++ mergeWith both l r := rfl

/-- What a merge does under one key. -/
def combine (both : V → V → Option V) : Option V → Option V → Option V
  | some a, some b => both a b
  | some a, none => some a
  | none, o => o

@[simp] theorem combine_none_left (o : Option V) : combine both none o = o := rfl

@[simp] theorem combine_none_right (o : Option V) : combine both o none = o := by
  cases o <;> rfl

theorem key_mergeWith {P : W → Prop} (hl : ∀ e ∈ l, P e.1) (hr : ∀ e ∈ r, P e.1) :
    ∀ e ∈ mergeWith both l r, P e.1 := by
  induction l generalizing r with
  | nil => simpa using hr
  | cons a l ihl =>
    induction r with
    | nil => simpa using hl
    | cons b r ihr =>
      obtain ⟨ha, hl'⟩ := List.forall_mem_cons.mp hl
      obtain ⟨hb, hr'⟩ := List.forall_mem_cons.mp hr
      rw [mergeWith_cons_cons]
      split_ifs
      · exact List.forall_mem_cons.mpr ⟨ha, ihl hl' hr⟩
      · exact List.forall_mem_cons.mpr ⟨hb, ihr hr'⟩
      · rw [List.forall_mem_append]
        refine ⟨?_, ihl hl' hr'⟩
        cases both a.2 b.2 <;> simp [ha]

theorem ascending_mergeWith (hl : Ascending l) (hr : Ascending r) :
    Ascending (mergeWith both l r) := by
  induction l generalizing r with
  | nil => exact hr
  | cons a l ihl =>
    induction r with
    | nil => simpa using hl
    | cons b r ihr =>
      obtain ⟨ha, hl'⟩ := ascending_cons.mp hl
      obtain ⟨hb, hr'⟩ := ascending_cons.mp hr
      rw [mergeWith_cons_cons]
      split_ifs with hab hba
      · refine ascending_cons.mpr ⟨?_, ihl hl' hr⟩
        exact key_mergeWith ha (List.forall_mem_cons.mpr ⟨hab, fun e he => hab.trans (hb e he)⟩)
      · refine ascending_cons.mpr ⟨?_, ihr hr'⟩
        exact key_mergeWith (List.forall_mem_cons.mpr ⟨hba, fun e he => hba.trans (ha e he)⟩) hb
      · have heq : a.1 = b.1 := le_antisymm (not_lt.mp hba) (not_lt.mp hab)
        cases both a.2 b.2 with
        | none => exact ihl hl' hr'
        | some v => exact ascending_cons.mpr ⟨key_mergeWith ha (heq ▸ hb), ihl hl' hr'⟩

/-- A merge is looked up key by key. -/
theorem lookup_mergeWith (hl : Ascending l) (hr : Ascending r) (w : W) :
    (mergeWith both l r).lookup w = combine both (l.lookup w) (r.lookup w) := by
  induction l generalizing r with
  | nil => rfl
  | cons a l ihl =>
    induction r with
    | nil => simp
    | cons b r ihr =>
      obtain ⟨ha, hl'⟩ := ascending_cons.mp hl
      obtain ⟨hb, hr'⟩ := ascending_cons.mp hr
      rw [mergeWith_cons_cons]
      split_ifs with hab hba
      · rw [lookup_cons, lookup_cons a, ihl hl' hr]
        by_cases hw : w = a.1
        · have hnone : (b :: r).lookup w = none :=
            lookup_eq_none (List.forall_mem_cons.mpr ⟨hw ▸ hab, fun e he =>
              hw ▸ hab.trans (hb e he)⟩)
          rw [if_pos hw, if_pos hw, hnone, combine_none_right]
        · rw [if_neg hw, if_neg hw]
      · rw [lookup_cons b, ihr hr', lookup_cons b]
        by_cases hw : w = b.1
        · have hnone : (a :: l).lookup w = none :=
            lookup_eq_none (List.forall_mem_cons.mpr ⟨hw ▸ hba, fun e he =>
              hw ▸ hba.trans (ha e he)⟩)
          rw [if_pos hw, if_pos hw, hnone, combine_none_left]
        · rw [if_neg hw, if_neg hw]
      · have heq : a.1 = b.1 := le_antisymm (not_lt.mp hba) (not_lt.mp hab)
        rw [lookup_cons a, lookup_cons b, ← heq]
        by_cases hw : w = a.1
        · have hlnone : l.lookup w = none := lookup_eq_none (hw ▸ ha)
          have hrnone : r.lookup w = none := lookup_eq_none (hw ▸ heq ▸ hb)
          rw [if_pos hw, if_pos hw]
          cases hv : both a.2 b.2 with
          | none =>
            change (mergeWith both l r).lookup w = both a.2 b.2
            rw [ihl hl' hr', hlnone, hrnone, hv]
            rfl
          | some v =>
            change ((a.1, v) :: mergeWith both l r).lookup w = both a.2 b.2
            rw [lookup_cons, if_pos hw, hv]
        · rw [if_neg hw, if_neg hw, ← ihl hl' hr']
          cases both a.2 b.2 with
          | none => rfl
          | some v =>
            change ((a.1, v) :: mergeWith both l r).lookup w = _
            rw [lookup_cons, if_neg hw]

end Merge

section Pass

def current (w : W) (l : List (W × V)) : Option V :=
  l.head?.bind fun e => if e.1 = w then some e.2 else none

/-- The values under some keys, found by one pointer that only moves forward. -/
def lookups (l : List (W × V)) : List W → List (Option V)
  | [] => []
  | w :: ws =>
    let rest := l.dropWhile fun e => decide (e.1 < w)
    current w rest :: lookups rest ws

variable {l : List (W × V)}

theorem ascending_dropWhile (h : Ascending l) (p : W × V → Bool) :
    Ascending (l.dropWhile p) := h.sublist (List.dropWhile_sublist p)

theorem lookup_dropWhile (w : W) {w' : W} (hw : w ≤ w') :
    (l.dropWhile fun e => decide (e.1 < w)).lookup w' = l.lookup w' := by
  induction l with
  | nil => rfl
  | cons a l ih =>
    rw [List.dropWhile_cons]
    split
    next h =>
      have hlt : a.1 < w := of_decide_eq_true h
      rw [ih, lookup_cons, if_neg (hlt.trans_le hw).ne']
    next => rfl

theorem current_dropWhile (h : Ascending l) (w : W) :
    current w (l.dropWhile fun e => decide (e.1 < w)) = l.lookup w := by
  induction l with
  | nil => rfl
  | cons a l ih =>
    obtain ⟨ha, hl⟩ := ascending_cons.mp h
    rw [List.dropWhile_cons, lookup_cons]
    split
    next hlt =>
      have hlt : a.1 < w := of_decide_eq_true hlt
      rw [ih hl, if_neg hlt.ne']
    next hlt =>
      have hle : w ≤ a.1 := not_lt.mp fun hlt' => hlt (decide_eq_true hlt')
      unfold current
      by_cases hw : a.1 = w
      · simp [hw]
      · rw [if_neg fun heq => hw heq.symm]
        have hlt : w < a.1 := lt_of_le_of_ne hle fun heq => hw heq.symm
        rw [lookup_eq_none fun e he => hlt.trans (ha e he)]
        simp [hw]

theorem lookups_eq (h : Ascending l) {ws : List W} (hws : ws.Pairwise (· ≤ ·)) :
    lookups l ws = ws.map fun w => l.lookup w := by
  induction ws generalizing l with
  | nil => rfl
  | cons w ws ih =>
    obtain ⟨hw, hws⟩ := List.pairwise_cons.mp hws
    unfold lookups
    dsimp only
    rw [current_dropWhile h, List.map_cons, ih (ascending_dropWhile h _) hws]
    congr 1
    apply List.map_congr_left
    intro w' hw'
    exact lookup_dropWhile w (hw w' hw')

end Pass

end SortedMap

end Ennbo
