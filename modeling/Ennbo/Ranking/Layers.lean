import Mathlib.Data.Finset.Card
import Mathlib.Data.Finset.Sort
import Mathlib.Data.List.Forall2
import Mathlib.Order.RelClasses

/-! # Layers of a strict order

The elements of a finite set that nothing dominates form its first layer, and the
layers of what is left follow. Every algorithm that takes layer after layer comes
to the same sets, since a finite set that is not empty always has such elements.
-/

namespace Ennbo.Ranking

variable {ι : Type*} [DecidableEq ι] (dom : ι → ι → Prop) [DecidableRel dom]

def undominated (s : Finset ι) : Finset ι := s.filter fun i => ∀ j ∈ s, ¬ dom j i

/-- Lists that take the layers of a set one after the other. -/
inductive Layered : Finset ι → List (List ι) → Prop where
  | nil : Layered ∅ []
  | cons {s : Finset ι} {front : List ι} {fronts : List (List ι)} : s.Nonempty → front.Nodup →
      front.toFinset = undominated dom s → Layered (s \ front.toFinset) fronts →
      Layered s (front :: fronts)

variable {dom} {s : Finset ι} {fronts fronts' : List (List ι)} {i j : ι}

omit [DecidableEq ι] in
theorem mem_undominated : i ∈ undominated dom s ↔ i ∈ s ∧ ∀ j ∈ s, ¬ dom j i := by
  unfold undominated
  rw [Finset.mem_filter]

omit [DecidableEq ι] in
theorem undominated_subset : undominated dom s ⊆ s := Finset.filter_subset _ _

omit [DecidableEq ι] in
/-- An element that is dominated is dominated from the layer, or by an element that is. -/
theorem exists_undominated [IsStrictOrder ι dom] (hi : i ∈ s) :
    i ∈ undominated dom s ∨ ∃ j ∈ undominated dom s, dom j i := by
  induction hn : (s.filter fun j => dom j i).card using Nat.strong_induction_on generalizing i with
  | _ n ih =>
    by_cases hdom : ∃ j ∈ s, dom j i
    · right
      obtain ⟨j, hj, hji⟩ := hdom
      have hlt : (s.filter fun k => dom k j).card < n := by
        rw [← hn]
        apply Finset.card_lt_card
        rw [Finset.ssubset_iff_of_subset]
        · refine ⟨j, Finset.mem_filter.mpr ⟨hj, hji⟩, ?_⟩
          intro hmem
          exact irrefl_of dom j (Finset.mem_filter.mp hmem).2
        · intro k hk
          obtain ⟨hks, hkj⟩ := Finset.mem_filter.mp hk
          exact Finset.mem_filter.mpr ⟨hks, trans_of dom hkj hji⟩
      rcases ih _ hlt hj rfl with hundom | ⟨k, hk, hkj⟩
      · exact ⟨j, hundom, hji⟩
      · exact ⟨k, hk, trans_of dom hkj hji⟩
    · left
      push Not at hdom
      exact mem_undominated.mpr ⟨hi, hdom⟩

omit [DecidableEq ι] in
theorem undominated_nonempty [IsStrictOrder ι dom] (h : s.Nonempty) :
    (undominated dom s).Nonempty := by
  obtain ⟨i, hi⟩ := h
  rcases (exists_undominated hi : i ∈ undominated dom s ∨ _) with hi | ⟨j, hj, -⟩
  · exact ⟨i, hi⟩
  · exact ⟨j, hj⟩

namespace Layered

theorem cons_iff {front : List ι} : Layered dom s (front :: fronts) ↔ s.Nonempty ∧ front.Nodup ∧
    front.toFinset = undominated dom s ∧ Layered dom (s \ front.toFinset) fronts := by
  constructor
  · rintro (_ | ⟨hs, hnodup, hfront, h⟩)
    exact ⟨hs, hnodup, hfront, h⟩
  · rintro ⟨hs, hnodup, hfront, h⟩
    exact .cons hs hnodup hfront h

theorem unique (h : Layered dom s fronts) (h' : Layered dom s fronts') :
    List.Forall₂ (fun a b => a.toFinset = b.toFinset) fronts fronts' := by
  induction h generalizing fronts' with
  | nil =>
    cases h' with
    | nil => exact .nil
    | cons hs => exact absurd hs Finset.not_nonempty_empty
  | cons hs _ hfront _ ih =>
    cases h' with
    | nil => exact absurd hs Finset.not_nonempty_empty
    | cons _ _ hfront' h' =>
      have heq := hfront.trans hfront'.symm
      rw [heq] at ih
      exact .cons heq (ih h')

theorem mem_flatten (h : Layered dom s fronts) : i ∈ fronts.flatten ↔ i ∈ s := by
  induction h with
  | nil => simp
  | @cons s front fronts _ _ hfront _ ih =>
    rw [List.flatten_cons, List.mem_append, ih, Finset.mem_sdiff, List.mem_toFinset]
    constructor
    · rintro (hi | ⟨hi, -⟩)
      · exact undominated_subset (hfront ▸ List.mem_toFinset.mpr hi)
      · exact hi
    · intro hi
      by_cases hmem : i ∈ front
      · exact .inl hmem
      · exact .inr ⟨hi, hmem⟩

theorem nodup_flatten (h : Layered dom s fronts) : fronts.flatten.Nodup := by
  induction h with
  | nil => exact List.nodup_nil
  | cons _ hnodup _ h ih =>
    rw [List.flatten_cons, List.nodup_append']
    refine ⟨hnodup, ih, ?_⟩
    intro i hi hmem
    rw [h.mem_flatten, Finset.mem_sdiff, List.mem_toFinset] at hmem
    exact hmem.2 hi

/-- A layer is dominated neither from itself nor from a later one. -/
theorem not_dom (h : Layered dom s fronts) {m n : ℕ} {a b : List ι} (hmn : m ≤ n)
    (ha : fronts[m]? = some a) (hb : fronts[n]? = some b) (hi : i ∈ a) (hj : j ∈ b) :
    ¬ dom j i := by
  induction h generalizing m n with
  | nil => simp at ha
  | cons _ _ hfront h ih =>
    cases m with
    | zero =>
      obtain rfl : _ = a := by simpa using ha
      have hmem : i ∈ undominated dom _ := hfront ▸ List.mem_toFinset.mpr hi
      apply (mem_undominated.mp hmem).2
      cases n with
      | zero =>
        obtain rfl : _ = b := by simpa using hb
        exact undominated_subset (hfront ▸ List.mem_toFinset.mpr hj)
      | succ n =>
        have hflat := h.mem_flatten.mp (List.mem_flatten_of_mem (List.mem_of_getElem? hb) hj)
        exact (Finset.mem_sdiff.mp hflat).1
    | succ m =>
      cases n with
      | zero => omega
      | succ n => exact ih (Nat.le_of_succ_le_succ hmn) ha hb

/-- Every element of a later layer is dominated from the layer before. -/
theorem exists_dom (h : Layered dom s fronts) {n : ℕ} {a b : List ι} (ha : fronts[n]? = some a)
    (hb : fronts[n + 1]? = some b) (hi : i ∈ b) : ∃ j ∈ a, dom j i := by
  induction h generalizing n with
  | nil => simp at ha
  | @cons s front fronts _ _ hfront h ih =>
    cases n with
    | succ n => exact ih ha hb
    | zero =>
      obtain rfl : front = a := by simpa using ha
      cases fronts with
      | nil => simp at hb
      | cons front' fronts =>
        obtain rfl : front' = b := by simpa using hb
        obtain ⟨-, -, hfront', -⟩ := cons_iff.mp h
        have hundom : i ∈ undominated dom (s \ front.toFinset) :=
          hfront' ▸ List.mem_toFinset.mpr hi
        obtain ⟨hs, hlater⟩ := mem_undominated.mp hundom
        obtain ⟨his, hnot⟩ := Finset.mem_sdiff.mp hs
        by_contra hnone
        push Not at hnone
        -- what dominates the element is in this layer or not left
        refine hnot (hfront ▸ mem_undominated.mpr ⟨his, fun j hj hji => ?_⟩)
        by_cases hmem : j ∈ front
        · exact hnone j hmem hji
        · exact hlater j (Finset.mem_sdiff.mpr ⟨hj, by rwa [List.mem_toFinset]⟩) hji

end Layered

end Ennbo.Ranking
