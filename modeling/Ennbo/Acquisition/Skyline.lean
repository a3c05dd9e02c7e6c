import Ennbo.Model.Bounds
import Ennbo.Ranking.Layers

/-! # The skyline of points in the plane

Points are sorted by their first value and then by their second one, both
descending, and a sweep keeps those whose second value is the greatest so far. A
point that equals the last one kept is kept, too. The same sweep is used to sort
by two objectives and to choose arms by their means and errors.
-/

namespace Ennbo

open BpannBackend (eqB)

variable {D : Type} [Floating D] [Analysis D]

def SweepOrder (x y : ℕ × D × D) : Prop :=
  (totalCmp y.2.1 x.2.1).then (totalCmp y.2.2 x.2.2) ≠ .gt

instance (x y : ℕ × D × D) : Decidable (SweepOrder x y) := by
  unfold SweepOrder
  infer_instance

/-- Where a sweep has come to. The last values are `NAN` until a point is kept. -/
structure Sweep (D : Type) where
  best : D
  last : Option (D × D)
  front : List ℕ

namespace Sweep

def start : Sweep D := ⟨negInfinity, none, []⟩

/-- `a == last_a && b == last_b` -/
def tied (s : Sweep D) (p : D × D) : Bool :=
  match s.last with
  | some l => eqB p.1 l.1 && eqB p.2 l.2
  | none => false

def step (s : Sweep D) (p : ℕ × D × D) : Sweep D :=
  if ltB s.best p.2.2 then ⟨p.2.2, some p.2, s.front ++ [p.1]⟩
  else if eqB p.2.2 s.best && s.tied p.2 then { s with front := s.front ++ [p.1] }
  else s

end Sweep

def skyline (points : List (ℕ × D × D)) : List ℕ := (points.foldl Sweep.step .start).front

section Compare

/-- How comparisons behave, whether or not a value is a number. -/
class LawfulCompare (D : Type) [Floating D] : Prop where
  lt_trans : ∀ a b c : D, ltB a b = true → ltB b c = true → ltB a c = true
  lt_of_lt_of_eq : ∀ a b c : D, ltB a b = true → eqB c b = true → ltB a c = true

/-- What a sweep keeps whatever the values are: the second values of the points that are kept are
above negative infinity, and so is the greatest one as soon as there is such a point. -/
structure Sweep.Keeps (points : List (ℕ × D × D)) (s : Sweep D) : Prop where
  kept : ∃ kept : List (ℕ × D × D), kept.Sublist points ∧ s.front = kept.map Prod.fst ∧
    ∀ p ∈ kept, ltB negInfinity p.2.2 = true
  best_eq : (s.best = negInfinity ∧ s.last = none ∧
      ∀ p ∈ points, ¬ ltB negInfinity p.2.2 = true) ∨
    (ltB negInfinity s.best = true ∧ s.front ≠ [])

theorem Sweep.keeps_start : Sweep.Keeps [] (.start : Sweep D) where
  kept := ⟨[], .slnil, rfl, by rintro p ⟨⟩⟩
  best_eq := .inl ⟨rfl, rfl, by rintro p ⟨⟩⟩

theorem Sweep.Keeps.push {points : List (ℕ × D × D)} {s t : Sweep D} (h : s.Keeps points)
    {p : ℕ × D × D} (hp : ltB negInfinity p.2.2 = true) (hfront : t.front = s.front ++ [p.1])
    (hbest : ltB negInfinity t.best = true) : t.Keeps (points ++ [p]) := by
  obtain ⟨kept, hsub, heq, hkept⟩ := h.kept
  constructor
  · refine ⟨kept ++ [p], hsub.append (List.Sublist.refl _), ?_, ?_⟩
    · rw [hfront, heq, List.map_append]
      rfl
    · rw [List.forall_mem_append, List.forall_mem_singleton]
      exact ⟨hkept, hp⟩
  · right
    rw [hfront]
    exact ⟨hbest, List.append_ne_nil_of_right_ne_nil _ (List.cons_ne_nil _ _)⟩

theorem Sweep.Keeps.step [LawfulCompare D] {points : List (ℕ × D × D)} {s : Sweep D}
    (h : s.Keeps points) (p : ℕ × D × D) : (s.step p).Keeps (points ++ [p]) := by
  obtain ⟨kept, hsub, heq, hkept⟩ := h.kept
  unfold Sweep.step
  by_cases hlt : ltB s.best p.2.2 = true
  · rw [if_pos hlt]
    have hp : ltB negInfinity p.2.2 = true := by
      rcases h.best_eq with ⟨hbest, -⟩ | ⟨hbest, -⟩
      · rwa [hbest] at hlt
      · exact LawfulCompare.lt_trans _ _ _ hbest hlt
    exact h.push hp rfl hp
  · rw [if_neg hlt]
    by_cases htied : (eqB p.2.2 s.best && s.tied p.2) = true
    · rw [if_pos htied]
      rw [Bool.and_eq_true] at htied
      have hbest : ltB negInfinity s.best = true := by
        rcases h.best_eq with ⟨-, hlast, -⟩ | ⟨hbest, -⟩
        · unfold Sweep.tied at htied
          rw [hlast] at htied
          cases htied.2
        · exact hbest
      exact h.push (LawfulCompare.lt_of_lt_of_eq _ _ _ hbest htied.1) rfl hbest
    · rw [if_neg htied]
      refine ⟨⟨kept, hsub.trans (List.sublist_append_left _ _), heq, hkept⟩, ?_⟩
      rcases h.best_eq with ⟨hbest, hlast, hnone⟩ | hbest
      · left
        rw [hbest] at hlt
        rw [List.forall_mem_append, List.forall_mem_singleton]
        exact ⟨hbest, hlast, hnone, hlt⟩
      · exact .inr hbest

variable [LawfulCompare D] {points : List (ℕ × D × D)}

theorem keeps_skyline (points : List (ℕ × D × D)) :
    (points.foldl Sweep.step .start).Keeps points := by
  induction points using List.reverseRecOn with
  | nil => exact Sweep.keeps_start
  | append_singleton points p ih =>
    rw [List.foldl_append]
    exact ih.step p

theorem sublist_skyline (points : List (ℕ × D × D)) :
    (skyline points).Sublist (points.map Prod.fst) := by
  obtain ⟨kept, hsub, heq, -⟩ := (keeps_skyline points).kept
  unfold skyline
  rw [heq]
  exact hsub.map Prod.fst

theorem exists_of_mem_skyline {i : ℕ} (h : i ∈ skyline points) :
    ∃ p ∈ points, p.1 = i ∧ ltB negInfinity p.2.2 = true := by
  obtain ⟨kept, hsub, heq, hkept⟩ := (keeps_skyline points).kept
  unfold skyline at h
  rw [heq] at h
  obtain ⟨p, hp, rfl⟩ := List.mem_map.mp h
  exact ⟨p, hsub.subset hp, rfl, hkept p hp⟩

theorem skyline_ne_nil {p : ℕ × D × D} (hp : p ∈ points) (hgood : ltB negInfinity p.2.2 = true) :
    skyline points ≠ [] := by
  rcases (keeps_skyline points).best_eq with ⟨-, -, hnone⟩ | ⟨-, hne⟩
  · exact absurd hgood (hnone p hp)
  · exact hne

end Compare

section Exact

/-- Comparisons of finite values are those of the order. -/
class ExactOrder (K : Type) [ExactArith K] [Analysis K] : Prop where
  totalCmp_eq : ∀ a b : K, totalCmp a b = compare a b
  negInfinity_lt : ∀ a : K, isFinite a = true → negInfinity < a

instance : ExactOrder ℚ where
  totalCmp_eq _ _ := rfl
  negInfinity_lt a h := by
    have hlt : -(10 : ℚ) ^ 40 < a ∧ a < 10 ^ 40 := of_decide_eq_true h
    exact hlt.1

variable {K : Type} [ExactArith K] [Analysis K] [ExactOrder K]

theorem eqB_exact {K : Type} [ExactArith K] (a b : K) : eqB a b = decide (a = b) := by
  unfold eqB
  rw [ExactArith.partialCmp_eq, Bool.eq_iff_iff]
  simp

instance {K : Type} [ExactArith K] : LawfulCompare K where
  lt_trans a b c := by
    simp only [ltB_exact, decide_eq_true_eq]
    exact lt_trans
  lt_of_lt_of_eq a b c := by
    simp only [ltB_exact, eqB_exact, decide_eq_true_eq]
    rintro h rfl
    exact h

def Dominates (p q : K × K) : Prop := q.1 ≤ p.1 ∧ q.2 ≤ p.2 ∧ (q.1 < p.1 ∨ q.2 < p.2)

instance (p q : K × K) : Decidable (Dominates p q) := by
  unfold Dominates
  infer_instance

theorem sweepOrder_iff {x y : ℕ × K × K} :
    SweepOrder x y ↔ y.2.1 < x.2.1 ∨ y.2.1 = x.2.1 ∧ y.2.2 ≤ x.2.2 := by
  unfold SweepOrder
  rw [ExactOrder.totalCmp_eq, ExactOrder.totalCmp_eq]
  rcases lt_trichotomy y.2.1 x.2.1 with h | h | h
  · simp [compare_lt_iff_lt.mpr h, h]
  · simp [h, compare_gt_iff_gt]
  · simp [compare_gt_iff_gt.mpr h, h.not_gt, h.ne']

instance : Std.Total (SweepOrder (D := K)) := by
  constructor
  intro x y
  simp only [sweepOrder_iff]
  rcases lt_trichotomy y.2.1 x.2.1 with h | h | h
  · exact .inl (.inl h)
  · rcases le_total y.2.2 x.2.2 with hle | hle
    · exact .inl (.inr ⟨h, hle⟩)
    · exact .inr (.inr ⟨h.symm, hle⟩)
  · exact .inr (.inl h)

instance : IsTrans (ℕ × K × K) SweepOrder := by
  constructor
  intro x y z
  simp only [sweepOrder_iff]
  rintro (hxy | ⟨hxy, hxy'⟩) (hyz | ⟨hyz, hyz'⟩)
  · exact .inl (hyz.trans hxy)
  · exact .inl (hyz ▸ hxy)
  · exact .inl (hxy ▸ hyz)
  · exact .inr ⟨hyz.trans hxy, hyz'.trans hxy'⟩

theorem SweepOrder.not_dominates {x y : ℕ × K × K} (h : SweepOrder x y) :
    ¬ Dominates y.2 x.2 := by
  rintro ⟨h₁, h₂, hlt⟩
  rcases sweepOrder_iff.mp h with h | ⟨h, hle⟩
  · exact absurd h₁ h.not_ge
  · rcases hlt with hlt | hlt
    · exact absurd h hlt.ne'
    · exact absurd hle hlt.not_ge

/-- What a sweep has found: the undominated points, and the first with the greatest second value. -/
structure Sweep.Finds (points : List (ℕ × K × K)) (s : Sweep K) : Prop where
  front_eq : s.front = (points.filter fun p => ∀ q ∈ points, ¬ Dominates q.2 p.2).map Prod.fst
  last_eq : (points = [] ∧ s = .start) ∨ ∃ l ∈ points, s.last = some l.2 ∧ s.best = l.2.2 ∧
    ∀ q ∈ points, q.2.2 ≤ l.2.2 ∧ (q.2.2 = l.2.2 → q.2.1 ≤ l.2.1)

omit [ExactOrder K] in
theorem Sweep.finds_start : Sweep.Finds [] (.start : Sweep K) where
  front_eq := rfl
  last_eq := .inl ⟨rfl, rfl⟩

variable {points : List (ℕ × K × K)} {p : ℕ × K × K} {s : Sweep K}

/-- A point at the end is undominated or not, and changes nothing for the others. -/
theorem undominated_append (hsorted : ∀ q ∈ points, SweepOrder q p) :
    (points ++ [p]).filter (fun x => ∀ q ∈ points ++ [p], ¬ Dominates q.2 x.2) =
      points.filter (fun x => ∀ q ∈ points, ¬ Dominates q.2 x.2) ++
        if ∀ q ∈ points, ¬ Dominates q.2 p.2 then [p] else [] := by
  have hself : ¬ Dominates p.2 p.2 := fun h => h.2.2.elim (lt_irrefl _) (lt_irrefl _)
  have hold : ∀ x ∈ points, (∀ q ∈ points ++ [p], ¬ Dominates q.2 x.2) ↔
      ∀ q ∈ points, ¬ Dominates q.2 x.2 := by
    intro x hx
    rw [List.forall_mem_append, List.forall_mem_singleton, and_iff_left]
    exact (hsorted x hx).not_dominates
  have hnew : (∀ q ∈ points ++ [p], ¬ Dominates q.2 p.2) ↔ ∀ q ∈ points, ¬ Dominates q.2 p.2 := by
    rw [List.forall_mem_append, List.forall_mem_singleton, and_iff_left hself]
  rw [List.filter_append]
  congr 1
  · apply List.filter_congr
    intro x hx
    exact decide_eq_decide.mpr (hold x hx)
  · rw [List.filter_singleton, decide_eq_decide.mpr hnew]
    by_cases h : ∀ q ∈ points, ¬ Dominates q.2 p.2
    · rw [if_pos h, decide_eq_true h]
      rfl
    · rw [if_neg h, decide_eq_false h]
      rfl

/-- A point above all earlier ones, or equal to the last one kept, is undominated; any other point
is dominated by the last one. -/
theorem Sweep.Finds.step (h : s.Finds points) (hsorted : ∀ q ∈ points, SweepOrder q p)
    (hp : negInfinity < p.2.2) : (s.step p).Finds (points ++ [p]) := by
  obtain ⟨hfront, hlast⟩ := h
  have hself : p ∈ points ++ [p] := List.mem_append_right _ (List.mem_singleton_self p)
  unfold Sweep.step
  rw [ltB_exact, eqB_exact]
  by_cases hlt : s.best < p.2.2
  · rw [if_pos (decide_eq_true hlt)]
    have hbelow : ∀ q ∈ points, q.2.2 < p.2.2 := by
      rcases hlast with ⟨rfl, -⟩ | ⟨l, -, -, hbest, hmax⟩
      · simp
      · intro q hq
        exact ((hmax q hq).1.trans hbest.ge).trans_lt hlt
    constructor
    · rw [undominated_append hsorted, if_pos fun q hq hdom => hdom.2.1.not_gt (hbelow q hq),
        List.map_append, hfront]
      rfl
    · refine .inr ⟨p, hself, rfl, rfl, ?_⟩
      rw [List.forall_mem_append, List.forall_mem_singleton]
      exact ⟨fun q hq => ⟨(hbelow q hq).le, fun heq => absurd heq (hbelow q hq).ne⟩, le_rfl,
        fun _ => le_rfl⟩
  · rw [if_neg (by simpa using hlt)]
    obtain ⟨l, hl, hlast, hbest, hmax⟩ : ∃ l ∈ points, s.last = some l.2 ∧ s.best = l.2.2 ∧
        ∀ q ∈ points, q.2.2 ≤ l.2.2 ∧ (q.2.2 = l.2.2 → q.2.1 ≤ l.2.1) := by
      rcases hlast with ⟨-, rfl⟩ | hlast
      · exact absurd hp hlt
      · exact hlast
    have hle : p.2.2 ≤ l.2.2 := hbest ▸ not_lt.mp hlt
    have hple : p.2.1 ≤ l.2.1 := by
      rcases sweepOrder_iff.mp (hsorted l hl) with h | h
      · exact h.le
      · exact h.1.le
    have hmax' : ∀ q ∈ points ++ [p], q.2.2 ≤ l.2.2 ∧ (q.2.2 = l.2.2 → q.2.1 ≤ l.2.1) := by
      rw [List.forall_mem_append, List.forall_mem_singleton]
      exact ⟨hmax, hle, fun _ => hple⟩
    have htied : (decide (p.2.2 = s.best) && s.tied p.2) = decide (p.2 = l.2) := by
      unfold Sweep.tied
      rw [hlast, hbest, Bool.eq_iff_iff]
      simp only [eqB_exact, Bool.and_eq_true, decide_eq_true_eq, Prod.ext_iff]
      tauto
    rw [htied]
    by_cases heq : p.2 = l.2
    · rw [if_pos (decide_eq_true heq)]
      have hundom : ∀ q ∈ points, ¬ Dominates q.2 p.2 := by
        rintro q hq ⟨h₁, h₂, hlt⟩
        rw [heq] at h₁ h₂ hlt
        have hq₂ : q.2.2 = l.2.2 := le_antisymm (hmax q hq).1 h₂
        rcases hlt with hlt | hlt
        · exact hlt.not_ge ((hmax q hq).2 hq₂)
        · exact hlt.ne' hq₂
      constructor
      · rw [undominated_append hsorted, if_pos hundom, List.map_append, hfront]
        rfl
      · exact .inr ⟨l, List.mem_append_left _ hl, hlast, hbest, hmax'⟩
    · rw [if_neg (by simpa using heq)]
      have hdom : ¬ ∀ q ∈ points, ¬ Dominates q.2 p.2 := by
        intro hall
        apply hall l hl
        refine ⟨hple, hle, ?_⟩
        by_contra hnone
        push Not at hnone
        exact heq (Prod.ext (le_antisymm hple hnone.1) (le_antisymm hle hnone.2))
      constructor
      · rw [undominated_append hsorted, if_neg hdom, List.append_nil, hfront]
      · exact .inr ⟨l, List.mem_append_left _ hl, hlast, hbest, hmax'⟩

theorem skyline_eq (hsorted : points.Pairwise SweepOrder)
    (hfinite : ∀ p ∈ points, negInfinity < p.2.2) :
    skyline points =
      (points.filter fun p => ∀ q ∈ points, ¬ Dominates q.2 p.2).map Prod.fst := by
  have hfinds : (points.foldl Sweep.step .start).Finds points := by
    induction points using List.reverseRecOn with
    | nil => exact Sweep.finds_start
    | append_singleton points p ih =>
      rw [List.pairwise_append] at hsorted
      rw [List.forall_mem_append, List.forall_mem_singleton] at hfinite
      rw [List.foldl_append]
      exact (ih hsorted.1 hfinite.1).step
        (fun q hq => hsorted.2.2 q hq p (List.mem_singleton_self p)) hfinite.2
  exact hfinds.front_eq

end Exact

end Ennbo
