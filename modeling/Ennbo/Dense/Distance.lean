import Ennbo.Dense.Agreement
import Ennbo.Totals

/-! # The distance of two directions

In exact arithmetic the distance only depends on the total coefficients of the
seeds. Directions at distance zero move every value alike, unless their
contributions cancel there: then each goes one step to the side of its own
strongest term.
-/

namespace Ennbo.Dense

open Loops Totals

/-- Exact arithmetic, with the values that do not overflow. -/
class ExactDense (K : Type) extends ExactArith K where
  finite : K → Bool

instance {K : Type} [ExactDense K] : DenseFloat K where
  zero := 0
  one := 1
  neg a := -a
  add a b := a + b
  mul a b := a * b
  mulAdd a b c := a * b + c
  fabs a := |a|
  isFinite := ExactDense.finite
  feq a b := decide (a = b)
  flt a b := decide (a < b)

variable {K : Type} [ExactDense K]

section Walk

variable {key element : UInt64} {terms left right : List (DenseTerm K)} {walk : Walk K}

def contribution (key element : UInt64) (term : DenseTerm K) : K :=
  term.coefficient * sign term.seed key element

theorem walkTerm_exact (term : DenseTerm K) :
    walkTerm key element walk term =
      if term.coefficient = 0 then walk
      else if walk.strongest < |term.coefficient| then
        ⟨walk.sum + contribution key element term, |term.coefficient|,
          decide (0 < term.coefficient) == decide (0 < (sign term.seed key element : K))⟩
      else { walk with sum := walk.sum + contribution key element term } := by
  unfold walkTerm
  by_cases hzero : term.coefficient = 0
  · rw [if_pos hzero]
    exact if_pos (decide_eq_true hzero)
  · rw [if_neg hzero]
    refine (if_neg fun h => hzero (of_decide_eq_true h)).trans ?_
    by_cases hlt : walk.strongest < |term.coefficient|
    · rw [if_pos hlt]
      exact if_pos (decide_eq_true hlt)
    · rw [if_neg hlt]
      exact if_neg fun h => hlt (of_decide_eq_true h)

theorem sum_walkTerm (term : DenseTerm K) :
    (walkTerm key element walk term).sum = walk.sum + contribution key element term := by
  rw [walkTerm_exact]
  split_ifs with hzero hlt
  · unfold contribution
    rw [hzero, zero_mul, add_zero]
  · rfl
  · rfl

theorem sum_walk :
    (terms.foldl (walkTerm key element) walk).sum =
      walk.sum + (terms.map (contribution key element)).sum := by
  induction terms generalizing walk with
  | nil => simp
  | cons term terms ih =>
    rw [List.foldl_cons, ih, sum_walkTerm, List.map_cons, List.sum_cons, add_assoc]

theorem sum_walkTerms :
    (walkTerms key element terms).sum = (terms.map (contribution key element)).sum := by
  unfold walkTerms
  rw [sum_walk]
  exact zero_add _

/-- The first of the terms with the largest coefficient. -/
def IsStrongest (terms : List (DenseTerm K)) (term : DenseTerm K) : Prop :=
  ∃ before after, terms = before ++ term :: after ∧
    (∀ other ∈ before, |other.coefficient| < |term.coefficient|) ∧
      ∀ other ∈ after, |other.coefficient| ≤ |term.coefficient|

def pushes (key element : UInt64) (term : DenseTerm K) : Bool :=
  decide (0 < term.coefficient) == decide (0 < (sign term.seed key element : K))

theorem IsStrongest.mem {term : DenseTerm K} (h : IsStrongest terms term) : term ∈ terms := by
  obtain ⟨before, after, rfl, -⟩ := h
  exact List.mem_append_right before List.mem_cons_self

theorem IsStrongest.le {term other : DenseTerm K} (h : IsStrongest terms term)
    (hother : other ∈ terms) : |other.coefficient| ≤ |term.coefficient| := by
  obtain ⟨before, after, rfl, hbefore, hafter⟩ := h
  rcases List.mem_append.mp hother with hmem | hmem
  · exact (hbefore other hmem).le
  · rcases List.mem_cons.mp hmem with rfl | hmem
    · exact le_rfl
    · exact hafter other hmem

theorem IsStrongest.eq {term other : DenseTerm K} (h : IsStrongest terms term)
    (hother : IsStrongest terms other) : term = other := by
  have hle := h.le hother.mem
  have hge := hother.le h.mem
  obtain ⟨before, after, heq, hbefore, -⟩ := h
  obtain ⟨before', after', heq', hbefore', -⟩ := hother
  rw [heq] at heq'
  rcases List.append_eq_append_iff.mp heq' with ⟨mid, hmid, hcons⟩ | ⟨mid, hmid, hcons⟩
  · cases mid with
    | nil => exact (List.cons.inj hcons).1
    | cons first mid =>
      obtain ⟨rfl, -⟩ := List.cons.inj hcons
      exact absurd (hbefore' term (by simp [hmid])) (not_lt.mpr hle)
  · cases mid with
    | nil => exact (List.cons.inj hcons).1.symm
    | cons first mid =>
      obtain ⟨rfl, -⟩ := List.cons.inj hcons
      exact absurd (hbefore other (by simp [hmid])) (not_lt.mpr hge)

theorem IsStrongest.concat {term other : DenseTerm K} (h : IsStrongest terms term)
    (hle : |other.coefficient| ≤ |term.coefficient|) : IsStrongest (terms ++ [other]) term := by
  obtain ⟨before, after, rfl, hbefore, hafter⟩ := h
  refine ⟨before, after ++ [other], by simp, hbefore, ?_⟩
  intro t ht
  rcases List.mem_append.mp ht with ht | ht
  · exact hafter t ht
  · rw [List.mem_singleton.mp ht]
    exact hle

/-- What the walk knows of the terms it has passed. -/
inductive Knows (key element : UInt64) (terms : List (DenseTerm K)) (walk : Walk K) : Prop
  | zeros (all : ∀ term ∈ terms, term.coefficient = 0) (strongest : walk.strongest = 0)
  | term (term : DenseTerm K) (strongest : IsStrongest terms term) (ne : term.coefficient ≠ 0)
      (strongest_eq : walk.strongest = |term.coefficient|)
      (positive_eq : walk.positive = pushes key element term)

theorem Knows.walkTerm {term : DenseTerm K} (h : Knows key element terms walk) :
    Knows key element (terms ++ [term]) (walkTerm key element walk term) := by
  rw [walkTerm_exact]
  split_ifs with hzero hlt
  · -- a zero coefficient is skipped
    cases h with
    | zeros hall hstrongest =>
      refine .zeros (fun t ht => ?_) hstrongest
      rcases List.mem_append.mp ht with ht | ht
      · exact hall t ht
      · rw [List.mem_singleton.mp ht]
        exact hzero
    | term best hbest hne heq hpositive =>
      have hle : |term.coefficient| ≤ |best.coefficient| := by
        rw [hzero, abs_zero]
        exact abs_nonneg _
      exact .term best (hbest.concat hle) hne heq hpositive
  · -- the term is stronger than all before
    refine .term term ⟨terms, [], rfl, ?_, by simp⟩ hzero rfl rfl
    intro other hother
    cases h with
    | zeros hall hstrongest =>
      rw [hall other hother, abs_zero, ← hstrongest]
      exact hlt
    | term best hbest _ heq _ =>
      exact (hbest.le hother).trans_lt (heq ▸ hlt)
  · cases h with
    | zeros hall hstrongest =>
      rw [hstrongest, abs_pos, not_not] at hlt
      exact absurd hlt hzero
    | term best hbest hne heq hpositive =>
      exact .term best (hbest.concat (heq ▸ not_lt.mp hlt)) hne heq hpositive

theorem knows_walkTerms : Knows key element terms (walkTerms key element terms) := by
  induction terms using List.reverseRecOn with
  | nil => exact .zeros (by simp) rfl
  | append_singleton terms term ih =>
    unfold walkTerms at ih ⊢
    rw [List.foldl_append]
    exact ih.walkTerm

theorem exists_strongest (h : ∃ term ∈ terms, term.coefficient ≠ 0) :
    ∃ term, IsStrongest terms term ∧
      ∀ key element, (walkTerms key element terms).positive = pushes key element term := by
  have hterm : ∀ key element, ∃ term, IsStrongest terms term ∧
      (walkTerms key element terms).positive = pushes key element term := by
    intro key element
    have hknows : Knows key element terms _ := knows_walkTerms
    cases hknows with
    | zeros hall _ =>
      obtain ⟨term, hterm, hne⟩ := h
      exact absurd (hall term hterm) hne
    | term term hstrongest _ _ hpositive => exact ⟨term, hstrongest, hpositive⟩
  obtain ⟨term, hstrongest, -⟩ := hterm 0 0
  refine ⟨term, hstrongest, fun key element => ?_⟩
  obtain ⟨other, hother, hpositive⟩ := hterm key element
  rw [hstrongest.eq hother]
  exact hpositive

end Walk

section Totals

variable {terms left right : List (DenseTerm K)} {leaves : List (DenseLeaf K)} {start stop : ℕ}

theorem coefficient_exact (seed : UInt64) :
    coefficient K terms seed = total DenseTerm.seed DenseTerm.coefficient terms seed := by
  unfold coefficient total
  rw [← List.sum_eq_foldl]
  rfl

theorem hasDirection_exact (h : hasDirection K terms = true) :
    ∃ term ∈ terms, term.coefficient ≠ 0 := by
  by_contra hnone
  have hzero : ∀ seed, coefficient K terms seed = 0 := by
    intro seed
    rw [coefficient_exact]
    apply List.sum_eq_zero
    intro value hvalue
    obtain ⟨term, hterm, rfl⟩ := List.mem_map.mp hvalue
    by_contra hne
    exact hnone ⟨term, List.mem_of_mem_filter hterm, hne⟩
  unfold hasDirection at h
  obtain ⟨p, -, hp⟩ := List.any_eq_true.mp h
  rw [hzero, ExactArith.partialCmp_eq, compare_eq_iff_eq.mpr rfl] at hp
  simp at hp

def energy (leaves : List (DenseLeaf K)) : K :=
  (leaves.map fun leaf => (leaf.len : K) * leaf.scale ^ 2).sum

theorem scale_pos {scale : K} (h : ¬ badScale scale = true) : 0 < scale := by
  unfold badScale at h
  rw [Bool.or_eq_true, Bool.or_eq_true, not_or, not_or] at h
  obtain ⟨⟨-, hlt⟩, heq⟩ := h
  have hle : 0 ≤ scale := not_lt.mp fun hneg => hlt (decide_eq_true hneg)
  exact lt_of_le_of_ne hle fun hzero => heq (decide_eq_true hzero.symm)

theorem energy_pos (h : leavesEnd start leaves = .ok stop) (hne : leaves ≠ []) :
    0 < energy leaves := by
  unfold energy
  apply List.sum_pos
  · intro value hvalue
    obtain ⟨leaf, hleaf, rfl⟩ := List.mem_map.mp hvalue
    obtain ⟨hlen, hscale⟩ := leavesEnd_spec h leaf hleaf
    exact mul_pos (Nat.cast_pos.mpr (Nat.pos_of_ne_zero hlen)) (pow_pos (scale_pos hscale) 2)
  · simpa using hne

theorem sum_walkTerms_congr {key element : UInt64}
    (h : ∀ seed, coefficient K left seed = coefficient K right seed) :
    (walkTerms key element left).sum = (walkTerms key element right).sum := by
  rw [sum_walkTerms, sum_walkTerms]
  simp only [coefficient_exact] at h
  exact sum_map_mul_congr DenseTerm.seed DenseTerm.coefficient (fun seed => sign seed key element) h

end Totals

section Seeds

variable {F : Type} {terms : List (DenseTerm F)} {term : DenseTerm F}

theorem seeds_concat : seeds (terms ++ [term]) =
    if (seeds terms).contains term.seed then seeds terms else seeds terms ++ [term.seed] := by
  unfold seeds
  rw [List.foldl_append]
  rfl

/-- Each seed is listed once. -/
theorem seeds_spec : (seeds terms).Nodup ∧
    ∀ seed, seed ∈ seeds terms ↔ ∃ term ∈ terms, term.seed = seed := by
  induction terms using List.reverseRecOn with
  | nil => simp [seeds]
  | append_singleton terms term ih =>
    obtain ⟨hnodup, hmem⟩ := ih
    rw [seeds_concat]
    by_cases hseen : (seeds terms).contains term.seed = true
    · rw [if_pos hseen]
      refine ⟨hnodup, fun seed => ?_⟩
      rw [List.contains_iff_mem] at hseen
      rw [hmem]
      constructor
      · rintro ⟨t, ht, rfl⟩
        exact ⟨t, List.mem_append_left _ ht, rfl⟩
      · rintro ⟨t, ht, rfl⟩
        rcases List.mem_append.mp ht with ht | ht
        · exact ⟨t, ht, rfl⟩
        · rw [List.mem_singleton.mp ht]
          exact (hmem _).mp hseen
    · rw [if_neg hseen]
      rw [List.contains_iff_mem] at hseen
      constructor
      · rw [List.nodup_append]
        refine ⟨hnodup, List.nodup_singleton _, ?_⟩
        rintro seed hseed other hother rfl
        rw [List.mem_singleton.mp hother] at hseed
        exact hseen hseed
      · intro seed
        simp only [List.mem_append, List.mem_singleton, hmem]
        constructor
        · rintro (⟨t, ht, rfl⟩ | rfl)
          · exact ⟨t, .inl ht, rfl⟩
          · exact ⟨term, .inr rfl, rfl⟩
        · rintro ⟨t, ht | rfl, rfl⟩
          · exact .inl ⟨t, ht, rfl⟩
          · exact .inr rfl

theorem seenSeed_eq {seed : UInt64} :
    Zig.seenSeed terms seed = (seeds terms).contains seed := by
  rw [Bool.eq_iff_iff, List.contains_iff_mem, seeds_spec.2]
  unfold Zig.seenSeed
  simp

/-- A loop that skips the seeds it has seen, and others. -/
theorem foldl_seeds {K : Type} [AddCommMonoid K] (terms : List (DenseTerm F))
    (skip : UInt64 → Bool) (f : UInt64 → K) (init : K) :
    terms.zipIdx.foldl (fun distance p =>
      if Zig.seenSeed (terms.take p.2) p.1.seed || skip p.1.seed then distance
      else distance + f p.1.seed) init =
    init + (((seeds terms).filter fun seed => !skip seed).map f).sum := by
  induction terms using List.reverseRecOn with
  | nil => simp [seeds]
  | append_singleton terms term ih =>
    have hbefore : (terms.zipIdx.foldl (fun distance p =>
        if Zig.seenSeed ((terms ++ [term]).take p.2) p.1.seed || skip p.1.seed then distance
        else distance + f p.1.seed) init) =
        terms.zipIdx.foldl (fun distance p =>
          if Zig.seenSeed (terms.take p.2) p.1.seed || skip p.1.seed then distance
          else distance + f p.1.seed) init := by
      apply List.foldl_ext
      intro distance p hp
      obtain ⟨i, hi, rfl⟩ := List.getElem_of_mem hp
      rw [List.length_zipIdx] at hi
      rw [List.getElem_zipIdx, List.take_append_of_le_length (by simpa using hi.le)]
    rw [List.zipIdx_append, List.foldl_append, hbefore, ih, seeds_concat]
    simp only [List.zipIdx_singleton, List.foldl_cons, List.foldl_nil, Nat.zero_add,
      List.take_left']
    rw [seenSeed_eq]
    cases (seeds terms).contains term.seed with
    | true => simp
    | false =>
      cases hskip : skip term.seed with
      | true => simp [List.filter_append, hskip]
      | false => simp [List.filter_append, hskip, add_assoc]

end Seeds

section Distances

variable {leaves : List (DenseLeaf K)} {left right : List (DenseTerm K)} {d : K}

def seedsOf (left right : List (DenseTerm K)) : Finset UInt64 := (seeds (left ++ right)).toFinset

omit [ExactDense K] in
theorem mem_seedsOf : ∀ term ∈ left ++ right, term.seed ∈ seedsOf left right := by
  intro term hterm
  exact List.mem_toFinset.mpr ((seeds_spec.2 term.seed).mpr ⟨term, hterm, rfl⟩)

/-- What both implementations check before they compare two directions. -/
structure Comparable (leaves : List (DenseLeaf K)) (left right : List (DenseTerm K)) : Prop where
  leaves_ne : leaves ≠ []
  leavesEnd : ∃ stop, leavesEnd 0 leaves = .ok stop
  left_finite : ∀ term ∈ left, isFinite term.coefficient = true
  right_finite : ∀ term ∈ right, isFinite term.coefficient = true

/-- The energy of the leaves times the squared distance of the totals. -/
def distanceOf (leaves : List (DenseLeaf K)) (left right : List (DenseTerm K)) : K :=
  energy leaves *
    distance DenseTerm.seed DenseTerm.coefficient (seedsOf left right) left right

theorem distance_list {ks : List UInt64} (hnodup : ks.Nodup) :
    distance DenseTerm.seed DenseTerm.coefficient ks.toFinset left right =
      (ks.map fun seed => (coefficient K left seed - coefficient K right seed) ^ 2).sum := by
  unfold distance
  rw [List.sum_toFinset _ hnodup]
  simp only [coefficient_exact]

theorem dist2_ok_iff :
    dist2 K leaves left right = .ok d ↔
      Comparable leaves left right ∧ distanceOf leaves left right = d := by
  have henergy : ((leaves.map fun leaf =>
      (leaf.len : K) * ((toF64 leaf.scale : K) * toF64 leaf.scale)).foldl (· + ·) 0) =
      energy leaves := by
    unfold energy
    rw [← List.sum_eq_foldl]
    simp only [toF64_exact, sq]
  have hdistance : (((seeds (left ++ right)).map fun seed =>
      (coefficient K left seed - coefficient K right seed) *
        (coefficient K left seed - coefficient K right seed)).foldl (· + ·) 0) =
      distance DenseTerm.seed DenseTerm.coefficient (seedsOf left right) left right := by
    unfold seedsOf
    rw [distance_list seeds_spec.1, ← List.sum_eq_foldl]
    simp only [sq]
  unfold dist2
  rw [check_then_ok_iff, check_then_ok_iff, check_then_ok_iff, validateLeaves_none_iff,
    validateTerms_ok_iff, validateTerms_ok_iff]
  dsimp only
  rw [henergy, hdistance, pure_ok_iff]
  constructor
  · rintro ⟨⟨hne, hend⟩, hleft, hright, hd⟩
    exact ⟨⟨hne, hend, hleft, hright⟩, hd⟩
  · rintro ⟨⟨hne, hend, hleft, hright⟩, hd⟩
    exact ⟨⟨hne, hend⟩, hleft, hright, hd⟩

/-- The second implementation adds up the energy while it checks the leaves. -/
theorem zigEnergy_ok_iff {start : ℕ} {value : K} {result : ℕ × K} :
    (leaves.foldlM (fun state leaf =>
      if leaf.len = 0 ∨ badScale leaf.scale = true ∨ leaf.offset ≠ state.1 then
        throw .invalidLayout
      else if 2 ^ 64 ≤ leaf.offset + leaf.len then throw .invalidLayout
      else
        let scale : K := toF64 leaf.scale
        pure (leaf.offset + leaf.len, state.2 + (leaf.len : K) * scale * scale)) (start, value) :
          Except Zig.Error (ℕ × K)) = .ok result ↔
      leavesEnd start leaves = .ok result.1 ∧ value + energy leaves = result.2 := by
  induction leaves generalizing start value with
  | nil =>
    rw [List.foldlM_nil, pure_ok_iff]
    unfold leavesEnd energy
    rw [pure_ok_iff, List.map_nil, List.sum_nil, add_zero, Prod.ext_iff]
  | cons leaf leaves ih =>
    have henergy : energy (leaf :: leaves) = (leaf.len : K) * leaf.scale * leaf.scale +
        energy leaves := by
      unfold energy
      rw [List.map_cons, List.sum_cons, sq, mul_assoc]
    rw [List.foldlM_cons, bind_ok_iff, henergy, ← add_assoc]
    unfold leavesEnd
    rw [check_ok_iff, check_ok_iff, check_ok_iff]
    simp only [check_ok_iff, pure_ok_iff, toF64_exact]
    constructor
    · rintro ⟨state, ⟨hleaf, hlt, rfl⟩, hrest⟩
      rw [not_or, not_or] at hleaf
      obtain ⟨hend, hvalue⟩ := ih.mp hrest
      exact ⟨⟨hleaf.2.2, fun h => h.elim hleaf.1 hleaf.2.1, hlt, hend⟩, hvalue⟩
    · rintro ⟨⟨hoffset, hleaf, hlt, hend⟩, hvalue⟩
      rw [not_or] at hleaf
      refine ⟨_, ⟨?_, hlt, rfl⟩, ih.mpr ⟨hend, hvalue⟩⟩
      rintro (h | h | h)
      · exact hleaf.1 h
      · exact hleaf.2 h
      · exact hoffset h

/-- The seeds of the right direction follow those of the left. -/
theorem zigDistance_eq :
    (right.zipIdx.foldl (fun distance p =>
      if Zig.seenSeed (right.take p.2) p.1.seed || Zig.seenSeed left p.1.seed then distance
      else
        let value : K := Zig.coefficient K right p.1.seed
        distance + value * value)
      (left.zipIdx.foldl (fun distance p =>
        if Zig.seenSeed (left.take p.2) p.1.seed then distance
        else
          let delta : K := Zig.coefficient K left p.1.seed - Zig.coefficient K right p.1.seed
          distance + delta * delta) 0)) =
      distance DenseTerm.seed DenseTerm.coefficient (seedsOf left right) left right := by
  let others := (seeds right).filter fun seed => !Zig.seenSeed left seed
  have hnodup : (seeds left ++ others).Nodup := by
    rw [List.nodup_append]
    refine ⟨seeds_spec.1, seeds_spec.1.filter _, ?_⟩
    rintro seed hseed other hother rfl
    have hnot := (List.mem_filter.mp hother).2
    rw [seenSeed_eq, List.contains_iff_mem.mpr hseed] at hnot
    cases hnot
  have hmem : ∀ term ∈ left ++ right, term.seed ∈ (seeds left ++ others).toFinset := by
    intro term hterm
    rw [List.mem_toFinset, List.mem_append, List.mem_filter, seenSeed_eq]
    rcases List.mem_append.mp hterm with hterm | hterm
    · exact .inl ((seeds_spec.2 _).mpr ⟨term, hterm, rfl⟩)
    · by_cases hseen : term.seed ∈ seeds left
      · exact .inl hseen
      · exact .inr ⟨(seeds_spec.2 _).mpr ⟨term, hterm, rfl⟩, by simpa using hseen⟩
  have hothers : ∀ seed ∈ others, coefficient K left seed = 0 := by
    intro seed hseed
    have hnot := (List.mem_filter.mp hseed).2
    rw [coefficient_exact]
    apply total_eq_zero
    rintro term hterm rfl
    rw [seenSeed_eq, List.contains_iff_mem.mpr ((seeds_spec.2 _).mpr ⟨term, hterm, rfl⟩)] at hnot
    cases hnot
  have hright : others.map (fun seed =>
      (coefficient K left seed - coefficient K right seed) ^ 2) =
      others.map fun seed => coefficient K right seed * coefficient K right seed := by
    apply List.map_congr_left
    intro seed hseed
    rw [hothers seed hseed, zero_sub, neg_sq, sq]
  have hleft : ∀ init : K, left.zipIdx.foldl (fun distance p =>
      if Zig.seenSeed (left.take p.2) p.1.seed then distance
      else distance + (coefficient K left p.1.seed - coefficient K right p.1.seed) ^ 2) init =
      init + ((seeds left).map fun seed =>
        (coefficient K left seed - coefficient K right seed) ^ 2).sum := by
    intro init
    have hfold := foldl_seeds left (fun _ => false) (fun seed =>
      (coefficient K left seed - coefficient K right seed) ^ 2) init
    simpa using hfold
  rw [distance_eq DenseTerm.seed DenseTerm.coefficient mem_seedsOf hmem, distance_list hnodup,
    List.map_append, List.sum_append, hright]
  simp only [coefficient_eq, ← sq (coefficient K left _ - coefficient K right _)]
  rw [hleft, zero_add]
  exact foldl_seeds right (Zig.seenSeed left)
    (fun seed => coefficient K right seed * coefficient K right seed) _

theorem zigDist2_ok_iff :
    Zig.dist2 K leaves left right = .ok d ↔
      Comparable leaves left right ∧ distanceOf leaves left right = d := by
  unfold Zig.dist2
  rw [check_ok_iff, bind_ok_iff]
  simp only [zigEnergy_ok_iff, check_then_ok_iff, zigValidateTerms_ok_iff, zigDistance_eq,
    pure_ok_iff, zero_add]
  unfold distanceOf
  constructor
  · rintro ⟨hne, result, ⟨hend, henergy⟩, hleft, hright, hd⟩
    rw [← henergy] at hd
    exact ⟨⟨fun h => hne (by rw [h]; rfl), ⟨result.1, hend⟩, hleft, hright⟩, hd⟩
  · rintro ⟨⟨hne, ⟨stop, hend⟩, hleft, hright⟩, hd⟩
    exact ⟨fun h => hne (List.length_eq_zero_iff.mp h), ⟨stop, energy leaves⟩, ⟨hend, rfl⟩, hleft,
      hright, hd⟩

theorem Comparable.symm (h : Comparable leaves left right) : Comparable leaves right left :=
  ⟨h.leaves_ne, h.leavesEnd, h.right_finite, h.left_finite⟩

theorem distanceOf_congr {left' right' : List (DenseTerm K)}
    (hleft : ∀ seed, coefficient K left seed = coefficient K left' seed)
    (hright : ∀ seed, coefficient K right seed = coefficient K right' seed) :
    distanceOf leaves left right = distanceOf leaves left' right' := by
  let S := seedsOf left right ∪ seedsOf left' right'
  have hmem : ∀ term ∈ left ++ right, term.seed ∈ S := fun term hterm =>
    Finset.mem_union_left _ (mem_seedsOf term hterm)
  have hmem' : ∀ term ∈ left' ++ right', term.seed ∈ S := fun term hterm =>
    Finset.mem_union_right _ (mem_seedsOf term hterm)
  simp only [coefficient_exact] at hleft hright
  unfold distanceOf
  rw [distance_eq DenseTerm.seed DenseTerm.coefficient mem_seedsOf hmem,
    distance_eq DenseTerm.seed DenseTerm.coefficient mem_seedsOf hmem',
    distance_congr DenseTerm.seed DenseTerm.coefficient S hleft hright]

theorem distanceOf_comm : distanceOf leaves left right = distanceOf leaves right left := by
  have hmem : ∀ term ∈ right ++ left, term.seed ∈ seedsOf left right := by
    intro term hterm
    exact mem_seedsOf term (List.mem_append.mpr (List.mem_append.mp hterm).symm)
  unfold distanceOf
  rw [distance_comm, distance_eq DenseTerm.seed DenseTerm.coefficient hmem mem_seedsOf]

theorem Comparable.distanceOf_eq_zero_iff (h : Comparable leaves left right) :
    distanceOf leaves left right = 0 ↔
      ∀ seed, coefficient K left seed = coefficient K right seed := by
  obtain ⟨stop, hend⟩ := h.leavesEnd
  unfold distanceOf
  rw [mul_eq_zero, or_iff_right (energy_pos hend h.leaves_ne).ne',
    distance_eq_zero_iff DenseTerm.seed DenseTerm.coefficient mem_seedsOf]
  simp only [coefficient_exact]

theorem coefficient_perm (h : left.Perm right) (seed : UInt64) :
    coefficient K left seed = coefficient K right seed := by
  rw [coefficient_exact, coefficient_exact, total_perm DenseTerm.seed DenseTerm.coefficient h]

end Distances

section Steps

variable {nextFinite : K → Bool → K} {base scale value value' : K} {walk walk' : Walk K}
  {bases values values' : List K} {leaves : List (DenseLeaf K)} {left right : List (DenseTerm K)}

/-- An exact step up or down. -/
structure StepsExactly (nextFinite : K → Bool → K) : Prop where
  up : ∀ value, value < nextFinite value true
  down : ∀ value, nextFinite value false < value
  finite : ∀ {value : K} (positive : Bool), isFinite value = true →
    isFinite (nextFinite value positive) = true

theorem StepsExactly.stepsFinitely (h : StepsExactly nextFinite) : StepsFinitely nextFinite where
  finite := h.finite
  moves := by
    intro value positive _
    apply decide_eq_false
    cases positive with
    | false => exact (h.down value).ne'
    | true => exact (h.up value).ne
  comm a b := decide_eq_decide.mpr eq_comm

theorem StepsExactly.eq_iff (h : StepsExactly nextFinite) {positive positive' : Bool} :
    nextFinite base positive = nextFinite base positive' ↔ positive = positive' := by
  have hne := ((h.down base).trans (h.up base)).ne
  cases positive <;> cases positive' <;> simp [hne, hne.symm]

theorem moved_exact (hscale : 0 < scale) :
    moved nextFinite base scale walk =
      if walk.sum = 0 then some (nextFinite base walk.positive)
      else if isFinite (base + scale * walk.sum) then some (base + scale * walk.sum)
      else none := by
  unfold moved
  by_cases hsum : walk.sum = 0
  · rw [if_pos hsum]
    exact if_pos (by rw [Bool.or_eq_true]; exact .inl (decide_eq_true hsum))
  · rw [if_neg hsum]
    apply if_neg
    rw [Bool.or_eq_true]
    rintro (h | h)
    · exact hsum (of_decide_eq_true h)
    · have hzero : scale * walk.sum = 0 := by simpa using of_decide_eq_true h
      exact (mul_ne_zero hscale.ne' hsum) hzero

theorem moved_eq_iff (hsteps : StepsExactly nextFinite) (hscale : 0 < scale)
    (hsum : walk.sum = walk'.sum) (h : moved nextFinite base scale walk = some value)
    (h' : moved nextFinite base scale walk' = some value') :
    value = value' ↔ (walk.sum = 0 → walk.positive = walk'.positive) := by
  rw [moved_exact hscale] at h h'
  rw [← hsum] at h'
  by_cases hzero : walk.sum = 0
  · rw [if_pos hzero, Option.some.injEq] at h h'
    rw [← h, ← h', hsteps.eq_iff]
    simp [hzero]
  · rw [if_neg hzero] at h h'
    rw [h, Option.some.injEq] at h'
    simp [hzero, h']

/-- Directions with the same totals move an element alike, or push it to different sides. -/
theorem MovesTo.getD_eq_iff (hsteps : StepsExactly nextFinite)
    (hend : leavesEnd 0 leaves = .ok bases.length)
    (hleft : MovesTo nextFinite bases leaves left values)
    (hright : MovesTo nextFinite bases leaves right values')
    (htotals : ∀ seed, coefficient K left seed = coefficient K right seed)
    {leaf : DenseLeaf K} {element : ℕ} (hleaf : leaf ∈ leaves) (helement : element < leaf.len) :
    values.getD (leaf.offset + element) 0 = values'.getD (leaf.offset + element) 0 ↔
      ((walkTerms leaf.key (UInt64.ofNat element) left).sum = 0 →
        (walkTerms leaf.key (UInt64.ofNat element) left).positive =
          (walkTerms leaf.key (UInt64.ofNat element) right).positive) := by
  obtain ⟨hi, hplace⟩ := exists_place hend hleaf helement
  have hlen := hi.trans_eq (length_elements hend)
  have hi' := hlen.trans_eq (hleft.length_eq hend).symm
  have hi'' := hlen.trans_eq (hright.length_eq hend).symm
  have hmoved := hleft.get hi hi'
  have hmoved' := hright.get hi hi''
  simp only [List.get_eq_getElem, hplace] at hmoved hmoved'
  rw [List.getD_eq_getElem _ _ hi', List.getD_eq_getElem _ _ hi'']
  exact moved_eq_iff hsteps (scale_pos (leavesEnd_spec hend leaf hleaf).2)
    (sum_walkTerms_congr htotals) hmoved hmoved'

theorem MovesTo.eq_iff (hend : leavesEnd 0 leaves = .ok bases.length)
    (hleft : MovesTo nextFinite bases leaves left values)
    (hright : MovesTo nextFinite bases leaves right values') :
    values = values' ↔ ∀ leaf ∈ leaves, ∀ element < leaf.len,
      values.getD (leaf.offset + element) 0 = values'.getD (leaf.offset + element) 0 := by
  constructor
  · rintro rfl leaf _ element _
    rfl
  · intro h
    have hlen := hleft.length_eq hend
    have hlen' := hright.length_eq hend
    apply List.ext_getElem (hlen.trans hlen'.symm)
    intro i hi hi'
    have he : i < (elements leaves).length := by
      rw [length_elements hend, ← hlen]
      exact hi
    obtain ⟨hleaf, helement⟩ := mem_elements_iff.mp (List.getElem_mem he)
    have hvalue := h _ hleaf _ helement
    rwa [getElem_place hend he, List.getD_eq_getElem _ _ hi, List.getD_eq_getElem _ _ hi'] at hvalue

/-- Where the contributions of a direction cancel, two terms push to the same side. -/
def SameSide (leaf : DenseLeaf K) (element : ℕ) (terms : List (DenseTerm K))
    (term term' : DenseTerm K) : Prop :=
  (terms.map (contribution leaf.key (UInt64.ofNat element))).sum = 0 →
    pushes leaf.key (UInt64.ofNat element) term = pushes leaf.key (UInt64.ofNat element) term'

/-- The distance only depends on the totals of the seeds, it is symmetric, and it is zero exactly
when the totals agree. Then `apply` moves every value alike where the contributions do not cancel,
and elsewhere each direction steps to the side of its own strongest term. -/
theorem dist2_spec (hsteps : StepsExactly nextFinite) :
    (∀ (leaves : List (DenseLeaf K)) (left right left' right' : List (DenseTerm K)) (d d' : K),
      dist2 K leaves left right = .ok d → dist2 K leaves left' right' = .ok d' →
        (∀ seed, coefficient K left seed = coefficient K left' seed) →
        (∀ seed, coefficient K right seed = coefficient K right' seed) → d = d') ∧
    (∀ (leaves : List (DenseLeaf K)) (left right : List (DenseTerm K)) (d : K),
      (Zig.dist2 K leaves left right = .ok d ↔ dist2 K leaves left right = .ok d) ∧
      (dist2 K leaves left right = .ok d ↔ dist2 K leaves right left = .ok d) ∧
      (dist2 K leaves left right = .ok d →
        (d = 0 ↔ ∀ seed, coefficient K left seed = coefficient K right seed) ∧
        (left.Perm right → d = 0))) ∧
    ∀ (base : List K) (leaves : List (DenseLeaf K)) (left right : List (DenseTerm K))
        (moved moved' : DenseResult K),
      apply K nextFinite base leaves left = .ok moved →
      apply K nextFinite base leaves right = .ok moved' →
      dist2 K leaves left right = .ok 0 →
        ∃ term term', IsStrongest left term ∧ IsStrongest right term' ∧
          (∀ leaf ∈ leaves, ∀ element < leaf.len,
            (moved.values.getD (leaf.offset + element) 0 =
                moved'.values.getD (leaf.offset + element) 0 ↔
              SameSide leaf element left term term')) ∧
          (moved.values = moved'.values ↔
            ∀ leaf ∈ leaves, ∀ element < leaf.len, SameSide leaf element left term term') := by
  refine ⟨?_, ?_, ?_⟩
  · intro leaves left right left' right' d d' h h' hleft hright
    rw [← (dist2_ok_iff.mp h).2, ← (dist2_ok_iff.mp h').2]
    exact distanceOf_congr hleft hright
  · intro leaves left right d
    rw [zigDist2_ok_iff, dist2_ok_iff, dist2_ok_iff, distanceOf_comm]
    refine ⟨Iff.rfl, ?_, ?_⟩
    · exact and_congr_left' ⟨Comparable.symm, Comparable.symm⟩
    · rintro ⟨h, rfl⟩
      rw [distanceOf_comm, h.distanceOf_eq_zero_iff]
      exact ⟨Iff.rfl, coefficient_perm⟩
  · intro base leaves left right moved moved' h h' hdist
    obtain ⟨hleft, hmoved, -⟩ := (apply_ok_iff hsteps.stepsFinitely).mp h
    obtain ⟨hright, hmoved', -⟩ := (apply_ok_iff hsteps.stepsFinitely).mp h'
    obtain ⟨hcomparable, hzero⟩ := dist2_ok_iff.mp hdist
    have htotals := hcomparable.distanceOf_eq_zero_iff.mp hzero
    obtain ⟨term, hterm, hpushes⟩ := exists_strongest (hasDirection_exact hleft.direction)
    obtain ⟨term', hterm', hpushes'⟩ := exists_strongest (hasDirection_exact hright.direction)
    have hvalue : ∀ leaf ∈ leaves, ∀ element < leaf.len,
        (moved.values.getD (leaf.offset + element) 0 =
            moved'.values.getD (leaf.offset + element) 0 ↔
          SameSide leaf element left term term') := by
      intro leaf hleaf element helement
      unfold SameSide
      rw [← hpushes, ← hpushes', ← sum_walkTerms]
      exact hmoved.getD_eq_iff hsteps hleft.leavesEnd_eq hmoved' htotals hleaf helement
    refine ⟨term, term', hterm, hterm', hvalue, ?_⟩
    rw [hmoved.eq_iff hleft.leavesEnd_eq hmoved']
    constructor
    · intro hall leaf hleaf element helement
      exact (hvalue leaf hleaf element helement).mp (hall leaf hleaf element helement)
    · intro hall leaf hleaf element helement
      exact (hvalue leaf hleaf element helement).mpr (hall leaf hleaf element helement)

end Steps

section Reordered

local instance : ExactDense ℚ where
  finite _ := true

def oneStep (value : ℚ) (positive : Bool) : ℚ := if positive then value + 1 else value - 1

theorem oneStep_exact : StepsExactly oneStep where
  up value := lt_add_one value
  down value := sub_one_lt value
  finite _ _ := rfl

/-- A reordering that changes nothing, as the contributions do not cancel. -/
theorem dist2_spec_reordered :
    let leaves : List (DenseLeaf ℚ) := [⟨0, 0, 1, 1⟩]
    let left : List (DenseTerm ℚ) := [⟨0, 2⟩, ⟨1, 1⟩]
    let right : List (DenseTerm ℚ) := [⟨1, 1⟩, ⟨0, 2⟩]
    ∃ moved moved', apply ℚ oneStep [0] leaves left = .ok moved ∧
      apply ℚ oneStep [0] leaves right = .ok moved' ∧ moved.values = moved'.values := by
  refine ⟨⟨[1], 1⟩, ⟨[1], 1⟩, by decide +kernel, by decide +kernel, ?_⟩
  obtain ⟨term, term', -, -, -, hvalues⟩ := (dist2_spec oneStep_exact).2.2 [0] [⟨0, 0, 1, 1⟩]
    [⟨0, 2⟩, ⟨1, 1⟩] [⟨1, 1⟩, ⟨0, 2⟩] ⟨[1], 1⟩ ⟨[1], 1⟩ (by decide +kernel) (by decide +kernel)
    (by decide +kernel)
  rw [hvalues]
  intro leaf hleaf element helement hsum
  obtain rfl := List.mem_singleton.mp hleaf
  obtain rfl : element = 0 := Nat.lt_one_iff.mp helement
  exact absurd hsum (by decide +kernel)

/-- Two terms of equal strength that cancel, in the two orders. -/
theorem not_apply_eq_swapped :
    let leaves : List (DenseLeaf ℚ) := [⟨0, 0, 1, 1⟩]
    let left : List (DenseTerm ℚ) := [⟨0, 1⟩, ⟨1, 1⟩]
    let right : List (DenseTerm ℚ) := [⟨1, 1⟩, ⟨0, 1⟩]
    dist2 ℚ leaves left right = .ok 0 ∧ Zig.dist2 ℚ leaves left right = .ok 0 ∧
      apply ℚ oneStep [0] leaves left = .ok ⟨[1], 1⟩ ∧
      apply ℚ oneStep [0] leaves right = .ok ⟨[-1], 1⟩ := by
  decide +kernel

end Reordered

end Ennbo.Dense
