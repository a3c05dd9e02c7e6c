import Ennbo.Acquisition.Pareto

/-! # When skylines come to an end

A row whose second objective is not above negative infinity is on no skyline: the
comparison with the greatest value so far fails, and so does the comparison with
the last point. Such a row is never taken away, and the peeling never ends.
Without such rows every round takes one away.
-/

namespace Ennbo

variable {D : Type} [Floating D] [Analysis D]

def Array2.Peelable (objectives : Array2 D) (i : ℕ) : Prop :=
  ltB negInfinity (objectives.pointAt i).2.2 = true

/-- The peeling ends with fronts that list every row once. -/
def ListsAll (objectives : Array2 D) : Prop :=
  ∃ fuel fronts, nonDominSort2d fuel objectives = .ok fronts ∧
    fronts.flatten.Perm (List.range objectives.nrows)

/-- A selection among some candidates returns as many different ones as wanted. -/
def SelectsAll (mu : Array2 D) : Prop :=
  ∀ (shuffle : List ℕ → List ℕ) (seed : UInt64) (se : Array2 D) (numArms : ℕ),
    (∀ front, (shuffle front).Perm front) → se.shape = mu.shape → numArms ≤ mu.nrows →
    ∃ fuel arms, ParetoAcquisition.select shuffle seed fuel mu se numArms = .ok (.ok arms) ∧
      arms.length = numArms ∧ arms.Nodup ∧ ∀ i ∈ arms, i < mu.nrows

section Peel

variable [LawfulCompare D] {point : ℕ → ℕ × D × D} {remaining : List ℕ}

theorem skyline_append_perm (hpoint : ∀ i, (point i).1 = i) {sorted : List ℕ}
    (hnodup : sorted.Nodup) :
    (skyline (sorted.map point) ++ sorted.filter fun i => i ∉ skyline (sorted.map point)).Perm
      sorted := by
  have hsub := skyline_map_sublist hpoint sorted
  have hfront : (skyline (sorted.map point)).Perm
      (sorted.filter fun i => i ∈ skyline (sorted.map point)) := by
    apply (List.perm_ext_iff_of_nodup (hnodup.sublist hsub) (hnodup.filter _)).mpr
    intro i
    rw [List.mem_filter, decide_eq_true_iff]
    exact ⟨fun hi => ⟨hsub.subset hi, hi⟩, fun hi => hi.2⟩
  have hrest : (sorted.filter fun i => i ∉ skyline (sorted.map point)) =
      sorted.filter fun i => !decide (i ∈ skyline (sorted.map point)) := by
    apply List.filter_congr
    intro i _
    exact decide_not
  rw [hrest]
  exact (hfront.append_right _).trans (List.filter_append_perm _ sorted)

/-- Every round takes a row away when the second objectives are above negative infinity. -/
theorem peelFronts_eq_ok (hpoint : ∀ i, (point i).1 = i) (hnodup : remaining.Nodup)
    (hgood : ∀ i ∈ remaining, ltB negInfinity (point i).2.2 = true) {fuel : ℕ}
    (hfuel : remaining.length < fuel) :
    ∃ fronts, peelFronts point fuel remaining = .ok fronts ∧
      fronts.flatten.Perm remaining := by
  induction fuel generalizing remaining with
  | zero => omega
  | succ fuel ih =>
    unfold peelFronts
    split
    next hnil => exact ⟨[], rfl, by rw [hnil]; exact .refl _⟩
    next hne =>
      let sorted := remaining.insertionSort fun i j => SweepOrder (point i) (point j)
      have hperm : sorted.Perm remaining := List.perm_insertionSort _ _
      let front := skyline (sorted.map point)
      let rest := sorted.filter fun i => i ∉ front
      have hsplit : (front ++ rest).Perm sorted :=
        skyline_append_perm hpoint (hperm.nodup_iff.mpr hnodup)
      have hfront : front ≠ [] := by
        obtain ⟨i, hi⟩ := List.exists_mem_of_ne_nil _ hne
        exact skyline_ne_nil (List.mem_map_of_mem (hperm.mem_iff.mpr hi)) (hgood i hi)
      have hlength : front.length + rest.length = remaining.length := by
        rw [← List.length_append, hsplit.length_eq, hperm.length_eq]
      have hpos := List.length_pos_of_ne_nil hfront
      have hnodup' : rest.Nodup := (hperm.nodup_iff.mpr hnodup).filter _
      have hgood' : ∀ i ∈ rest, ltB negInfinity (point i).2.2 = true :=
        fun i hi => hgood i (hperm.mem_iff.mp (List.mem_of_mem_filter hi))
      obtain ⟨fronts, hfronts, hflatten⟩ := ih hnodup' hgood' (by omega)
      refine ⟨front :: fronts, ?_, ?_⟩
      · change (peelFronts point fuel rest >>= _) = _
        rw [hfronts]
        rfl
      · rw [List.flatten_cons]
        exact ((hflatten.append_left front).trans hsplit).trans hperm

theorem peelFronts_ne_ok (hpoint : ∀ i, (point i).1 = i) {i : ℕ} (hi : i ∈ remaining)
    (hbad : ¬ ltB negInfinity (point i).2.2 = true) (fuel : ℕ) (fronts : List (List ℕ)) :
    peelFronts point fuel remaining ≠ .ok fronts := by
  induction fuel generalizing remaining fronts with
  | zero => exact Outcome.throw_ne_ok
  | succ fuel ih =>
    unfold peelFronts
    rw [if_neg (List.ne_nil_of_mem hi)]
    intro hok
    obtain ⟨rest, hrest, -⟩ := Outcome.bind_eq_ok.mp hok
    refine ih ?_ rest hrest
    apply List.mem_filter.mpr
    refine ⟨(List.mem_insertionSort _).mpr hi, decide_eq_true fun hmem => ?_⟩
    obtain ⟨p, hp, hpi, hgood⟩ := exists_of_mem_skyline hmem
    obtain ⟨j, -, rfl⟩ := List.mem_map.mp hp
    obtain rfl : j = i := (hpoint j).symm.trans hpi
    exact hbad hgood

end Peel

section Select

open ParetoAcquisition

/-- The fronts are taken up to the number wanted. -/
theorem takeFronts_perm {shuffle : List ℕ → List ℕ} (hshuffle : ∀ front, (shuffle front).Perm front)
    {numArms : ℕ} (selected : List ℕ) (fronts : List (List ℕ)) (hle : selected.length ≤ numArms) :
    (takeFronts shuffle numArms selected fronts).length =
        min numArms (selected.length + fronts.flatten.length) ∧
      ∃ rest, (takeFronts shuffle numArms selected fronts ++ rest).Perm
        (selected ++ fronts.flatten) := by
  induction fronts generalizing selected with
  | nil =>
    unfold takeFronts
    exact ⟨by simpa using hle, [], .refl _⟩
  | cons front fronts ih =>
    unfold takeFronts
    rw [List.flatten_cons, List.length_append]
    split
    next hfull =>
      exact ⟨by omega, front ++ fronts.flatten, .refl _⟩
    next hroom =>
      dsimp only
      split
      next hfits =>
        obtain ⟨hlength, rest, hperm⟩ := ih (selected ++ front) (by rw [List.length_append]; omega)
        rw [List.length_append] at hlength
        rw [List.append_assoc] at hperm
        exact ⟨by omega, rest, hperm⟩
      next hover =>
        have htake : ((shuffle front).take (numArms - selected.length)).length =
            numArms - selected.length := by
          rw [List.length_take, (hshuffle front).length_eq]
          omega
        obtain ⟨hlength, rest, hperm⟩ :=
          ih (selected ++ (shuffle front).take (numArms - selected.length))
            (by rw [List.length_append]; omega)
        rw [List.length_append] at hlength
        refine ⟨by omega, rest ++ (shuffle front).drop (numArms - selected.length), ?_⟩
        rw [← List.append_assoc]
        refine (hperm.append_right _).trans ?_
        simp only [List.append_assoc]
        apply List.Perm.append_left
        refine (List.perm_append_comm.append_left _).trans ?_
        rw [← List.append_assoc, List.take_append_drop]
        exact (hshuffle front).append_right _

theorem select_eq_ok [LawfulCompare D] {mu : Array2 D} (hcols : mu.ncols = 2)
    (hpos : 0 < mu.nrows) (hlists : ListsAll mu) : SelectsAll mu := by
  intro shuffle seed se numArms hshuffle hshape hle
  obtain ⟨fuel, fronts, hfronts, hperm⟩ := hlists
  have hlength : fronts.flatten.length = mu.nrows := hperm.length_eq.trans List.length_range
  obtain ⟨htaken, rest, hrest⟩ := takeFronts_perm hshuffle [] fronts (Nat.zero_le numArms)
  have hrest := hrest.trans hperm
  have hnodup := hrest.nodup_iff.mpr List.nodup_range
  refine ⟨fuel, takeFronts shuffle numArms [] fronts, ?_, ?_, ?_, ?_⟩
  · unfold select
    rw [if_neg hpos.ne']
    split
    next hzero =>
      subst hzero
      cases fronts <;> rfl
    next =>
      have hnot : mu.ncols ≠ 1 := by omega
      rw [if_neg (not_not.mpr hshape.symm), if_neg hnot]
      unfold nonDominSort
      rw [if_pos hcols, hfronts]
      rfl
  · rw [htaken, List.length_nil, hlength]
    omega
  · exact (List.nodup_append'.mp hnodup).1
  · intro i hi
    exact List.mem_range.mp (hrest.mem_iff.mp (List.mem_append_left _ hi))

/-- The peeling ends exactly when the second objective of every row is above negative infinity. -/
theorem listsAll_iff [LawfulCompare D] (mu : Array2 D) :
    ListsAll mu ↔ ∀ i < mu.nrows, mu.Peelable i := by
  constructor
  · rintro ⟨fuel, fronts, hfronts, -⟩ i hi
    by_contra hbad
    have hne : mu.nrows ≠ 0 := by omega
    unfold nonDominSort2d at hfronts
    dsimp only at hfronts
    rw [if_neg hne] at hfronts
    exact peelFronts_ne_ok (fun _ => rfl) (List.mem_range.mpr hi) hbad fuel fronts hfronts
  · intro hgood
    have hgood' : ∀ i ∈ List.range mu.nrows, ltB negInfinity (mu.pointAt i).2.2 = true :=
      fun i hi => hgood i (List.mem_range.mp hi)
    obtain ⟨fronts, hfronts, hperm⟩ := peelFronts_eq_ok (fun _ => rfl) List.nodup_range hgood'
      (Nat.lt_succ_self _)
    refine ⟨(List.range mu.nrows).length + 1, ?_⟩
    unfold nonDominSort2d
    dsimp only
    split
    next hempty =>
      rw [hempty]
      exact ⟨[], rfl, .refl _⟩
    next => exact ⟨fronts, hfronts, hperm⟩

/-- Candidates with two objectives are sorted, and selected from, exactly when the second objective
of every candidate is above negative infinity. -/
theorem paretoSelection_iff [LawfulCompare D] (mu : Array2 D) (hcols : mu.ncols = 2) :
    (ListsAll mu ∧ (0 < mu.nrows → SelectsAll mu)) ↔ ∀ i < mu.nrows, mu.Peelable i := by
  rw [← listsAll_iff]
  constructor
  · exact And.left
  · intro hlists
    exact ⟨hlists, fun hpos => select_eq_ok hcols hpos hlists⟩

theorem paretoSelection_three :
    (ListsAll threeCandidates ∧ (0 < threeCandidates.nrows → SelectsAll threeCandidates)) ↔
      ∀ i < threeCandidates.nrows, threeCandidates.Peelable i :=
  paretoSelection_iff threeCandidates rfl

def openCandidate : Array2 ℚ := ⟨2, [[0, negInfinity]], by decide +kernel⟩

theorem not_listsAll : ¬ ListsAll openCandidate := by
  rw [listsAll_iff]
  intro hall
  have hlt : ¬ openCandidate.Peelable 0 := by
    unfold Array2.Peelable
    decide +kernel
  exact hlt (hall 0 (by decide))

end Select

end Ennbo
