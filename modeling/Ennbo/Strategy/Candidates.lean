import Ennbo.Distance
import Ennbo.Index.Splitting
import Ennbo.Strategy.Random
import Mathlib.Data.Finset.Card
import Mathlib.Data.Finset.Range
import Mathlib.Data.List.GetD
import Mathlib.Data.Rat.Floor

/-! # Candidates

Candidates are drawn from a box around a centre: points of a Sobol sequence that
are stretched to the box, uniform draws, or the centre with a few coordinates
drawn anew. Which coordinates are drawn anew is decided by the lengthscales.
-/

namespace Ennbo

open RandomGenerator

inductive CandidateRV where
  | sobol
  | uniform
  | raasp
  deriving DecidableEq

/-- `a % b` on floats. -/
class FloatRem (D : Type) where
  rem : D → D → D

/-- The remainder has the sign of the dividend. -/
instance : FloatRem ℚ where
  rem a b := a - b * (if 0 ≤ a / b then (a / b).floor else (a / b).ceil : ℤ)

structure SobolEngine (D : Type) where
  dimension : ℕ
  /-- The points of the sequence, which ends at the first one that is missing. -/
  sequence : ℕ → Option (List D)
  position : ℕ
  shift : Option (List D)

/-- What candidates are drawn from. -/
structure Source (D ρ : Type) where
  rng : ρ
  sobol : Option (SobolEngine D)

section Definitions

variable {D ρ σ α : Type}

/-- `xs[i]` -/
def entry (xs : List D) (i : ℕ) : Call σ D := .ofOutcome (.ofOption .panic xs[i]?)

variable [Floating D]

namespace SobolEngine

/-- The sum of a coordinate and its shift, modulo one. -/
def wrap [FloatRem D] (a : D) : D :=
  let r := FloatRem.rem a 1
  if ltB r 0 then r + 1 else r

def shifted [FloatRem D] (shift point : List D) : List D :=
  List.zipWith (fun s sh => wrap (s + sh)) point shift ++ point.drop shift.length

def sample [FloatRem D] : Call (SobolEngine D) (List D) := do
  let e ← Call.get
  match e.sequence e.position with
  | none => .ofOutcome (throw (.error (.invalidParameter "Sobol sequence exhausted")))
  | some point =>
    Call.modify fun e => { e with position := e.position + 1 }
    if point.length ≠ e.dimension then
      .ofOutcome (throw (.error (.invalidParameter
        s!"Sobol sample dimension mismatch: expected {e.dimension}, got {point.length}")))
    else return (e.shift.elim point fun shift => shifted shift point)

def fraction (u : UInt64) : D := ((u >>> 11).toNat : D) / ((2 ^ 53 : ℕ) : D)

/-- Draw a shift for each dimension. -/
def scramble [RandomGenerator D ρ] (e : SobolEngine D) : Call ρ (SobolEngine D) := do
  let words ← (List.range e.dimension).mapM fun _ => genWord
  return { e with shift := some (words.map fraction) }

end SobolEngine

def onRng (c : Call ρ α) : Call (Source D ρ) α := c.on Source.rng fun s rng => { s with rng := rng }

section Uniform

variable [RandomGenerator D ρ]

/-- A draw from the range of one coordinate. -/
def drawBetween (lower upper : List D) (j : ℕ) : Call ρ D := do
  let a ← entry lower j
  let b ← entry upper j
  sampleUniform a b

def generateUniform (lower upper : List D) (numCandidates : ℕ) : Call ρ (List (List D)) :=
  (List.range numCandidates).mapM fun _ =>
    (List.range lower.length).mapM (drawBetween lower upper)

end Uniform

section Raasp

/-- Bisect for the first entry that is not below `r`. -/
def searchCdf (cdf : List D) (r : D) : ℕ → ℕ → ℕ → ℕ
  | 0, lo, _ => lo
  | fuel + 1, lo, hi =>
    if lo < hi then
      let mid := lo + (hi - lo) / 2
      if leB r (cdf.getD mid 0) then searchCdf cdf r fuel lo mid
      else searchCdf cdf r fuel (mid + 1) hi
    else lo

def raaspDimFromCdf (cdf : List D) (r : D) (numDim : ℕ) : ℕ :=
  searchCdf cdf r numDim 0 (numDim - 1)

/-- How often a coordinate is drawn anew, by its lengthscale. -/
def raaspProbs (lengthscales : Option (List D)) (numDim : ℕ) : List D :=
  let even := List.replicate numDim (1 / (numDim : D))
  match lengthscales with
  | some ls =>
    let lsSum := ls.foldl (· + ·) 0
    if ltB 0 lsSum then ls.map fun v => v / lsSum else even
  | none => even

def raaspCdf (probs : List D) (numDim : ℕ) : List D :=
  (List.range numDim).map fun j => (probs.take (j + 1)).foldl (· + ·) 0

variable [RandomGenerator D ρ]

/-- Draw one coordinate of a row anew. -/
def perturbOnce (cdf lower upper : List D) (numDim : ℕ) (row : List D) : Call ρ (List D) := do
  let r ← gen
  let dimToPerturb := raaspDimFromCdf cdf r numDim
  let value ← drawBetween lower upper dimToPerturb
  return row.set dimToPerturb value

def generateRaasp (xCenter : List D) (lengthscales : Option (List D)) (lower upper : List D)
    (numCandidates numPert : ℕ) : Call ρ (List (List D)) :=
  let numDim := xCenter.length
  let probs := raaspProbs lengthscales numDim
  if probs.length < numDim then .ofOutcome (throw .panic)
  else
    let cdf := raaspCdf probs numDim
    (List.range numCandidates).mapM fun _ =>
      (List.range (max numPert 1)).foldlM
        (fun row _ => perturbOnce cdf lower upper numDim row) xCenter

end Raasp

section Sobol

variable [FloatRem D]

/-- A point of the sequence, stretched to the box. -/
def stretch (lower upper sample : List D) (j : ℕ) : Call σ D := do
  let unit ← entry sample j
  let a ← entry lower j
  let b ← entry upper j
  return a + unit * (b - a)

def generateSobol (lower upper : List D) (numDim numCandidates : ℕ) :
    Call (SobolEngine D) (List (List D)) :=
  (List.range numCandidates).mapM fun _ => do
    let sample ← SobolEngine.sample
    (List.range numDim).mapM (stretch lower upper sample)

/-- Without an engine the points of a Sobol sequence are drawn uniformly instead. -/
def generateCandidates [RandomGenerator D ρ] (bounds : List D × List D) (xCenter : List D)
    (lengthscales : Option (List D)) (numCandidates : ℕ) (candidateRv : CandidateRV)
    (numPert : ℕ) : Call (Source D ρ) (List (List D)) := do
  let (lower, upper) := bounds
  let s ← Call.get
  match candidateRv, s.sobol with
  | .sobol, some engine =>
    (generateSobol lower upper xCenter.length numCandidates).on
      (fun s => s.sobol.getD engine) fun s engine => { s with sobol := some engine }
  | .sobol, none => onRng (generateUniform lower upper numCandidates)
  | .uniform, _ => onRng (generateUniform lower upper numCandidates)
  | .raasp, _ => onRng (generateRaasp xCenter lengthscales lower upper numCandidates numPert)

end Sobol

end Definitions

section Exact

variable {K ρ σ α : Type} [ExactArith K] {S : σ → Prop} {E : Failure → Prop}

theorem ends_entry {xs : List K} {i : ℕ} (h : i < xs.length) :
    Call.Ends S E (entry xs i) fun a => a = xs.getD i 0 := by
  apply Call.ends_ofOutcome
  · intro a ha
    rw [Outcome.ofOption_eq_ok] at ha
    rw [List.getD_eq_getElem?_getD, ha, Option.getD_some]
  · intro e he
    rw [List.getElem?_eq_getElem h] at he
    cases he

theorem forall₂_range {R : ℕ → K → Prop} {n : ℕ} {row : List K} :
    List.Forall₂ R (List.range n) row ↔ row.length = n ∧ ∀ j < n, R j (row.getD j 0) := by
  rw [List.forall₂_iff_get]
  constructor
  · rintro ⟨hlen, hR⟩
    rw [List.length_range] at hlen
    refine ⟨hlen.symm, fun j hj => ?_⟩
    have h := hR j (by simpa using hj) (hlen ▸ hj)
    rw [List.getD_eq_getElem _ _ (hlen ▸ hj)]
    simpa using h
  · rintro ⟨hlen, hR⟩
    refine ⟨by simp [hlen], fun j hj hj' => ?_⟩
    have h := hR j (hlen ▸ hj')
    rw [List.getD_eq_getElem _ _ hj'] at h
    simpa using h

/-- A box around a centre, whose ranges are not empty. -/
structure Box (center lower upper : List K) : Prop where
  length_lower : lower.length = center.length
  length_upper : upper.length = center.length
  lt : ∀ j < center.length, lower.getD j 0 < upper.getD j 0
  mem : ∀ j < center.length, lower.getD j 0 ≤ center.getD j 0 ∧ center.getD j 0 ≤ upper.getD j 0

/-- A row of the box. -/
structure InBox (lower upper row : List K) : Prop where
  length_eq : row.length = lower.length
  mem : ∀ j < lower.length, lower.getD j 0 ≤ row.getD j 0 ∧ row.getD j 0 ≤ upper.getD j 0

variable {center lower upper : List K}

theorem Box.inBox (h : Box center lower upper) : InBox lower upper center where
  length_eq := h.length_lower.symm
  mem j hj := h.mem j (h.length_lower ▸ hj)

section Draws

variable [RandomGenerator K ρ] [LawfulGenerator K ρ]

theorem ends_drawBetween (h : Box center lower upper) {j : ℕ} (hj : j < center.length) :
    Call.Ends (fun _ => True) E (drawBetween lower upper j : Call ρ K) fun x =>
      lower.getD j 0 ≤ x ∧ x < upper.getD j 0 := by
  unfold drawBetween
  apply (ends_entry (h.length_lower.symm ▸ hj)).bind
  rintro a rfl
  apply (ends_entry (h.length_upper.symm ▸ hj)).bind
  rintro b rfl
  exact ends_sampleUniform (h.lt j hj)

/-- Uniform candidates are in the box, and below its upper end. -/
theorem ends_generateUniform (h : Box center lower upper) (numCandidates : ℕ) :
    Call.Ends (fun _ => True) E
      (generateUniform lower upper numCandidates : Call ρ (List (List K))) fun rows =>
        rows.length = numCandidates ∧ ∀ row ∈ rows, InBox lower upper row := by
  unfold generateUniform
  have hrow : ∀ i ∈ List.range numCandidates, Call.Ends (fun _ => True) E
      ((List.range lower.length).mapM (drawBetween lower upper) : Call ρ (List K))
      (InBox lower upper) := by
    intro _ _
    have hdraw : ∀ j ∈ List.range lower.length, Call.Ends (fun _ => True) E
        (drawBetween lower upper j : Call ρ K) fun x =>
          lower.getD j 0 ≤ x ∧ x < upper.getD j 0 :=
      fun j hj => ends_drawBetween h (h.length_lower ▸ List.mem_range.mp hj)
    apply (Call.ends_mapM hdraw).mono
    intro row hrow
    obtain ⟨hlen, hmem⟩ := forall₂_range.mp hrow
    exact ⟨hlen, fun j hj => ⟨(hmem j hj).1, (hmem j hj).2.le⟩⟩
  apply (Call.ends_mapM hrow).mono
  intro rows hrows
  refine ⟨by simpa using hrows.length_eq.symm, fun row hmem => ?_⟩
  obtain ⟨_, -, hin⟩ := exists_mem_left hrows hmem
  exact hin

end Draws

section Bisection

variable {cdf : List K} {r : K} {n : ℕ}

/-- The bisection keeps the entries before `lo` below `r`, and the one at `hi` not below it unless
it is the last one. -/
theorem searchCdf_spec (hmono : ∀ i j, i ≤ j → j < n → cdf.getD i 0 ≤ cdf.getD j 0)
    {fuel lo hi : ℕ} (hfuel : hi - lo ≤ fuel) (hle : lo ≤ hi) (hhi : hi < n)
    (hlow : ∀ i < lo, cdf.getD i 0 < r) (hhigh : hi + 1 = n ∨ r ≤ cdf.getD hi 0) :
    searchCdf cdf r fuel lo hi < n ∧ (∀ i < searchCdf cdf r fuel lo hi, cdf.getD i 0 < r) ∧
      (searchCdf cdf r fuel lo hi + 1 = n ∨ r ≤ cdf.getD (searchCdf cdf r fuel lo hi) 0) := by
  induction fuel generalizing lo hi with
  | zero =>
    obtain rfl : lo = hi := by omega
    exact ⟨hhi, hlow, hhigh⟩
  | succ fuel ih =>
    unfold searchCdf
    by_cases hlt : lo < hi
    · rw [if_pos hlt]
      dsimp only
      by_cases hmid : r ≤ cdf.getD (lo + (hi - lo) / 2) 0
      · rw [if_pos (by simpa [leB_exact] using hmid)]
        exact ih (by omega) (by omega) (by omega) hlow (.inr hmid)
      · rw [if_neg (by simpa [leB_exact] using hmid)]
        apply ih (by omega) (by omega) hhi _ hhigh
        intro i hi'
        exact (hmono i _ (by omega) (by omega)).trans_lt (not_le.mp hmid)
    · rw [if_neg hlt]
      obtain rfl : lo = hi := by omega
      exact ⟨hhi, hlow, hhigh⟩

theorem raaspDimFromCdf_spec (r : K) (hmono : ∀ i j, i ≤ j → j < n → cdf.getD i 0 ≤ cdf.getD j 0)
    (hn : 0 < n) :
    raaspDimFromCdf cdf r n < n ∧ (∀ i < raaspDimFromCdf cdf r n, cdf.getD i 0 < r) ∧
      (raaspDimFromCdf cdf r n + 1 = n ∨ r ≤ cdf.getD (raaspDimFromCdf cdf r n) 0) :=
  searchCdf_spec hmono (by omega) (by omega) (by omega) (by simp) (.inl (by omega))

theorem searchCdf_mem (cdf : List K) (r : K) (fuel : ℕ) {lo hi : ℕ} (hle : lo ≤ hi) :
    lo ≤ searchCdf cdf r fuel lo hi ∧ searchCdf cdf r fuel lo hi ≤ hi := by
  induction fuel generalizing lo hi with
  | zero => exact ⟨le_rfl, hle⟩
  | succ fuel ih =>
    unfold searchCdf
    split
    next hlt =>
      have hleft : lo ≤ lo + (hi - lo) / 2 := by omega
      have hright : lo + (hi - lo) / 2 + 1 ≤ hi := by omega
      dsimp only
      split
      · exact ⟨(ih hleft).1, (ih hleft).2.trans (by omega)⟩
      · exact ⟨hleft.trans ((Nat.le_succ _).trans (ih hright).1), (ih hright).2⟩
    next => exact ⟨le_rfl, hle⟩

theorem raaspDimFromCdf_lt (cdf : List K) (r : K) (hn : 0 < n) :
    raaspDimFromCdf cdf r n < n := by
  have h := (searchCdf_mem cdf r n (Nat.zero_le (n - 1))).2
  unfold raaspDimFromCdf
  omega

end Bisection

section Probabilities

variable {lengthscales : Option (List K)} {n : ℕ}

def Sized (n : ℕ) (lengthscales : Option (List K)) : Prop := ∀ ls ∈ lengthscales, ls.length = n

theorem length_raaspProbs (h : Sized n lengthscales) : (raaspProbs lengthscales n).length = n := by
  unfold raaspProbs
  cases lengthscales with
  | none => simp
  | some ls =>
    have hls : ls.length = n := h ls rfl
    dsimp only
    split <;> simp [hls]

theorem getD_raaspCdf (probs : List K) {j : ℕ} (hj : j < n) :
    (raaspCdf probs n).getD j 0 = (probs.take (j + 1)).sum := by
  unfold raaspCdf
  rw [List.getD_eq_getElem _ _ (by simpa using hj)]
  simp [← List.sum_eq_foldl]

end Probabilities

section Perturbed

variable [RandomGenerator K ρ] [LawfulGenerator K ρ]

def changes (center row : List K) : ℕ :=
  ((Finset.range center.length).filter fun j => row.getD j 0 ≠ center.getD j 0).card

theorem getD_set_of_ne (row : List K) {dim j : ℕ} (x : K) (h : dim ≠ j) :
    (row.set dim x).getD j 0 = row.getD j 0 := by
  simp [List.getD_eq_getElem?_getD, List.getElem?_set_ne h]

theorem changes_set_le (center row : List K) (dim : ℕ) (x : K) :
    changes center (row.set dim x) ≤ changes center row + 1 := by
  have hsub : (Finset.range center.length).filter (fun j =>
      (row.set dim x).getD j 0 ≠ center.getD j 0) ⊆
      insert dim ((Finset.range center.length).filter fun j =>
        row.getD j 0 ≠ center.getD j 0) := by
    intro j hj
    obtain ⟨hlt, hne⟩ := Finset.mem_filter.mp hj
    by_cases heq : dim = j
    · exact heq ▸ Finset.mem_insert_self _ _
    · rw [getD_set_of_ne row x heq] at hne
      exact Finset.mem_insert_of_mem (Finset.mem_filter.mpr ⟨hlt, hne⟩)
  exact (Finset.card_le_card hsub).trans (Finset.card_insert_le _ _)

/-- One more coordinate may be drawn anew. -/
theorem ends_perturbOnce (h : Box center lower upper) (hdim : 0 < center.length) (cdf : List K)
    {row : List K} {k : ℕ} (hrow : InBox lower upper row) (hk : changes center row ≤ k) :
    Call.Ends (fun _ => True) E
      (perturbOnce cdf lower upper center.length row : Call ρ (List K)) fun row' =>
        InBox lower upper row' ∧ changes center row' ≤ k + 1 := by
  unfold perturbOnce
  apply ends_gen.bind
  intro r _
  have hlt := raaspDimFromCdf_lt cdf r hdim
  apply (ends_drawBetween h hlt).bind
  intro x hx
  apply Call.ends_pure
  refine ⟨⟨by simpa using hrow.length_eq, fun j hj => ?_⟩,
    (changes_set_le center row _ x).trans (by omega)⟩
  by_cases heq : raaspDimFromCdf cdf r center.length = j
  · subst heq
    have hself : (row.set (raaspDimFromCdf cdf r center.length) x).getD
        (raaspDimFromCdf cdf r center.length) 0 = x := by
      simp [List.getD_eq_getElem?_getD, List.getElem?_set_self (hrow.length_eq.symm ▸ hj)]
    rw [hself]
    exact ⟨hx.1, hx.2.le⟩
  · rw [getD_set_of_ne row x heq]
    exact hrow.mem j hj

theorem changes_self (center : List K) : changes center center = 0 := by
  simp [changes]

/-- Perturbed candidates are in the box, and few of their coordinates are not the centre's. -/
theorem ends_generateRaasp (h : Box center lower upper) (hdim : 0 < center.length)
    {lengthscales : Option (List K)} (hls : Sized center.length lengthscales)
    (numCandidates numPert : ℕ) :
    Call.Ends (fun _ => True) E
      (generateRaasp center lengthscales lower upper numCandidates numPert : Call ρ (List (List K)))
      fun rows => rows.length = numCandidates ∧
        ∀ row ∈ rows, InBox lower upper row ∧ changes center row ≤ max numPert 1 := by
  unfold generateRaasp
  dsimp only
  rw [if_neg (by rw [length_raaspProbs hls]; exact lt_irrefl _)]
  generalize raaspCdf (raaspProbs lengthscales center.length) center.length = cdf
  have hloop : ∀ n, Call.Ends (fun _ => True) E ((List.range n).foldlM
      (fun row _ => perturbOnce cdf lower upper center.length row) center : Call ρ (List K))
      fun row => InBox lower upper row ∧ changes center row ≤ n := by
    intro n
    induction n with
    | zero => exact Call.ends_pure ⟨h.inBox, (changes_self center).le⟩
    | succ n ih =>
      rw [List.range_succ, List.foldlM_append]
      apply ih.bind
      rintro row ⟨hrow, hk⟩
      rw [List.foldlM_cons]
      apply (ends_perturbOnce h hdim cdf hrow hk).bind
      intro row' hrow'
      exact Call.ends_pure hrow'
  apply (Call.ends_mapM fun _ _ => hloop (max numPert 1)).mono
  intro rows hmem
  refine ⟨by simpa using hmem.length_eq.symm, fun row hrow => ?_⟩
  obtain ⟨_, -, hin⟩ := exists_mem_left hmem hrow
  exact hin

end Perturbed

section Sobol

variable [FloatRem K]

/-- The remainder of a number that is not negative is below the divisor. -/
class ExactRem (K : Type) [ExactArith K] [FloatRem K] : Prop where
  rem_mem : ∀ a b : K, 0 ≤ a → 0 < b → 0 ≤ FloatRem.rem a b ∧ FloatRem.rem a b < b

instance : ExactRem ℚ where
  rem_mem a b ha hb := by
    have hquot : 0 ≤ a / b := div_nonneg ha hb.le
    have hrem : FloatRem.rem a b = a - b * (⌊a / b⌋ : ℤ) := by
      change a - b * (if 0 ≤ a / b then (a / b).floor else (a / b).ceil : ℤ) = _
      rw [if_pos hquot]
      rfl
    have hle := mul_le_mul_of_nonneg_left (Int.floor_le (a / b)) hb.le
    have hlt := mul_lt_mul_of_pos_left (Int.lt_floor_add_one (a / b)) hb
    rw [mul_div_cancel₀ _ hb.ne'] at hle hlt
    rw [hrem]
    constructor <;> linarith

/-- Points of the unit cube, one after the other without an end, and a shift for each dimension. -/
structure SobolEngine.Good (e : SobolEngine K) (n : ℕ) : Prop where
  dimension_eq : e.dimension = n
  sequence : ∀ i, ∃ point, e.sequence i = some point ∧ point.length = n ∧
    ∀ a ∈ point, 0 ≤ a ∧ a < 1
  shift : ∀ shift ∈ e.shift, shift.length = n ∧ ∀ a ∈ shift, 0 ≤ a ∧ a < 1

variable {n : ℕ}

section Points

variable [ExactRem K]

theorem wrap_mem {a : K} (h : 0 ≤ a) : 0 ≤ SobolEngine.wrap a ∧ SobolEngine.wrap a < 1 := by
  obtain ⟨hpos, hlt⟩ := ExactRem.rem_mem a 1 h one_pos
  unfold SobolEngine.wrap
  dsimp only
  rw [if_neg (by simpa using hpos)]
  exact ⟨hpos, hlt⟩

theorem shifted_mem {shift point : List K} (hlen : shift.length = point.length)
    (hshift : ∀ a ∈ shift, 0 ≤ a ∧ a < 1) (hpoint : ∀ a ∈ point, 0 ≤ a ∧ a < 1) :
    (SobolEngine.shifted shift point).length = point.length ∧
      ∀ a ∈ SobolEngine.shifted shift point, 0 ≤ a ∧ a < 1 := by
  unfold SobolEngine.shifted
  rw [hlen, List.drop_length, List.append_nil]
  refine ⟨by simp [hlen], fun a ha => ?_⟩
  obtain ⟨i, hi, rfl⟩ := List.getElem_of_mem ha
  rw [List.getElem_zipWith]
  exact wrap_mem (add_nonneg (hpoint _ (List.getElem_mem _)).1 (hshift _ (List.getElem_mem _)).1)

theorem ends_sample : Call.Ends (fun e : SobolEngine K => e.Good n) E SobolEngine.sample
    fun point => point.length = n ∧ ∀ a ∈ point, 0 ≤ a ∧ a < 1 := by
  unfold SobolEngine.sample
  apply Call.ends_get_bind
  intro e he
  obtain ⟨point, hpoint, hlen, hmem⟩ := he.sequence e.position
  rw [hpoint]
  refine Call.EndsFrom.bind (P := fun _ => True)
    ⟨⟨he.dimension_eq, he.sequence, he.shift⟩, fun _ _ => trivial, nofun⟩ fun _ _ => ?_
  rw [if_neg (by simp [hlen, he.dimension_eq])]
  apply Call.ends_pure
  cases hshift : e.shift with
  | none => exact ⟨hlen, hmem⟩
  | some shift =>
    obtain ⟨hslen, hsmem⟩ := he.shift shift hshift
    obtain ⟨hlen', hmem'⟩ := shifted_mem (hslen.trans hlen.symm) hsmem hmem
    exact ⟨hlen'.trans hlen, hmem'⟩

end Points

omit [FloatRem K] in
/-- A point of the unit cube is stretched into the box. -/
theorem ends_stretch (h : Box center lower upper) {point : List K}
    (hlen : point.length = center.length) (hmem : ∀ a ∈ point, 0 ≤ a ∧ a < 1) {j : ℕ}
    (hj : j < center.length) :
    Call.Ends S E (stretch lower upper point j) fun x =>
      lower.getD j 0 ≤ x ∧ x ≤ upper.getD j 0 := by
  unfold stretch
  apply (ends_entry (hlen.symm ▸ hj)).bind
  rintro unit rfl
  apply (ends_entry (h.length_lower.symm ▸ hj)).bind
  rintro a rfl
  apply (ends_entry (h.length_upper.symm ▸ hj)).bind
  rintro b rfl
  apply Call.ends_pure
  have hunit := hmem (point.getD j 0) (by
    rw [List.getD_eq_getElem _ _ (hlen.symm ▸ hj)]
    exact List.getElem_mem _)
  have hwidth : 0 ≤ upper.getD j 0 - lower.getD j 0 := (sub_pos.mpr (h.lt j hj)).le
  constructor
  · exact le_add_of_nonneg_right (mul_nonneg hunit.1 hwidth)
  · have hle := mul_le_of_le_one_left hwidth hunit.2.le
    linarith

theorem ends_generateSobol [ExactRem K] (h : Box center lower upper) (numCandidates : ℕ) :
    Call.Ends (fun e : SobolEngine K => e.Good center.length) E
      (generateSobol lower upper center.length numCandidates) fun rows =>
        rows.length = numCandidates ∧ ∀ row ∈ rows, InBox lower upper row := by
  unfold generateSobol
  have hrow : ∀ i ∈ List.range numCandidates, Call.Ends
      (fun e : SobolEngine K => e.Good center.length) E
      (do
        let sample ← SobolEngine.sample
        (List.range center.length).mapM (stretch lower upper sample)) (InBox lower upper) := by
    intro _ _
    apply ends_sample.bind
    rintro point ⟨hlen, hmem⟩
    apply (Call.ends_mapM fun j hj => ends_stretch h hlen hmem (List.mem_range.mp hj)).mono
    intro row hrow
    obtain ⟨hrlen, hin⟩ := forall₂_range.mp hrow
    exact ⟨hrlen.trans h.length_lower.symm, fun j hj => hin j (h.length_lower ▸ hj)⟩
  apply (Call.ends_mapM hrow).mono
  intro rows hrows
  refine ⟨by simpa using hrows.length_eq.symm, fun row hmem => ?_⟩
  obtain ⟨_, -, hin⟩ := exists_mem_left hrows hmem
  exact hin

/-- The engine of a source draws points of the unit cube. -/
def Source.Good (n : ℕ) (s : Source K ρ) : Prop := ∀ e ∈ s.sobol, e.Good n

omit [FloatRem K] in
theorem ends_onRng {c : Call ρ α} {P : α → Prop} (h : Call.Ends (fun _ => True) E c P) :
    Call.Ends (Source.Good n) E (onRng c : Call (Source K ρ) α) P :=
  Call.ends_on h (fun _ _ => trivial) fun _ _ hs _ => hs

variable [ExactRem K] [RandomGenerator K ρ] [LawfulGenerator K ρ]

/-- All candidates are drawn, and all are in the box. -/
theorem ends_generateCandidates (h : Box center lower upper) (hdim : 0 < center.length)
    {lengthscales : Option (List K)} (hls : Sized center.length lengthscales)
    (numCandidates : ℕ) (candidateRv : CandidateRV) (numPert : ℕ) :
    Call.Ends (Source.Good center.length) E
      (generateCandidates (lower, upper) center lengthscales numCandidates candidateRv numPert :
        Call (Source K ρ) (List (List K))) fun rows =>
          rows.length = numCandidates ∧ ∀ row ∈ rows, InBox lower upper row := by
  unfold generateCandidates
  apply Call.ends_get_bind
  intro s hs
  have huniform : Call.Ends (Source.Good center.length) E
      (onRng (generateUniform lower upper numCandidates) : Call (Source K ρ) (List (List K)))
      fun rows => rows.length = numCandidates ∧ ∀ row ∈ rows, InBox lower upper row :=
    ends_onRng (ends_generateUniform h numCandidates)
  cases candidateRv with
  | uniform => exact huniform s hs
  | raasp =>
    have hraasp := ends_onRng (n := center.length) (K := K)
      (ends_generateRaasp (ρ := ρ) (E := E) h hdim hls numCandidates numPert)
    exact (hraasp s hs).mono fun rows hrows => ⟨hrows.1, fun row hrow => (hrows.2 row hrow).1⟩
  | sobol =>
    cases hengine : s.sobol with
    | none => exact huniform s hs
    | some engine =>
      have hgood := hs engine hengine
      apply Call.ends_on (S := Source.Good center.length) (ends_generateSobol h numCandidates)
        _ _ s hs
      · intro s' hs'
        cases hs'engine : s'.sobol with
        | none => exact hgood
        | some e => exact hs' e hs'engine
      · rintro s' e - he e' ⟨⟩
        exact he

end Sobol

end Exact

end Ennbo
