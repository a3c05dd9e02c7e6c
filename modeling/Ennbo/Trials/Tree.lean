import Ennbo.Trials.Codes
import Ennbo.Trials.Commands
import Mathlib.Data.List.GetD
import Mathlib.Data.List.Induction

/-! # Batches over a tree of centers

A center is the base model perturbed along a chain of seeds. A batch over a tree
of centers scores the seeds of each region around the region's own center, so
that it is a batch of asks from the models that the chains lead to.
-/

namespace Ennbo.Trials

variable {F : Type} [TrialFloat F]

/-- The seeds on the way from the root to a center. -/
inductive Chain (centers : List Center) : ℕ → List UInt64 → Prop
  | root {i : ℕ} {seed : UInt64} : centers[i]? = some ⟨none, seed⟩ → Chain centers i [seed]
  | child {i p : ℕ} {seed : UInt64} {seeds : List UInt64} : centers[i]? = some ⟨some p, seed⟩ →
      Chain centers p seeds → Chain centers i (seeds ++ [seed])

/-- A row perturbed by one seed after the other. -/
def perturbed (root : Row) (leaves : List (Leaf F)) (steps : List Step) (seeds : List UInt64) :
    Row :=
  seeds.foldl (fun row seed => materialize row leaves steps seed) root

/-- The rounds of an ask with the draws given. -/
def askDrawn (draws : List F) (base : Row) (observations : List (Row × F)) (seeds : List UInt64)
    (leaves : List (Leaf F)) (config : Ask F) : ℕ × F :=
  seeds.zipIdx.foldl
    (keepBest fun index => scoreSeed base observations leaves (makeSteps leaves config.length)
      config (draws.getD index 0))
    (0, -infinity)

def Topological (centers : List Center) : Prop :=
  ∀ (i : ℕ) (c : Center) (p : ℕ), centers[i]? = some c → c.parent = some p → p < i

section Centers

variable {centers : List Center} {root : Row} {leaves : List (Leaf F)} {steps : List Step}

omit [TrialFloat F] in
theorem centerRows_append_singleton (center : Center) :
    centerRows root (centers ++ [center]) leaves steps =
      centerRows root centers leaves steps ++
        [materialize (center.parent.elim root fun p => (centerRows root centers leaves steps).getD p [])
          leaves steps center.seed] := by
  rw [centerRows, List.foldl_append]
  rfl

omit [TrialFloat F] in
theorem length_centerRows : (centerRows root centers leaves steps).length = centers.length := by
  induction centers using List.reverseRecOn with
  | nil => rfl
  | append_singleton centers center ih =>
    rw [centerRows_append_singleton, List.length_append, List.length_append, ih]
    rfl

omit [TrialFloat F] in
/-- The row of a center is its parent's, perturbed. -/
theorem getD_centerRows (h : Topological centers) {i : ℕ} {center : Center}
    (hi : centers[i]? = some center) :
    (centerRows root centers leaves steps).getD i [] =
      materialize (center.parent.elim root
        fun p => (centerRows root centers leaves steps).getD p []) leaves steps center.seed := by
  induction centers using List.reverseRecOn with
  | nil => cases hi
  | append_singleton centers last ih =>
    have hbefore : ∀ p < centers.length,
        (centerRows root (centers ++ [last]) leaves steps).getD p [] =
          (centerRows root centers leaves steps).getD p [] := by
      intro p hp
      rw [centerRows_append_singleton, List.getD_append _ _ _ _ (by rwa [length_centerRows])]
    have hparent : ∀ p, center.parent = some p → p < i := fun p => h i center p hi
    obtain ⟨hlt, -⟩ := List.getElem?_eq_some_iff.mp hi
    have hrows : (center.parent.elim root
        fun p => (centerRows root (centers ++ [last]) leaves steps).getD p []) =
          center.parent.elim root fun p => (centerRows root centers leaves steps).getD p [] := by
      cases hp : center.parent with
      | none => rfl
      | some p =>
        have hpi := hparent p hp
        rw [List.length_append, List.length_singleton] at hlt
        exact hbefore p (by omega)
    rw [hrows]
    rcases Nat.lt_or_ge i centers.length with hilt | hige
    · rw [List.getElem?_append_left hilt] at hi
      have htop : Topological centers := by
        intro j c p hj
        obtain ⟨hjlt, -⟩ := List.getElem?_eq_some_iff.mp hj
        exact h j c p ((List.getElem?_append_left hjlt).trans hj)
      rw [hbefore i hilt, ih htop hi]
    · rw [List.length_append, List.length_singleton] at hlt
      obtain rfl : i = centers.length := by omega
      rw [List.getElem?_concat_length] at hi
      cases hi
      rw [centerRows_append_singleton, List.getD_append_right _ _ _ _ length_centerRows.le,
        length_centerRows, Nat.sub_self]
      rfl

omit [TrialFloat F] in
theorem Chain.getD_centerRows (h : Topological centers) {i : ℕ} {seeds : List UInt64}
    (hchain : Chain centers i seeds) :
    (centerRows root centers leaves steps).getD i [] = perturbed root leaves steps seeds := by
  induction hchain with
  | root hi =>
    rw [Trials.getD_centerRows h hi, Option.elim_none, perturbed, List.foldl_cons, List.foldl_nil]
  | child hi _ ih =>
    rw [Trials.getD_centerRows h hi, Option.elim_some, ih, perturbed, perturbed,
      List.foldl_append, List.foldl_cons, List.foldl_nil]

end Centers

section Checks

variable {centers : List Center}

theorem forM_eq_ok {α : Type} {f : α → Except String Unit} {l : List α} :
    l.forM f = .ok () ↔ ∀ a ∈ l, f a = .ok () := by
  induction l with
  | nil => exact iff_of_true rfl nofun
  | cons a l ih =>
    have hcons : (a :: l).forM f = (f a >>= fun _ => l.forM f) := rfl
    rw [hcons, List.forall_mem_cons, ← ih]
    cases f a with
    | error e => simp [bind, Except.bind]
    | ok u => exact ⟨fun h => ⟨rfl, h⟩, And.right⟩

theorem checkCenter_eq_ok {center : Center} {i : ℕ}
    (h : checkCenter centers (center, i) = .ok ()) :
    (∀ p, center.parent = some p → p < i) ∧
      exceedsDepth centers (maxDepth - 1) center.parent = false := by
  unfold checkCenter at h
  split at h
  next => cases h
  next hearlier =>
    split at h
    next => cases h
    next hdepth =>
      refine ⟨?_, by simpa using hdepth⟩
      rintro p hp
      simpa [hp] using hearlier

theorem checkCenters_eq_ok {regionCenters : List ℕ} {numRegions : ℕ}
    (h : checkCenters centers regionCenters numRegions = .ok ()) :
    regionCenters.length = numRegions ∧ (∀ c ∈ regionCenters, c < centers.length) ∧
      ∀ i center, centers[i]? = some center → checkCenter centers (center, i) = .ok () := by
  unfold checkCenters at h
  split at h
  next => cases h
  next hregions =>
    split at h
    next => cases h
    next hcenters =>
      split at h
      next => cases h
      next hbounds =>
        refine ⟨by omega, by simpa using hbounds, fun i center hi => ?_⟩
        exact forM_eq_ok.mp hcenters (center, i) (List.mem_zipIdx_iff_getElem?.mpr hi)

/-- A chain of parents that does not exceed a depth leads back to the root. -/
theorem exists_chain (hcenters : ∀ i center, centers[i]? = some center →
      checkCenter centers (center, i) = .ok ()) {fuel i : ℕ} (hi : i < centers.length)
    (h : exceedsDepth centers fuel (some i) = false) :
    ∃ path, Chain centers i path ∧ path.length ≤ fuel := by
  induction fuel generalizing i with
  | zero => cases h
  | succ fuel ih =>
    have hget : centers[i]? = some centers[i] := List.getElem?_eq_getElem hi
    rw [exceedsDepth, hget, Option.bind_some] at h
    cases hparent : centers[i].parent with
    | none =>
      refine ⟨[centers[i].seed], .root (hget.trans ?_), Nat.le_add_left 1 fuel⟩
      rw [← hparent]
    | some p =>
      have hp := (checkCenter_eq_ok (hcenters i _ hget)).1 p hparent
      rw [hparent] at h
      obtain ⟨path, hchain, hlen⟩ := ih (hp.trans hi) h
      refine ⟨path ++ [centers[i].seed], .child (hget.trans ?_) hchain, ?_⟩
      · rw [← hparent]
      · rw [List.length_append, List.length_singleton]
        exact Nat.succ_le_succ hlen

end Checks

section Regions

variable {observations : List (Row × F)} {leaves : List (Leaf F)} {config : Ask F}
  {seeds : List UInt64} {draws : List F}

def keepGreater (value : ℕ → F) (best : ℕ × F) (i : ℕ) : ℕ × F :=
  if fgt (value i) best.2 then (i, value i) else best

theorem foldl_keepGreater_congr {value value' : ℕ → F} {n : ℕ} (best : ℕ × F)
    (h : ∀ i < n, value i = value' i) :
    (List.range n).foldl (keepGreater value) best =
      (List.range n).foldl (keepGreater value') best := by
  apply foldl_congr_mem
  intro i hi best
  rw [keepGreater, keepGreater, h i (List.mem_range.mp hi)]

/-- An earlier place never wins a tie, since the places come in order. -/
theorem foldl_keepBest (scoreAt : ℕ → UInt64 → F) (low : F) (seeds : List UInt64) :
    (seeds.zipIdx.foldl (keepBest scoreAt) (0, low)).1 ≤ seeds.length ∧
      seeds.zipIdx.foldl (keepBest scoreAt) (0, low) =
        (List.range seeds.length).foldl (keepGreater fun i => scoreAt i (seeds.getD i 0))
          (0, low) := by
  induction seeds using List.reverseRecOn with
  | nil => exact ⟨le_rfl, rfl⟩
  | append_singleton seeds seed ih =>
    obtain ⟨hle, heq⟩ := ih
    have hsame : ∀ i < seeds.length, scoreAt i ((seeds ++ [seed]).getD i 0) =
        scoreAt i (seeds.getD i 0) := by
      intro i hi
      rw [List.getD_append _ _ _ _ hi]
    have hlast : (seeds ++ [seed]).getD seeds.length 0 = seed := by simp
    rw [List.zipIdx_append, List.foldl_append, List.length_append, Nat.zero_add,
      List.zipIdx_singleton, List.foldl_cons, List.foldl_nil, List.length_singleton,
      List.range_succ, List.foldl_append, foldl_keepGreater_congr _ hsame, ← heq, List.foldl_cons,
      List.foldl_nil]
    generalize seeds.zipIdx.foldl (keepBest scoreAt) (0, low) = best at hle
    unfold keepBest keepGreater
    simp only [hle.not_gt, decide_false, Bool.and_false, Bool.or_false, hlast]
    split
    · exact ⟨Nat.le_succ _, trivial⟩
    · exact ⟨hle.trans (Nat.le_succ _), trivial⟩

theorem bestOfRegion_eq (center : Row) (start : ℕ) {count : ℕ}
    (hlen : start + count ≤ seeds.length) :
    bestOfRegion center observations start count seeds draws leaves
        (makeSteps leaves config.length) config =
      (start + (askDrawn (draws.drop start) center observations
          ((seeds.drop start).take count) leaves config).1,
        (askDrawn (draws.drop start) center observations ((seeds.drop start).take count) leaves
          config).2) := by
  have hcount : ((seeds.drop start).take count).length = count := by
    rw [List.length_take, List.length_drop]
    omega
  have hshift : ∀ (value value' : ℕ → F), (∀ i < count, value (start + i) = value' i) →
      (List.range' start count).foldl (keepGreater value) (start, -infinity) =
        (start + ((List.range count).foldl (keepGreater value') (0, -infinity)).1,
          ((List.range count).foldl (keepGreater value') (0, -infinity)).2) := by
    intro value value' hvalue
    rw [List.range'_eq_map_range, List.foldl_map, ← foldl_keepGreater_congr _ hvalue]
    have hstep : ∀ (best : ℕ × F) (i : ℕ),
        keepGreater value (start + best.1, best.2) (start + i) =
          (start + (keepGreater (fun i => value (start + i)) best i).1,
            (keepGreater (fun i => value (start + i)) best i).2) := by
      intro best i
      unfold keepGreater
      split
      · rfl
      · rfl
    have hfold : ∀ (l : List ℕ) (best : ℕ × F),
        l.foldl (fun best i => keepGreater value best (start + i)) (start + best.1, best.2) =
          (start + (l.foldl (keepGreater fun i => value (start + i)) best).1,
            (l.foldl (keepGreater fun i => value (start + i)) best).2) := by
      intro l
      induction l with
      | nil => exact fun _ => rfl
      | cons i l ih =>
        intro best
        rw [List.foldl_cons, List.foldl_cons, hstep, ih]
    exact hfold _ (0, -infinity)
  rw [askDrawn, (foldl_keepBest _ _ _).2, hcount]
  apply hshift
  intro i hi
  have hseed : ((seeds.drop start).take count).getD i 0 = seeds.getD (start + i) 0 := by
    simp only [List.getD_eq_getElem?_getD, List.getElem?_take_of_lt hi, List.getElem?_drop]
  have hdraw : (draws.drop start).getD i 0 = draws.getD (start + i) 0 := by
    simp only [List.getD_eq_getElem?_getD, List.getElem?_drop]
  rw [hseed, hdraw]

theorem askDrawn_eq_askRows (h : config.acquisition ≠ .thompson) (base : Row) :
    askDrawn draws base observations seeds leaves config =
      askRows base observations seeds leaves config := by
  have hscore : ∀ draw draw' nearest values,
      score nearest values draw config = score nearest values draw' config := by
    intro draw draw' nearest values
    unfold score
    cases hacq : config.acquisition with
    | ucb => rfl
    | pareto => rfl
    | thompson => exact absurd hacq h
  have hsame : (fun index => scoreSeed base observations leaves (makeSteps leaves config.length)
      config (draws.getD index 0)) = fun index => scoreSeed base observations leaves
        (makeSteps leaves config.length) config
        ((thompsonDraws seeds.length config.seed).getD index 0) := by
    ext index seed
    exact hscore _ _ _ _
  rw [askDrawn, hsame]
  rfl

end Regions

namespace Search

variable {s : Search F Cpu} {numRegions seedsPerRegion : ℕ} {centers : List Center}
  {regionCenters : List ℕ} {seeds : List UInt64} {config : Ask F}

def chainRow (s : Search F Cpu) (config : Ask F) (path : List UInt64) : Row :=
  perturbed (s.engine.read s.base) s.leaves (makeSteps s.leaves config.length) path

theorem askMultiTrTree_eq_ok {results : List (ℕ × F)}
    (h : (s.askMultiTrTree numRegions seedsPerRegion centers regionCenters seeds config).1 =
      .ok results) :
    checkCenters centers regionCenters numRegions = .ok () ∧
      seeds.length = numRegions * seedsPerRegion ∧
      results = askTreeRows (s.engine.read s.base) s.observations seedsPerRegion centers
        regionCenters seeds s.leaves config := by
  unfold askMultiTrTree at h
  split at h
  next => cases h
  next hcenters =>
    split at h
    next => cases h
    split at h
    next => cases h
    split at h
    next => cases h
    next hseeds =>
      split at h
      next => cases h
      next =>
        have hresults := Except.ok.inj h
        exact ⟨hcenters, by omega, hresults.symm.trans (congrArg (askTreeRows _ · _ _ _ _ _ _)
          s.observations_eq)⟩

/-- What is best for a region: the answer of an ask from the model that its chain leads to. -/
structure AsksChain (s : Search F Cpu) (seedsPerRegion : ℕ) (seeds : List UInt64) (config : Ask F)
    (region : ℕ) (path : List UInt64) (best : ℕ × F) : Prop where
  drawn : best = askDrawn
    ((thompsonDraws seeds.length config.seed).drop (region * seedsPerRegion)) (s.chainRow config path)
    s.observations (regionSeeds seedsPerRegion seeds region) s.leaves config
  asked : config.acquisition ≠ .thompson → best = askRows (s.chainRow config path) s.observations
    (regionSeeds seedsPerRegion seeds region) s.leaves config

/-- A batch over a tree of centers is a batch of asks from the models of its regions. -/
theorem asksChain_of_tree {results : List (ℕ × F)}
    (h : (s.askMultiTrTree numRegions seedsPerRegion centers regionCenters seeds config).1 =
      .ok results) :
    results.length = numRegions ∧ ∀ r < numRegions, ∃ path best,
      Chain centers (regionCenters.getD r 0) path ∧ path.length ≤ maxDepth ∧
        results[r]? = some (r * seedsPerRegion + best.1, best.2) ∧
        s.AsksChain seedsPerRegion seeds config r path best := by
  obtain ⟨hcheck, hseeds, rfl⟩ := askMultiTrTree_eq_ok h
  obtain ⟨hlen, hbound, hcenters⟩ := checkCenters_eq_ok hcheck
  have htop : Topological centers := fun i c p hi hp => (checkCenter_eq_ok (hcenters i c hi)).1 p hp
  refine ⟨by simp [askTreeRows, hlen], fun r hr => ?_⟩
  have hr' : r < regionCenters.length := hlen ▸ hr
  have hcenter : regionCenters[r] < centers.length := hbound _ (List.getElem_mem hr')
  have hdepth : exceedsDepth centers maxDepth (some regionCenters[r]) = false := by
    have hget := List.getElem?_eq_getElem hcenter
    have hcheck := (checkCenter_eq_ok (hcenters _ _ hget)).2
    rwa [maxDepth, exceedsDepth, hget, Option.bind_some]
  obtain ⟨path, hchain, hpath⟩ := exists_chain hcenters hcenter hdepth
  have hend : r * seedsPerRegion + seedsPerRegion ≤ seeds.length := by
    rw [hseeds, ← Nat.succ_mul]
    exact Nat.mul_le_mul_right _ hr
  have hregion : (askTreeRows (s.engine.read s.base) s.observations seedsPerRegion centers
      regionCenters seeds s.leaves config)[r]? = some (bestOfRegion (s.chainRow config path)
        s.observations (r * seedsPerRegion) seedsPerRegion seeds
        (thompsonDraws seeds.length config.seed) s.leaves (makeSteps s.leaves config.length)
        config) := by
    unfold askTreeRows
    simp only [List.getElem?_map, List.getElem?_zipIdx, List.getElem?_eq_getElem hr',
      Option.map_some, Nat.zero_add, hchain.getD_centerRows htop, chainRow]
  refine ⟨path, _, ?_, hpath, hregion.trans (congrArg some (bestOfRegion_eq _ _ hend)), rfl, ?_⟩
  · rwa [List.getD_eq_getElem _ _ hr']
  · intro hacq
    exact askDrawn_eq_askRows hacq _

def nestedCenters : List Center := [⟨none, 1⟩, ⟨some 0, 2⟩]

theorem asksChain_of_tree_oneByte :
    ∃ results, (oneByteSearch.askMultiTrTree 2 2 nestedCenters [1, 0] [3, 5, 7, 9]
        oneByteAsk).1 = .ok results ∧ results.length = 2 ∧ ∀ r < 2, ∃ path best,
      Chain nestedCenters ([1, 0].getD r 0) path ∧ path.length ≤ maxDepth ∧
        results[r]? = some (r * 2 + best.1, best.2) ∧
        oneByteSearch.AsksChain 2 [3, 5, 7, 9] oneByteAsk r path best := by
  have hok : ((oneByteSearch.askMultiTrTree 2 2 nestedCenters [1, 0] [3, 5, 7, 9]
      oneByteAsk).1.toOption).isSome = true := by decide +kernel
  cases hresults : (oneByteSearch.askMultiTrTree 2 2 nestedCenters [1, 0] [3, 5, 7, 9]
      oneByteAsk).1 with
  | error e =>
    rw [hresults] at hok
    cases hok
  | ok results => exact ⟨results, rfl, asksChain_of_tree hresults⟩

end Search

end Ennbo.Trials
