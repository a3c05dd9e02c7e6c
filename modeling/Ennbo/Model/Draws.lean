import Mathlib.Data.List.Destutter
import Ennbo.Model.Exact

/-! # Function draws

A function seed stands for one function: its value at a query is the posterior
mean there, with hashed variates of the neighbours under their weights. Draws
are computed for many queries and seeds at once, over the distinct neighbours of
all queries, and by another path when there is one metric.
-/

namespace Ennbo

open Buffer (table getD_table getElem?_flatMap_range)
open YBounds (NormalEntry)
open EpistemicNearestNeighbors (drawScale statAt drawSeed drawSeedM1 uniqueVariates
  uniqueIndexInverse ofFlat)

section Unique

theorem mem_destutter' {a x : ℤ} {l : List ℤ} (h : x ∈ a :: l) :
    x ∈ l.destutter' (· ≠ ·) a := by
  induction l generalizing a with
  | nil => exact h
  | cons b l ih =>
    by_cases hab : a = b
    · rw [List.destutter'_cons_neg _ (not_not.mpr hab)]
      apply ih
      rcases List.mem_cons.mp h with rfl | h
      · exact List.mem_cons_self ..
      · exact hab ▸ h
    · rw [List.destutter'_cons_pos _ hab]
      rcases List.mem_cons.mp h with rfl | h
      · exact List.mem_cons_self ..
      · exact List.mem_cons_of_mem _ (ih h)

theorem mem_destutter {x : ℤ} {l : List ℤ} (h : x ∈ l) : x ∈ l.destutter (· ≠ ·) := by
  cases l with
  | nil => cases h
  | cons a l => exact mem_destutter' h

theorem exists_idxOf? {x : ℤ} {l : List ℤ} (h : x ∈ l) :
    ∃ pos, l.idxOf? x = some pos ∧ l[pos]? = some x := by
  cases hpos : l.idxOf? x with
  | none => exact absurd h (List.idxOf?_eq_none_iff.mp hpos)
  | some pos =>
    obtain ⟨hlt, heq, -⟩ := List.findIdx?_eq_some_iff_getElem.mp hpos
    refine ⟨pos, rfl, ?_⟩
    rw [List.getElem?_eq_getElem hlt, eq_of_beq heq]

theorem uniqueIndexInverse_eq_ok (data : List ℤ) :
    ∃ unique inverse, EpistemicNearestNeighbors.uniqueIndexInverse data = .ok (unique, inverse) ∧
      List.Forall₂ (fun idx pos => unique[pos]? = some idx) data inverse := by
  let unique : List ℤ := (data.insertionSort fun a b => a ≤ b).destutter (· ≠ ·)
  have hfound : ∀ idx ∈ data, ∃ pos, Outcome.ofOption .panic (unique.idxOf? idx) = .ok pos ∧
      unique[pos]? = some idx := by
    intro idx hidx
    have hsorted : idx ∈ data.insertionSort fun a b => a ≤ b := by simpa using hidx
    obtain ⟨pos, hpos, hget⟩ := exists_idxOf? (mem_destutter hsorted)
    exact ⟨pos, Outcome.ofOption_eq_ok.mpr hpos, hget⟩
  obtain ⟨inverse, hinverse, hpos⟩ := Outcome.exists_mapM hfound
  refine ⟨unique, inverse, ?_, hpos⟩
  unfold EpistemicNearestNeighbors.uniqueIndexInverse
  rw [Outcome.bind_eq_ok]
  exact ⟨inverse, hinverse, rfl⟩

end Unique

section Entries

variable {D : Type} [Floating D] [Analysis D]

def variate (seed : ℤ) (i j : ℕ) : D :=
  normalForSeedIndexMetric (UInt64.ofNat (asUsize seed)) (UInt64.ofNat i) j

/-- The draw of one seed at one query and metric, given the ids of the neighbours there. -/
def drawEntry (seed : ℤ) (ids : List ℕ) (j : ℕ) (s : WeightedStats D) : D :=
  if ids = [] then s.normal.mu
  else s.normal.mu + drawScale s * dot s.wNormalized (ids.map fun i => variate seed i j)

def drawRow (seed : ℤ) (ids : List ℕ) (stats : List (WeightedStats D)) : List D :=
  stats.mapIdx (drawEntry seed ids)

/-- Ids and weights of one number of neighbours, entries of one number of metrics. -/
structure DrawInternals.Shaped (internals : DrawInternals D) (numMetrics : ℕ) : Prop where
  ncols_eq : internals.stats.ncols = numMetrics
  length_idx : internals.idx.length = internals.stats.nrows
  width_idx : ∀ row ∈ internals.idx, row.length = internals.nNeighbors
  weights : ∀ row ∈ internals.stats.rows, ∀ s ∈ row, s.wNormalized.length = internals.nNeighbors

theorem normal_ofNat_asUsize (seed : ℤ) (i j : ℕ) :
    (normalForSeedIndexMetric (UInt64.ofNat (asUsize seed)) (UInt64.ofNat (asUsize (i : ℤ))) j : D) =
      variate seed i j := by
  have hi : UInt64.ofNat (asUsize (i : ℤ)) = UInt64.ofNat i := by
    apply UInt64.toNat_inj.mp
    rw [UInt64.toNat_ofNat', UInt64.toNat_ofNat']
    unfold asUsize
    omega
  rw [hi]
  rfl

omit [Analysis D] in
theorem foldl_range_eq_dot {k : ℕ} {ws us : List D} {f : ℕ → D} (hws : ws.length = k)
    (hus : us.length = k) (hf : ∀ ki < k, f ki = ws.getD ki 0 * us.getD ki 0) :
    (List.range k).foldl (fun acc ki => acc + f ki) 0 = dot ws us := by
  have hlist : List.zipWith (· * ·) ws us = (List.range k).map f := by
    apply List.ext_getElem
    · simp [hws, hus]
    · intro ki h₁ h₂
      have hk : ki < k := by simpa using h₂
      simp [hf ki hk, List.getD_eq_getElem?_getD, hws, hus, hk]
  unfold dot
  rw [hlist, List.foldl_map]

section Seed

variable {internals : DrawInternals D} {n k m : ℕ} {seed : ℤ} {unique : List ℤ}
  {inverse : List ℕ}

theorem getD_uniqueVariates {idx : ℤ} {pos j : ℕ} (hpos : unique[pos]? = some idx) (hj : j < m) :
    (uniqueVariates seed unique m : List D).getD (pos * m + j) 0 =
      normalForSeedIndexMetric (UInt64.ofNat (asUsize seed)) (UInt64.ofNat (asUsize idx)) j := by
  unfold uniqueVariates
  rw [List.getD_eq_getElem?_getD,
    Buffer.getElem?_flatMap (fun _ _ => by simp) hj hpos]
  simp [hj]

omit [Floating D] [Analysis D] in
/-- The place of a neighbour of a query among the distinct ids. -/
theorem unique_inverse (h : internals.Shaped m)
    (hinverse : List.Forall₂ (fun idx pos => unique[pos]? = some idx)
      (internals.idx.flatten.map Int.ofNat) inverse) {i ki : ℕ} {ids : List ℕ}
    (hids : internals.idx[i]? = some ids) (hki : ki < internals.nNeighbors) :
    unique[inverse.getD (i * internals.nNeighbors + ki) 0]? = some (ids.getD ki 0 : ℤ) := by
  have hwidth : ids.length = internals.nNeighbors :=
    h.width_idx ids (List.mem_of_getElem? hids)
  have hdata : (internals.idx.flatten.map Int.ofNat)[i * internals.nNeighbors + ki]? =
      some (ids.getD ki 0 : ℤ) := by
    have hflat := Buffer.getElem?_flatMap (g := id) h.width_idx hki hids
    rw [List.flatMap_id] at hflat
    rw [List.getElem?_map, hflat, id, List.getElem?_eq_getElem (by omega),
      List.getD_eq_getElem _ _ (by omega)]
    rfl
  obtain ⟨hlt, hget⟩ := List.getElem?_eq_some_iff.mp hdata
  have hlt' := hinverse.length_eq ▸ hlt
  have hpos := hinverse.get hlt hlt'
  rw [List.get_eq_getElem, List.get_eq_getElem, hget] at hpos
  rw [List.getD_eq_getElem _ _ hlt']
  exact hpos

def drawTable (internals : DrawInternals D) (seed : ℤ) (n m : ℕ) : List D :=
  table n m fun i j => drawEntry seed (internals.idx.getD i []) j (statAt internals i j)

omit [Analysis D] in
theorem statAt_eq (h : internals.Shaped m) {i j : ℕ} (hi : i < internals.stats.nrows) (hj : j < m) :
    ∃ row ∈ internals.stats.rows, internals.stats.rows[i]? = some row ∧
      row[j]? = some (statAt internals i j) := by
  have hrow : internals.stats.rows[i] ∈ internals.stats.rows := List.getElem_mem hi
  have hlen : j < internals.stats.rows[i].length := by
    rw [internals.stats.width _ hrow, h.ncols_eq]
    exact hj
  refine ⟨_, hrow, List.getElem?_eq_getElem hi, ?_⟩
  unfold EpistemicNearestNeighbors.statAt
  rw [List.getD_eq_getElem _ _ hi, List.getD_eq_getElem _ _ hlen, List.getElem?_eq_getElem hlen]

omit [Floating D] [Analysis D] in
theorem ids_eq (h : internals.Shaped m) {i : ℕ} (hi : i < internals.stats.nrows) :
    internals.idx[i]? = some (internals.idx.getD i []) ∧
      (internals.idx.getD i []).length = internals.nNeighbors := by
  have hi' : i < internals.idx.length := h.length_idx ▸ hi
  rw [List.getD_eq_getElem _ _ hi']
  exact ⟨List.getElem?_eq_getElem hi', h.width_idx _ (List.getElem_mem hi')⟩

/-- The weighted sum of looked up variates is the one of the draw. -/
theorem weightedSum_eq (h : internals.Shaped m) (hk : 0 < internals.nNeighbors)
    (hinverse : List.Forall₂ (fun idx pos => unique[pos]? = some idx)
      (internals.idx.flatten.map Int.ofNat) inverse) {i j : ℕ} (hi : i < internals.stats.nrows)
    (hj : j < m) {f : ℕ → D} (hf : ∀ ki < internals.nNeighbors,
      f ki = (statAt internals i j).wNormalized.getD ki 0 *
        (uniqueVariates seed unique m).getD
          (inverse.getD (i * internals.nNeighbors + ki) 0 * m + j) 0) :
    (statAt internals i j).normal.mu + drawScale (statAt internals i j) *
        (List.range internals.nNeighbors).foldl (fun acc ki => acc + f ki) 0 =
      drawEntry seed (internals.idx.getD i []) j (statAt internals i j) := by
  obtain ⟨hids, hlen⟩ := ids_eq h hi
  obtain ⟨row, hrow, -, hstat⟩ := statAt_eq h hi hj
  generalize internals.idx.getD i [] = ids at hids hlen ⊢
  have hne : ids ≠ [] := List.ne_nil_of_length_pos (by omega)
  unfold drawEntry
  rw [if_neg hne]
  congr 2
  apply foldl_range_eq_dot (h.weights row hrow _ (List.mem_of_getElem? hstat))
  · rw [List.length_map, hlen]
  · intro ki hki
    rw [hf ki hki, getD_uniqueVariates (unique_inverse h hinverse hids hki) hj,
      normal_ofNat_asUsize]
    have hlt : ki < ids.length := by omega
    simp only [List.getD_eq_getElem?_getD, List.getElem?_map, List.getElem?_eq_getElem hlt,
      Option.map_some, Option.getD_some]

/-- The draws of one seed, as they are looked up and weighted. -/
theorem drawSeed_eq (h : internals.Shaped m) (hk : 0 < internals.nNeighbors)
    (hinverse : List.Forall₂ (fun idx pos => unique[pos]? = some idx)
      (internals.idx.flatten.map Int.ofNat) inverse) :
    drawSeed internals inverse (uniqueVariates seed unique m) internals.stats.nrows
        internals.nNeighbors m =
      drawTable internals seed internals.stats.nrows m := by
  apply Buffer.table_congr
  intro i hi j hj
  rw [getD_table hi hj, getD_table hi hj]
  apply weightedSum_eq h hk hinverse hi hj
  intro ki hki
  congr 1
  have hat : (i * internals.nNeighbors + ki) * m + j =
      i * (internals.nNeighbors * m) + (ki * m + j) := by
    rw [Nat.add_mul, Nat.mul_assoc, Nat.add_assoc]
  have hlt : ki * m + j < internals.nNeighbors * m := by
    have hend : (ki + 1) * m ≤ internals.nNeighbors * m := Buffer.end_le hki
    rw [Nat.add_one_mul] at hend
    omega
  rw [List.getD_eq_getElem?_getD, hat,
    getElem?_flatMap_range (fun i _ => Buffer.length_table) hi hlt, ← List.getD_eq_getElem?_getD,
    getD_table hki hj]

/-- The path for one metric draws the same. -/
theorem drawSeedM1_eq (h : internals.Shaped 1) (hk : 0 < internals.nNeighbors)
    (hinverse : List.Forall₂ (fun idx pos => unique[pos]? = some idx)
      (internals.idx.flatten.map Int.ofNat) inverse) :
    drawSeedM1 internals inverse (unique.map fun idx =>
        normalForSeedIndexMetric (UInt64.ofNat (asUsize seed)) (UInt64.ofNat (asUsize idx)) 0)
        internals.stats.nrows internals.nNeighbors =
      drawTable internals seed internals.stats.nrows 1 := by
  unfold drawTable
  rw [Buffer.table_one]
  apply List.map_congr_left
  intro i hi
  have hi := List.mem_range.mp hi
  have hcache : (unique.map fun idx =>
      (normalForSeedIndexMetric (UInt64.ofNat (asUsize seed)) (UInt64.ofNat (asUsize idx)) 0 : D)) =
        uniqueVariates seed unique 1 := by
    unfold EpistemicNearestNeighbors.uniqueVariates
    rw [List.map_eq_flatMap]
    rfl
  dsimp only
  have hget : ∀ f : ℕ → D, ((List.range internals.stats.nrows).map f).getD i 0 = f i := by
    intro f
    simp [List.getD_eq_getElem?_getD, hi]
  rw [hcache, hget, hget]
  apply weightedSum_eq h hk hinverse hi Nat.zero_lt_one
  intro ki hki
  rw [getD_table hi hki, Nat.mul_one, Nat.add_zero]

/-- The draws of one seed, cut into the rows of the queries. -/
theorem rows_ofFlat_drawTable (h : internals.Shaped m) :
    (ofFlat internals.stats.nrows m (drawTable internals seed internals.stats.nrows m)).rows =
      List.zipWith (drawRow seed) internals.idx internals.stats.rows := by
  have hrows : (ofFlat internals.stats.nrows m
      (drawTable internals seed internals.stats.nrows m)).rows =
        (List.range internals.stats.nrows).map fun i => (List.range m).map fun j =>
          (drawTable internals seed internals.stats.nrows m).getD (i * m + j) 0 := rfl
  rw [hrows]
  apply List.ext_getElem
  · simp [h.length_idx, Array2.nrows]
  · intro i h₁ h₂
    have hi : i < internals.stats.nrows := by simpa using h₁
    rw [List.getElem_map, List.getElem_range, List.getElem_zipWith]
    have hlen : internals.stats.rows[i].length = m :=
      (internals.stats.width _ (List.getElem_mem hi)).trans h.ncols_eq
    rw [drawRow]
    apply List.ext_getElem
    · rw [List.length_map, List.length_range, List.length_mapIdx]
      exact hlen.symm
    · intro j hj₁ hj₂
      have hj : j < m := by simpa using hj₁
      have hi' : i < internals.idx.length := h.length_idx ▸ hi
      rw [List.getElem_map, List.getElem_range, List.getElem_mapIdx]
      unfold drawTable
      rw [getD_table hi hj, List.getD_eq_getElem _ _ hi']
      unfold EpistemicNearestNeighbors.statAt
      rw [List.getD_eq_getElem _ _ hi, List.getD_eq_getElem _ _ (lt_of_lt_of_eq hj hlen.symm)]
      rfl

end Seed

open EpistemicNearestNeighbors (drawFromInternals)

variable {F : Type}

/-- The draws of internals: the values of each seed at each query, unless there are none. -/
theorem drawFromInternals_eq {m : EpistemicNearestNeighbors D F} {internals : DrawInternals D}
    (h : internals.Shaped m.numMetrics) (seeds : List ℤ) :
    (internals.nNeighbors ≠ 0 ∧ internals.stats.nrows * m.numMetrics = 0 →
        m.drawFromInternals internals seeds = .error .panic) ∧
      (¬ (internals.nNeighbors ≠ 0 ∧ internals.stats.nrows * m.numMetrics = 0) →
        ∃ draws, m.drawFromInternals internals seeds = .ok draws ∧
          List.Forall₂ (fun seed (d : Array2 D) => d.ncols = m.numMetrics ∧
            d.rows = List.zipWith (drawRow seed) internals.idx internals.stats.rows) seeds draws) := by
  obtain ⟨unique, inverse, hunique, hinverse⟩ :=
    uniqueIndexInverse_eq_ok (internals.idx.flatten.map Int.ofNat)
  unfold EpistemicNearestNeighbors.drawFromInternals
  by_cases hk : internals.nNeighbors = 0
  · -- without neighbours every seed draws the means
    constructor
    · rintro ⟨hne, -⟩
      exact absurd hk hne
    · intro
      refine ⟨_, if_pos hk, ?_⟩
      rw [List.forall₂_map_right_iff]
      apply List.forall₂_same.mpr
      intro seed _
      refine ⟨h.ncols_eq, ?_⟩
      have hnil : ∀ i (hi : i < internals.idx.length), internals.idx[i] = [] := fun i hi =>
        List.eq_nil_of_length_eq_zero ((h.width_idx _ (List.getElem_mem hi)).trans hk)
      apply List.ext_getElem
      · simp [Array2.mapCols, h.length_idx, Array2.nrows]
      · intro i h₁ h₂
        rw [List.getElem_zipWith, hnil]
        simp only [Array2.mapCols, List.getElem_map]
        rfl
  · dsimp only
    rw [if_neg hk, hunique]
    have hpos := Nat.pos_of_ne_zero hk
    change (_ → (if m.numMetrics = 1 then _ else _) = _) ∧
      (_ → ∃ draws, (if m.numMetrics = 1 then _ else _) = _ ∧ _)
    by_cases hone : m.numMetrics = 1
    · rw [hone] at h ⊢
      rw [if_pos rfl, Nat.mul_one]
      unfold EpistemicNearestNeighbors.drawFromInternalsM1
      constructor
      · rintro ⟨-, h0⟩
        exact if_pos h0
      · intro hne
        refine ⟨_, if_neg fun h0 => hne ⟨hk, h0⟩, ?_⟩
        rw [List.forall₂_map_right_iff]
        apply List.forall₂_same.mpr
        intro seed _
        dsimp only
        rw [drawSeedM1_eq h hpos hinverse]
        exact ⟨rfl, rows_ofFlat_drawTable h⟩
    · rw [if_neg hone]
      constructor
      · rintro ⟨-, h0⟩
        exact if_pos h0
      · intro hne
        refine ⟨_, if_neg fun h0 => hne ⟨hk, h0⟩, ?_⟩
        rw [List.forall₂_map_right_iff]
        apply List.forall₂_same.mpr
        intro seed _
        rw [drawSeed_eq h hpos hinverse]
        exact ⟨rfl, rows_ofFlat_drawTable h⟩

end Entries

namespace EpistemicNearestNeighbors

open Call (Answers)

section Rows

variable {D F : Type} [Floating D] [Analysis D] {m : EpistemicNearestNeighbors D F}
  {search : NeighborSearch D} {x : Array2 D} {params : ENNParams D} {flags : PosteriorFlags}

/-- Internals whose rows are those of each query alone. -/
structure RowsOf (m : EpistemicNearestNeighbors D F) (search : NeighborSearch D)
    (params : ENNParams D) (flags : PosteriorFlags) (x : Array2 D) (i : DrawInternals D) :
    Prop where
  shaped : i.Shaped m.numMetrics
  length_eq : i.idx.length = x.nrows
  rows : List.Forall₂ (fun q (p : List ℕ × List (WeightedStats D)) =>
    ∃ i', m.internals search (.ofRow q) params flags = .ok i' ∧ i'.Shaped m.numMetrics ∧
      i'.nNeighbors = i.nNeighbors ∧ i'.idx = [p.1] ∧ i'.stats.rows = [p.2])
    x.rows (i.idx.zip i.stats.rows)

theorem metricsMatrix_eq_ok {E : Type} {n : ℕ} {rows : List (List E)} {out : Array2 E}
    (h : metricsMatrix n rows = .ok out) : out.ncols = n ∧ out.rows = rows := by
  unfold metricsMatrix at h
  split at h
  next =>
    obtain rfl := Outcome.pure_eq_ok.mp h
    exact ⟨rfl, rfl⟩
  next => simp at h

theorem length_wNormalized {noise : Bool} {yScale : List D} {neighbors : List (Neighbor D)}
    {yvars : Option (List (List D))}
    (hyvars : ∀ rows, yvars = some rows → rows.length = neighbors.length) {s : WeightedStats D}
    (hs : s ∈ computeWeightedStats params noise yScale neighbors yvars) :
    s.wNormalized.length = neighbors.length := by
  unfold computeWeightedStats at hs
  obtain ⟨j, -, rfl⟩ := List.mem_map.mp hs
  cases yvars with
  | none => simp [statsFromNeighborWeights]
  | some rows => simp [statsFromNeighborWeights, metricOf, hyvars rows rfl]

omit [Analysis D] in
theorem length_yvarNeighbors {b : Bool} {neighbors : List (Neighbor D)}
    {yvars : Option (List (List D))} (h : m.yvarNeighbors b neighbors = .ok yvars) :
    ∀ rows, yvars = some rows → rows.length = neighbors.length := by
  rintro rows rfl
  unfold yvarNeighbors at h
  split at h
  next => simp at h
  next =>
    obtain ⟨rows', hrows, h⟩ := Outcome.bind_eq_ok.mp h
    obtain rfl := Option.some.inj (Outcome.pure_eq_ok.mp h)
    exact (mapM_ok_iff.mp hrows).length_eq.symm

theorem rows_of_weighted {data : NeighborData D} {noise : Bool} {i : DrawInternals D}
    (h : m.computeWeightedPosterior data params noise = .ok i) :
    i.nNeighbors = data.k ∧ i.idx = data.rows.map (fun row => row.map Neighbor.idx) ∧
      i.stats.ncols = m.numMetrics ∧ ∃ b, m.hasYvar = .ok b ∧
        List.Forall₂ (fun neighbors stats => ∃ yvars, m.yvarNeighbors b neighbors = .ok yvars ∧
          computeWeightedStats params noise m.yScale neighbors yvars = stats)
          data.rows i.stats.rows := by
  obtain ⟨b, hb, h⟩ := Outcome.bind_eq_ok.mp h
  obtain ⟨rows, hrows, h⟩ := Outcome.bind_eq_ok.mp h
  obtain ⟨stats, hstats, h⟩ := Outcome.bind_eq_ok.mp h
  obtain rfl := Outcome.pure_eq_ok.mp h
  obtain ⟨hncols, rfl⟩ := metricsMatrix_eq_ok hstats
  refine ⟨rfl, rfl, hncols, b, hb, (mapM_ok_iff.mp hrows).imp ?_⟩
  intro neighbors row hrow
  obtain ⟨yvars, hyvars, hrow⟩ := Outcome.bind_eq_ok.mp hrow
  exact ⟨yvars, hyvars, Outcome.pure_eq_ok.mp hrow⟩

theorem shaped_of_weighted {data : NeighborData D} {noise : Bool} {i : DrawInternals D}
    (hk : ∀ row ∈ data.rows, row.length = data.k)
    (h : m.computeWeightedPosterior data params noise = .ok i) : i.Shaped m.numMetrics := by
  obtain ⟨hn, hidx, hncols, b, -, hrows⟩ := rows_of_weighted h
  constructor
  · exact hncols
  · rw [hidx, List.length_map]
    exact hrows.length_eq
  · rw [hidx, hn]
    intro row hrow
    obtain ⟨neighbors, hmem, rfl⟩ := List.mem_map.mp hrow
    rw [List.length_map, hk neighbors hmem]
  · intro row hrow s hs
    obtain ⟨neighbors, hmem, yvars, hyvars, rfl⟩ := exists_mem_left hrows hrow
    rw [length_wNormalized (length_yvarNeighbors hyvars) hs, hk neighbors hmem, hn]

theorem exists_weighted_row (hs : m.yScale.length = m.numMetrics) {b : Bool}
    (hb : m.hasYvar = .ok b) {k : ℕ} {neighbors : List (Neighbor D)} {noise : Bool}
    {yvars : Option (List (List D))} (hyvars : m.yvarNeighbors b neighbors = .ok yvars) :
    ∃ i, m.computeWeightedPosterior ⟨k, [neighbors]⟩ params noise = .ok i ∧ i.nNeighbors = k ∧
      i.idx = [neighbors.map Neighbor.idx] ∧
      i.stats.rows = [computeWeightedStats params noise m.yScale neighbors yvars] := by
  have hmap : ([neighbors].mapM fun neighbors => do
      let yvars ← m.yvarNeighbors b neighbors
      return computeWeightedStats params noise m.yScale neighbors yvars) =
        .ok [computeWeightedStats params noise m.yScale neighbors yvars] := by
    rw [List.mapM_cons, hyvars]
    rfl
  obtain ⟨i, hi, hstats⟩ := exists_weighted_of_rows ⟨k, [neighbors]⟩ hs hb hmap
  obtain ⟨hk, hidx, -, -⟩ := rows_of_weighted hi
  exact ⟨i, hi, hk, hidx, (metricsMatrix_eq_ok hstats).2⟩

omit [Floating D] [Analysis D] in
theorem length_neighborRow {k : ℕ} {hits : List (D × ℤ)} {row : List (Neighbor D)}
    (h : m.neighborRow k hits = .ok row) : row.length = min k hits.length := by
  rw [← (idx_of_neighborRow h).length_eq, List.length_take]

section Nearest

variable (hrow : RowWise search m) (hx : x.ncols = m.numDim)

include hrow hx

omit [Floating D] [Analysis D] in
theorem nearest_row_of_none (h : m.nearest search x params flags = .ok none) :
    ∀ q ∈ x.rows, m.nearest search (.ofRow q) params flags = .ok none := by
  intro q hq
  unfold nearest at h ⊢
  obtain ⟨searchK, hk, h⟩ := Outcome.bind_eq_ok.mp h
  rw [Outcome.bind_eq_ok]
  refine ⟨searchK, hk, ?_⟩
  by_cases h0 : searchK = 0
  · exact if_pos h0
  · rw [if_neg h0] at h ⊢
    obtain ⟨hits, hhits, h⟩ := Outcome.bind_eq_ok.mp h
    obtain ⟨row, -, hits', hhits', -⟩ := exists_mem_right
      (hrow.rows x searchK _ _ hits hx (neighborSearchK_eq_ok hk) hhits) hq
    rw [Outcome.bind_eq_ok]
    refine ⟨hits', hhits', ?_⟩
    dsimp only at h ⊢
    split at h
    next hzero => exact if_pos hzero
    next => simp at h

omit [Floating D] [Analysis D] in
/-- Each query finds its own row of the neighbours alone. -/
theorem nearest_row_of_some {data : NeighborData D}
    (h : m.nearest search x params flags = .ok (some data)) :
    (∀ row ∈ data.rows, row.length = data.k) ∧
      List.Forall₂ (fun q row => m.nearest search (.ofRow q) params flags =
        .ok (some ⟨data.k, [row]⟩)) x.rows data.rows := by
  unfold nearest at h
  obtain ⟨searchK, hk, h⟩ := Outcome.bind_eq_ok.mp h
  have hle := neighborSearchK_eq_ok hk
  by_cases h0 : searchK = 0
  · rw [if_pos h0] at h
    simp at h
  · rw [if_neg h0] at h
    obtain ⟨hits, hhits, h⟩ := Outcome.bind_eq_ok.mp h
    by_cases hzero : availableK searchK params flags.excludeNearest = 0
    · simp [hzero] at h
    · simp only [if_neg hzero] at h
      obtain ⟨rows, hrows, h⟩ := Outcome.bind_eq_ok.mp h
      obtain rfl := Option.some.inj (Outcome.pure_eq_ok.mp h)
      have hread := mapM_ok_iff.mp hrows
      have hlen : ∀ row ∈ rows, row.length = availableK searchK params flags.excludeNearest := by
        intro row hmem
        obtain ⟨hit, hhit, hrow'⟩ := exists_mem_left hread hmem
        have hwide := hrow.wide x searchK _ _ hits hx hle hhits
        rw [length_neighborRow hrow', hits.width hit hhit]
        unfold availableK
        omega
      refine ⟨hlen, (forall₂_trans (hrow.rows x searchK _ _ hits hx hle hhits) hread).imp ?_⟩
      rintro q row ⟨hit, ⟨hits', hhits', hone⟩, hrow'⟩
      have hmap : hits'.rows.mapM (m.neighborRow (availableK searchK params flags.excludeNearest)) =
          .ok [row] := by
        rw [hone, List.mapM_cons, hrow']
        rfl
      unfold nearest
      simp only [hk, Outcome.bind_eq_ok]
      refine ⟨searchK, rfl, ?_⟩
      rw [if_neg h0, Outcome.bind_eq_ok]
      refine ⟨hits', hhits', ?_⟩
      simp only [if_neg hzero, hmap]
      rfl

end Nearest

/-- Queries without neighbours. -/
theorem rowsOf_empty (hsingle : ∀ q ∈ x.rows,
    m.internals search (.ofRow q) params flags = .ok (m.emptyPosteriorInternals 1)) :
    RowsOf m search params flags x (m.emptyPosteriorInternals x.nrows) := by
  have hshaped : ∀ n, (m.emptyPosteriorInternals n).Shaped m.numMetrics := by
    intro n
    constructor
    · rfl
    · simp [emptyPosteriorInternals, Array2.nrows]
    · simp +contextual [emptyPosteriorInternals, List.mem_replicate]
    · simp +contextual [emptyPosteriorInternals, emptyStats, List.mem_replicate]
  constructor
  · exact hshaped _
  · exact List.length_replicate
  · have hzip : (m.emptyPosteriorInternals x.nrows).idx.zip
        (m.emptyPosteriorInternals x.nrows).stats.rows =
          List.replicate x.nrows ([], List.replicate m.numMetrics emptyStats) := by
      simp [emptyPosteriorInternals]
    rw [hzip]
    apply List.forall₂_iff_get.mpr
    refine ⟨by simp [Array2.nrows], fun j h₁ h₂ => ?_⟩
    refine ⟨_, hsingle _ (List.get_mem ..), hshaped 1, rfl, ?_, ?_⟩
    · simp [emptyPosteriorInternals]
    · simp [emptyPosteriorInternals]

/-- The internals of a request hold those of its queries. -/
theorem rowsOf_internals (hrow : RowWise search m) (hs : m.ScaledRows) {i : DrawInternals D}
    (h : m.internals search x params flags = .ok i) : RowsOf m search params flags x i := by
  have hx := ncols_of_internals h
  rcases Nat.eq_zero_or_pos m.numObs with h0 | hobs
  · have hempty : ∀ x' : Array2 D, x'.ncols = m.numDim →
        m.internals search x' params flags = .ok (m.emptyPosteriorInternals x'.nrows) := by
      intro x' hx'
      unfold internals
      rw [if_neg (not_not.mpr hx'), if_pos h0]
      rfl
    obtain rfl := Except.ok.inj ((hempty x hx).symm.trans h)
    exact rowsOf_empty fun q hq => hempty _ ((x.width q hq).trans hx)
  · rw [internals_eq hx hobs] at h
    obtain ⟨data, hdata, h⟩ := Outcome.bind_eq_ok.mp h
    cases data with
    | none =>
      obtain rfl := Outcome.pure_eq_ok.mp h
      apply rowsOf_empty
      intro q hq
      rw [internals_eq ((x.width q hq).trans hx) hobs, nearest_row_of_none hrow hx hdata q hq]
      rfl
    | some data =>
      obtain ⟨hlen, hrows⟩ := nearest_row_of_some hrow hx hdata
      have hshaped := shaped_of_weighted hlen h
      obtain ⟨hk, hidx, -, b, hb, hstats⟩ := rows_of_weighted h
      constructor
      · exact hshaped
      · rw [hidx, List.length_map, ← hrows.length_eq]
        rfl
      · rw [hidx, List.zip_map_left, List.forall₂_map_right_iff]
        have hwidths := (List.forall₂_and_left _ _).mpr ⟨x.width, forall₂_zip hrows hstats⟩
        apply hwidths.imp
        rintro q ⟨neighbors, stats⟩ ⟨hq, hnear, yvars, hyvars, hst⟩
        obtain ⟨i', hi', hk', hidx', hstats'⟩ := exists_weighted_row (k := data.k) (hs hobs) hb hyvars
        have hsingle : m.internals search (.ofRow q) params flags = .ok i' := by
          rw [internals_eq (hq.trans hx) hobs, hnear]
          exact hi'
        have hshaped' := shaped_of_weighted (nearest_row_of_some hrow (hq.trans hx) hnear).1 hi'
        rw [hst] at hstats'
        exact ⟨i', hsingle, hshaped', hk'.trans hk.symm, hidx', hstats'⟩

/-- A request over neighbours has some for each query. -/
theorem nNeighbors_pos_iff {i : DrawInternals D}
    (h : m.internals search x params flags = .ok i) :
    0 < i.nNeighbors ↔ 0 < m.numObs ∧ 0 < params.kNumNeighbors := by
  have hx := ncols_of_internals h
  rcases Nat.eq_zero_or_pos m.numObs with h0 | hobs
  · have hi : m.internals search x params flags = .ok (m.emptyPosteriorInternals x.nrows) := by
      unfold internals
      rw [if_neg (not_not.mpr hx), if_pos h0]
      rfl
    obtain rfl := Except.ok.inj (hi.symm.trans h)
    simp [emptyPosteriorInternals, h0]
  · rw [internals_eq hx hobs, nearest_bind, Outcome.bind_eq_ok] at h
    obtain ⟨searchK, hsearchK, h⟩ := h
    have hpos := availableK_pos_iff hobs hsearchK
    rw [← hpos, and_iff_right hobs]
    by_cases hk : availableK searchK params flags.excludeNearest = 0
    · have hi : m.weighted x params flags none = .ok i := by
        by_cases h0 : searchK = 0
        · rwa [if_pos h0] at h
        · rw [if_neg h0, Outcome.bind_eq_ok] at h
          obtain ⟨hits, -, h⟩ := h
          rwa [if_pos hk] at h
      obtain rfl := Outcome.pure_eq_ok.mp hi
      simp [emptyPosteriorInternals, hk]
    · have hk := Nat.pos_of_ne_zero hk
      rw [if_neg (searchK_pos_of_availableK hk).ne', Outcome.bind_eq_ok] at h
      obtain ⟨hits, -, h⟩ := h
      rw [if_neg hk.ne', Outcome.bind_eq_ok] at h
      obtain ⟨rows, -, h⟩ := h
      rw [(rows_of_weighted h).1]



/-- A request is accepted when its width fits and, over rows, the search serves it. -/
structure Accepts (m : EpistemicNearestNeighbors D F) (search : NeighborSearch D) (x : Array2 D)
    (params : ENNParams D) (flags : PosteriorFlags) : Prop where
  ncols_eq : x.ncols = m.numDim
  served : 0 < m.numObs → m.Served search x flags params

theorem exists_internals_iff (hs : m.ScaledRows) :
    (∃ i, m.internals search x params flags = .ok i) ↔ m.Accepts search x params flags := by
  constructor
  · rintro ⟨i, hi⟩
    refine ⟨ncols_of_internals hi, fun hobs => (served_iff (hs hobs)).mpr ?_⟩
    rw [internals_eq (ncols_of_internals hi) hobs] at hi
    obtain ⟨data, hdata, hi⟩ := Outcome.bind_eq_ok.mp hi
    exact ⟨data, hdata, i, hi⟩
  · rintro ⟨hx, hserved⟩
    rcases Nat.eq_zero_or_pos m.numObs with h0 | hobs
    · unfold internals
      rw [if_neg (not_not.mpr hx), if_pos h0]
      exact ⟨_, rfl⟩
    · obtain ⟨data, hdata, i, hi⟩ := (served_iff (hs hobs)).mp (hserved hobs)
      rw [internals_eq hx hobs, hdata]
      exact ⟨i, hi⟩

/-- Draws over neighbours have entries, and the bounds are those of the metrics. -/
structure Drawable (m : EpistemicNearestNeighbors D F) (x : Array2 D) (params : ENNParams D) :
    Prop where
  entries : 0 < m.numObs → 0 < params.kNumNeighbors → 0 < x.nrows ∧ 0 < m.numMetrics
  bounds : m.boundedOutputs = true →
    YBounds.isIdentityBounds m.yBounds = true ∨ m.numMetrics = m.yBounds.nrows

/-- A row of draws on the scale of the outputs. -/
def naturalRow (m : EpistemicNearestNeighbors D F) (row : List D) : List D :=
  if m.boundedOutputs && !YBounds.isIdentityBounds m.yBounds then
    row.mapIdx fun j value =>
      YBounds.invScalar value (YBounds.lower m.yBounds j) (YBounds.upper m.yBounds j)
  else row

/-- The draws that some internals make, on the scale of the outputs. -/
def naturalDraws (m : EpistemicNearestNeighbors D F) (seeds : List ℤ) (i : DrawInternals D) :
    Outcome (List (Array2 D)) := do
  let draws ← m.drawFromInternals i seeds
  if m.boundedOutputs then inverseDraws m.numMetrics m.yBounds draws else pure draws

theorem mapM_inverseDraws (draws : List (Array2 D))
    (hb : m.boundedOutputs = true →
      YBounds.isIdentityBounds m.yBounds = true ∨ m.numMetrics = m.yBounds.nrows) :
    ∃ out, (if m.boundedOutputs then inverseDraws m.numMetrics m.yBounds draws else pure draws) =
        .ok out ∧
      List.Forall₂ (fun (d d' : Array2 D) => d'.rows = d.rows.map m.naturalRow) draws out := by
  have hsame : ∀ hid : m.naturalRow = id, List.Forall₂
      (fun (d d' : Array2 D) => d'.rows = d.rows.map m.naturalRow) draws draws := by
    intro hid
    apply List.forall₂_same.mpr
    intro d _
    rw [hid, List.map_id]
  cases hbounded : m.boundedOutputs with
  | false =>
    refine ⟨draws, rfl, hsame ?_⟩
    funext row
    simp [naturalRow, hbounded]
  | true =>
    unfold inverseDraws
    cases hid : YBounds.isIdentityBounds m.yBounds with
    | true =>
      refine ⟨draws, rfl, hsame ?_⟩
      funext row
      simp [naturalRow, hid]
    | false =>
      have hrows := (hb hbounded).resolve_left (by simp [hid])
      refine ⟨draws.map fun d => YBounds.invY d m.yBounds, ?_, ?_⟩
      · simp [hrows]
      · rw [List.forall₂_map_right_iff]
        apply List.forall₂_same.mpr
        intro d _
        unfold naturalRow
        rw [hbounded, hid]
        rfl

theorem naturalDraws_eq {i : DrawInternals D} (h : i.Shaped m.numMetrics) (seeds : List ℤ)
    (hentries : 0 < i.nNeighbors → 0 < i.stats.nrows ∧ 0 < m.numMetrics)
    (hb : m.boundedOutputs = true →
      YBounds.isIdentityBounds m.yBounds = true ∨ m.numMetrics = m.yBounds.nrows) :
    ∃ draws, m.naturalDraws seeds i = .ok draws ∧
      List.Forall₂ (fun seed (d : Array2 D) => d.rows =
        List.zipWith (fun ids stats => m.naturalRow (drawRow seed ids stats)) i.idx i.stats.rows)
        seeds draws := by
  obtain ⟨draws, hdraws, hrows⟩ := (drawFromInternals_eq h seeds).2 (by
    rintro ⟨hne, h0⟩
    obtain ⟨hn, hm⟩ := hentries (Nat.pos_of_ne_zero hne)
    exact (Nat.mul_pos hn hm).ne' h0)
  obtain ⟨out, hout, hnatural⟩ := mapM_inverseDraws draws hb
  refine ⟨out, ?_, (forall₂_trans hrows hnatural).imp ?_⟩
  · unfold naturalDraws
    rw [hdraws]
    exact hout
  · rintro seed d' ⟨d, ⟨-, hd⟩, hd'⟩
    rw [hd', hd, List.map_zipWith]

theorem of_naturalDraws {i : DrawInternals D} (h : i.Shaped m.numMetrics) {seeds : List ℤ}
    {draws : List (Array2 D)} (hdraws : m.naturalDraws seeds i = .ok draws) :
    (0 < i.nNeighbors → 0 < i.stats.nrows ∧ 0 < m.numMetrics) ∧
      (m.boundedOutputs = true →
        YBounds.isIdentityBounds m.yBounds = true ∨ m.numMetrics = m.yBounds.nrows) := by
  obtain ⟨raw, hraw, hdraws⟩ := Outcome.bind_eq_ok.mp hdraws
  constructor
  · intro hk
    by_contra hnone
    have h0 : i.stats.nrows * m.numMetrics = 0 := by
      by_contra hne
      have hpos := Nat.pos_of_ne_zero hne
      exact hnone ⟨Nat.pos_of_mul_pos_right hpos, Nat.pos_of_mul_pos_left hpos⟩
    rw [(drawFromInternals_eq h seeds).1 ⟨hk.ne', h0⟩] at hraw
    simp at hraw
  · intro hb
    rw [if_pos hb] at hdraws
    unfold inverseDraws at hdraws
    by_cases hid : YBounds.isIdentityBounds m.yBounds = true
    · exact .inl hid
    · rw [if_neg hid] at hdraws
      split at hdraws
      next => simp at hdraws
      next hrows => exact .inr (not_not.mp hrows)

end Rows

section Function

variable {D F : Type} [Floating D] [Floating F] [FloatCast D F] [Analysis D]

/-- The draw of one seed at one query that is asked for alone: the mean there with the weighted
variates of the neighbours. -/
structure DrawnAlone (faiss : Faiss F) (env : Env F) (m : EpistemicNearestNeighbors D F)
    (params : ENNParams D) (flags : PosteriorFlags) (seed : ℤ) (q : List D) (ids : List ℕ)
    (row : List D) : Prop where
  alone : ∃ d, (posteriorFunctionDraw faiss env (.ofRow q) params [seed] flags m).1 =
    .ok ([d], [ids]) ∧ d.rows = [row]
  formula : ∃ i stats, (computePosteriorInternals faiss env (.ofRow q) params flags m).1 = .ok i ∧
    i.idx = [ids] ∧ i.stats.rows = [stats] ∧ row = m.naturalRow (drawRow seed ids stats)

/-- Draws of a request that is accepted are returned, each as it is drawn alone. -/
structure OneFunction (faiss : Faiss F) (env : Env F) (m : EpistemicNearestNeighbors D F)
    (x : Array2 D) (params : ENNParams D) (seeds : List ℤ) (flags : PosteriorFlags) : Prop where
  returns : (∃ i, (computePosteriorInternals faiss env x params flags m).1 = .ok i) →
    ∃ r, (posteriorFunctionDraw faiss env x params seeds flags m).1 = .ok r
  values : ∀ draws idx, (posteriorFunctionDraw faiss env x params seeds flags m).1 =
      .ok (draws, idx) → idx.length = x.nrows ∧
    List.Forall₂ (fun seed (d : Array2 D) => d.nrows = x.nrows ∧
      List.Forall₂ (fun q (p : List ℕ × List D) =>
        DrawnAlone faiss env m params flags seed q p.1 p.2) x.rows (idx.zip d.rows)) seeds draws

variable {faiss : Faiss F} {env : Env F} {S : EpistemicNearestNeighbors D F → Prop}
  {search : NeighborSearch D} {m : EpistemicNearestNeighbors D F} {x : Array2 D}
  {params : ENNParams D} {seeds : List ℤ} {flags : PosteriorFlags}

theorem fst_computePosteriorInternals (h : SearchesAs faiss env S search) (hm : S m)
    (x : Array2 D) (params : ENNParams D) (flags : PosteriorFlags) :
    (computePosteriorInternals faiss env x params flags m).1 =
      m.internals search x params flags :=
  Outcome.matches_eq.mp (h.computePosteriorInternals hm hm).1

/-- Function draws are made from the internals of the request. -/
theorem fst_posteriorFunctionDraw (h : SearchesAs faiss env S search) (hm : S m)
    (x : Array2 D) (seeds : List ℤ) :
    (posteriorFunctionDraw faiss env x params seeds flags m).1 = (do
      let i ← m.internals search x params flags
      let draws ← m.naturalDraws seeds i
      return (draws, i.idx)) := by
  have hdraw : Answers S Eq (posteriorFunctionDraw faiss env x params seeds flags) m (do
      let i ← m.internals search x params flags
      let draws ← m.naturalDraws seeds i
      return (draws, i.idx)) := by
    apply (h.computePosteriorInternals hm hm).bind
    rintro i _ m₁ rfl hm₁
    have hr := h.reads m m₁ hm hm₁
    apply Call.answers_get_bind
    unfold naturalDraws
    rw [← hr.drawFromInternals_eq, ← hr.bounded_eq, ← hr.yBounds_eq, ← hr.numMetrics_eq,
      bind_assoc]
    apply Call.answers_ofOutcome_bind hm₁
    rintro draws -
    apply Call.answers_ofOutcome_bind hm₁
    rintro draws -
    exact Call.answers_pure hm₁ rfl
  exact Outcome.matches_eq.mp hdraw.1

/-- The draws of a request are those of its queries and seeds alone. -/
theorem drawnAlone_of_returns (h : SearchesAs faiss env S search) (hm : S m)
    (hrow : RowWise search m) (hs : m.ScaledRows) {draws : List (Array2 D)} {idx : List (List ℕ)}
    (hdraws : (posteriorFunctionDraw faiss env x params seeds flags m).1 = .ok (draws, idx)) :
    idx.length = x.nrows ∧ List.Forall₂ (fun seed (d : Array2 D) => d.nrows = x.nrows ∧
      List.Forall₂ (fun q (p : List ℕ × List D) =>
        DrawnAlone faiss env m params flags seed q p.1 p.2) x.rows (idx.zip d.rows)) seeds draws := by
  rw [fst_posteriorFunctionDraw h hm] at hdraws
  obtain ⟨i, hi, hdraws⟩ := Outcome.bind_eq_ok.mp hdraws
  obtain ⟨draws', hdraws', heq⟩ := Outcome.bind_eq_ok.mp hdraws
  obtain ⟨rfl, rfl⟩ := Prod.mk.inj (Outcome.pure_eq_ok.mp heq)
  have hrows := rowsOf_internals hrow hs hi
  have hshaped := hrows.shaped
  obtain ⟨hentries, hbounds⟩ := of_naturalDraws hshaped hdraws'
  obtain ⟨draws, hdraws, hall⟩ := naturalDraws_eq hshaped seeds hentries hbounds
  obtain rfl := Except.ok.inj (hdraws'.symm.trans hdraws)
  refine ⟨hrows.length_eq, hall.imp fun seed d hd => ⟨?_, ?_⟩⟩
  · rw [← hrows.length_eq, Array2.nrows, hd, List.length_zipWith, hshaped.length_idx]
    exact min_self _
  · have hzip : i.idx.zip d.rows = (i.idx.zip i.stats.rows).map fun p =>
        (p.1, m.naturalRow (drawRow seed p.1 p.2)) := by
      rw [hd]
      apply List.ext_getElem
      · simp
      · intro j h₁ h₂
        simp
    rw [hzip, List.forall₂_map_right_iff]
    apply hrows.rows.imp
    rintro q ⟨ids, stats⟩ ⟨i', hi', hshaped', hk, hidx, hstats⟩
    constructor
    · obtain ⟨draws, hdraws, hone⟩ := naturalDraws_eq hshaped' [seed] (by
        intro hpos
        refine ⟨?_, (hentries (hk ▸ hpos)).2⟩
        rw [Array2.nrows, hstats]
        exact Nat.zero_lt_one) hbounds
      obtain ⟨d, _, hd, hnil, rfl⟩ := List.forall₂_cons_left_iff.mp hone
      obtain rfl := List.forall₂_nil_left_iff.mp hnil
      refine ⟨d, ?_, ?_⟩
      · rw [fst_posteriorFunctionDraw h hm]
        simp only [Outcome.bind_eq_ok, Outcome.pure_eq_ok]
        exact ⟨i', hi', _, hdraws, by rw [hidx]⟩
      · rw [hd, hidx, hstats]
        rfl
    · exact ⟨i', stats, (fst_computePosteriorInternals h hm _ _ _).trans hi', hidx, hstats, rfl⟩

/-- A function seed denotes one function unless an accepted request has no entries to draw, or
bounds that are not those of the metrics. -/
theorem oneFunction_iff [DecidableEq F] (h : SearchesAs faiss env S search) (hm : S m)
    (hrow : RowWise search m) (hreached : Reached m) (x : Array2 D) (params : ENNParams D)
    (seeds : List ℤ) (flags : PosteriorFlags) :
    OneFunction faiss env m x params seeds flags ↔
      (m.Accepts search x params flags → m.Drawable x params) := by
  have hs := hreached.scaledRows
  have hreturns := fst_computePosteriorInternals h hm x params flags
  constructor
  · intro hone haccepts
    obtain ⟨i, hi⟩ := (exists_internals_iff hs).mpr haccepts
    obtain ⟨r, hr⟩ := hone.returns ⟨i, hreturns.trans hi⟩
    rw [fst_posteriorFunctionDraw h hm] at hr
    obtain ⟨i', hi', hr⟩ := Outcome.bind_eq_ok.mp hr
    obtain rfl := Except.ok.inj (hi.symm.trans hi')
    obtain ⟨draws, hdraws, -⟩ := Outcome.bind_eq_ok.mp hr
    have hrows := rowsOf_internals hrow hs hi
    obtain ⟨hentries, hbounds⟩ := of_naturalDraws hrows.shaped hdraws
    refine ⟨fun hobs hk => ?_, hbounds⟩
    rw [← hrows.length_eq, hrows.shaped.length_idx]
    exact hentries ((nNeighbors_pos_iff hi).mpr ⟨hobs, hk⟩)
  · intro hdrawable
    constructor
    · rintro ⟨i, hi⟩
      have hi := hreturns.symm.trans hi
      obtain ⟨hentries, hbounds⟩ := hdrawable ((exists_internals_iff hs).mp ⟨i, hi⟩)
      have hrows := rowsOf_internals hrow hs hi
      obtain ⟨draws, hdraws, -⟩ := naturalDraws_eq hrows.shaped seeds (by
        intro hpos
        obtain ⟨hobs, hk⟩ := (nNeighbors_pos_iff hi).mp hpos
        rw [← hrows.shaped.length_idx, hrows.length_eq]
        exact hentries hobs hk) hbounds
      refine ⟨(draws, i.idx), ?_⟩
      rw [fst_posteriorFunctionDraw h hm, hi]
      simp only [Outcome.bind_eq_ok, Outcome.pure_eq_ok]
      exact ⟨i, rfl, draws, hdraws, rfl⟩
    · intro draws idx hdraws
      exact drawnAlone_of_returns h hm hrow hs hdraws

end Function

section Example

theorem exists_backend {m : EpistemicNearestNeighbors ℚ ℚ} (h : Reindexed m m) :
    ∃ b, m.backend = .inMemory b := by
  obtain ⟨b, -, -, -, -, hb, -⟩ := h
  exact ⟨b, hb⟩

theorem oneFunction_pair :
    ∃ m, pairModel = .ok m ∧
      OneFunction .flat defaultEnv m (.column [1, 3]) ⟨2, 1, 0⟩ [7, 8] {} := by
  have hm := Outcome.eq_ok_value returns_pairModel
  have hr := reindexed_pairModel hm
  obtain ⟨b, hb⟩ := exists_backend hr
  refine ⟨_, hm, (oneFunction_iff (searchesAs_reindexed .flat defaultEnv hr) hr
    (rowWise_inMemory .flat defaultEnv hb hr) (.newWithOptions _ _ _ _ _ hm) (.column [1, 3])
    ⟨2, 1, 0⟩ [7, 8] {}).mpr ?_⟩
  intro
  constructor
  · intro _ _
    constructor <;> decide +kernel
  · intro hbounded
    exact absurd hbounded (by decide +kernel)

/-- A request without queries is accepted, and its draws panic. -/
theorem not_oneFunction :
    ∃ m, pairModel = .ok m ∧
      ¬ OneFunction .flat defaultEnv m (.column []) ⟨2, 1, 0⟩ [] {} := by
  have hm := Outcome.eq_ok_value returns_pairModel
  refine ⟨_, hm, fun h => ?_⟩
  obtain ⟨r, hr⟩ := h.returns ⟨_, Outcome.eq_ok_value (by decide +kernel)⟩
  have hfail : (posteriorFunctionDraw .flat defaultEnv (.column []) ⟨2, 1, 0⟩ [] {}
      (pairModel.value returns_pairModel)).1.returns = false := by decide +kernel
  have hok := congrArg Outcome.returns hr
  exact absurd (hfail.symm.trans hok) (by simp [Outcome.returns])

end Example

end EpistemicNearestNeighbors

end Ennbo
