import Ennbo.Strategy.TurboProposals

/-! # Units

An optimizer works on the unit cube. At its border the arms are stretched into the
bounds of the search, and rows that are told are shrunk back.
-/

namespace Ennbo

open MultiTrustRegionState

section Definitions

variable {D : Type} [Floating D] [Analysis D]

/-- A bound of a dimension; one that is missing panics. -/
def boundAt (bounds : Array2 D) (j side : ℕ) : Outcome D :=
  Outcome.ofOption .panic (bounds.rows[j]?.bind (·[side]?))

/-- Change each entry, given the bounds of its dimension. -/
def mapUnits (f : D → D → D → D) (a bounds : Array2 D) : Outcome (Array2 D) := do
  let rows ← a.rows.mapM fun row => (List.range a.ncols).mapM fun j => do
    let lower ← boundAt bounds j 0
    let upper ← boundAt bounds j 1
    return f lower upper (row.getD j 0)
  candidateMatrix a.ncols rows

def stretchEntry (lower upper u : D) : D := lower + u * (upper - lower)

/-- A dimension without room is put in the middle. -/
def shrinkEntry (lower upper v : D) : D :=
  let range := upper - lower
  if ltB 0 range then (v - lower) / range else literal 5 1

def fromUnit (xUnit bounds : Array2 D) : Outcome (Array2 D) := mapUnits stretchEntry xUnit bounds

def toUnit (x bounds : Array2 D) : Outcome (Array2 D) := mapUnits shrinkEntry x bounds

end Definitions

section Exact

variable {K : Type} [ExactArith K] [Analysis K] {n : ℕ} {bounds a b : Array2 K}

/-- `bounds[[j, side]]` -/
def bound (bounds : Array2 K) (j side : ℕ) : K := (bounds.rows.getD j []).getD side 0

/-- Bounds of `n` dimensions that leave room. -/
structure RoomyBounds (n : ℕ) (bounds : Array2 K) : Prop where
  nrows_eq : bounds.nrows = n
  ncols_eq : bounds.ncols = 2
  lt : ∀ j < n, bound bounds j 0 < bound bounds j 1

/-- A row between the bounds. -/
def InBounds (bounds : Array2 K) (row : List K) : Prop :=
  row.length = bounds.nrows ∧
    ∀ j < bounds.nrows, bound bounds j 0 ≤ row.getD j 0 ∧ row.getD j 0 ≤ bound bounds j 1

omit [Analysis K] in
theorem RoomyBounds.boundAt_eq_ok (h : RoomyBounds n bounds) {j side : ℕ} (hj : j < n)
    (hside : side < 2) : boundAt bounds j side = .ok (bound bounds j side) := by
  have hrow : j < bounds.rows.length := hj.trans_eq h.nrows_eq.symm
  have hwidth : side < (bounds.rows[j]).length := by
    rw [bounds.width _ (List.getElem_mem hrow), h.ncols_eq]
    exact hside
  rw [boundAt, bound, Outcome.ofOption_eq_ok, List.getD_eq_getElem _ _ hrow,
    List.getD_eq_getElem _ _ hwidth]
  simp [hrow, hwidth]

omit [ExactArith K] [Analysis K] in
theorem length_of_mem_map_range {rows : List (List K)} {f : List K → ℕ → K} :
    ∀ row ∈ rows.map fun row => (List.range n).map (f row), row.length = n := by
  intro row hrow
  obtain ⟨_, -, rfl⟩ := List.mem_map.mp hrow
  rw [List.length_map, List.length_range]

omit [Analysis K] in
/-- The entries that a change makes. -/
theorem RoomyBounds.mapUnits_eq_ok_iff (h : RoomyBounds n bounds) (f : K → K → K → K)
    (ha : a.ncols = n) :
    mapUnits f a bounds = .ok b ↔ b.ncols = n ∧ b.rows = a.rows.map fun row =>
      (List.range n).map fun j => f (bound bounds j 0) (bound bounds j 1) (row.getD j 0) := by
  have hrows : (a.rows.mapM fun row => (List.range a.ncols).mapM fun j => do
        let lower ← boundAt bounds j 0
        let upper ← boundAt bounds j 1
        return f lower upper (row.getD j 0)) =
      .ok (a.rows.map fun row => (List.range n).map fun j =>
        f (bound bounds j 0) (bound bounds j 1) (row.getD j 0)) := by
    rw [mapM_ok_iff, List.forall₂_map_right_iff, List.forall₂_same]
    intro row _
    rw [ha, mapM_ok_iff, List.forall₂_map_right_iff, List.forall₂_same]
    intro j hj
    have hj : j < n := List.mem_range.mp hj
    rw [h.boundAt_eq_ok hj two_pos, h.boundAt_eq_ok hj one_lt_two]
    rfl
  have hwidth : ∀ row ∈ a.rows.map fun row => (List.range n).map fun j =>
      f (bound bounds j 0) (bound bounds j 1) (row.getD j 0), row.length = a.ncols :=
    fun row hrow => (length_of_mem_map_range row hrow).trans ha.symm
  unfold mapUnits candidateMatrix
  rw [hrows]
  change (if h : _ then _ else _) = _ ↔ _
  rw [dif_pos hwidth]
  constructor
  · intro heq
    obtain rfl := Except.ok.inj heq
    exact ⟨ha, rfl⟩
  · rintro ⟨hcols, hb⟩
    exact congrArg Except.ok (Array2.eq_of_rows (ha.trans hcols.symm) hb.symm)

omit [Analysis K] in
theorem RoomyBounds.exists_mapUnits (h : RoomyBounds n bounds) (f : K → K → K → K)
    (ha : a.ncols = n) :
    ∃ b, mapUnits f a bounds = .ok b ∧ b.ncols = n ∧ b.rows = a.rows.map fun row =>
      (List.range n).map fun j => f (bound bounds j 0) (bound bounds j 1) (row.getD j 0) :=
  ⟨⟨n, _, length_of_mem_map_range⟩, (h.mapUnits_eq_ok_iff f ha).mpr ⟨rfl, rfl⟩, rfl, rfl⟩

omit [Analysis K] in
theorem RoomyBounds.mapUnits_mapUnits (h : RoomyBounds n bounds) {f g : K → K → K → K}
    (ha : a.ncols = n)
    (hundo : ∀ row ∈ a.rows, ∀ j < n, g (bound bounds j 0) (bound bounds j 1)
      (f (bound bounds j 0) (bound bounds j 1) (row.getD j 0)) = row.getD j 0)
    (hb : mapUnits f a bounds = .ok b) : mapUnits g b bounds = .ok a := by
  obtain ⟨hcols, hrows⟩ := (h.mapUnits_eq_ok_iff f ha).mp hb
  rw [h.mapUnits_eq_ok_iff g hcols]
  refine ⟨ha, ?_⟩
  rw [hrows, List.map_map]
  refine (List.map_id' a.rows).symm.trans (List.map_congr_left fun row hrow => ?_)
  have hlength : row.length = n := (a.width row hrow).trans ha
  refine List.ext_getElem (by simp [hlength]) fun j hj hj' => ?_
  have hjn : j < n := hlength ▸ hj
  have hentry := hundo row hrow j hjn
  rw [List.getD_eq_getElem _ _ hj] at hentry
  simp [List.getD_eq_getElem?_getD, hjn, hj, hentry]

theorem shrinkEntry_stretchEntry {lower upper : K} (h : lower < upper) (u : K) :
    shrinkEntry lower upper (stretchEntry lower upper u) = u := by
  have hrange : 0 < upper - lower := sub_pos.mpr h
  unfold shrinkEntry stretchEntry
  dsimp only
  rw [if_pos (by simpa using hrange), add_sub_cancel_left, mul_div_cancel_right₀ _ hrange.ne']

theorem stretchEntry_shrinkEntry {lower upper : K} (h : lower < upper) (v : K) :
    stretchEntry lower upper (shrinkEntry lower upper v) = v := by
  have hrange : 0 < upper - lower := sub_pos.mpr h
  unfold shrinkEntry stretchEntry
  dsimp only
  rw [if_pos (by simpa using hrange), div_mul_cancel₀ _ hrange.ne', add_sub_cancel]

omit [Analysis K] in
theorem stretchEntry_mem {lower upper u : K} (h : lower < upper) (hu : 0 ≤ u ∧ u ≤ 1) :
    lower ≤ stretchEntry lower upper u ∧ stretchEntry lower upper u ≤ upper := by
  have hrange : 0 ≤ upper - lower := (sub_pos.mpr h).le
  unfold stretchEntry
  refine ⟨le_add_of_nonneg_right (mul_nonneg hu.1 hrange), ?_⟩
  exact add_le_of_le_sub_left (mul_le_of_le_one_left hrange hu.2)

theorem shrinkEntry_mem {lower upper v : K} (h : lower < upper) (hv : lower ≤ v ∧ v ≤ upper) :
    0 ≤ shrinkEntry lower upper v ∧ shrinkEntry lower upper v ≤ 1 := by
  have hrange : 0 < upper - lower := sub_pos.mpr h
  unfold shrinkEntry
  dsimp only
  rw [if_pos (by simpa using hrange)]
  exact ⟨div_nonneg (sub_nonneg.mpr hv.1) hrange.le,
    (div_le_one hrange).mpr (sub_le_sub_right hv.2 lower)⟩

theorem RoomyBounds.exists_fromUnit (h : RoomyBounds n bounds) (ha : a.ncols = n)
    (hunit : ∀ row ∈ a.rows, ∀ c ∈ row, 0 ≤ c ∧ c ≤ 1) :
    ∃ x, fromUnit a bounds = .ok x ∧ x.nrows = a.nrows ∧ (∀ row ∈ x.rows, InBounds bounds row) ∧
      toUnit x bounds = .ok a := by
  obtain ⟨x, hx, hcols, hrows⟩ := h.exists_mapUnits stretchEntry ha
  refine ⟨x, hx, ?_, fun row hrow => ?_, ?_⟩
  · rw [Array2.nrows, hrows, List.length_map]
    rfl
  · refine ⟨(x.width row hrow).trans (hcols.trans h.nrows_eq.symm), fun j hj => ?_⟩
    rw [hrows] at hrow
    obtain ⟨u, hu, rfl⟩ := List.mem_map.mp hrow
    have hjn : j < n := h.nrows_eq ▸ hj
    have hju : j < u.length := (a.width u hu).trans ha ▸ hjn
    have hmem := stretchEntry_mem (h.lt j hjn) (hunit u hu _ (List.getElem_mem hju))
    simpa [List.getD_eq_getElem?_getD, hjn, hju] using hmem
  · exact h.mapUnits_mapUnits ha
      (fun row _ j hj => shrinkEntry_stretchEntry (h.lt j hj) (row.getD j 0)) hx

theorem RoomyBounds.exists_toUnit (h : RoomyBounds n bounds) (ha : a.ncols = n)
    (hin : ∀ row ∈ a.rows, InBounds bounds row) :
    ∃ u, toUnit a bounds = .ok u ∧ (∀ row ∈ u.rows, row.length = n ∧ ∀ c ∈ row, 0 ≤ c ∧ c ≤ 1) ∧
      fromUnit u bounds = .ok a := by
  obtain ⟨u, hu, hcols, hrows⟩ := h.exists_mapUnits shrinkEntry ha
  refine ⟨u, hu, fun row hrow => ⟨(u.width row hrow).trans hcols, fun c hc => ?_⟩, ?_⟩
  · rw [hrows] at hrow
    obtain ⟨v, hv, rfl⟩ := List.mem_map.mp hrow
    obtain ⟨j, hj, rfl⟩ := List.mem_map.mp hc
    have hjn : j < n := List.mem_range.mp hj
    exact shrinkEntry_mem (h.lt j hjn) ((hin v hv).2 j (hjn.trans_eq h.nrows_eq.symm))
  · exact h.mapUnits_mapUnits ha
      (fun row _ j hj => stretchEntry_shrinkEntry (h.lt j hj) (row.getD j 0)) hu

end Exact

namespace TurboSession

variable {K ρ : Type} [ExactArith K] [Analysis K] [Rounding K] [FloatToUsize K] [FloatRem K]
  [ExactOrder K] [ExactLiteral K] [FiniteInterval K] [ExactRem K] [RandomGenerator K ρ]
  [LawfulGenerator K ρ] {limits : TRLengthConfig K} {n numArms : ℕ} {bounds : Array2 K}
  {s : TurboSession K ρ}

def oneBound : Array2 ℚ := ⟨2, [[-1, 3]], by simp⟩

theorem roomyBounds_oneBound : RoomyBounds 1 oneBound where
  nrows_eq := rfl
  ncols_eq := rfl
  lt j hj := by
    obtain rfl := Nat.lt_one_iff.mp hj
    decide

end TurboSession

end Ennbo
