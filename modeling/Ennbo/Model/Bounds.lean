import Ennbo.Backend.Search

/-! # Output bounds

Each metric may be confined to an interval. Rows of outputs are stored warped to
the real line and are warped back when they are read on their own scale. The
bounds are kept in the metadata of the work directory.
-/

namespace Ennbo

open BpannBackend (eqB)

/-- The functions of `f64` that the model layer uses beyond arithmetic. -/
class Analysis (D : Type) where
  negInfinity : D
  isFinite : D → Bool
  totalCmp : D → D → Ordering
  neg : D → D
  sqrt : D → D
  exp : D → D
  ln : D → D
  cos : D → D
  pi : D
  /-- The literal `m` times ten to the power of `-e`. -/
  literal : ℕ → ℕ → D
  display : D → String

export Analysis (negInfinity isFinite totalCmp neg sqrt exp ln cos pi literal display)

/-- Rationals stand in for `f64`, those from `10 ^ 40` on for its infinities. -/
instance : Analysis ℚ where
  negInfinity := -10 ^ 40
  isFinite a := decide (-(10 : ℚ) ^ 40 < a ∧ a < 10 ^ 40)
  totalCmp a b := compare a b
  neg a := -a
  sqrt a := (Nat.sqrt a.num.toNat : ℚ) / (Nat.sqrt a.den : ℚ)
  exp a := 1 + a
  ln a := a - 1
  cos a := 1 - a * a / 2
  pi := 355 / 113
  literal m e := (m : ℚ) / 10 ^ e
  display a := toString a

section Compare

variable {D : Type} [Floating D]

def isNan (a : D) : Bool := !eqB a a

/-- `a == b` on matrices. -/
def matrixEq (a b : Array2 D) : Bool :=
  a.ncols == b.ncols && a.nrows == b.nrows &&
    (a.rows.zip b.rows).all fun p => (p.1.zip p.2).all fun e => eqB e.1 e.2

end Compare

namespace Array2

variable {D E : Type}

def ofRow (q : List D) : Array2 D := ⟨q.length, [q], by simp⟩

/-- Change every entry, given its column. -/
def mapCols (f : ℕ → D → E) (a : Array2 D) : Array2 E where
  ncols := a.ncols
  rows := a.rows.map fun row => row.mapIdx f
  width := by
    simp only [List.mem_map, forall_exists_index, and_imp]
    rintro _ row h rfl
    rw [List.length_mapIdx, a.width row h]

def indexed (a : Array2 D) : List ((ℕ × ℕ) × D) :=
  a.rows.zipIdx.flatMap fun row => row.1.zipIdx.map fun entry => ((row.2, entry.2), entry.1)

/-- Put two matrices of one shape together. -/
def zip (a : Array2 D) (b : Array2 E) (h : a.ncols = b.ncols) : Array2 (D × E) where
  ncols := a.ncols
  rows := List.zipWith List.zip a.rows b.rows
  width := by
    intro row hrow
    obtain ⟨i, hi, rfl⟩ := List.getElem_of_mem hrow
    rw [List.getElem_zipWith, List.length_zip, a.width _ (List.getElem_mem _),
      b.width _ (List.getElem_mem _), h, min_self]

@[simp] theorem nrows_mapCols (f : ℕ → D → E) (a : Array2 D) :
    (a.mapCols f).nrows = a.nrows := by
  simp [mapCols, nrows]

@[simp] theorem ncols_mapCols (f : ℕ → D → E) (a : Array2 D) :
    (a.mapCols f).ncols = a.ncols := rfl

/-- The shape as `ndarray` reports it. -/
def shape (a : Array2 D) : List ℕ := [a.nrows, a.ncols]

end Array2

namespace YBounds

variable {D : Type} [Floating D] [Analysis D]

section Entries

omit [Analysis D]

/-- `bounds[[j, 0]]` -/
def lower (bounds : Array2 D) (j : ℕ) : D := (bounds.rows.getD j []).getD 0 0

/-- `bounds[[j, 1]]` -/
def upper (bounds : Array2 D) (j : ℕ) : D := (bounds.rows.getD j []).getD 1 0

end Entries

def unboundedBounds (metrics : ℕ) : Array2 D where
  ncols := 2
  rows := List.replicate metrics [negInfinity, infinity]
  width := by simp +contextual

def isIdentityBounds (bounds : Array2 D) : Bool :=
  (List.range bounds.nrows).all fun j =>
    eqB (lower bounds j) negInfinity && eqB (upper bounds j) infinity

/-- What `validate_bounds` finds wrong with the bounds of one metric. -/
def boundsError (bounds : Array2 D) (i : ℕ) : Option String :=
  let a := lower bounds i
  let b := upper bounds i
  if isNan a || isNan b || (isFinite a && isFinite b && leB b a) then
    some s!"invalid y_bounds row {i}: ({display a}, {display b})"
  else if (!isFinite a && !eqB a negInfinity) || (!isFinite b && !eqB b infinity) then
    some s!"open y_bounds must use -inf/+inf at row {i}"
  else none

def validateBounds (bounds : Array2 D) (metrics : ℕ) : Outcome Unit :=
  if bounds.nrows ≠ metrics ∨ bounds.ncols ≠ 2 then
    throw (.error (.invalidShape [metrics, 2] bounds.shape))
  else
    match (List.range metrics).findSome? (boundsError bounds) with
    | some message => throw (.error (.invalidParameter message))
    | none => pure ()

section Scalars

def warpScalar (y a b : D) : D :=
  match isFinite a, isFinite b with
  | false, false => y
  | true, false => ln (y - a)
  | false, true => neg (ln (b - y))
  | true, true =>
    let u := (y - a) / (b - a)
    ln (u / (1 - u))

def invScalar (z a b : D) : D :=
  match isFinite a, isFinite b with
  | false, false => z
  | true, false => a + exp z
  | false, true => b - exp (neg z)
  | true, true =>
    let s := 1 / (1 + exp (neg z))
    a + (b - a) * s

/-- The derivative of the warp at an output. -/
def warpJacobian (value a b : D) : D :=
  match isFinite a, isFinite b with
  | false, false => 1
  | true, false => 1 / (value - a)
  | false, true => 1 / (b - value)
  | true, true =>
    let u := (value - a) / (b - a)
    1 / ((b - a) * u * (1 - u))

/-- The derivative of the inverse at a stored value. -/
def invJacobian (z a b : D) : D :=
  match isFinite a, isFinite b with
  | false, false => 1
  | true, false => exp z
  | false, true => exp (neg z)
  | true, true =>
    let s := 1 / (1 + exp (neg z))
    (b - a) * s * (1 - s)

def outside (value a b : D) : Bool :=
  !isFinite value || (isFinite a && leB value a) || (isFinite b && leB b value)

/-- `v.abs()` -/
def abs (v : D) : D := if ltB v 0 then neg v else v

end Scalars

def warpY (y bounds : Array2 D) : Outcome (Array2 D) := do
  validateBounds bounds y.ncols
  match y.indexed.find? fun e => outside e.2 (lower bounds e.1.2) (upper bounds e.1.2) with
  | some e =>
    throw (.error (.invalidParameter s!"y[{e.1.1},{e.1.2}] is outside its open bounds"))
  | none => return y.mapCols fun j value => warpScalar value (lower bounds j) (upper bounds j)

theorem warpY_eq_ok {y bounds out : Array2 D} (h : warpY y bounds = .ok out) :
    out = y.mapCols fun j value => warpScalar value (lower bounds j) (upper bounds j) := by
  simp only [warpY, Outcome.bind_eq_ok] at h
  obtain ⟨-, -, h⟩ := h
  split at h
  · simp at h
  · exact (Outcome.pure_eq_ok.mp h).symm

def invY (z bounds : Array2 D) : Array2 D :=
  z.mapCols fun j value => invScalar value (lower bounds j) (upper bounds j)

def warpYvar (y yvar bounds : Array2 D) : Outcome (Array2 D) :=
  if h : y.ncols = yvar.ncols ∧ y.nrows = yvar.nrows then do
    validateBounds bounds y.ncols
    let out := (y.zip yvar h.1).mapCols fun j p =>
      let jac := warpJacobian p.1 (lower bounds j) (upper bounds j)
      jac * jac * p.2
    match out.indexed.find? fun e => !isFinite e.2 with
    | some e =>
      throw (.error (.invalidParameter s!"warped yvar[{e.1.1},{e.1.2}] is not finite"))
    | none => return out
  else throw (.error (.invalidShape y.shape yvar.shape))

theorem shape_warpYvar {y yvar bounds out : Array2 D} (h : warpYvar y yvar bounds = .ok out) :
    out.nrows = y.nrows ∧ out.ncols = y.ncols := by
  unfold warpYvar at h
  split at h
  next hshape =>
    simp only [Outcome.bind_eq_ok] at h
    obtain ⟨-, -, h⟩ := h
    split at h
    · simp at h
    · obtain rfl := Outcome.pure_eq_ok.mp h
      refine ⟨?_, rfl⟩
      rw [Array2.nrows_mapCols]
      unfold Array2.nrows Array2.zip
      have hn : y.rows.length = yvar.rows.length := hshape.2
      rw [List.length_zipWith, hn, min_self]
  · simp at h

def naturalizeYvar (z zvar bounds : Array2 D) (h : z.ncols = zvar.ncols) : Array2 D :=
  (z.zip zvar h).mapCols fun j p =>
    let jac := invJacobian p.1 (lower bounds j) (upper bounds j)
    p.2 * jac * jac

section Metadata

variable {F : Type}

/-- An infinite bound is written as `null` and read by its column. -/
def readEntry (j : ℕ) (v : D) : D :=
  if isFinite v then v else if j = 0 then negInfinity else infinity

def readBound (bounds : Array2 D) : Array2 D := bounds.mapCols readEntry

omit [Floating D] [Analysis D] in
def persistBoundsMetadata (bounds : Array2 D) (dir : WorkDir D F) : WorkDir D F :=
  { dir with metadata := dir.metadata.map fun m => { m with yBounds := some bounds } }

def loadBoundsMetadata (dir : WorkDir D F) (metrics : ℕ) : Outcome (Option (Array2 D)) :=
  match dir.metadata with
  | none => pure none
  | some m =>
    match m.yBounds with
    | none => pure none
    | some stored =>
      if stored.nrows * stored.ncols ≠ metrics * 2 then
        throw (.error (.invalidParameter "persisted y_bounds shape mismatch"))
      else do
        validateBounds (readBound stored) metrics
        return some (readBound stored)

end Metadata

section Natural

/-- Means and standard errors of one entry. -/
structure NormalEntry (D : Type) where
  mu : D
  se : D
  seEpi : D
  seAle : D
  deriving DecidableEq

def naturalizeEntry (bounds : Array2 D) (j : ℕ) (e : NormalEntry D) : NormalEntry D :=
  let a := lower bounds j
  let b := upper bounds j
  let jac := abs (invJacobian e.mu a b)
  ⟨invScalar e.mu a b, e.se * jac, e.seEpi * jac, e.seAle * jac⟩

def naturalize (entries : Array2 (NormalEntry D)) (bounds : Array2 D) : Array2 (NormalEntry D) :=
  if isIdentityBounds bounds then entries else entries.mapCols (naturalizeEntry bounds)

end Natural

section Reading

theorem validateBounds_eq_ok {bounds : Array2 D} {n : ℕ} :
    validateBounds bounds n = .ok () ↔
      bounds.nrows = n ∧ bounds.ncols = 2 ∧ ∀ i < n, boundsError bounds i = none := by
  unfold validateBounds
  split
  next h =>
    constructor
    · simp
    · rintro ⟨h₁, h₂, -⟩
      exact absurd h (by simp [h₁, h₂])
  next h =>
    push Not at h
    have hall : (List.range n).findSome? (boundsError bounds) = none ↔
        ∀ i < n, boundsError bounds i = none := by simp [List.findSome?_eq_none_iff]
    rw [← hall]
    split
    next message hm => simp [hm]
    next hm => simp [hm, h]

/-- Infinities are not finite, and they are numbers. -/
class LawfulBounds (D : Type) [Floating D] [Analysis D] : Prop where
  isFinite_negInfinity : isFinite (negInfinity : D) = false
  isFinite_infinity : isFinite (infinity : D) = false
  eqB_negInfinity : eqB (negInfinity : D) negInfinity = true
  eqB_infinity : eqB (infinity : D) infinity = true

instance : LawfulBounds ℚ where
  isFinite_negInfinity := by decide +kernel
  isFinite_infinity := by decide +kernel
  eqB_negInfinity := by decide +kernel
  eqB_infinity := by decide +kernel

def SameBound (a b : D) : Prop := isFinite b = isFinite a ∧ (isFinite a = true → b = a)

variable {a a' b b' : D}

theorem invScalar_congr (ha : SameBound a a') (hb : SameBound b b') (z : D) :
    invScalar z a' b' = invScalar z a b := by
  unfold invScalar
  rw [ha.1, hb.1]
  rcases hfa : isFinite a <;> rcases hfb : isFinite b <;> simp only [] at *
  · rw [hb.2 hfb]
  · rw [ha.2 hfa]
  · rw [ha.2 hfa, hb.2 hfb]

theorem invJacobian_congr (ha : SameBound a a') (hb : SameBound b b') (z : D) :
    invJacobian z a' b' = invJacobian z a b := by
  unfold invJacobian
  rw [ha.1, hb.1]
  rcases hfa : isFinite a <;> rcases hfb : isFinite b <;> simp only [] at *
  rw [ha.2 hfa, hb.2 hfb]

theorem entries_of_boundsError {bounds : Array2 D} {i : ℕ} (h : boundsError bounds i = none) :
    isNan (lower bounds i) = false ∧ isNan (upper bounds i) = false ∧
      (isFinite (lower bounds i) = false → eqB (lower bounds i) negInfinity = true) ∧
      (isFinite (upper bounds i) = false → eqB (upper bounds i) infinity = true) := by
  unfold boundsError at h
  dsimp only at h
  split at h
  · cases h
  next h₁ =>
    split at h
    · cases h
    next h₂ =>
      simp only [Bool.or_eq_true, Bool.and_eq_true, not_or, Bool.not_eq_true] at h₁
      simp only [Bool.or_eq_true, Bool.and_eq_true, not_or, not_and, Bool.not_eq_eq_eq_not,
        Bool.not_true, Bool.not_eq_false] at h₂
      exact ⟨h₁.1.1, h₁.1.2, h₂.1, h₂.2⟩

omit [Analysis D] in
/-- Two columns are equal when the bounds of every row are. -/
theorem matrixEq_iff {a b : Array2 D} (ha : a.ncols = 2) (hb : b.ncols = 2)
    (hn : a.nrows = b.nrows) :
    matrixEq a b = true ↔ ∀ j < a.nrows,
      eqB (lower a j) (lower b j) = true ∧ eqB (upper a j) (upper b j) = true := by
  have hrow : ∀ (c : Array2 D), c.ncols = 2 → ∀ j (hj : j < c.rows.length),
      c.rows[j] = [lower c j, upper c j] := by
    intro c hc j hj
    obtain ⟨x, y, hxy⟩ := List.length_eq_two.mp ((c.width _ (List.getElem_mem hj)).trans hc)
    simp [lower, upper, List.getD_eq_getElem?_getD, List.getElem?_eq_getElem hj, hxy]
  have hlen : a.rows.length = b.rows.length := hn
  simp only [matrixEq, ha, hb, hn, beq_self_eq_true, Bool.true_and, List.all_eq_true]
  constructor
  · intro h j hj
    have hja : j < a.rows.length := hlen ▸ hj
    have hjb : j < b.rows.length := hj
    have hmem : (a.rows[j], b.rows[j]) ∈ a.rows.zip b.rows := by
      rw [List.mem_iff_getElem]
      exact ⟨j, by simp [hja, hjb], List.getElem_zip⟩
    have h := h _ hmem
    rw [hrow a ha j hja, hrow b hb j hjb] at h
    simpa using h
  · rintro h ⟨r, s⟩ hmem
    obtain ⟨j, hj, he⟩ := List.mem_iff_getElem.mp hmem
    rw [List.length_zip, hlen, min_self] at hj
    rw [List.getElem_zip] at he
    obtain ⟨rfl, rfl⟩ := Prod.mk.inj he
    rw [hrow a ha, hrow b hb]
    simpa using h j hj

theorem lower_unboundedBounds {n j : ℕ} (hj : j < n) :
    lower (unboundedBounds n : Array2 D) j = negInfinity := by
  simp [lower, unboundedBounds, List.getD_eq_getElem?_getD, hj]

theorem upper_unboundedBounds {n j : ℕ} (hj : j < n) :
    upper (unboundedBounds n : Array2 D) j = infinity := by
  simp [upper, unboundedBounds, List.getD_eq_getElem?_getD, hj]

@[simp] theorem nrows_unboundedBounds (n : ℕ) : (unboundedBounds n : Array2 D).nrows = n := by
  simp [unboundedBounds, Array2.nrows]

theorem isIdentityBounds_eq_true {bounds : Array2 D} :
    isIdentityBounds bounds = true ↔ ∀ j < bounds.nrows,
      eqB (lower bounds j) negInfinity = true ∧ eqB (upper bounds j) infinity = true := by
  simp [isIdentityBounds]

theorem matrixEq_unboundedBounds {bounds : Array2 D} (hcols : bounds.ncols = 2) :
    matrixEq bounds (unboundedBounds bounds.nrows) = isIdentityBounds bounds := by
  rw [Bool.eq_iff_iff, isIdentityBounds_eq_true, matrixEq_iff hcols rfl (by simp)]
  refine forall₂_congr fun j hj => ?_
  rw [lower_unboundedBounds hj, upper_unboundedBounds hj]

variable [LawfulBounds D]

theorem isIdentityBounds_unboundedBounds (n : ℕ) :
    isIdentityBounds (unboundedBounds n : Array2 D) = true := by
  rw [isIdentityBounds_eq_true]
  intro j hj
  rw [nrows_unboundedBounds] at hj
  rw [lower_unboundedBounds hj, upper_unboundedBounds hj]
  exact ⟨LawfulBounds.eqB_negInfinity, LawfulBounds.eqB_infinity⟩

theorem sameBound_readEntry (j : ℕ) (v : D) : SameBound v (readEntry j v) := by
  unfold readEntry SameBound
  by_cases hv : isFinite v = true
  · simp [hv]
  · rw [if_neg hv, Bool.not_eq_true] at *
    rw [hv]
    split
    · exact ⟨LawfulBounds.isFinite_negInfinity, by simp⟩
    · exact ⟨LawfulBounds.isFinite_infinity, by simp⟩

omit [LawfulBounds D] in
theorem entry_readBound (bounds : Array2 D) (j c : ℕ) :
    ((readBound bounds).rows.getD j []).getD c 0 =
      if j < bounds.nrows ∧ c < bounds.ncols then
        readEntry c ((bounds.rows.getD j []).getD c 0)
      else (bounds.rows.getD j []).getD c 0 := by
  by_cases hj : j < bounds.nrows
  · have hw := bounds.width bounds.rows[j] (List.getElem_mem hj)
    have hrow : bounds.rows.getD j [] = bounds.rows[j] := List.getD_eq_getElem _ _ hj
    have hread : (readBound bounds).rows.getD j [] = bounds.rows[j].mapIdx readEntry := by
      simp [readBound, Array2.mapCols, List.getD_eq_getElem?_getD, List.getElem?_eq_getElem hj]
    rw [hread, hrow]
    by_cases hc : c < bounds.ncols
    · rw [if_pos ⟨hj, hc⟩, List.getD_eq_getElem _ _ (by rwa [List.length_mapIdx, hw]),
        List.getElem_mapIdx, List.getD_eq_getElem _ _ (by rwa [hw])]
    · rw [if_neg fun h => hc h.2, List.getD_eq_default _ _ (by rw [List.length_mapIdx]; omega),
        List.getD_eq_default _ _ (by omega)]
  · have hlen : bounds.rows.length ≤ j := not_lt.mp hj
    rw [if_neg fun h => hj h.1]
    simp [readBound, Array2.mapCols, List.getD_eq_getElem?_getD, hlen]

theorem sameBound_readBound (bounds : Array2 D) (j c : ℕ) :
    SameBound ((bounds.rows.getD j []).getD c 0) (((readBound bounds).rows.getD j []).getD c 0) := by
  rw [entry_readBound]
  split
  · exact sameBound_readEntry c _
  · exact ⟨rfl, fun _ => rfl⟩

theorem invScalar_readBound (bounds : Array2 D) (j : ℕ) (z : D) :
    invScalar z (lower (readBound bounds) j) (upper (readBound bounds) j) =
      invScalar z (lower bounds j) (upper bounds j) :=
  invScalar_congr (sameBound_readBound bounds j 0) (sameBound_readBound bounds j 1) z

theorem invJacobian_readBound (bounds : Array2 D) (j : ℕ) (z : D) :
    invJacobian z (lower (readBound bounds) j) (upper (readBound bounds) j) =
      invJacobian z (lower bounds j) (upper bounds j) :=
  invJacobian_congr (sameBound_readBound bounds j 0) (sameBound_readBound bounds j 1) z

theorem invY_readBound (z bounds : Array2 D) : invY z (readBound bounds) = invY z bounds := by
  unfold invY
  congr 1
  ext j v
  exact invScalar_readBound bounds j v

theorem naturalizeYvar_readBound (z zvar bounds : Array2 D) (h : z.ncols = zvar.ncols) :
    naturalizeYvar z zvar (readBound bounds) h = naturalizeYvar z zvar bounds h := by
  unfold naturalizeYvar
  congr 1
  ext j p
  dsimp only
  rw [invJacobian_readBound bounds j p.1]

section Valid

variable {bounds : Array2 D} {n : ℕ}

omit [LawfulBounds D] in
theorem lower_readBound (hcols : bounds.ncols = 2) {j : ℕ} (hj : j < bounds.nrows) :
    lower (readBound bounds) j = readEntry 0 (lower bounds j) := by
  unfold lower
  rw [entry_readBound, if_pos ⟨hj, by omega⟩]

omit [LawfulBounds D] in
theorem upper_readBound (hcols : bounds.ncols = 2) {j : ℕ} (hj : j < bounds.nrows) :
    upper (readBound bounds) j = readEntry 1 (upper bounds j) := by
  unfold upper
  rw [entry_readBound, if_pos ⟨hj, by omega⟩]

omit [Analysis D] [LawfulBounds D] in
theorem eqB_self_of_isNan {v : D} (h : isNan v = false) : eqB v v = true := by
  simpa [isNan] using h

omit [LawfulBounds D] in
theorem matrixEq_readBound (h : validateBounds bounds n = .ok ()) :
    matrixEq bounds (readBound bounds) = true := by
  obtain ⟨rfl, hcols, hvalid⟩ := validateBounds_eq_ok.mp h
  refine (matrixEq_iff (b := readBound bounds) hcols hcols
    (Array2.nrows_mapCols _ _).symm).mpr fun j hj => ?_
  obtain ⟨hnan, hnan', hneg, hpos⟩ := entries_of_boundsError (hvalid j hj)
  rw [lower_readBound hcols hj, upper_readBound hcols hj]
  unfold readEntry
  constructor
  · split
    · exact eqB_self_of_isNan hnan
    next hf => exact hneg (Bool.eq_false_iff.mpr hf)
  · split
    · exact eqB_self_of_isNan hnan'
    next hf => exact hpos (Bool.eq_false_iff.mpr hf)

theorem isIdentityBounds_readBound (h : validateBounds bounds n = .ok ()) :
    isIdentityBounds (readBound bounds) = isIdentityBounds bounds := by
  obtain ⟨rfl, hcols, hvalid⟩ := validateBounds_eq_ok.mp h
  rw [Bool.eq_iff_iff, isIdentityBounds_eq_true, isIdentityBounds_eq_true]
  have hn : (readBound bounds).nrows = bounds.nrows := Array2.nrows_mapCols _ _
  rw [hn]
  refine forall₂_congr fun j hj => ?_
  obtain ⟨-, -, hneg, hpos⟩ := entries_of_boundsError (hvalid j hj)
  rw [lower_readBound hcols hj, upper_readBound hcols hj]
  unfold readEntry
  refine and_congr ?_ ?_
  · split
    · rfl
    next hf => simp [hneg (Bool.eq_false_iff.mpr hf), LawfulBounds.eqB_negInfinity]
  · split
    · rfl
    next hf => simp [hpos (Bool.eq_false_iff.mpr hf), LawfulBounds.eqB_infinity]

theorem validateBounds_readBound (h : validateBounds bounds n = .ok ()) :
    validateBounds (readBound bounds) n = .ok () := by
  obtain ⟨rfl, hcols, hvalid⟩ := validateBounds_eq_ok.mp h
  rw [validateBounds_eq_ok]
  refine ⟨Array2.nrows_mapCols _ _, hcols, fun i hi => ?_⟩
  have hv := hvalid i hi
  obtain ⟨hnan, hnan', hneg, hpos⟩ := entries_of_boundsError hv
  unfold boundsError at hv ⊢
  rw [lower_readBound hcols hi, upper_readBound hcols hi]
  have hinf : ∀ v : D, eqB v v = true → isNan v = false := fun v h => by simp [isNan, h]
  rcases hfa : isFinite (lower bounds i) <;> rcases hfb : isFinite (upper bounds i) <;>
    simp [readEntry, hfa, hfb, hnan, hnan', LawfulBounds.isFinite_negInfinity,
      LawfulBounds.isFinite_infinity, LawfulBounds.eqB_negInfinity, LawfulBounds.eqB_infinity,
      hinf] at hv ⊢
  exact hv

theorem loadBoundsMetadata_eq_ok {F : Type} {dir : WorkDir D F} {md : Metadata D}
    (hmd : dir.metadata = some md) (hb : md.yBounds = some bounds)
    (h : validateBounds bounds n = .ok ()) :
    loadBoundsMetadata dir n = .ok (some (readBound bounds)) := by
  obtain ⟨hn, hcols, -⟩ := validateBounds_eq_ok.mp h
  unfold loadBoundsMetadata
  simp only [hmd, hb, hn, hcols]
  rw [if_neg (by simp), validateBounds_readBound h]
  rfl

end Valid

end Reading

end YBounds

end Ennbo
