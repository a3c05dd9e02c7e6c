import Ennbo.Arithmetic
import Ennbo.Outcome
import Mathlib.Data.List.TakeDrop
import Mathlib.Data.List.GetD
import Mathlib.Tactic.Ring

/-! # Column stores

A store keeps the rows of a matrix one after another in a memory-mapped file
that is grown ahead of need. The file is a list of `f64` words, the mapping is
the file, and input or output errors do not occur.
-/

namespace Ennbo

/-- A matrix with its number of columns. -/
structure Array2 (D : Type) where
  ncols : ℕ
  rows : List (List D)
  width : ∀ row ∈ rows, row.length = ncols
  deriving DecidableEq

namespace Array2

variable {D : Type}

def nrows (a : Array2 D) : ℕ := a.rows.length

theorem eq_of_rows {a b : Array2 D} (hn : a.ncols = b.ncols) (hr : a.rows = b.rows) :
    a = b := by
  cases a
  cases b
  subst hn
  subst hr
  rfl

def empty (ncols : ℕ) : Array2 D := ⟨ncols, [], by simp⟩

def column (entries : List D) : Array2 D := ⟨1, entries.map fun v => [v], by simp⟩

theorem length_flatten (a : Array2 D) : a.rows.flatten.length = a.nrows * a.ncols := by
  rw [List.length_flatten, List.map_congr_left a.width, List.map_const', List.sum_replicate_nat,
    nrows]

end Array2

def MMAP_GROW_ROWS : ℕ := 64

/-- A mapped file of which `nrows` rows are in use. -/
structure MmapColumnStore (D : Type) where
  ncols : ℕ
  nrows : ℕ
  mmap : List D
  fits : nrows * ncols ≤ mmap.length
  deriving DecidableEq

variable {D : Type}

/-- `File::set_len`: cut the file, or extend it by zeros. -/
def setLen [Zero D] (file : List D) (len : ℕ) : List D :=
  file.take len ++ List.replicate (len - file.length) 0

theorem length_setLen [Zero D] (file : List D) (len : ℕ) : (setLen file len).length = len := by
  rw [setLen, List.length_append, List.length_take, List.length_replicate]
  omega

theorem take_setLen [Zero D] {file : List D} {len n : ℕ} (hn : n ≤ file.length)
    (hl : n ≤ len) : (setLen file len).take n = file.take n := by
  rw [setLen, List.take_append_of_le_length (by rw [List.length_take]; omega), List.take_take,
    min_eq_left hl]

namespace MmapColumnStore

/-- The words of row `i`. -/
def row (s : MmapColumnStore D) (i : ℕ) : List D := (s.mmap.drop (i * s.ncols)).take s.ncols

def rows (s : MmapColumnStore D) : List (List D) := (List.range s.nrows).map s.row

theorem length_rows (s : MmapColumnStore D) : s.rows.length = s.nrows := by simp [rows]

theorem row_end_le (s : MmapColumnStore D) {i : ℕ} (h : i < s.nrows) :
    i * s.ncols + s.ncols ≤ s.mmap.length := by
  have := Nat.mul_le_mul_right s.ncols (Nat.succ_le_of_lt h)
  rw [Nat.succ_mul] at this
  exact this.trans s.fits

theorem length_row (s : MmapColumnStore D) {i : ℕ} (h : i < s.nrows) :
    (s.row i).length = s.ncols := by
  have := s.row_end_le h
  rw [row, List.length_take, List.length_drop]
  omega

theorem width_rows (s : MmapColumnStore D) : ∀ row ∈ s.rows, row.length = s.ncols := by
  intro row h
  obtain ⟨i, hi, rfl⟩ := List.mem_map.mp h
  exact s.length_row (List.mem_range.mp hi)

theorem length_getD_rows (s : MmapColumnStore D) {i : ℕ} (hi : i < s.nrows) :
    (s.rows.getD i []).length = s.ncols := by
  rw [List.getD_eq_getElem _ _ (by rwa [s.length_rows])]
  exact s.width_rows _ (List.getElem_mem _)

theorem flatten_rows (s : MmapColumnStore D) : s.rows.flatten = s.mmap.take (s.nrows * s.ncols) := by
  have key : ∀ n, ((List.range n).map s.row).flatten = s.mmap.take (n * s.ncols) := by
    intro n
    induction n with
    | zero => simp
    | succ n ih =>
      rw [List.range_succ, List.map_append, List.flatten_append, ih, Nat.succ_mul, List.take_add]
      simp [row]
  exact key s.nrows

section Capacity

/-- The file length that `ensure_capacity` asks for. -/
def grownLen (s : MmapColumnStore D) (needRows : ℕ) : ℕ :=
  (s.nrows + max (needRows - s.nrows) MMAP_GROW_ROWS) * s.ncols

theorem le_grownLen (s : MmapColumnStore D) (needRows : ℕ) :
    s.nrows * s.ncols ≤ s.grownLen needRows :=
  Nat.mul_le_mul_right _ (Nat.le_add_right _ _)

variable [Zero D]

def ensureCapacity (s : MmapColumnStore D) (needRows : ℕ) : MmapColumnStore D :=
  if needRows * s.ncols ≤ s.mmap.length then s
  else
    { s with
      mmap := setLen s.mmap (s.grownLen needRows)
      fits := by rw [length_setLen]; exact s.le_grownLen needRows }

@[simp] theorem ensureCapacity_ncols (s : MmapColumnStore D) (n : ℕ) :
    (s.ensureCapacity n).ncols = s.ncols := by
  rw [ensureCapacity]; split <;> rfl

@[simp] theorem ensureCapacity_nrows (s : MmapColumnStore D) (n : ℕ) :
    (s.ensureCapacity n).nrows = s.nrows := by
  rw [ensureCapacity]; split <;> rfl

theorem le_length_ensureCapacity (s : MmapColumnStore D) (n : ℕ) :
    n * s.ncols ≤ (s.ensureCapacity n).mmap.length := by
  rw [ensureCapacity]
  split
  next h => exact h
  next h =>
    rw [length_setLen]
    exact Nat.mul_le_mul_right _ (by omega)

theorem take_mmap_ensureCapacity (s : MmapColumnStore D) (n : ℕ) :
    (s.ensureCapacity n).mmap.take (s.nrows * s.ncols) = s.mmap.take (s.nrows * s.ncols) := by
  rw [ensureCapacity]
  split
  · rfl
  · exact take_setLen s.fits (s.le_grownLen n)

end Capacity

theorem rows_congr {s t : MmapColumnStore D} (hc : s.ncols = t.ncols) (hr : s.nrows = t.nrows)
    (h : s.mmap.take (s.nrows * s.ncols) = t.mmap.take (s.nrows * s.ncols)) :
    s.rows = t.rows := by
  rw [rows, rows, ← hr]
  refine List.map_congr_left fun i hi => ?_
  have hi := Nat.mul_le_mul_right s.ncols (Nat.succ_le_of_lt (List.mem_range.mp hi))
  rw [Nat.succ_mul] at hi
  have hd := congrArg (fun l => (l.drop (i * s.ncols)).take s.ncols) h
  simp only [List.drop_take, List.take_take] at hd
  rw [min_eq_left (by omega)] at hd
  rw [row, row, ← hc, hd]

theorem rows_ensureCapacity [Zero D] (s : MmapColumnStore D) (n : ℕ) :
    (s.ensureCapacity n).rows = s.rows :=
  rows_congr (by simp) (by simp) (by simpa using s.take_mmap_ensureCapacity n)

/-- Open a file, creating it when it is missing. -/
def mmapOpenOrCreate (file : Option (List D)) (ncols : ℕ) (knownNrows : Option ℕ) :
    Outcome (MmapColumnStore D) :=
  let mmap := file.getD []
  match knownNrows with
  | some nrows =>
    if h : nrows * ncols ≤ mmap.length then pure ⟨ncols, nrows, mmap, h⟩
    else
      throw (.error (.invalidParameter
        s!"known_nrows {nrows} exceeds train file bytes {8 * mmap.length}"))
  | none => pure ⟨ncols, mmap.length / ncols, mmap, Nat.div_mul_le_self _ _⟩

/-- Write `words` at `offset`. -/
def overwrite (file : List D) (offset : ℕ) (words : List D) : List D :=
  file.take offset ++ words ++ file.drop (offset + words.length)

/-- The store after growing to hold `a` and copying its rows behind the rows in use. -/
def pushRows [Zero D] (s : MmapColumnStore D) (a : Array2 D) (h : a.ncols = s.ncols) :
    MmapColumnStore D where
  ncols := s.ncols
  nrows := s.nrows + a.nrows
  mmap :=
    overwrite (s.ensureCapacity (s.nrows + a.nrows)).mmap (s.nrows * s.ncols) a.rows.flatten
  fits := by
    have hl := s.le_length_ensureCapacity (s.nrows + a.nrows)
    rw [Nat.add_mul] at hl ⊢
    rw [overwrite, List.length_append, List.length_append, List.length_take, a.length_flatten,
      h, List.length_drop]
    omega

def mmapAppend [Zero D] (s : MmapColumnStore D) (a : Array2 D) : Outcome (MmapColumnStore D) :=
  if a.nrows = 0 then pure s
  else if h : a.ncols = s.ncols then pure (s.pushRows a h)
  else throw (.error (.invalidShape [s.nrows, s.ncols] [a.nrows, a.ncols]))

def mmapRowSlice (s : MmapColumnStore D) (i : ℕ) : Outcome (List D) :=
  if s.nrows ≤ i then
    throw (.error (.invalidParameter s!"row {i} out of range [0, {s.nrows})"))
  else pure (s.row i)

def mmapGather (s : MmapColumnStore D) (indices : List ℕ) : Outcome (List (List D)) :=
  indices.mapM s.mmapRowSlice

theorem take_overwrite {file words : List D} {offset : ℕ} (h : offset ≤ file.length) :
    (overwrite file offset words).take (offset + words.length) = file.take offset ++ words := by
  have hl : (file.take offset ++ words).length = offset + words.length := by
    rw [List.length_append, List.length_take, min_eq_left h]
  rw [overwrite, ← hl, List.take_left']
  rfl

theorem take_drop_flatten {rows : List (List D)} {width i : ℕ}
    (h : ∀ row ∈ rows, row.length = width) (hi : i < rows.length) :
    (rows.flatten.drop (i * width)).take width = rows[i] := by
  induction rows generalizing i with
  | nil => simp at hi
  | cons row rows ih =>
    have hrow := h row List.mem_cons_self
    rw [List.flatten_cons]
    cases i with
    | zero => simp [← hrow]
    | succ i =>
      have hd : (row ++ rows.flatten).drop ((i + 1) * width) = rows.flatten.drop (i * width) := by
        rw [Nat.add_comm i 1, Nat.add_mul, Nat.one_mul, ← List.drop_drop, ← hrow, List.drop_left]
      rw [hd, List.getElem_cons_succ]
      exact ih (fun r hr => h r (List.mem_cons_of_mem _ hr)) (by simpa using hi)

theorem take_drop_eq_of_take_eq {xs ys : List D} {n start len : ℕ} (h : xs.take n = ys.take n)
    (hn : start + len ≤ n) : (xs.drop start).take len = (ys.drop start).take len := by
  have hd := congrArg (fun l => (l.drop start).take len) h
  simpa only [List.drop_take, List.take_take, min_eq_left (show len ≤ n - start by omega)] using hd

theorem rows_pushRows [Zero D] (s : MmapColumnStore D) (a : Array2 D) (h : a.ncols = s.ncols) :
    (s.pushRows a h).rows = s.rows ++ a.rows := by
  have hcap := s.le_length_ensureCapacity (s.nrows + a.nrows)
  have hflat : a.rows.flatten.length = a.nrows * s.ncols := h ▸ a.length_flatten
  have htake : (s.pushRows a h).mmap.take (s.nrows * s.ncols + a.nrows * s.ncols) =
      s.mmap.take (s.nrows * s.ncols) ++ a.rows.flatten := by
    rw [← s.take_mmap_ensureCapacity (s.nrows + a.nrows), pushRows, ← hflat]
    refine take_overwrite ?_
    rw [Nat.add_mul] at hcap
    omega
  have hpre : (s.mmap.take (s.nrows * s.ncols)).length = s.nrows * s.ncols := by
    rw [List.length_take, min_eq_left s.fits]
  have hn : (s.pushRows a h).nrows = s.nrows + a.nrows := rfl
  have hc : (s.pushRows a h).ncols = s.ncols := rfl
  rw [rows, hn, List.range_add, List.map_append, List.map_map, rows]
  congr 1
  · refine List.map_congr_left fun i hi => ?_
    have hi := Nat.mul_le_mul_right s.ncols (Nat.succ_le_of_lt (List.mem_range.mp hi))
    rw [Nat.succ_mul] at hi
    refine take_drop_eq_of_take_eq (n := s.nrows * s.ncols) ?_ hi
    have := congrArg (List.take (s.nrows * s.ncols)) htake
    rwa [List.take_take, min_eq_left (Nat.le_add_right _ _), List.take_append_of_le_length hpre.ge,
      List.take_take, min_self] at this
  · refine List.ext_getElem (by simp [Array2.nrows]) fun i hi hi' => ?_
    rw [List.getElem_map, List.getElem_range, Function.comp, row, hc]
    rw [← take_drop_flatten (fun r hr => (a.width r hr).trans h) hi']
    have hi := Nat.mul_le_mul_right s.ncols (Nat.succ_le_of_lt hi')
    rw [Nat.succ_mul, ← Array2.nrows] at hi
    have hdrop := congrArg (List.drop (s.nrows * s.ncols)) htake
    rw [List.drop_take, Nat.add_sub_cancel_left, List.drop_left' hpre] at hdrop
    have h2 := congrArg (fun l => (l.drop (i * s.ncols)).take s.ncols) hdrop
    simp only [List.drop_take, List.take_take, List.drop_drop] at h2
    rw [min_eq_left (by omega), ← Nat.add_mul] at h2
    exact h2

theorem mmapAppend_eq_ok [Zero D] {s : MmapColumnStore D} {a : Array2 D}
    (h : a.ncols = s.ncols) :
    ∃ t, s.mmapAppend a = .ok t ∧ t.ncols = s.ncols ∧ t.rows = s.rows ++ a.rows := by
  rw [mmapAppend]
  split
  next hz => exact ⟨s, rfl, rfl, by rw [List.eq_nil_of_length_eq_zero hz, List.append_nil]⟩
  next => exact ⟨s.pushRows a h, rfl, rfl, s.rows_pushRows a h⟩

theorem nrows_eq_length_rows (s : MmapColumnStore D) : s.nrows = s.rows.length := by
  rw [length_rows]

theorem nrows_of_rows {s t : MmapColumnStore D} {rows : List (List D)}
    (h : t.rows = s.rows ++ rows) : t.nrows = s.nrows + rows.length := by
  rw [← length_rows, ← length_rows, h, List.length_append]

theorem rows_of_mmapAppend [Zero D] {s t : MmapColumnStore D} {a : Array2 D}
    (h : s.mmapAppend a = .ok t) : t.ncols = s.ncols ∧ t.rows = s.rows ++ a.rows := by
  rw [mmapAppend] at h
  split at h
  next hz =>
    obtain rfl := Outcome.pure_eq_ok.mp h
    exact ⟨rfl, by rw [List.eq_nil_of_length_eq_zero hz, List.append_nil]⟩
  next =>
    split at h
    next hc =>
      obtain rfl := Outcome.pure_eq_ok.mp h
      exact ⟨rfl, s.rows_pushRows a hc⟩
    next => simp at h

theorem mmapRowSlice_eq {s : MmapColumnStore D} {i : ℕ} (h : i < s.nrows) :
    s.mmapRowSlice i = .ok (s.rows.getD i []) := by
  rw [mmapRowSlice, if_neg (not_le.mpr h), rows]
  simp [h]

theorem mmapGather_range (s : MmapColumnStore D) :
    s.mmapGather (List.range s.nrows) = .ok s.rows := by
  unfold mmapGather rows
  rw [mapM_ok_iff, List.forall₂_map_right_iff, List.forall₂_same]
  intro i hi
  unfold mmapRowSlice
  rw [if_neg (not_le.mpr (List.mem_range.mp hi))]
  rfl

theorem mmapOpenOrCreate_eq_ok {file : Option (List D)} {ncols n : ℕ} {s : MmapColumnStore D}
    (h : mmapOpenOrCreate file ncols (some n) = .ok s) :
    s.ncols = ncols ∧ s.nrows = n ∧ s.mmap = file.getD [] := by
  simp only [mmapOpenOrCreate] at h
  split at h
  · obtain rfl := Outcome.pure_eq_ok.mp h
    exact ⟨rfl, rfl, rfl⟩
  · simp at h

theorem ncols_mmapOpenOrCreate {file : Option (List D)} {ncols : ℕ} {knownNrows : Option ℕ}
    {s : MmapColumnStore D} (h : mmapOpenOrCreate file ncols knownNrows = .ok s) :
    s.ncols = ncols := by
  cases knownNrows with
  | some n => exact (mmapOpenOrCreate_eq_ok h).1
  | none =>
    obtain rfl := Outcome.pure_eq_ok.mp h
    rfl

theorem mmapOpenOrCreate_mmap (s : MmapColumnStore D) :
    mmapOpenOrCreate (some s.mmap) s.ncols (some s.nrows) = .ok s := by
  simp [mmapOpenOrCreate, s.fits]

end MmapColumnStore

end Ennbo
