import Mathlib.Data.List.Basic
import Mathlib.Tactic.Linarith

/-! # Rows of a flat buffer

A buffer of rows of one width, stored back to back. Writing a row changes that
row and no other one.
-/

namespace Ennbo.Buffer

variable {α : Type*} {width i j n : ℕ} {buf xs : List α}

/-- The entries `[i * width, (i + 1) * width)` of the buffer. -/
def row (width : ℕ) (buf : List α) (i : ℕ) : List α := (buf.drop (i * width)).take width

/-- Overwrite the entries `[i * width, (i + 1) * width)`. -/
def setRow (width : ℕ) (buf : List α) (i : ℕ) (xs : List α) : List α :=
  buf.take (i * width) ++ xs ++ buf.drop ((i + 1) * width)

/-- The buffer holds `n` rows. -/
def Holds (width n : ℕ) (buf : List α) : Prop := buf.length = n * width

theorem end_le (hi : i < n) : (i + 1) * width ≤ n * width := Nat.mul_le_mul_right width hi

theorem length_row (h : Holds width n buf) (hi : i < n) : (row width buf i).length = width := by
  have hend : (i + 1) * width ≤ n * width := end_le hi
  rw [Nat.add_one_mul] at hend
  rw [row, List.length_take, List.length_drop, h]
  omega

theorem Holds.setRow (h : Holds width n buf) (hi : i < n) (hxs : xs.length = width) :
    Holds width n (setRow width buf i xs) := by
  have hend : (i + 1) * width ≤ n * width := end_le hi
  rw [Nat.add_one_mul] at hend
  simp only [Holds, Buffer.setRow, List.length_append, List.length_take, List.length_drop,
    Nat.add_one_mul] at h ⊢
  omega

theorem row_setRow_self (h : Holds width n buf) (hi : i < n) (hxs : xs.length = width) :
    row width (setRow width buf i xs) i = xs := by
  have hend : (i + 1) * width ≤ n * width := end_le hi
  rw [Nat.add_one_mul] at hend
  have hlen : (buf.take (i * width)).length = i * width := by
    rw [List.length_take, h]
    omega
  rw [row, setRow, List.append_assoc, List.drop_left' hlen, List.take_left' hxs]

theorem getElem?_setRow (h : Holds width n buf) (hi : i < n) (hxs : xs.length = width) {p : ℕ}
    (hp : p < i * width ∨ (i + 1) * width ≤ p) : (setRow width buf i xs)[p]? = buf[p]? := by
  have hend : (i + 1) * width ≤ n * width := end_le hi
  rw [Nat.add_one_mul] at hend hp
  have hlen : (buf.take (i * width)).length = i * width := by
    rw [List.length_take, h]
    omega
  rw [setRow, List.append_assoc]
  rcases hp with hp | hp
  · rw [List.getElem?_append_left (by omega), List.getElem?_take_of_lt hp]
  · rw [List.getElem?_append_right (by omega), List.getElem?_append_right (by omega),
      List.getElem?_drop, hlen, hxs, Nat.add_one_mul]
    congr 1
    omega

theorem row_setRow_of_ne (h : Holds width n buf) (hi : i < n) (hxs : xs.length = width)
    (hne : i ≠ j) : row width (setRow width buf i xs) j = row width buf j := by
  apply List.ext_getElem?
  intro p
  rw [row, row, List.getElem?_take, List.getElem?_take]
  split
  next hp =>
    rw [List.getElem?_drop, List.getElem?_drop]
    apply getElem?_setRow h hi hxs
    rcases Nat.lt_or_gt_of_ne hne with hlt | hgt
    · exact Or.inr ((Nat.mul_le_mul_right width hlt).trans (Nat.le_add_right _ _))
    · have hle := Nat.mul_le_mul_right width hgt
      rw [Nat.succ_eq_add_one, Nat.add_one_mul] at hle
      exact Or.inl (by omega)
  next => rfl

theorem setRow_row :
    setRow width buf i (row width buf i) = buf := by
  have hsplit : buf.drop (i * width) =
      row width buf i ++ buf.drop ((i + 1) * width) := by
    rw [row, Nat.add_one_mul, ← List.drop_drop, List.take_append_drop]
  rw [setRow, List.append_assoc, ← hsplit, List.take_append_drop]

section Table

/-- A table of `rows` times `cols` entries, row by row. -/
def table (rows cols : ℕ) (f : ℕ → ℕ → α) : List α :=
  (List.range rows).flatMap fun i => (List.range cols).map (f i)

variable {rows cols : ℕ} {f : ℕ → ℕ → α}

theorem getElem?_flatMap {β : Type*} {g : β → List α} {l : List β}
    (hg : ∀ b ∈ l, (g b).length = cols) (hj : j < cols) {b : β} (hb : l[i]? = some b) :
    (l.flatMap g)[i * cols + j]? = (g b)[j]? := by
  induction l generalizing i with
  | nil => simp at hb
  | cons a l ih =>
    rw [List.forall_mem_cons] at hg
    rw [List.flatMap_cons]
    cases i with
    | zero =>
      obtain rfl := Option.some.inj hb
      rw [Nat.zero_mul, Nat.zero_add, List.getElem?_append_left (by omega)]
    | succ i =>
      rw [Nat.add_one_mul, List.getElem?_append_right (by omega), ← ih hg.2 hb]
      congr 1
      omega

theorem getElem?_flatMap_range {g : ℕ → List α} (hg : ∀ i < rows, (g i).length = cols)
    (hi : i < rows) (hj : j < cols) :
    ((List.range rows).flatMap g)[i * cols + j]? = (g i)[j]? :=
  getElem?_flatMap (fun i hi => hg i (List.mem_range.mp hi)) hj (List.getElem?_range hi)

theorem getElem?_table (hi : i < rows) (hj : j < cols) :
    (table rows cols f)[i * cols + j]? = some (f i j) := by
  unfold table
  rw [getElem?_flatMap_range (fun i _ => by simp) hi hj]
  simp [hj]

theorem getD_table (hi : i < rows) (hj : j < cols) (d : α) :
    (table rows cols f).getD (i * cols + j) d = f i j := by
  rw [List.getD_eq_getElem?_getD, getElem?_table hi hj, Option.getD_some]

theorem table_congr {g : ℕ → ℕ → α} (h : ∀ i < rows, ∀ j < cols, f i j = g i j) :
    table rows cols f = table rows cols g := by
  have hrow : ∀ i ∈ List.range rows, (List.range cols).map (f i) = (List.range cols).map (g i) := by
    intro i hi
    apply List.map_congr_left
    intro j hj
    exact h i (List.mem_range.mp hi) j (List.mem_range.mp hj)
  unfold table
  rw [List.flatMap_def, List.flatMap_def, List.map_congr_left hrow]

theorem table_one : table rows 1 f = (List.range rows).map fun i => f i 0 := by
  unfold table
  rw [List.map_eq_flatMap]
  rfl

theorem length_table : (table rows cols f).length = rows * cols := by
  unfold table
  rw [List.length_flatMap]
  simp

end Table

end Ennbo.Buffer
