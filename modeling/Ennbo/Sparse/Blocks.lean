import Ennbo.Sparse.Draws
import Mathlib.Data.List.TakeWhile

/-! # Blocks of words

The words of a layout hold codes of four or eight bits. A list of words is cut
into blocks, each a run of words of one width, and so are all words of the layout.
-/

namespace Ennbo

/-- The width of the codes of a word. -/
def bitsOfWord (wordEnds widths : List ℕ) (word : ℕ) : Except String ℕ :=
  let spec := partitionPoint wordEnds word
  if wordEnds.length ≤ spec then throw s!"word {word} is outside the weight layout"
  else
    let bits := widths.getD spec 0
    if bits ≠ 4 ∧ bits ≠ 8 then throw s!"weight word width must be 4 or 8, got {bits}"
    else pure bits

/-- Runs of equal widths. A block is an offset, a length and a width. -/
def blocksFrom (dimension : ℕ) : List ℕ → List (ℕ × ℕ × ℕ) × ℕ
  | [] => ([], dimension)
  | bits :: rest =>
    let length := ((rest.takeWhile (· = bits)).length + 1) * (32 / bits)
    let tail := blocksFrom (dimension + length) (rest.dropWhile (· = bits))
    ((dimension, length, bits) :: tail.1, tail.2)
termination_by l => l.length
decreasing_by
  have := (List.dropWhile_suffix (· = bits) (l := rest)).length_le
  simp only [List.length_cons]
  omega

def blocksForWords (words wordEnds widths : List ℕ) :
    Except String (List (ℕ × ℕ × ℕ) × ℕ) :=
  if wordEnds.length ≠ widths.length then
    throw "word_ends and widths must have the same length"
  else if words = [] then pure ([], 0)
  else do
    let bitsByWord ← words.mapM (bitsOfWord wordEnds widths)
    return blocksFrom 0 bitsByWord

/-- Blocks over words of the given widths. -/
inductive CoversWidths : List (ℕ × ℕ × ℕ) → List ℕ → Prop
  | nil : CoversWidths [] []
  | cons (offset : ℕ) {count bits : ℕ} {blocks : List (ℕ × ℕ × ℕ)} {widths : List ℕ} :
      0 < count → CoversWidths blocks widths →
        CoversWidths ((offset, count * (32 / bits), bits) :: blocks)
          (List.replicate count bits ++ widths)

/-- The runs are blocks over all words. -/
theorem covers_blocksFrom (dimension : ℕ) (widths : List ℕ) :
    CoversWidths (blocksFrom dimension widths).1 widths := by
  induction dimension, widths using blocksFrom.induct with
  | case1 dimension =>
    rw [blocksFrom]
    exact .nil
  | case2 dimension bits rest length ih =>
    have hrun : bits :: rest =
        List.replicate ((rest.takeWhile (· = bits)).length + 1) bits ++
          rest.dropWhile (· = bits) := by
      have hall : rest.takeWhile (· = bits) =
          List.replicate (rest.takeWhile (· = bits)).length bits := by
        apply List.eq_replicate_of_mem
        intro b hb
        simpa using List.mem_takeWhile_imp hb
      rw [List.replicate_succ, List.cons_append, ← hall, List.takeWhile_append_dropWhile]
    have hcovers : CoversWidths ((dimension, length, bits) :: _) _ :=
      .cons dimension (Nat.succ_pos (rest.takeWhile (· = bits)).length) ih
    rw [← hrun] at hcovers
    rwa [blocksFrom]

/-- Ranges of words, each up to an end and of one width. -/
structure WordLayout where
  ranges : List (ℕ × ℕ)
  ascending : ranges.Pairwise fun a b => a.1 ≤ b.1
  widths_eq : ∀ r ∈ ranges, r.2 = 4 ∨ r.2 = 8

def widthIn (ranges : List (ℕ × ℕ)) (word : ℕ) : ℕ :=
  ((ranges.find? fun r => decide (word < r.1)).map Prod.snd).getD 0

def endOf (ranges : List (ℕ × ℕ)) : ℕ := (ranges.getLast?.map Prod.fst).getD 0

/-- A block for each range that is not empty. -/
def rangeBlocks (dimension start : ℕ) : List (ℕ × ℕ) → List (ℕ × ℕ × ℕ)
  | [] => []
  | (stop, bits) :: rest =>
    let length := (stop - start) * (32 / bits)
    if start < stop then (dimension, length, bits) :: rangeBlocks (dimension + length) stop rest
    else rangeBlocks dimension start rest

section Width

variable {ranges : List (ℕ × ℕ)} {r : ℕ × ℕ} {word : ℕ}

theorem widthIn_cons_of_lt (h : word < r.1) : widthIn (r :: ranges) word = r.2 := by
  simp [widthIn, h]

theorem widthIn_cons_of_le (h : r.1 ≤ word) : widthIn (r :: ranges) word = widthIn ranges word := by
  simp [widthIn, not_lt.mpr h]

@[simp] theorem endOf_singleton : endOf [r] = r.1 := rfl

@[simp] theorem endOf_cons_cons (s : ℕ × ℕ) : endOf (r :: s :: ranges) = endOf (s :: ranges) := by
  simp [endOf]

theorem le_endOf (h : ranges.Pairwise fun a b => a.1 ≤ b.1) :
    ∀ r ∈ ranges, r.1 ≤ endOf ranges := by
  induction ranges with
  | nil => simp
  | cons a ranges ih =>
    obtain ⟨ha, h⟩ := List.pairwise_cons.mp h
    cases ranges with
    | nil => simp
    | cons b ranges =>
      rw [endOf_cons_cons, List.forall_mem_cons]
      exact ⟨(ha b List.mem_cons_self).trans (ih h b List.mem_cons_self), ih h⟩

/-- The ranges make blocks over their words. -/
theorem covers_rangeBlocks (h : ranges.Pairwise fun a b => a.1 ≤ b.1) (dimension : ℕ) {start : ℕ}
    (hstart : ∀ r ∈ ranges, start ≤ r.1) :
    CoversWidths (rangeBlocks dimension start ranges)
      ((List.range' start (endOf ranges - start)).map (widthIn ranges)) := by
  induction ranges generalizing dimension start with
  | nil => simpa [rangeBlocks, endOf] using CoversWidths.nil
  | cons r ranges ih =>
    obtain ⟨hr, h⟩ := List.pairwise_cons.mp h
    have hle : start ≤ r.1 := hstart r List.mem_cons_self
    have hend : r.1 ≤ endOf (r :: ranges) := le_endOf (List.pairwise_cons.mpr ⟨hr, h⟩) r (by simp)
    have hrest : endOf (r :: ranges) - r.1 = endOf ranges - r.1 := by
      cases ranges with
      | nil => simp [endOf]
      | cons s ranges => rw [endOf_cons_cons]
    have hsplit : List.range' start (endOf (r :: ranges) - start) =
        List.range' start (r.1 - start) ++ List.range' r.1 (endOf ranges - r.1) := by
      have happ := List.range'_append_1 (s := start) (m := r.1 - start) (n := endOf ranges - r.1)
      rw [show start + (r.1 - start) = r.1 by omega] at happ
      rw [happ]
      congr 1
      omega
    have hhead : (List.range' start (r.1 - start)).map (widthIn (r :: ranges)) =
        List.replicate (r.1 - start) r.2 := by
      apply List.eq_replicate_iff.mpr
      constructor
      · simp
      · intro b hb
        obtain ⟨w, hw, rfl⟩ := List.mem_map.mp hb
        have hw := List.mem_range'_1.mp hw
        exact widthIn_cons_of_lt (by omega)
    have htail : (List.range' r.1 (endOf ranges - r.1)).map (widthIn (r :: ranges)) =
        (List.range' r.1 (endOf ranges - r.1)).map (widthIn ranges) := by
      apply List.map_congr_left
      intro w hw
      exact widthIn_cons_of_le (List.mem_range'_1.mp hw).1
    rw [hsplit, List.map_append, hhead, htail, rangeBlocks]
    split
    next hlt => exact .cons dimension (by omega) (ih h _ hr)
    next hge =>
      have heq : r.1 = start := by omega
      rw [heq, Nat.sub_self, List.replicate_zero, List.nil_append]
      exact ih h dimension fun s hs => heq ▸ hr s hs

theorem partitionPoint_spec :
    (ranges.map Prod.snd).getD (partitionPoint (ranges.map Prod.fst) word) 0 =
      widthIn ranges word := by
  induction ranges with
  | nil => rfl
  | cons r ranges ih =>
    unfold partitionPoint at ih ⊢
    rw [List.map_cons, List.map_cons, List.findIdx_cons]
    by_cases hlt : word < r.1
    · rw [widthIn_cons_of_lt hlt, decide_eq_false (not_le.mpr hlt)]
      rfl
    · rw [widthIn_cons_of_le (not_lt.mp hlt), ← ih, decide_eq_true (not_lt.mp hlt)]
      rfl

theorem exists_range (h : word < endOf ranges) :
    ∃ r ∈ ranges, word < r.1 ∧ widthIn ranges word = r.2 := by
  cases hf : ranges.find? fun r => decide (word < r.1) with
  | some r =>
    refine ⟨r, List.mem_of_find?_eq_some hf, ?_, ?_⟩
    · simpa using List.find?_some hf
    · simp [widthIn, hf]
  | none =>
    cases hlast : ranges.getLast? with
    | none => simp [endOf, hlast] at h
    | some r =>
      have hno := List.find?_eq_none.mp hf r (List.mem_of_getLast? hlast)
      simp [endOf, hlast] at h
      simp [h] at hno

end Width

namespace WordLayout

variable (l : WordLayout) {word : ℕ} {words : List ℕ}

def wordEnds : List ℕ := l.ranges.map Prod.fst

def widths : List ℕ := l.ranges.map Prod.snd

def total : ℕ := endOf l.ranges

def width (word : ℕ) : ℕ := widthIn l.ranges word

theorem width_eq (h : word < l.total) : l.width word = 4 ∨ l.width word = 8 := by
  obtain ⟨r, hr, -, hwidth⟩ := exists_range h
  have hr := l.widths_eq r hr
  rwa [← hwidth] at hr

theorem bitsOfWord_eq (h : word < l.total) :
    bitsOfWord l.wordEnds l.widths word = .ok (l.width word) := by
  obtain ⟨r, hr, hlt, -⟩ := exists_range h
  have hin : partitionPoint l.wordEnds word < l.wordEnds.length := by
    unfold partitionPoint
    rw [List.findIdx_lt_length]
    exact ⟨r.1, List.mem_map_of_mem hr, by simpa using hlt⟩
  have hwidth : l.widths.getD (partitionPoint l.wordEnds word) 0 = l.width word :=
    partitionPoint_spec
  unfold bitsOfWord
  dsimp only
  rw [if_neg (not_le.mpr hin), hwidth, if_neg (by have := l.width_eq h; omega)]
  rfl

theorem exists_blocksForWords (h : ∀ w ∈ words, w < l.total) :
    ∃ blocks dimension, blocksForWords words l.wordEnds l.widths = .ok (blocks, dimension) ∧
      CoversWidths blocks (words.map l.width) := by
  have hbits : words.mapM (bitsOfWord l.wordEnds l.widths) = .ok (words.map l.width) := by
    induction words with
    | nil => rfl
    | cons w words ih =>
      rw [List.forall_mem_cons] at h
      rw [List.mapM_cons, l.bitsOfWord_eq h.1, ih h.2]
      rfl
  unfold blocksForWords
  rw [if_neg (by simp [wordEnds, widths])]
  split
  next hnil =>
    subst hnil
    exact ⟨[], 0, rfl, .nil⟩
  next =>
    rw [hbits]
    exact ⟨_, _, rfl, covers_blocksFrom 0 _⟩

def blocks : List (ℕ × ℕ × ℕ) := rangeBlocks 0 0 l.ranges

theorem covers_blocks : CoversWidths l.blocks ((List.range l.total).map l.width) := by
  have hstart : ∀ r ∈ l.ranges, 0 ≤ r.1 := fun _ _ => Nat.zero_le _
  have h := covers_rangeBlocks l.ascending 0 hstart
  rwa [Nat.sub_zero, ← List.range_eq_range'] at h

end WordLayout

end Ennbo
