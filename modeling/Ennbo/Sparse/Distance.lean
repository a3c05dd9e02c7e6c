import Ennbo.Sparse.Blocks
import Ennbo.Sparse.Cache
import Ennbo.Trials.Layout

/-! # Distances of sparse rows

A row of weights is a row of words, and a move flips bits of few of them. Two
moved rows are compared on the words that a move touches only: these are packed
into short rows and cut into blocks of their own.
-/

namespace Ennbo

open SortedMap Trials

/-- A block of quantized weights. Other widths than four and eight bits are rejected. -/
structure WeightBlock (F : Type) where
  offset : ℕ
  length : ℕ
  bits : ℕ
  encoding : EncodingType
  quantizationScale : F
  metricScale : F
  weight : F
  bits_eq : bits = 4 ∨ bits = 8

variable {F : Type} [TrialFloat F]

namespace WeightBlock

def newWithEncoding (offset length bits : ℕ) (encoding : EncodingType)
    (quantizationScale metricScale weight : F) : Except String (WeightBlock F) :=
  if length = 0 then throw "quantized-weight block length must be positive"
  else if h : bits = 4 ∨ bits = 8 then
    match [("quantization_scale", quantizationScale), ("metric_scale", metricScale),
        ("weight", weight)].find? fun p => !isFinite p.2 || flt p.2 0.0 with
    | some (name, _) => throw s!"{name} must be finite and nonnegative"
    | none => pure ⟨offset, length, bits, encoding, quantizationScale, metricScale, weight, h⟩
  else throw s!"quantized-weight block bits must be 4 or 8, got {bits}"

def rowBytes (block : WeightBlock F) : ℕ :=
  if block.bits = 4 then (block.length + 1) / 2 else block.length

end WeightBlock

/-- The code of one element of a block. -/
def codeAt (bits : ℕ) (row : Row) (byteBase element : ℕ) : ℕ :=
  if bits = 4 then
    let shift := if element % 2 = 0 then 0 else 4
    ((row.getD (byteBase + element / 2) 0).toNat >>> shift) &&& 0x0f
  else (row.getD (byteBase + element) 0).toNat

/-- Add the contribution of one element. -/
def accumulate (bits : ℕ) (encoding : EncodingType) (scale weight : F) (left right : Row)
    (byteBase : ℕ) (distance : F) (element : ℕ) : F :=
  let a := decodeCode (codeAt bits left byteBase element) encoding scale
  let b := decodeCode (codeAt bits right byteBase element) encoding scale
  let delta := a - b
  mulAdd delta (delta * weight) distance

/-- The loop of `weight_distance` over the blocks. -/
def weightDistanceFrom (left right : Row) : ℕ → F → List (WeightBlock F) → F
  | _, distance, [] => distance
  | byteBase, distance, block :: blocks =>
    let distance := (List.range block.length).foldl (accumulate block.bits block.encoding
      block.quantizationScale block.weight left right byteBase) distance
    weightDistanceFrom left right (byteBase + block.rowBytes) distance blocks

def weightDistance (left right : Row) (blocks : List (WeightBlock F)) : F :=
  weightDistanceFrom left right 0 0.0 blocks

def toNeBytes (value : BitVec 32) : List UInt8 :=
  (List.range 4).map fun i => UInt8.ofBitVec (value.extractLsb' (8 * i) 8)

def packBytes (values : List (BitVec 32)) : Row := values.flatMap toNeBytes

/-- Flip bits at the places where the words are found. -/
def packRow (binarySearch : List ℕ → ℕ → Option ℕ) (indices : List ℕ) (row : List (BitVec 32)) :
    List (ℕ × Mask) → Except String (List (BitVec 32))
  | [] => pure row
  | (word, mask) :: rest =>
    match binarySearch indices word with
    | some position => packRow binarySearch indices (row.modify position (· ^^^ mask)) rest
    | none => throw s!"sparse word {word} is not indexed"

def packSparseRows (binarySearch : List ℕ → ℕ → Option ℕ) (base : List (BitVec 32))
    (indices : List ℕ) (words : List (List ℕ)) (masks : List (List Mask)) : Except String Row :=
  if base.length ≠ indices.length then
    throw "base and sparse index arrays must have the same length"
  else do
    let rows ← (words.zip masks).mapM fun row =>
      if row.1.length ≠ row.2.length then
        throw "sparse row words and masks must have the same length"
      else packRow binarySearch indices base (row.1.zip row.2)
    return rows.flatMap packBytes

/-- A search that finds some place of each word of a sorted list. -/
structure BinarySearch (binarySearch : List ℕ → ℕ → Option ℕ) : Prop where
  found : ∀ {l : List ℕ} {w p : ℕ}, l.Pairwise (· ≤ ·) → binarySearch l w = some p →
    l[p]? = some w
  exists_of_mem : ∀ {l : List ℕ} {w : ℕ}, l.Pairwise (· ≤ ·) → w ∈ l →
    ∃ p, binarySearch l w = some p

/-- What all blocks of a metric share. -/
structure BlockMetric (F : Type) [TrialFloat F] where
  encoding : EncodingType
  quantizationScale : F
  metricScale : F
  weight : F
  valid : ∀ v ∈ [quantizationScale, metricScale, weight], isFinite v = true ∧ flt v 0.0 = false

def BlockMetric.blocks (metric : BlockMetric F) (raw : List (ℕ × ℕ × ℕ)) :
    Except String (List (WeightBlock F)) :=
  raw.mapM fun block => WeightBlock.newWithEncoding block.1 block.2.1 block.2.2 metric.encoding
    metric.quantizationScale metric.metricScale metric.weight

/-- The distance of two moves on the words of a list. -/
def sparseDistance (binarySearch : List ℕ → ℕ → Option ℕ) (l : WordLayout)
    (metric : BlockMetric F) (base : ℕ → BitVec 32) (m n : Move) (indices : List ℕ) :
    Except String F := do
  let rows ← packSparseRows binarySearch (indices.map base) indices [m.words, n.words]
    [m.masks, n.masks]
  let (raw, _) ← blocksForWords indices l.wordEnds l.widths
  let blocks ← metric.blocks raw
  let rowBytes := (blocks.map WeightBlock.rowBytes).sum
  return weightDistance (rows.take rowBytes) (rows.drop rowBytes) blocks

def fullRow (l : WordLayout) (base : ℕ → BitVec 32) (m : Move) : Row :=
  packBytes ((List.range l.total).map fun w => base w ^^^ m.maskAt w)

/-- The distance of two moves on all words. -/
def fullDistance (l : WordLayout) (metric : BlockMetric F) (base : ℕ → BitVec 32) (m n : Move)
    (raw : List (ℕ × ℕ × ℕ)) : Except String F := do
  let blocks ← metric.blocks raw
  return weightDistance (fullRow l base m) (fullRow l base n) blocks

def BlockMetric.FiniteWord (metric : BlockMetric F) (bits : ℕ) (value : BitVec 32) : Prop :=
  ∀ element < 32 / bits, isFinite (decodeCode (codeAt bits (toNeBytes value) 0 element)
    metric.encoding metric.quantizationScale) = true

/-- All weights of a row are finite. -/
def BlockMetric.FiniteRow (metric : BlockMetric F) (l : WordLayout) (row : ℕ → BitVec 32) : Prop :=
  ∀ w < l.total, metric.FiniteWord (l.width w) (row w)

/-- Exact arithmetic of the trial search, in which what is finite has an opposite. -/
class ExactTrialFloat (F : Type) [TrialFloat F] : Prop where
  isFinite_zero : isFinite (0 : F) = true
  sub_self : ∀ a : F, isFinite a = true → a - a = 0
  zero_mul : ∀ a : F, isFinite a = true → 0 * a = 0
  zero_add : ∀ a : F, 0 + a = a
  mulAdd_eq : ∀ a b c : F, mulAdd a b c = a * b + c

instance : ExactTrialFloat ℚ where
  isFinite_zero := by decide +kernel
  sub_self a _ := sub_self a
  zero_mul a _ := zero_mul a
  zero_add := zero_add
  mulAdd_eq _ _ _ := rfl

section Bytes

variable {values : List (BitVec 32)} {i t bits element : ℕ}

@[simp] theorem length_toNeBytes (value : BitVec 32) : (toNeBytes value).length = 4 := by
  simp [toNeBytes]

@[simp] theorem length_packBytes (values : List (BitVec 32)) :
    (packBytes values).length = 4 * values.length := by
  simp [packBytes, List.length_flatMap, mul_comm]

theorem getD_packBytes (hi : i < values.length) (ht : t < 4) :
    (packBytes values).getD (4 * i + t) 0 = (toNeBytes values[i]).getD t 0 := by
  induction values generalizing i with
  | nil => cases hi
  | cons value values ih =>
    rw [packBytes, List.flatMap_cons]
    cases i with
    | zero =>
      rw [Nat.mul_zero, Nat.zero_add, List.getD_append _ _ _ _ (by simpa using ht)]
      rfl
    | succ i =>
      rw [List.getD_append_right _ _ _ _ (by simp; omega), length_toNeBytes,
        show 4 * (i + 1) + t - 4 = 4 * i + t by omega, List.getElem_cons_succ]
      exact ih (Nat.lt_of_succ_lt_succ hi)

theorem codeAt_packBytes (hbits : bits = 4 ∨ bits = 8) {j count : ℕ}
    (hi : j + count < values.length) (he : element < 32 / bits) :
    codeAt bits (packBytes values) (4 * j) (count * (32 / bits) + element) =
      codeAt bits (toNeBytes values[j + count]) 0 element := by
  unfold codeAt
  rcases hbits with rfl | rfl
  · have he : element < 8 := he
    have hbyte := getD_packBytes hi (t := element / 2) (by omega)
    rw [if_pos rfl, if_pos rfl,
      show 4 * j + (count * (32 / 4) + element) / 2 = 4 * (j + count) + element / 2 by omega,
      hbyte, show (count * (32 / 4) + element) % 2 = element % 2 by omega, Nat.zero_add]
  · have he : element < 4 := he
    have hbyte := getD_packBytes hi he
    rw [if_neg (by omega), if_neg (by omega),
      show 4 * j + (count * (32 / 8) + element) = 4 * (j + count) + element by omega, hbyte,
      Nat.zero_add]

end Bytes

section Words

variable {metric : BlockMetric F} {left right : List (BitVec 32)} {bits : ℕ}

/-- Add the contribution of one word, given with its width and its two values. -/
def accumulateWord (metric : BlockMetric F) (distance : F) (word : ℕ × BitVec 32 × BitVec 32) :
    F :=
  (List.range (32 / word.1)).foldl (accumulate word.1 metric.encoding metric.quantizationScale
    metric.weight (toNeBytes word.2.1) (toNeBytes word.2.2) 0) distance

/-- The elements of a block are those of its words. -/
theorem foldl_accumulate (metric : BlockMetric F) (hbits : bits = 4 ∨ bits = 8)
    (hlen : left.length = right.length) {j count : ℕ} (hcount : j + count ≤ left.length)
    (distance : F) :
    (List.range (count * (32 / bits))).foldl (accumulate bits metric.encoding
        metric.quantizationScale metric.weight (packBytes left) (packBytes right) (4 * j))
        distance =
      ((List.replicate count bits).zip ((left.drop j).zip (right.drop j))).foldl
        (accumulateWord metric) distance := by
  induction count with
  | zero => simp
  | succ count ih =>
    have hl : j + count < left.length := by omega
    have hr : j + count < right.length := by omega
    have hword : ∀ d, ((List.range (32 / bits)).map (count * (32 / bits) + ·)).foldl
        (accumulate bits metric.encoding metric.quantizationScale metric.weight (packBytes left)
          (packBytes right) (4 * j)) d =
        accumulateWord metric d (bits, left[j + count], right[j + count]) := by
      intro d
      rw [List.foldl_map, accumulateWord]
      apply List.foldl_ext
      intro d element he
      have he := List.mem_range.mp he
      unfold accumulate
      rw [codeAt_packBytes hbits hl he, codeAt_packBytes hbits hr he]
    have hzip : (List.replicate (count + 1) bits).zip ((left.drop j).zip (right.drop j)) =
        (List.replicate count bits).zip ((left.drop j).zip (right.drop j)) ++
          [(bits, left[j + count], right[j + count])] := by
      apply List.ext_getElem
      · simp
        omega
      · intro i h₁ h₂
        simp only [List.length_zip, List.length_replicate, List.length_drop] at h₁
        rw [List.getElem_append]
        split
        next => simp
        next hge =>
          obtain rfl : i = count := by
            simp only [List.length_zip, List.length_replicate, List.length_drop] at hge
            omega
          simp
    have hrange : List.range ((count + 1) * (32 / bits)) = List.range (count * (32 / bits)) ++
        (List.range (32 / bits)).map (count * (32 / bits) + ·) := by
      rw [← List.range_add, ← Nat.succ_mul]
    rw [hrange, List.foldl_append, ih (by omega), hword, hzip, List.foldl_append]
    rfl

omit [TrialFloat F] in
theorem zip_append_left {α β : Type} (l₁ l₂ : List α) (r : List β) :
    (l₁ ++ l₂).zip r = l₁.zip r ++ l₂.zip (r.drop l₁.length) := by
  induction l₁ generalizing r with
  | nil => rfl
  | cons a l₁ ih =>
    cases r with
    | nil => simp
    | cons b r => simp [ih]

theorem newWithEncoding_eq (metric : BlockMetric F) {length : ℕ} (offset : ℕ)
    (hlength : 0 < length) (hbits : bits = 4 ∨ bits = 8) :
    WeightBlock.newWithEncoding offset length bits metric.encoding metric.quantizationScale
        metric.metricScale metric.weight =
      .ok ⟨offset, length, bits, metric.encoding, metric.quantizationScale, metric.metricScale,
        metric.weight, hbits⟩ := by
  have hnone : ([("quantization_scale", metric.quantizationScale),
      ("metric_scale", metric.metricScale), ("weight", metric.weight)].find?
        fun p => !isFinite p.2 || flt p.2 0.0) = none := by
    have hvalid := metric.valid
    simp only [List.forall_mem_cons, List.not_mem_nil, false_implies, implies_true] at hvalid
    simp [hvalid]
  unfold WeightBlock.newWithEncoding
  rw [if_neg hlength.ne', dif_pos hbits, hnone]
  rfl

/-- Blocks over words read these words. -/
structure ReadsWords (blocks : List (WeightBlock F)) (metric : BlockMetric F)
    (widths : List ℕ) : Prop where
  rowBytes_eq : (blocks.map WeightBlock.rowBytes).sum = 4 * widths.length
  distance_eq : ∀ {left right : List (BitVec 32)} {j : ℕ} (distance : F),
    left.length = j + widths.length → right.length = j + widths.length →
    weightDistanceFrom (packBytes left) (packBytes right) (4 * j) distance blocks =
      (widths.zip ((left.drop j).zip (right.drop j))).foldl (accumulateWord metric) distance

theorem exists_blocks (metric : BlockMetric F) {raw : List (ℕ × ℕ × ℕ)} {widths : List ℕ}
    (h : CoversWidths raw widths) (hwidths : ∀ b ∈ widths, b = 4 ∨ b = 8) :
    ∃ blocks, metric.blocks raw = .ok blocks ∧ ReadsWords blocks metric widths := by
  induction h with
  | nil =>
    refine ⟨[], rfl, rfl, ?_⟩
    intro left right j distance _ _
    rfl
  | @cons offset count bits raw widths hcount _ ih =>
    rw [List.forall_mem_append] at hwidths
    obtain ⟨blocks, hblocks, hreads⟩ := ih hwidths.2
    have hbits : bits = 4 ∨ bits = 8 := hwidths.1 bits (List.mem_replicate.mpr ⟨by omega, rfl⟩)
    have hpos : 0 < count * (32 / bits) := by
      rcases hbits with rfl | rfl
      · omega
      · omega
    refine ⟨⟨offset, count * (32 / bits), bits, metric.encoding, metric.quantizationScale,
      metric.metricScale, metric.weight, hbits⟩ :: blocks, ?_, ?_⟩
    · unfold BlockMetric.blocks at hblocks ⊢
      rw [List.mapM_cons, newWithEncoding_eq metric offset hpos hbits, hblocks]
      rfl
    · have hbytes : WeightBlock.rowBytes (F := F) ⟨offset, count * (32 / bits), bits,
          metric.encoding, metric.quantizationScale, metric.metricScale, metric.weight, hbits⟩ =
          4 * count := by
        unfold WeightBlock.rowBytes
        rcases hbits with rfl | rfl
        · dsimp only
          rw [if_pos rfl]
          omega
        · dsimp only
          rw [if_neg (by omega)]
          omega
      constructor
      · rw [List.map_cons, List.sum_cons, hbytes, hreads.rowBytes_eq, List.length_append,
          List.length_replicate, Nat.mul_add]
      · intro left right j distance hl hr
        rw [List.length_append, List.length_replicate] at hl hr
        rw [weightDistanceFrom, hbytes, ← Nat.mul_add]
        dsimp only
        rw [foldl_accumulate metric hbits (hl.trans hr.symm) (by omega),
          hreads.distance_eq _ (by omega) (by omega), ← List.foldl_append]
        congr 1
        rw [zip_append_left, List.length_replicate]
        simp only [List.zip_eq_zipWith, List.drop_zipWith, List.drop_drop]

theorem ReadsWords.weightDistance_eq {α : Type} {blocks : List (WeightBlock F)}
    {metric : BlockMetric F} {places : List α} {width : α → ℕ}
    (h : ReadsWords blocks metric (places.map width)) (left right : α → BitVec 32) :
    weightDistance (packBytes (places.map left)) (packBytes (places.map right)) blocks =
      (places.map fun p => (width p, left p, right p)).foldl (accumulateWord metric) 0.0 := by
  have hread : weightDistanceFrom (packBytes (places.map left)) (packBytes (places.map right))
      (4 * 0) 0.0 blocks = _ := h.distance_eq 0.0 (by simp) (by simp)
  rw [Nat.mul_zero, List.drop_zero, List.drop_zero, List.zip_map', List.zip_map'] at hread
  exact hread

theorem fullDistance_eq {l : WordLayout} {raw : List (ℕ × ℕ × ℕ)} (metric : BlockMetric F)
    (h : CoversWidths raw ((List.range l.total).map l.width)) (base : ℕ → BitVec 32) (m n : Move) :
    fullDistance l metric base m n raw =
      .ok (((List.range l.total).map fun w =>
        (l.width w, base w ^^^ m.maskAt w, base w ^^^ n.maskAt w)).foldl
          (accumulateWord metric) 0.0) := by
  have hwidths : ∀ b ∈ (List.range l.total).map l.width, b = 4 ∨ b = 8 := by
    rintro b hb
    obtain ⟨w, hw, rfl⟩ := List.mem_map.mp hb
    exact l.width_eq (List.mem_range.mp hw)
  obtain ⟨blocks, hblocks, hreads⟩ := exists_blocks metric h hwidths
  unfold fullDistance fullRow
  rw [hblocks, ← hreads.weightDistance_eq]
  rfl

end Words

section Packing

variable {binarySearch : List ℕ → ℕ → Option ℕ} {indices : List ℕ} {entries : List (ℕ × Mask)}
  {row : List (BitVec 32)} {word : ℕ} {mask : Mask}

/-- The bits that are flipped at a place of the list. -/
def flips (binarySearch : List ℕ → ℕ → Option ℕ) (indices : List ℕ) (entries : List (ℕ × Mask))
    (place : ℕ × ℕ) : Mask :=
  if binarySearch indices place.1 = some place.2 then (entries.lookup place.1).getD 0 else 0

/-- Bits are flipped at the place where the word is found, and nowhere else. -/
theorem flips_cons (hascending : Ascending ((word, mask) :: entries)) {p : ℕ}
    (hp : binarySearch indices word = some p) (hword : indices[p]? = some word) {w i : ℕ}
    (hi : indices[i]? = some w) :
    flips binarySearch indices ((word, mask) :: entries) (w, i) =
      (if i = p then mask else 0) ^^^ flips binarySearch indices entries (w, i) := by
  unfold flips
  dsimp only
  rw [lookup_cons]
  by_cases hip : i = p
  · subst hip
    obtain rfl : word = w := Option.some.inj (hword.symm.trans hi)
    have hnone : entries.lookup word = none :=
      lookup_eq_none fun e he => (ascending_cons.mp hascending).1 e he
    simp [hp, hnone]
  · have hne : binarySearch indices w = some i → w ≠ word := by
      rintro hw rfl
      exact hip (Option.some.inj (hw.symm.trans hp))
    rw [if_neg hip]
    split
    next hw => simp [hne hw]
    next => simp

theorem packRow_eq (hsearch : BinarySearch binarySearch) (hsorted : indices.Pairwise (· ≤ ·))
    (hascending : Ascending entries) (hmem : ∀ e ∈ entries, e.1 ∈ indices)
    (hlen : row.length = indices.length) :
    packRow binarySearch indices row entries =
      .ok (List.zipWith (fun value place => value ^^^ flips binarySearch indices entries place)
        row indices.zipIdx) := by
  induction entries generalizing row with
  | nil =>
    have hsame : List.zipWith (fun value place => value ^^^ flips binarySearch indices [] place)
        row indices.zipIdx = row := by
      apply List.ext_getElem
      · simp [hlen]
      · intro i h₁ h₂
        simp [flips]
    rw [hsame]
    rfl
  | cons e entries ih =>
    obtain ⟨word, mask⟩ := e
    rw [List.forall_mem_cons] at hmem
    obtain ⟨p, hp⟩ := hsearch.exists_of_mem hsorted hmem.1
    have hword := hsearch.found hsorted hp
    rw [packRow, hp]
    dsimp only
    rw [ih (ascending_cons.mp hascending).2 hmem.2 (by rw [List.length_modify, hlen])]
    congr 1
    apply List.ext_getElem
    · simp
    · intro i h₁ h₂
      simp only [List.length_zipWith, List.length_zipIdx] at h₂
      have hi : indices[i]? = some indices[i] := List.getElem?_eq_getElem (by omega)
      rw [List.getElem_zipWith, List.getElem_zipWith, List.getElem_modify, List.getElem_zipIdx,
        Nat.zero_add, flips_cons hascending hp hword hi]
      split
      next hpi => simp [hpi, BitVec.xor_assoc]
      next hpi => simp [Ne.symm hpi]

/-- Two moves are packed one after the other. -/
theorem packSparseRows_eq (hsearch : BinarySearch binarySearch)
    (hsorted : indices.Pairwise (· ≤ ·)) {m n : Move} (hm : ∀ w ∈ m.words, w ∈ indices)
    (hn : ∀ w ∈ n.words, w ∈ indices) (base : ℕ → BitVec 32) :
    packSparseRows binarySearch (indices.map base) indices [m.words, n.words]
        [m.masks, n.masks] =
      .ok (packBytes (indices.zipIdx.map fun p =>
          base p.1 ^^^ flips binarySearch indices m.entries p) ++
        packBytes (indices.zipIdx.map fun p =>
          base p.1 ^^^ flips binarySearch indices n.entries p)) := by
  have hrow : ∀ o : Move, (∀ w ∈ o.words, w ∈ indices) →
      packRow binarySearch indices (indices.map base) o.entries =
        .ok (indices.zipIdx.map fun p =>
          base p.1 ^^^ flips binarySearch indices o.entries p) := by
    intro o ho
    rw [packRow_eq hsearch hsorted o.ascending
      (fun e he => ho e.1 (List.mem_map_of_mem he)) (List.length_map base)]
    congr 1
    apply List.ext_getElem
    · simp
    · intro i h₁ h₂
      simp
  unfold packSparseRows
  rw [if_neg (by simp), List.zip_cons_cons, List.zip_cons_cons, List.zip_nil_left, List.mapM_cons,
    List.mapM_cons, List.mapM_nil, if_neg (not_not.mpr m.length_words),
    if_neg (not_not.mpr n.length_words), Move.zip_words_masks, Move.zip_words_masks, hrow m hm,
    hrow n hn]
  change Except.ok _ = Except.ok _
  simp [List.flatMap_cons]

end Packing

section Exact

variable [ExactTrialFloat F]

/-- A finite element that both rows hold adds nothing. -/
theorem accumulate_self (metric : BlockMetric F) {bits element : ℕ} {row : Row} (distance : F)
    (hfinite : isFinite (decodeCode (codeAt bits row 0 element) metric.encoding
      metric.quantizationScale) = true) :
    accumulate bits metric.encoding metric.quantizationScale metric.weight row row 0 distance
      element = distance := by
  have hweight : isFinite metric.weight = true := (metric.valid metric.weight (by simp)).1
  unfold accumulate
  dsimp only
  rw [ExactTrialFloat.mulAdd_eq, ExactTrialFloat.sub_self _ hfinite,
    ExactTrialFloat.zero_mul _ hweight, ExactTrialFloat.zero_mul _ ExactTrialFloat.isFinite_zero,
    ExactTrialFloat.zero_add]

theorem accumulateWord_self (metric : BlockMetric F) (distance : F) {bits : ℕ}
    {value : BitVec 32} (hfinite : metric.FiniteWord bits value) :
    accumulateWord metric distance (bits, value, value) = distance := by
  have hloop : ∀ elements : List ℕ, (∀ e ∈ elements, e < 32 / bits) →
      elements.foldl (accumulate bits metric.encoding metric.quantizationScale metric.weight
        (toNeBytes value) (toNeBytes value) 0) distance = distance := by
    intro elements helements
    induction elements with
    | nil => rfl
    | cons element elements ih =>
      rw [List.forall_mem_cons] at helements
      rw [List.foldl_cons, accumulate_self metric distance (hfinite element helements.1),
        ih helements.2]
  exact hloop (List.range (32 / bits)) fun _ => List.mem_range.mp

theorem foldl_accumulateWord (metric : BlockMetric F) (distance : F)
    {words : List (ℕ × BitVec 32 × BitVec 32)}
    (hfinite : ∀ word ∈ words, metric.FiniteWord word.1 word.2.1) :
    words.foldl (accumulateWord metric) distance =
      (words.filter fun word => word.2.1 ≠ word.2.2).foldl (accumulateWord metric) distance := by
  induction words generalizing distance with
  | nil => rfl
  | cons word words ih =>
    obtain ⟨bits, left, right⟩ := word
    rw [List.forall_mem_cons] at hfinite
    by_cases heq : left = right
    · subst heq
      rw [List.filter_cons_of_neg (by simp), List.foldl_cons,
        accumulateWord_self metric distance hfinite.1, ih distance hfinite.2]
    · rw [List.filter_cons_of_pos (by simpa using heq), List.foldl_cons, List.foldl_cons,
        ih _ hfinite.2]

variable {binarySearch : List ℕ → ℕ → Option ℕ} {indices : List ℕ} {m n : Move}

/-- The places whose words the two moves change differently. -/
def places (binarySearch : List ℕ → ℕ → Option ℕ) (indices : List ℕ) (m n : Move) :
    List (ℕ × ℕ) :=
  indices.zipIdx.filter fun p =>
    decide (binarySearch indices p.1 = some p.2 ∧ m.maskAt p.1 ≠ n.maskAt p.1)

theorem mem_places {p : ℕ × ℕ} : p ∈ places binarySearch indices m n ↔
    indices[p.2]? = some p.1 ∧ binarySearch indices p.1 = some p.2 ∧
      m.maskAt p.1 ≠ n.maskAt p.1 := by
  rw [places, List.mem_filter, List.mem_zipIdx_iff_getElem?, decide_eq_true_iff]

theorem pairwise_places (hsorted : indices.Pairwise (· ≤ ·)) :
    ((places binarySearch indices m n).map Prod.fst).Pairwise (· < ·) := by
  have hzip : indices.zipIdx.Pairwise fun p q => p.1 ≤ q.1 ∧ p.2 < q.2 := by
    rw [List.pairwise_iff_getElem]
    intro i j hi hj hij
    rw [List.getElem_zipIdx, List.getElem_zipIdx]
    exact ⟨List.pairwise_iff_getElem.mp hsorted i j _ _ hij, by omega⟩
  rw [List.pairwise_map]
  apply (hzip.sublist List.filter_sublist).imp_of_mem
  rintro p q hp hq ⟨hle, hlt⟩
  apply lt_of_le_of_ne hle
  intro heq
  have hplace := (mem_places.mp hp).2.1
  rw [heq, (mem_places.mp hq).2.1] at hplace
  exact hlt.ne (Option.some.inj hplace).symm

/-- The words that the moves change differently are found, whatever else the list has. -/
theorem map_fst_places (hsearch : BinarySearch binarySearch)
    (hsorted : indices.Pairwise (· ≤ ·)) {total : ℕ} (hindices : ∀ w ∈ indices, w < total)
    (hm : ∀ w ∈ m.words, w ∈ indices) (hn : ∀ w ∈ n.words, w ∈ indices) :
    (places binarySearch indices m n).map Prod.fst =
      (List.range total).filter fun w => decide (m.maskAt w ≠ n.maskAt w) := by
  have hplaces : ((places binarySearch indices m n).map Prod.fst).Pairwise (· < ·) :=
    pairwise_places hsorted
  have hrange : ((List.range total).filter fun w => decide (m.maskAt w ≠ n.maskAt w)).Pairwise
      (· < ·) := List.pairwise_lt_range.filter _
  apply List.Perm.eq_of_pairwise (fun _ _ _ _ h h' => absurd h h'.asymm) hplaces hrange
  apply (List.perm_ext_iff_of_nodup (hplaces.imp ne_of_lt) (hrange.imp ne_of_lt)).mpr
  intro w
  rw [List.mem_filter, List.mem_range, decide_eq_true_iff]
  constructor
  · rintro hw
    obtain ⟨p, hp, rfl⟩ := List.mem_map.mp hw
    obtain ⟨hindex, -, hne⟩ := mem_places.mp hp
    exact ⟨hindices p.1 (List.mem_of_getElem? hindex), hne⟩
  · rintro ⟨-, hne⟩
    have hw : w ∈ indices := by
      by_contra hw
      rw [m.maskAt_eq_zero fun h => hw (hm w h), n.maskAt_eq_zero fun h => hw (hn w h)] at hne
      exact hne rfl
    obtain ⟨p, hp⟩ := hsearch.exists_of_mem hsorted hw
    exact List.mem_map.mpr ⟨(w, p), mem_places.mpr ⟨hsearch.found hsorted hp, hp, hne⟩, rfl⟩

/-- The words that differ are the same, whether all words are read or those of a list. -/
theorem filter_words_eq (hsearch : BinarySearch binarySearch)
    (hsorted : indices.Pairwise (· ≤ ·)) {total : ℕ} (hindices : ∀ w ∈ indices, w < total)
    (hm : ∀ w ∈ m.words, w ∈ indices) (hn : ∀ w ∈ n.words, w ∈ indices) (width : ℕ → ℕ)
    (base : ℕ → BitVec 32) :
    (indices.zipIdx.map fun p => (width p.1, base p.1 ^^^ flips binarySearch indices m.entries p,
        base p.1 ^^^ flips binarySearch indices n.entries p)).filter
          (fun word => word.2.1 ≠ word.2.2) =
      ((List.range total).map fun w =>
        (width w, base w ^^^ m.maskAt w, base w ^^^ n.maskAt w)).filter
          (fun word => word.2.1 ≠ word.2.2) := by
  let value := fun w => (width w, base w ^^^ m.maskAt w, base w ^^^ n.maskAt w)
  have hflips : ∀ (o : Move) {p : ℕ × ℕ}, binarySearch indices p.1 = some p.2 →
      flips binarySearch indices o.entries p = o.maskAt p.1 := fun o p hp => if_pos hp
  have hfilter : indices.zipIdx.filter (fun p =>
      decide (base p.1 ^^^ flips binarySearch indices m.entries p ≠
        base p.1 ^^^ flips binarySearch indices n.entries p)) =
      places binarySearch indices m n := by
    apply List.filter_congr
    intro p _
    rw [decide_eq_decide, Ne, BitVec.xor_right_inj]
    constructor
    · intro hne
      have hp : binarySearch indices p.1 = some p.2 := by
        by_contra hp
        exact hne (by simp [flips, hp])
      rw [hflips m hp, hflips n hp] at hne
      exact ⟨hp, hne⟩
    · rintro ⟨hp, hne⟩
      rwa [hflips m hp, hflips n hp]
  have hmoved : (List.range total).filter (fun w =>
      decide (base w ^^^ m.maskAt w ≠ base w ^^^ n.maskAt w)) =
      (places binarySearch indices m n).map Prod.fst := by
    rw [map_fst_places hsearch hsorted hindices hm hn]
    apply List.filter_congr
    intro w _
    rw [decide_eq_decide, Ne, BitVec.xor_right_inj]
  rw [List.filter_map, List.filter_map]
  refine (congrArg _ hfilter).trans (Eq.trans ?_ (congrArg (List.map value) hmoved).symm)
  rw [List.map_map]
  apply List.map_congr_left
  intro p hp
  have hp := (mem_places.mp hp).2.1
  dsimp only [Function.comp_apply, value]
  rw [hflips m hp, hflips n hp]

theorem flips_cases (binarySearch : List ℕ → ℕ → Option ℕ) (indices : List ℕ) (m : Move)
    (p : ℕ × ℕ) : flips binarySearch indices m.entries p = 0 ∨
      flips binarySearch indices m.entries p = m.maskAt p.1 := by
  unfold flips
  split
  · exact .inr rfl
  · exact .inl rfl

omit [ExactTrialFloat F] in
/-- The words of a list are those of the row or of the moved row. -/
theorem finite_flips {l : WordLayout} {metric : BlockMetric F} {base : ℕ → BitVec 32}
    (hbase : metric.FiniteRow l base) (hmoved : metric.FiniteRow l fun w => base w ^^^ m.maskAt w)
    {p : ℕ × ℕ} (hp : p.1 < l.total) :
    metric.FiniteWord (l.width p.1) (base p.1 ^^^ flips binarySearch indices m.entries p) := by
  rcases flips_cases binarySearch indices m p with hzero | hmask
  · have hsame : base p.1 ^^^ 0 = base p.1 := BitVec.xor_zero
    rw [hzero, hsame]
    exact hbase p.1 hp
  · rw [hmask]
    exact hmoved p.1 hp

/-- The distance of two moves needs the words that they touch only. -/
theorem sparseDistance_eq (hsearch : BinarySearch binarySearch) (l : WordLayout)
    (metric : BlockMetric F) (base : ℕ → BitVec 32) (m n : Move)
    (hsorted : indices.Pairwise (· ≤ ·)) (hindices : ∀ w ∈ indices, w < l.total)
    (hunion : ∀ w ∈ sparseUnion [m.words, n.words], w ∈ indices)
    (hbase : metric.FiniteRow l base) (hmoved : metric.FiniteRow l fun w => base w ^^^ m.maskAt w) :
    ∃ distance raw dimension,
      sparseDistance binarySearch l metric base m n indices = .ok distance ∧
      blocksForWords (List.range l.total) l.wordEnds l.widths = .ok (raw, dimension) ∧
      fullDistance l metric base m n raw = .ok distance ∧
      fullDistance l metric base m n l.blocks = .ok distance := by
  have hwords : ∀ o ∈ [m, n], ∀ w ∈ o.words, w ∈ indices := by
    intro o ho w hw
    have hrows : ∀ row ∈ [m.words, n.words], row.Pairwise (· < ·) := by
      simp only [List.forall_mem_cons, List.not_mem_nil, false_implies, implies_true, and_true]
      exact ⟨ascending_iff.mp m.ascending, ascending_iff.mp n.ascending⟩
    have hmem : o.words ∈ [m, n].map Move.words := List.mem_map_of_mem ho
    exact hunion w (((sparseUnion_spec hrows).2 w).mpr ⟨o.words, hmem, hw⟩)
  have hm := hwords m (by simp)
  have hn := hwords n (by simp)
  obtain ⟨raw, dimension, hraw, hcovers⟩ := l.exists_blocksForWords hindices
  obtain ⟨full, fullDimension, hfull, hfullCovers⟩ :=
    l.exists_blocksForWords fun w (hw : w ∈ List.range l.total) => List.mem_range.mp hw
  have hwidths : ∀ b ∈ indices.map l.width, b = 4 ∨ b = 8 := by
    rintro b hb
    obtain ⟨w, hw, rfl⟩ := List.mem_map.mp hb
    exact l.width_eq (hindices w hw)
  obtain ⟨blocks, hblocks, hreads⟩ := exists_blocks metric hcovers hwidths
  have hplaces : indices.map l.width = indices.zipIdx.map fun p => l.width p.1 := by
    nth_rewrite 1 [← List.zipIdx_map_fst 0 indices]
    rw [List.map_map]
    rfl
  refine ⟨_, full, fullDimension, ?_, hfull, fullDistance_eq metric hfullCovers base m n,
    fullDistance_eq metric l.covers_blocks base m n⟩
  unfold sparseDistance
  rw [packSparseRows_eq hsearch hsorted hm hn, hraw]
  change (metric.blocks raw >>= _) = _
  rw [hblocks]
  change Except.ok _ = Except.ok _
  congr 1
  have hbytes : (blocks.map WeightBlock.rowBytes).sum = (packBytes (indices.zipIdx.map fun p =>
      base p.1 ^^^ flips binarySearch indices m.entries p)).length := by
    rw [hreads.rowBytes_eq]
    simp
  rw [hplaces] at hreads
  have hlisted : ∀ p ∈ indices.zipIdx, p.1 < l.total := by
    intro p hp
    exact hindices p.1 (List.mem_of_getElem? (List.mem_zipIdx_iff_getElem?.mp hp))
  rw [List.take_left' hbytes.symm, List.drop_left' hbytes.symm, hreads.weightDistance_eq,
    foldl_accumulateWord, filter_words_eq hsearch hsorted hindices hm hn, ← foldl_accumulateWord]
  · simp only [List.forall_mem_map, List.mem_range]
    exact hmoved
  · simp only [List.forall_mem_map]
    exact fun p hp => finite_flips hbase hmoved (hlisted p hp)

end Exact

def firstPlace (l : List ℕ) (w : ℕ) : Option ℕ := l.findIdx? (· == w)

theorem binarySearch_firstPlace : BinarySearch firstPlace where
  found := by
    intro l w p _ h
    obtain ⟨hp, heq, -⟩ := List.findIdx?_eq_some_iff_getElem.mp h
    rw [List.getElem?_eq_getElem hp, beq_iff_eq.mp heq]
  exists_of_mem := by
    intro l w _ hw
    apply Option.isSome_iff_exists.mp
    unfold firstPlace
    rw [List.findIdx?_isSome, List.any_eq_true]
    exact ⟨w, hw, beq_self_eq_true w⟩

theorem sparseDistance_threeWords :
    let l : WordLayout := ⟨[(1, 4), (3, 8)], by decide, by decide⟩
    let metric : BlockMetric ℚ := ⟨.int8, 1, 1, 2, by decide +kernel⟩
    let m : Move := ⟨[(0, 3), (2, 257)], by unfold Ascending; decide, by decide⟩
    let n : Move := ⟨[(2, 1)], by unfold Ascending; decide, by decide⟩
    ∃ distance raw dimension,
      sparseDistance firstPlace l metric (fun w => BitVec.ofNat 32 w) m n [0, 2] = .ok distance ∧
      blocksForWords (List.range l.total) l.wordEnds l.widths = .ok (raw, dimension) ∧
      fullDistance l metric (fun w => BitVec.ofNat 32 w) m n raw = .ok distance ∧
      fullDistance l metric (fun w => BitVec.ofNat 32 w) m n l.blocks = .ok distance := by
  intro l metric m n
  have hunion : ∀ w ∈ sparseUnion [m.words, n.words], w ∈ [0, 2] := by
    intro w hw
    have hrows : ∀ row ∈ [m.words, n.words], row.Pairwise (· < ·) := by decide
    obtain ⟨row, hrow, hw⟩ := ((sparseUnion_spec hrows).2 w).mp hw
    have hall : ∀ row ∈ [m.words, n.words], ∀ w ∈ row, w ∈ [0, 2] := by decide
    exact hall row hrow w hw
  exact sparseDistance_eq binarySearch_firstPlace l metric _ m n (by decide) (by decide) hunion
    (by unfold BlockMetric.FiniteRow BlockMetric.FiniteWord; decide +kernel)
    (by unfold BlockMetric.FiniteRow BlockMetric.FiniteWord; decide +kernel)

end Ennbo
