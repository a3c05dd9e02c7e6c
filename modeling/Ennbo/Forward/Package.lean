import Ennbo.Outcome
import Ennbo.Sparse.SortedMap
import Ennbo.Trials.Layout
import Ennbo.Wire.Text
import Mathlib.Data.List.Sort
import Mathlib.Data.String.Basic

/-! # Weight packages

A package holds an arena of packed weights, two arenas of scales and biases, and
a manifest of linears that name their parts of the arenas. Sizes are machine
words, and are multiplied and added before they are compared.
-/

namespace Ennbo.Trials

/-- A character in `{:?}`. Beyond ASCII all of them are printed as they are. -/
def escapeDebug (c : Char) : String :=
  match c.toNat with
  | 0 => "\\0"
  | 9 => "\\t"
  | 10 => "\\n"
  | 13 => "\\r"
  | 34 => "\\\""
  | 92 => "\\\\"
  | code =>
    if code < 32 ∨ code = 127 then "\\u\x7b" ++ String.ofList (Nat.toDigits 16 code) ++ "\x7d"
    else c.toString

def debug (s : String) : String := "\"" ++ String.join (s.toList.map escapeDebug) ++ "\""

def debugMode : Option String → String
  | none => "None"
  | some mode => s!"Some({debug mode})"

def EncodingType.parse (bits : ℕ) (mode : Option String) : Except String EncodingType :=
  match bits, mode.map fun s => (String.ofList (Wire.trim s.toList)).toLower with
  | 4, none | 4, some "int" | 4, some "int4" => pure .int4
  | 8, none | 8, some "int" | 8, some "int8" => pure .int8
  | 4, some "fp4" | 4, some "fp4_e2m1" | 4, some "e2m1" => pure .fp4E2M1
  | 8, some "fp8" | 8, some "fp8_e4m3" | 8, some "e4m3" => pure .fp8E4M3
  | 8, some "fp8_e5m2" | 8, some "e5m2" => pure .fp8E5M2
  | _, _ => throw s!"unsupported encoding bits={bits}, mode={debugMode mode}"

def Leaf.new {F : Type} [TrialFloat F] (offset length bits : ℕ) (scale weight radius : F) :
    Except String (Leaf F) := do
  Leaf.newWithEncoding offset length bits (← EncodingType.parse bits none) scale weight radius

end Ennbo.Trials

namespace Ennbo.Forward

open Trials

structure KdaPackedLinear where
  byteOffset : UInt64
  scaleOffset : UInt64
  biasOffset : UInt64
  inputWidth : UInt64
  outputWidth : UInt64
  bits : UInt8
  groupSize : UInt64
  elementOffset : UInt64
  perturbWhole : UInt32
  perturbThreshold : UInt32
  deriving DecidableEq

/-- `a.div_ceil(b)` -/
def divCeil (a b : UInt64) : UInt64 := if 0 < a % b then a / b + 1 else a / b

def checkedMul (a b : UInt64) (message : String) : Except String UInt64 :=
  if 2 ^ 64 ≤ a.toNat * b.toNat then throw message else pure (a * b)

def checkedAdd (a b : UInt64) (message : String) : Except String UInt64 :=
  if 2 ^ 64 ≤ a.toNat + b.toNat then throw message else pure (a + b)

namespace KdaPackedLinear

def validate (l : KdaPackedLinear) : Except String Unit :=
  if l.inputWidth = 0 ∨ l.outputWidth = 0 ∨ l.groupSize = 0 then
    throw "packed KDA linear dimensions must be positive"
  else if l.bits ≠ 4 ∧ l.bits ≠ 8 then
    throw s!"packed KDA linear bits must be 4 or 8, got {l.bits}"
  else pure ()

def packedBytes (l : KdaPackedLinear) : UInt64 :=
  divCeil (l.inputWidth * l.bits.toUInt64) 8 * l.outputWidth

def groupsPerRow (l : KdaPackedLinear) : UInt64 := divCeil l.inputWidth l.groupSize

def byteLength (l : KdaPackedLinear) : ℕ :=
  (l.inputWidth.toNat * l.bits.toNat + 7) / 8 * l.outputWidth.toNat

def groupLength (l : KdaPackedLinear) : ℕ :=
  (l.inputWidth.toNat + l.groupSize.toNat - 1) / l.groupSize.toNat * l.outputWidth.toNat

end KdaPackedLinear

structure LinearManifest where
  name : String
  byteOffset : UInt64
  scaleOffset : UInt64
  biasOffset : UInt64
  inputWidth : UInt64
  outputWidth : UInt64
  bits : UInt8
  groupSize : UInt64
  elementOffset : UInt64 := 0
  perturbWhole : UInt32 := 0
  perturbThreshold : UInt32 := 0

structure Manifest where
  weights : String
  scales : String
  biases : String
  linear : List LinearManifest := []

def LinearManifest.descriptor (entry : LinearManifest) : KdaPackedLinear where
  byteOffset := entry.byteOffset
  scaleOffset := entry.scaleOffset
  biasOffset := entry.biasOffset
  inputWidth := entry.inputWidth
  outputWidth := entry.outputWidth
  bits := entry.bits
  groupSize := entry.groupSize
  elementOffset := entry.elementOffset
  perturbWhole := entry.perturbWhole
  perturbThreshold := entry.perturbThreshold

abbrev Directory : Type := String → Except String {bytes : List UInt8 // bytes.length < 2 ^ 64}

/-- Linears are kept by name. -/
structure PackedModel (F : Type) where
  packed : List UInt8
  scales : List F
  biases : List F
  linears : List (String × KdaPackedLinear)

/-- Whole words of four bytes. -/
def chunksOfFour : List UInt8 → List (List UInt8)
  | a :: b :: c :: d :: rest => [a, b, c, d] :: chunksOfFour rest
  | _ => []

variable {F : Type}

def readF32 (fromLeBytes : List UInt8 → F) (directory : Directory) (name : String) :
    Except String (List F) := do
  let bytes ← directory name
  if bytes.val.length % 4 ≠ 0 then throw s!"{name} is not a whole f32 arena"
  else pure ((chunksOfFour bytes.val).map fromLeBytes)

/-- Check one entry of the manifest against the arenas and keep it. -/
def addLinear (packed : List UInt8) (scales biases : List F)
    (linears : List (String × KdaPackedLinear)) (entry : LinearManifest) :
    Except String (List (String × KdaPackedLinear)) := do
  let descriptor := entry.descriptor
  descriptor.validate
  if packed.length < (descriptor.byteOffset + descriptor.packedBytes).toNat then
    throw s!"linear {debug entry.name} exceeds weights arena"
  else
    let groups := descriptor.groupsPerRow * descriptor.outputWidth
    if scales.length < (descriptor.scaleOffset + groups).toNat ∨
        biases.length < (descriptor.biasOffset + groups).toNat then
      throw s!"linear {debug entry.name} exceeds scale or bias arena"
    else if entry.name ∈ linears.map Prod.fst then
      throw s!"duplicate linear name {debug entry.name}"
    else pure (linears.orderedInsert (fun a b => a.1 ≤ b.1) (entry.name, descriptor))

/-- `PackedModel::open`, after the manifest is read. -/
def openModel (fromLeBytes : List UInt8 → F) (directory : Directory) (manifest : Manifest) :
    Except String (PackedModel F) := do
  let packed ← directory manifest.weights
  let scales ← readF32 fromLeBytes directory manifest.scales
  let biases ← readF32 fromLeBytes directory manifest.biases
  let linears ← manifest.linear.foldlM (addLinear packed.val scales biases) []
  return ⟨packed.val, scales, biases, linears⟩

/-- Why there is no vector: an error, or an index outside an arena. -/
inductive VectorFailure where
  | error (message : String)
  | outOfBounds
  deriving DecidableEq

def index {α : Type} (arena : List α) (i : UInt64) : Except VectorFailure α :=
  match arena[i.toNat]? with
  | some a => pure a
  | none => throw .outOfBounds

variable [TrialFloat F]

/-- The loop of `trial_leaves`. -/
def leavesFrom (scale weight radius : F) (elementOffset byteOffset : UInt64) :
    List KdaPackedLinear → Except String (List (Leaf F))
  | [] => pure []
  | linear :: linears =>
    if linear.elementOffset ≠ elementOffset then
      throw (s!"linear element offset {linear.elementOffset} does not continue " ++
        s!"parameter offset {elementOffset}")
    else if linear.byteOffset ≠ byteOffset then
      throw (s!"linear byte offset {linear.byteOffset} does not continue " ++
        s!"packed byte offset {byteOffset}")
    else do
      let length ← checkedMul linear.inputWidth linear.outputWidth
        "linear parameter count overflow"
      let leaf ← Leaf.new linear.elementOffset.toNat length.toNat linear.bits.toNat scale weight
        radius
      let elementOffset ← checkedAdd elementOffset length "model parameter count overflow"
      let byteOffset ← checkedAdd byteOffset linear.packedBytes
        "model packed byte count overflow"
      return leaf :: (← leavesFrom scale weight radius elementOffset byteOffset linears)

namespace PackedModel

def trialLeaves (model : PackedModel F) (scale weight radius : F) :
    Except String (List (Leaf F)) :=
  leavesFrom scale weight radius 0 0
    ((model.linears.map Prod.snd).mergeSort fun a b => a.elementOffset ≤ b.elementOffset)

def linear (model : PackedModel F) (name : String) : Except VectorFailure KdaPackedLinear :=
  match model.linears.lookup name with
  | some linear => pure linear
  | none => throw (.error s!"model package has no linear {debug name}")

/-- One entry of a control vector. -/
def entry (model : PackedModel F) (linear : KdaPackedLinear) (column : UInt64) :
    Except VectorFailure F := do
  let code ← index model.packed (linear.byteOffset + column)
  let group := column / linear.groupSize
  let scale ← index model.scales (linear.scaleOffset + group)
  let bias ← index model.biases (linear.biasOffset + group)
  return (code.toNat : F) * scale + bias

def vector (model : PackedModel F) (name : String) : Except VectorFailure (List F) := do
  let linear ← model.linear name
  if linear.outputWidth ≠ 1 ∨ linear.bits ≠ 8 then
    throw (.error s!"{debug name} must be a one-row INT8 linear")
  else
    (List.range linear.inputWidth.toNat).mapM fun column =>
      model.entry linear (UInt64.ofNat column)

/-- The parts of the arenas that a linear names. -/
structure InBounds (model : PackedModel F) (linear : KdaPackedLinear) : Prop where
  packed : linear.byteOffset.toNat + linear.byteLength ≤ model.packed.length
  scales : linear.scaleOffset.toNat + linear.groupLength ≤ model.scales.length
  biases : linear.biasOffset.toNat + linear.groupLength ≤ model.biases.length

/-- Leaves that follow one another from the first element on. -/
structure Tiles (leaves : List (Leaf F)) : Prop where
  elements : leaves.flatMap (fun leaf => List.range' leaf.offset leaf.length) =
    List.range (leaves.map Leaf.length).sum
  positive : ∀ leaf ∈ leaves, 0 < leaf.length

/-- A model whose linears are within its arenas. -/
structure Sound (model : PackedModel F) : Prop where
  inBounds : ∀ l ∈ model.linears, model.InBounds l.2
  vector : ∀ name, model.vector name ≠ .error .outOfBounds
  tiles : ∀ {scale weight radius : F} {leaves : List (Leaf F)},
    model.trialLeaves scale weight radius = .ok leaves → Tiles leaves

/-- No end of a range reaches `2 ^ 64`, and the bits of a row do so only when the arena holds
them all the same. -/
structure Fits (model : PackedModel F) (linear : KdaPackedLinear) : Prop where
  packed : linear.byteOffset.toNat + linear.byteLength < 2 ^ 64
  scales : linear.scaleOffset.toNat + linear.groupLength < 2 ^ 64
  biases : linear.biasOffset.toNat + linear.groupLength < 2 ^ 64
  row : linear.inputWidth.toNat * linear.bits.toNat < 2 ^ 64 ∨
    linear.byteOffset.toNat + linear.byteLength ≤ model.packed.length

/-- What is checked of a linear when a package is opened. -/
structure Checked (model : PackedModel F) (linear : KdaPackedLinear) : Prop where
  inputWidth : linear.inputWidth ≠ 0
  outputWidth : linear.outputWidth ≠ 0
  groupSize : linear.groupSize ≠ 0
  bits : linear.bits = 4 ∨ linear.bits = 8
  packed : (linear.byteOffset + linear.packedBytes).toNat ≤ model.packed.length
  scales : (linear.scaleOffset + linear.groupsPerRow * linear.outputWidth).toNat ≤
    model.scales.length
  biases : (linear.biasOffset + linear.groupsPerRow * linear.outputWidth).toNat ≤
    model.biases.length

end PackedModel

section Words

variable {a b : UInt64} {message : String}

theorem toNat_add_of_lt (h : a.toNat + b.toNat < 2 ^ 64) : (a + b).toNat = a.toNat + b.toNat := by
  rw [UInt64.toNat_add, Nat.mod_eq_of_lt h]

theorem toNat_mul_of_lt (h : a.toNat * b.toNat < 2 ^ 64) : (a * b).toNat = a.toNat * b.toNat := by
  rw [UInt64.toNat_mul, Nat.mod_eq_of_lt h]

theorem checkedAdd_eq_ok {c : UInt64} :
    checkedAdd a b message = .ok c ↔ a.toNat + b.toNat < 2 ^ 64 ∧ a + b = c := by
  unfold checkedAdd
  rw [check_ok_iff, pure_ok_iff, not_le]

/-- Rounding up loses no bits. -/
theorem toNat_divCeil (hb : b ≠ 0) : (divCeil a b).toNat = (a.toNat + b.toNat - 1) / b.toNat := by
  have hb : 0 < b.toNat := Nat.pos_of_ne_zero fun h => hb (UInt64.toNat_inj.mp h)
  have ha := a.toNat_lt
  have hdiv := Nat.div_add_mod a.toNat b.toNat
  have hmod := Nat.mod_lt a.toNat hb
  unfold divCeil
  split
  next h =>
    have hpos : 0 < a.toNat % b.toNat := by simpa [UInt64.lt_iff_toNat_lt] using h
    have hlt : a.toNat / b.toNat + 1 < 2 ^ 64 := by
      have htwo : 2 ≤ b.toNat := by omega
      have hhalf : a.toNat / b.toNat ≤ a.toNat / 2 := Nat.div_le_div_left htwo (by omega)
      omega
    have hone : (1 : UInt64).toNat = 1 := rfl
    rw [toNat_add_of_lt (by rwa [UInt64.toNat_div, hone]), UInt64.toNat_div, hone]
    symm
    apply Nat.div_eq_of_lt_le
    · rw [Nat.add_mul, Nat.mul_comm, Nat.one_mul]
      omega
    · rw [Nat.add_mul, Nat.add_mul, Nat.mul_comm, Nat.one_mul]
      omega
  next h =>
    have hzero : a.toNat % b.toNat = 0 := by simpa [UInt64.lt_iff_toNat_lt] using h
    rw [UInt64.toNat_div]
    symm
    apply Nat.div_eq_of_lt_le
    · rw [Nat.mul_comm]
      omega
    · rw [Nat.add_mul, Nat.mul_comm, Nat.one_mul]
      omega

end Words

namespace KdaPackedLinear

variable {linear : KdaPackedLinear}

theorem toNat_packedBytes (hrow : linear.inputWidth.toNat * linear.bits.toNat < 2 ^ 64)
    (hlt : linear.byteLength < 2 ^ 64) : linear.packedBytes.toNat = linear.byteLength := by
  have hbits : (linear.inputWidth * linear.bits.toUInt64).toNat =
      linear.inputWidth.toNat * linear.bits.toNat := toNat_mul_of_lt hrow
  have hceil : (divCeil (linear.inputWidth * linear.bits.toUInt64) 8).toNat =
      (linear.inputWidth.toNat * linear.bits.toNat + 7) / 8 := by
    rw [toNat_divCeil (by decide), hbits]
    rfl
  unfold packedBytes
  rw [toNat_mul_of_lt (by rwa [hceil]), hceil]
  rfl

theorem toNat_groups (hgroup : linear.groupSize ≠ 0) (hlt : linear.groupLength < 2 ^ 64) :
    (linear.groupsPerRow * linear.outputWidth).toNat = linear.groupLength := by
  have hceil := toNat_divCeil (a := linear.inputWidth) hgroup
  rw [groupsPerRow, toNat_mul_of_lt (by rwa [hceil]), hceil]
  rfl

theorem validate_eq_ok (h : linear.validate = .ok ()) : linear.inputWidth ≠ 0 ∧
    linear.outputWidth ≠ 0 ∧ linear.groupSize ≠ 0 ∧ (linear.bits = 4 ∨ linear.bits = 8) := by
  unfold validate at h
  rw [check_ok_iff, check_ok_iff] at h
  obtain ⟨hzero, hbits, -⟩ := h
  rw [not_or, not_or] at hzero
  rw [not_and_or, not_not, not_not] at hbits
  exact ⟨hzero.1, hzero.2.1, hzero.2.2, hbits⟩

end KdaPackedLinear

section Open

variable {model : PackedModel F} {linears out : List (String × KdaPackedLinear)}
  {directory : Directory} {fromLeBytes : List UInt8 → F}

omit [TrialFloat F] in
theorem addLinear_eq_ok {entry : LinearManifest}
    (h : addLinear model.packed model.scales model.biases linears entry = .ok out) :
    model.Checked entry.descriptor ∧
      out.Perm ((entry.name, entry.descriptor) :: linears) := by
  obtain ⟨⟨⟩, hvalid, h⟩ := bind_ok_iff.mp h
  rw [check_ok_iff, check_ok_iff, check_ok_iff, pure_ok_iff] at h
  obtain ⟨hpacked, hgroups, -, rfl⟩ := h
  rw [not_or, not_lt, not_lt] at hgroups
  obtain ⟨hinput, houtput, hgroup, hbits⟩ := KdaPackedLinear.validate_eq_ok hvalid
  exact ⟨⟨hinput, houtput, hgroup, hbits, not_lt.mp hpacked, hgroups.1, hgroups.2⟩,
    List.perm_orderedInsert _ _ _⟩

omit [TrialFloat F] in
theorem foldlM_addLinear {entries : List LinearManifest}
    (h : entries.foldlM (addLinear model.packed model.scales model.biases) linears = .ok out)
    (hlinears : ∀ l ∈ linears, model.Checked l.2) : ∀ l ∈ out, model.Checked l.2 := by
  induction entries generalizing linears with
  | nil =>
    obtain rfl := pure_ok_iff.mp h
    exact hlinears
  | cons entry entries ih =>
    rw [List.foldlM_cons] at h
    obtain ⟨next, hadd, hrest⟩ := bind_ok_iff.mp h
    obtain ⟨hchecked, hperm⟩ := addLinear_eq_ok hadd
    apply ih hrest
    intro l hl
    rcases List.mem_cons.mp (hperm.mem_iff.mp hl) with rfl | hl
    · exact hchecked
    · exact hlinears l hl

theorem length_chunksOfFour : ∀ bytes : List UInt8, (chunksOfFour bytes).length ≤ bytes.length
  | a :: b :: c :: d :: rest => by
    have ih := length_chunksOfFour rest
    simp only [chunksOfFour, List.length_cons]
    omega
  | [] => le_rfl
  | [_] => Nat.zero_le _
  | [_, _] => Nat.zero_le _
  | [_, _, _] => Nat.zero_le _

omit [TrialFloat F] in
theorem length_readF32 {name : String} {arena : List F}
    (h : readF32 fromLeBytes directory name = .ok arena) : arena.length < 2 ^ 64 := by
  obtain ⟨bytes, -, h⟩ := bind_ok_iff.mp h
  rw [check_ok_iff, pure_ok_iff] at h
  obtain ⟨-, rfl⟩ := h
  rw [List.length_map]
  exact (length_chunksOfFour bytes.val).trans_lt bytes.property

omit [TrialFloat F] in
theorem openModel_spec {manifest : Manifest}
    (h : openModel fromLeBytes directory manifest = .ok model) :
    (∀ l ∈ model.linears, model.Checked l.2) ∧ model.packed.length < 2 ^ 64 ∧
      model.scales.length < 2 ^ 64 ∧ model.biases.length < 2 ^ 64 := by
  obtain ⟨packed, -, h⟩ := bind_ok_iff.mp h
  obtain ⟨scales, hscales, h⟩ := bind_ok_iff.mp h
  obtain ⟨biases, hbiases, h⟩ := bind_ok_iff.mp h
  obtain ⟨linears, hlinears, h⟩ := bind_ok_iff.mp h
  obtain rfl := pure_ok_iff.mp h
  refine ⟨?_, packed.property, length_readF32 hscales, length_readF32 hbiases⟩
  let model : PackedModel F := ⟨packed.val, scales, biases, linears⟩
  have hfold : manifest.linear.foldlM (addLinear model.packed model.scales model.biases) [] =
      .ok linears := hlinears
  exact foldlM_addLinear hfold nofun

end Open

section Leaves

variable {scale weight radius : F} {elementOffset byteOffset : UInt64}
  {linears : List KdaPackedLinear} {leaves : List (Leaf F)}

theorem newLeaf_eq_ok {offset length bits : ℕ} {leaf : Leaf F}
    (h : Leaf.new offset length bits scale weight radius = .ok leaf) :
    leaf.offset = offset ∧ leaf.length = length ∧ 0 < length := by
  obtain ⟨encoding, -, h⟩ := bind_ok_iff.mp h
  unfold Leaf.newWithEncoding at h
  split_ifs at h with hlength hbits
  split at h
  next => cases h
  next =>
    cases h
    exact ⟨rfl, rfl, Nat.pos_of_ne_zero hlength⟩

/-- Leaves continue each other. -/
theorem leavesFrom_tiles
    (h : leavesFrom scale weight radius elementOffset byteOffset linears = .ok leaves) :
    leaves.flatMap (fun leaf => List.range' leaf.offset leaf.length) =
      List.range' elementOffset.toNat (leaves.map Leaf.length).sum ∧
      ∀ leaf ∈ leaves, 0 < leaf.length := by
  induction linears generalizing elementOffset byteOffset leaves with
  | nil =>
    obtain rfl := pure_ok_iff.mp h
    simp
  | cons linear linears ih =>
    unfold leavesFrom at h
    rw [check_ok_iff, check_ok_iff] at h
    obtain ⟨helement, -, h⟩ := h
    obtain ⟨length, hmul, h⟩ := bind_ok_iff.mp h
    obtain ⟨leaf, hleaf, h⟩ := bind_ok_iff.mp h
    obtain ⟨nextElement, hadd, h⟩ := bind_ok_iff.mp h
    obtain ⟨nextByte, -, h⟩ := bind_ok_iff.mp h
    obtain ⟨rest, hrest, h⟩ := bind_ok_iff.mp h
    obtain rfl := pure_ok_iff.mp h
    obtain ⟨hoffset, hlength, hpos⟩ := newLeaf_eq_ok hleaf
    obtain ⟨hlt, rfl⟩ := checkedAdd_eq_ok.mp hadd
    obtain ⟨helements, hpositive⟩ := ih hrest
    constructor
    · rw [List.flatMap_cons, helements, hoffset, hlength, not_not.mp helement,
        toNat_add_of_lt hlt, List.map_cons, List.sum_cons, hlength, List.range'_append_1]
    · exact List.forall_mem_cons.mpr ⟨hlength ▸ hpos, hpositive⟩

end Leaves

namespace PackedModel

variable {model : PackedModel F} {linear : KdaPackedLinear}

omit [TrialFloat F] in
theorem Checked.inBounds (h : model.Checked linear) (hfits : model.Fits linear) :
    model.InBounds linear := by
  have hgroups := KdaPackedLinear.toNat_groups h.groupSize
    (Nat.lt_of_le_of_lt (Nat.le_add_left _ _) hfits.scales)
  constructor
  · rcases hfits.row with hrow | hle
    · have hbytes := KdaPackedLinear.toNat_packedBytes hrow
        (Nat.lt_of_le_of_lt (Nat.le_add_left _ _) hfits.packed)
      have hpacked := h.packed
      rwa [toNat_add_of_lt (hbytes ▸ hfits.packed), hbytes] at hpacked
    · exact hle
  · have hscales := h.scales
    rwa [toNat_add_of_lt (hgroups ▸ hfits.scales), hgroups] at hscales
  · have hbiases := h.biases
    rwa [toNat_add_of_lt (hgroups ▸ hfits.biases), hgroups] at hbiases

omit [TrialFloat F] in
theorem InBounds.fits (h : model.InBounds linear) (hpacked : model.packed.length < 2 ^ 64)
    (hscales : model.scales.length < 2 ^ 64) (hbiases : model.biases.length < 2 ^ 64) :
    model.Fits linear :=
  ⟨h.packed.trans_lt hpacked, h.scales.trans_lt hscales, h.biases.trans_lt hbiases, .inr h.packed⟩

omit [TrialFloat F] in
theorem index_of_lt {α : Type} {arena : List α} {i : UInt64} (h : i.toNat < arena.length) :
    ∃ a, index arena i = .ok a := by
  refine ⟨arena[i.toNat], ?_⟩
  unfold index
  rw [List.getElem?_eq_getElem h]
  rfl

/-- The entries of a control vector are read within the arenas. -/
theorem exists_entry (h : model.Checked linear) (hin : model.InBounds linear)
    (hfits : model.Fits linear) (hwidth : linear.outputWidth = 1) (hbits : linear.bits = 8)
    {column : ℕ} (hcolumn : column < linear.inputWidth.toNat) :
    ∃ value, model.entry linear (UInt64.ofNat column) = .ok value := by
  have hofNat : (UInt64.ofNat column).toNat = column :=
    UInt64.toNat_ofNat_of_lt' (hcolumn.trans linear.inputWidth.toNat_lt)
  have hgroup : 0 < linear.groupSize.toNat :=
    Nat.pos_of_ne_zero fun h0 => h.groupSize (UInt64.toNat_inj.mp h0)
  have hbytes : linear.byteLength = linear.inputWidth.toNat := by
    have hone : (1 : UInt64).toNat = 1 := rfl
    have height : (8 : UInt8).toNat = 8 := rfl
    unfold KdaPackedLinear.byteLength
    rw [hwidth, hbits, hone, height]
    omega
  have hlt : column / linear.groupSize.toNat < linear.groupLength := by
    have hone : (1 : UInt64).toNat = 1 := rfl
    have hle : (column + linear.groupSize.toNat) / linear.groupSize.toNat ≤
        (linear.inputWidth.toNat + linear.groupSize.toNat - 1) / linear.groupSize.toNat :=
      Nat.div_le_div_right (by omega)
    rw [Nat.add_div_right _ hgroup] at hle
    unfold KdaPackedLinear.groupLength
    rw [hwidth, hone, Nat.mul_one]
    exact hle
  have hdiv : (UInt64.ofNat column / linear.groupSize).toNat =
      column / linear.groupSize.toNat := by
    rw [UInt64.toNat_div, hofNat]
  have hpacked := hfits.packed
  have hscales := hfits.scales
  have hbiases := hfits.biases
  obtain ⟨hinPacked, hinScales, hinBiases⟩ := hin
  obtain ⟨code, hcode⟩ : ∃ code, index model.packed (linear.byteOffset + UInt64.ofNat column) =
      .ok code := by
    apply index_of_lt
    rw [toNat_add_of_lt (by omega)]
    omega
  obtain ⟨scale, hscale⟩ : ∃ scale, index model.scales (linear.scaleOffset +
      UInt64.ofNat column / linear.groupSize) = .ok scale := by
    apply index_of_lt
    rw [toNat_add_of_lt (by omega)]
    omega
  obtain ⟨bias, hbias⟩ : ∃ bias, index model.biases (linear.biasOffset +
      UInt64.ofNat column / linear.groupSize) = .ok bias := by
    apply index_of_lt
    rw [toNat_add_of_lt (by omega)]
    omega
  refine ⟨(code.toNat : F) * scale + bias, ?_⟩
  unfold entry
  rw [hcode]
  change (index model.scales _ >>= _) = _
  rw [hscale]
  change (index model.biases _ >>= _) = _
  rw [hbias]
  rfl

/-- No vector is read outside the arenas. -/
theorem vector_ne_outOfBounds (hchecked : ∀ l ∈ model.linears, model.Checked l.2)
    (hin : ∀ l ∈ model.linears, model.InBounds l.2) (hfits : ∀ l ∈ model.linears, model.Fits l.2)
    (name : String) : model.vector name ≠ .error .outOfBounds := by
  intro h
  unfold vector linear at h
  cases hlookup : model.linears.lookup name with
  | none =>
    rw [hlookup] at h
    cases h
  | some l =>
    have hmem := SortedMap.mem_of_lookup hlookup
    rw [hlookup] at h
    change (if _ then _ else _) = _ at h
    split at h
    next => cases h
    next hshape =>
      rw [not_or, not_not, not_not] at hshape
      have hall : ∀ columns : List ℕ, (∀ column ∈ columns, column < l.inputWidth.toNat) →
          ∃ values, columns.mapM (fun column => model.entry l (UInt64.ofNat column)) =
            .ok values := by
        intro columns hcolumns
        induction columns with
        | nil => exact ⟨[], rfl⟩
        | cons column columns ih =>
          rw [List.forall_mem_cons] at hcolumns
          obtain ⟨value, hvalue⟩ := exists_entry (hchecked _ hmem) (hin _ hmem) (hfits _ hmem)
            hshape.1 hshape.2 hcolumns.1
          obtain ⟨values, hvalues⟩ := ih hcolumns.2
          refine ⟨value :: values, ?_⟩
          rw [List.mapM_cons, hvalue, hvalues]
          rfl
      obtain ⟨values, hvalues⟩ := hall _ fun column hcolumn => List.mem_range.mp hcolumn
      rw [hvalues] at h
      cases h

theorem trialLeaves_tiles {scale weight radius : F} {leaves : List (Leaf F)}
    (h : model.trialLeaves scale weight radius = .ok leaves) : Tiles leaves := by
  obtain ⟨helements, hpositive⟩ := leavesFrom_tiles h
  refine ⟨?_, hpositive⟩
  rw [helements, List.range_eq_range']
  rfl

/-- An open package is within its arenas exactly when no size wraps. -/
theorem sound_iff {directory : Directory} {fromLeBytes : List UInt8 → F} {manifest : Manifest}
    (h : openModel fromLeBytes directory manifest = .ok model) :
    model.Sound ↔ ∀ l ∈ model.linears, model.Fits l.2 := by
  obtain ⟨hchecked, hpacked, hscales, hbiases⟩ := openModel_spec h
  constructor
  · rintro ⟨hin, -, -⟩ l hl
    exact (hin l hl).fits hpacked hscales hbiases
  · intro hfits
    have hin : ∀ l ∈ model.linears, model.InBounds l.2 := fun l hl =>
      (hchecked l hl).inBounds (hfits l hl)
    exact ⟨hin, vector_ne_outOfBounds hchecked hin hfits, trialLeaves_tiles⟩

/-- A directory with four bytes of weights, and two words of scales and of biases. -/
def smallDirectory : Directory := fun name =>
  if name = "weights.bin" then pure ⟨[1, 2, 3, 4], by decide⟩
  else if name = "scales.bin" then pure ⟨[2, 0, 0, 0, 3, 0, 0, 0], by decide⟩
  else if name = "biases.bin" then pure ⟨[0, 0, 0, 0, 1, 0, 0, 0], by decide⟩
  else throw s!"cannot read {name}"

/-- A manifest of one linear with the given sizes. -/
def oneLinear (inputWidth groupSize : UInt64) : Manifest where
  weights := "weights.bin"
  scales := "scales.bin"
  biases := "biases.bin"
  linear := [
    { name := "layer.decay"
      byteOffset := 0
      scaleOffset := 0
      biasOffset := 0
      inputWidth := inputWidth
      outputWidth := 1
      bits := 8
      groupSize := groupSize }]

def firstByte (bytes : List UInt8) : ℚ := ((bytes.headD 0).toNat : ℚ)

theorem sound_smallPackage :
    ∃ model, openModel firstByte smallDirectory (oneLinear 4 2) = .ok model ∧ model.Sound := by
  obtain ⟨model, h⟩ : ∃ model, openModel firstByte smallDirectory (oneLinear 4 2) = .ok model :=
    ⟨_, rfl⟩
  refine ⟨model, h, (sound_iff h).mpr ?_⟩
  cases h
  intro l hl
  obtain rfl := List.mem_singleton.mp hl
  exact ⟨by decide, by decide, by decide, .inl (by decide)⟩

/-- The bits of a row of `2 ^ 61` bytes wrap to zero. -/
theorem not_sound_wideRow :
    ∃ model, openModel firstByte smallDirectory
        (oneLinear 0x2000000000000000 0x2000000000000000) = .ok model ∧ ¬ model.Sound := by
  refine ⟨_, rfl, ?_⟩
  intro h
  have hpacked := (h.inBounds _ (List.mem_singleton_self _)).packed
  revert hpacked
  decide

end PackedModel

end Ennbo.Forward
