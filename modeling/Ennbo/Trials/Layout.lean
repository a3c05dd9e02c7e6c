import Ennbo.Arithmetic
import Mathlib.Data.Rat.Floor
import Mathlib.Data.Nat.Sqrt

/-! # Rows of quantized weights

A weight row packs the codes of its leaves, two to a byte for leaves of four
bits. A perturbation moves every code by an amount that a hash of the seed and
the element decides.
-/

namespace Ennbo.Trials

open Ennbo

/-- The `f32` operations that the trial search uses beyond arithmetic. -/
class TrialFloat (F : Type) extends Neg F, OfScientific F where
  floating : Floating F
  nan : F
  isFinite : F → Bool
  mulAdd : F → F → F → F
  sqrt : F → F
  /-- `x.floor() as u32` -/
  floorU32 : F → ℕ
  /-- `x as u32` -/
  toU32 : F → ℕ
  /-- The `i`-th standard normal draw of a generator seeded with the word. -/
  standardNormal : UInt64 → ℕ → F

instance (priority := low) (F : Type) [TrialFloat F] : Floating F := TrialFloat.floating

export TrialFloat (nan isFinite mulAdd sqrt floorU32 toU32 standardNormal)

section Compare

variable {F : Type} [Floating F]

/-- `a < b`, false when either is not a number. -/
def flt (a b : F) : Bool := partialCmp a b = some .lt

/-- `a > b` -/
def fgt (a b : F) : Bool := partialCmp a b = some .gt

/-- `a == b` -/
def feq (a b : F) : Bool := partialCmp a b = some .eq

/-- `a <= b` -/
def fle (a b : F) : Bool := flt a b || feq a b

end Compare

inductive EncodingType where
  | int4
  | int8
  | fp4E2M1
  | fp8E4M3
  | fp8E5M2
  deriving DecidableEq, Repr

variable {F : Type} [TrialFloat F]

/-- `(2.0f32).powi(n)`, exact for the exponents in use. -/
def twoPow : ℤ → F
  | .ofNat n => ((2 ^ n : ℕ) : F)
  | .negSucc n => 1 / ((2 ^ (n + 1) : ℕ) : F)

def fp4E2M1Lut : List F :=
  [0.0, 0.5, 1.0, 1.5, 2.0, 3.0, 4.0, 6.0, -0.0, -0.5, -1.0, -1.5, -2.0, -3.0, -4.0, -6.0]

def decodeFp8E4M3 (byte : ℕ) : F :=
  let sign : F := if byte &&& 0x80 ≠ 0 then -1.0 else 1.0
  let exp := (byte >>> 3) &&& 0x0f
  let mant := byte &&& 0x07
  if exp = 0 then sign * ((mant : F) / 8.0) * twoPow (-6)
  else if exp = 15 ∧ mant = 7 then nan
  else sign * (1.0 + (mant : F) / 8.0) * twoPow ((exp : ℤ) - 7)

def decodeFp8E5M2 (byte : ℕ) : F :=
  let sign : F := if byte &&& 0x80 ≠ 0 then -1.0 else 1.0
  let exp := (byte >>> 2) &&& 0x1f
  let mant := byte &&& 0x03
  if exp = 0 then sign * ((mant : F) / 4.0) * twoPow (-14)
  else if exp = 31 then if mant = 0 then sign * infinity else nan
  else sign * (1.0 + (mant : F) / 4.0) * twoPow ((exp : ℤ) - 15)

def decodeCode (code : ℕ) (encoding : EncodingType) (scale : F) : F :=
  match encoding with
  | .int4 | .int8 => (code : F) * scale
  | .fp4E2M1 => fp4E2M1Lut.getD (code &&& 0x0f) 0 * scale
  | .fp8E4M3 => decodeFp8E4M3 (code % 256) * scale
  | .fp8E5M2 => decodeFp8E5M2 (code % 256) * scale

/-- One tensor of a row. Other widths than four and eight bits are rejected. -/
structure Leaf (F : Type) where
  offset : ℕ
  length : ℕ
  bits : ℕ
  encoding : EncodingType
  scale : F
  weight : F
  radius : F
  bits_eq : bits = 4 ∨ bits = 8

theorem four_eq_or : 4 = 4 ∨ 4 = 8 := .inl rfl

theorem eight_eq_or : 8 = 4 ∨ 8 = 8 := .inr rfl

namespace Leaf

def bytes (leaf : Leaf F) : ℕ := if leaf.bits = 4 then (leaf.length + 1) / 2 else leaf.length

/-- The checks that `Leaf::new_with_encoding` makes. -/
def newWithEncoding (offset length bits : ℕ) (encoding : EncodingType)
    (scale weight radius : F) : Except String (Leaf F) :=
  if length = 0 then .error "leaf length must be positive"
  else if h : bits = 4 ∨ bits = 8 then
    match [("scale", scale), ("weight", weight), ("radius", radius)].find?
        fun p => !isFinite p.2 || fle p.2 0.0 with
    | some (name, _) => .error s!"{name} must be finite and positive"
    | none => .ok ⟨offset, length, bits, encoding, scale, weight, radius, h⟩
  else .error s!"leaf bits must be 4 or 8, got {bits}"

end Leaf

def u32Max : ℕ := 2 ^ 32 - 1

def usizeMax : ℕ := 2 ^ 64 - 1

/-- The loop of `check_layout` over the leaves. -/
def checkLeaves : List (Leaf F) → ℕ → ℕ → Except String (ℕ × ℕ)
  | [], offset, rowBytes => .ok (offset, rowBytes)
  | leaf :: leaves, offset, rowBytes =>
    if leaf.offset ≠ offset then
      .error s!"leaf offset {leaf.offset} does not continue parameter offset {offset}"
    else if usizeMax < offset + leaf.length then .error "parameter count overflow"
    else if usizeMax < rowBytes + leaf.bytes then .error "row byte count overflow"
    else checkLeaves leaves (offset + leaf.length) (rowBytes + leaf.bytes)

def checkLayout (leaves : List (Leaf F)) : Except String ℕ :=
  if leaves.isEmpty then .error "at least one leaf is required"
  else
    match checkLeaves leaves 0 0 with
    | .error e => .error e
    | .ok (offset, rowBytes) =>
      if u32Max < offset ∨ u32Max < rowBytes then
        .error "trial search currently supports at most u32::MAX parameters and bytes"
      else .ok rowBytes

/-- How far one leaf is moved. -/
structure Step where
  byteOffset : ℕ
  bits : ℕ
  whole : ℕ
  threshold : ℕ

/-- `x.clamp(lo, hi)` -/
def clamp (x lo hi : F) : F := if flt x lo then lo else if fgt x hi then hi else x

def makeStep (length : F) (byteOffset : ℕ) (leaf : Leaf F) : Step :=
  let maxCode := 2 ^ leaf.bits - 1
  let amplitude := clamp (length * leaf.radius / leaf.scale) 0.0 ((maxCode : ℕ) : F)
  let whole := floorU32 amplitude
  let threshold :=
    if whole = maxCode then 0 else toU32 ((amplitude - ((whole : ℕ) : F)) * ((u32Max : ℕ) : F))
  { byteOffset, bits := leaf.bits, whole, threshold }

/-- `make_steps`, from a byte offset on. -/
def makeStepsFrom (length : F) : ℕ → List (Leaf F) → List Step
  | _, [] => []
  | byteOffset, leaf :: leaves =>
    makeStep length byteOffset leaf :: makeStepsFrom length (byteOffset + leaf.bytes) leaves

def makeSteps (leaves : List (Leaf F)) (length : F) : List Step := makeStepsFrom length 0 leaves

def hash (seed : UInt64) (element : UInt32) : UInt32 :=
  let value := seed.toUInt32 ^^^ (element * 0x9e3779b9)
  let value := value ^^^ (value >>> 16)
  let value := value * 0x7feb352d
  let value := value ^^^ (seed >>> 32).toUInt32
  let value := value * 0x846ca68b
  value ^^^ (value >>> 15)

def perturb (code : ℕ) (seed : UInt64) (element : ℕ) (step : Step) : ℕ :=
  let random := (hash seed (.ofNat element)).toNat
  let sign := random &&& 1
  let extra := if random >>> 1 < step.threshold >>> 1 then 1 else 0
  let amount := step.whole + extra
  if amount = 0 then code
  else
    let maxCode := 2 ^ step.bits - 1
    if sign = 0 then
      if amount ≤ code then code - amount else min (code + amount) maxCode
    else if code + amount ≤ maxCode then code + amount
    else code - amount

abbrev Row : Type := List UInt8

/-- The code of one element of a leaf. -/
def Leaf.code (leaf : Leaf F) (step : Step) (row : Row) (element : ℕ) : ℕ :=
  if leaf.bits = 4 then
    ((row.getD (step.byteOffset + element / 2) 0).toNat >>> ((element &&& 1) * 4)) &&& 0x0f
  else (row.getD (step.byteOffset + element) 0).toNat

/-- Write the perturbed code of one element into the row being built. -/
def materializeElement (base : Row) (leaf : Leaf F) (step : Step) (seed : UInt64) (row : Row)
    (element : ℕ) : Row :=
  let value := perturb (leaf.code step base element) seed (leaf.offset + element) step
  if leaf.bits = 4 then
    let byte := step.byteOffset + element / 2
    row.set byte (row.getD byte 0 ||| (UInt8.ofNat value <<< UInt8.ofNat ((element &&& 1) * 4)))
  else row.set (step.byteOffset + element) (UInt8.ofNat value)

def materializeLeaf (base : Row) (seed : UInt64) (row : Row) (p : Leaf F × Step) : Row :=
  (List.range p.1.length).foldl (materializeElement base p.1 p.2 seed) row

def materialize (base : Row) (leaves : List (Leaf F)) (steps : List Step) (seed : UInt64) : Row :=
  (leaves.zip steps).foldl (materializeLeaf base seed) (List.replicate base.length 0)

omit [TrialFloat F] in
@[simp] theorem length_materializeElement (base : Row) (leaf : Leaf F) (step : Step)
    (seed : UInt64) (row : Row) (element : ℕ) :
    (materializeElement base leaf step seed row element).length = row.length := by
  simp only [materializeElement]
  split <;> simp

omit [TrialFloat F] in
@[simp] theorem length_materializeLeaf (base : Row) (seed : UInt64) (row : Row)
    (p : Leaf F × Step) : (materializeLeaf base seed row p).length = row.length := by
  rw [materializeLeaf]
  induction List.range p.1.length generalizing row with
  | nil => rfl
  | cons e es ih => rw [List.foldl_cons, ih, length_materializeElement]

omit [TrialFloat F] in
@[simp] theorem length_materialize (base : Row) (leaves : List (Leaf F)) (steps : List Step)
    (seed : UInt64) : (materialize base leaves steps seed).length = base.length := by
  have key : ∀ (ps : List (Leaf F × Step)) (row : Row),
      (ps.foldl (materializeLeaf base seed) row).length = row.length := by
    intro ps
    induction ps with
    | nil => exact fun _ => rfl
    | cons p ps ih =>
      intro row
      rw [List.foldl_cons, ih, length_materializeLeaf]
  rw [materialize, key, List.length_replicate]

/-- The contribution of one element to the distance. -/
def elementDistance (base observation : Row) (leaf : Leaf F) (step : Step) (seed : UInt64)
    (distance : F) (element : ℕ) : F :=
  let candidateCode := perturb (leaf.code step base element) seed (leaf.offset + element) step
  let observedCode := leaf.code step observation element
  let delta := decodeCode candidateCode leaf.encoding leaf.scale -
    decodeCode observedCode leaf.encoding leaf.scale
  mulAdd delta (delta * leaf.weight) distance

def trialDistance (base observation : Row) (leaves : List (Leaf F)) (steps : List Step)
    (seed : UInt64) : F :=
  (leaves.zip steps).foldl
    (fun distance p =>
      (List.range p.1.length).foldl (elementDistance base observation p.1 p.2 seed) distance)
    0.0

/-- Rationals stand in for `f32`, those from `10 ^ 40` on for its infinities. -/
instance : TrialFloat ℚ where
  floating := inferInstance
  nan := 0
  isFinite a := decide (-(10 : ℚ) ^ 40 < a ∧ a < 10 ^ 40)
  mulAdd a b c := a * b + c
  sqrt a := (Nat.sqrt a.num.toNat : ℚ) / (Nat.sqrt a.den : ℚ)
  floorU32 a := min a.floor.toNat u32Max
  toU32 a := min a.floor.toNat u32Max
  standardNormal _ _ := 0

end Ennbo.Trials
