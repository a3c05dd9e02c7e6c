import Ennbo.Arithmetic
import Ennbo.Outcome

/-! # Dense directions

A direction moves every parameter of a model. It is a list of terms, each a seed
with a coefficient; a hash of the seed, the key of the leaf and the element gives
the sign with which the coefficient counts there. Where the contributions cancel,
the parameter goes one step in the direction of the strongest term.
-/

namespace Ennbo.Dense

/-- The `f32` operations of the dense directions. -/
class DenseFloat (F : Type) extends Zero F, One F, Neg F, Add F, Mul F where
  mulAdd : F → F → F → F
  fabs : F → F
  isFinite : F → Bool
  /-- `a == b` -/
  feq : F → F → Bool
  /-- `a < b` -/
  flt : F → F → Bool

export DenseFloat (mulAdd fabs isFinite feq flt)

structure DenseLeaf (F : Type) where
  key : UInt64
  offset : ℕ
  len : ℕ
  scale : F

structure DenseTerm (F : Type) where
  seed : UInt64
  coefficient : F

structure DenseResult (F : Type) where
  values : List F
  changed : ℕ
  deriving DecidableEq

def mix64 (input : UInt64) : UInt64 :=
  let value := input + 0x9e3779b97f4a7c15
  let value := (value ^^^ (value >>> 30)) * 0xbf58476d1ce4e5b9
  let value := (value ^^^ (value >>> 27)) * 0x94d049bb133111eb
  value ^^^ (value >>> 31)

section Model

variable {F : Type} (D : Type) [DenseFloat F] [Floating D] [FloatCast D F]

def sign (seed leaf element : UInt64) : F :=
  let leaf := mix64 (leaf ^^^ 0xd6e8feb86659fd93)
  let element := mix64 (element ^^^ 0xa0761d6478bd642f)
  if mix64 (seed ^^^ leaf ^^^ element) &&& 1 = 0 then -1 else 1

/-- `scale` is not finite, or `scale <= 0.0`. -/
def badScale (scale : F) : Bool := !isFinite scale || flt scale 0 || feq scale 0

/-- The loop of `validate_leaves`. -/
def leavesEnd : ℕ → List (DenseLeaf F) → Except String ℕ
  | stop, [] => pure stop
  | stop, leaf :: leaves =>
    if leaf.offset ≠ stop then
      throw s!"dense leaf offset {leaf.offset} does not continue parameter offset {stop}"
    else if leaf.len = 0 ∨ badScale leaf.scale = true then
      throw "dense leaves require positive lengths and scales"
    else if 2 ^ 64 ≤ leaf.offset + leaf.len then throw "dense parameter count overflow"
    else leavesEnd (leaf.offset + leaf.len) leaves

def validateLeaves (leaves : List (DenseLeaf F)) (expected : Option ℕ) : Except String Unit :=
  if leaves = [] then throw "at least one dense leaf is required"
  else do
    let stop ← leavesEnd 0 leaves
    if expected.any (stop != ·) then
      throw s!"dense leaves cover {stop} parameters, expected {expected.getD 0}"
    else pure ()

def validateTerms (terms : List (DenseTerm F)) : Except String Unit :=
  if terms.any fun term => !isFinite term.coefficient then
    throw "dense coefficients must be finite"
  else pure ()

/-- The total coefficient of a seed. -/
def coefficient (terms : List (DenseTerm F)) (seed : UInt64) : D :=
  ((terms.filter fun term => term.seed == seed).map fun term =>
    toF64 term.coefficient).foldl (· + ·) 0

def hasDirection (terms : List (DenseTerm F)) : Bool :=
  terms.zipIdx.any fun p =>
    !((terms.take p.2).any fun previous => previous.seed == p.1.seed) &&
      partialCmp (coefficient D terms p.1.seed) 0 != some .eq

def validate (base : List F) (leaves : List (DenseLeaf F)) (terms : List (DenseTerm F)) :
    Except String Unit :=
  if base = [] then throw "dense base cannot be empty"
  else if base.any fun value => !isFinite value then throw "dense base values must be finite"
  else do
    validateLeaves leaves (some base.length)
    validateTerms terms
    if !hasDirection D terms then throw "dense terms cancel to zero" else pure ()

/-- What is known of an element after some of the terms. -/
structure Walk (F : Type) where
  sum : F
  strongest : F
  positive : Bool

/-- The body of the loop over the terms, which `reference` and `perturbed` share. -/
def walkTerm (key element : UInt64) (walk : Walk F) (term : DenseTerm F) : Walk F :=
  if feq term.coefficient 0 then walk
  else
    let direction : F := sign term.seed key element
    let sum := walk.sum + term.coefficient * direction
    if flt walk.strongest (fabs term.coefficient) then
      ⟨sum, fabs term.coefficient, flt 0 term.coefficient == flt 0 direction⟩
    else { walk with sum }

def walkTerms (key element : UInt64) (terms : List (DenseTerm F)) : Walk F :=
  terms.foldl (walkTerm key element) ⟨0, 0, true⟩

variable (nextFinite : F → Bool → F)

/-- One element of `reference`. -/
def referenceValue (base : F) (leaf : DenseLeaf F) (element : ℕ) (terms : List (DenseTerm F)) :
    Except String F :=
  let walk := walkTerms leaf.key (UInt64.ofNat element) terms
  let candidate := base + leaf.scale * walk.sum
  if feq walk.sum 0 || feq candidate base then pure (nextFinite base walk.positive)
  else if isFinite candidate then pure candidate
  else throw "dense perturbation overflowed FP32"

def elements (leaves : List (DenseLeaf F)) : List (DenseLeaf F × ℕ) :=
  leaves.flatMap fun leaf => (List.range leaf.len).map fun element => (leaf, element)

def reference (base : List F) (leaves : List (DenseLeaf F)) (terms : List (DenseTerm F))
    (out : List F) : Except String (List F) :=
  (elements leaves).foldlM (fun out p => do
    let index := p.1.offset + p.2
    let value ← referenceValue nextFinite (base.getD index 0) p.1 p.2 terms
    return out.set index value) out

/-- `apply` on the processor. -/
def apply (base : List F) (leaves : List (DenseLeaf F)) (terms : List (DenseTerm F)) :
    Except String (DenseResult F) := do
  validate D base leaves terms
  let values ← reference nextFinite base leaves terms (List.replicate base.length 0)
  if values.any fun value => !isFinite value then throw "dense perturbation overflowed FP32"
  else
    let changed := ((base.zip values).filter fun p => !feq p.1 p.2).length
    if changed ≠ base.length then
      throw s!"dense direction changed {changed} of {base.length} parameters"
    else pure ⟨values, changed⟩

/-- The seeds of the terms, each once. -/
def seeds (terms : List (DenseTerm F)) : List UInt64 :=
  terms.foldl (fun seeds term =>
    if seeds.contains term.seed then seeds else seeds ++ [term.seed]) []

def dist2 (leaves : List (DenseLeaf F)) (left right : List (DenseTerm F)) : Except String D := do
  validateLeaves leaves none
  validateTerms left
  validateTerms right
  let energy : D := (leaves.map fun leaf =>
    (leaf.len : D) * ((toF64 leaf.scale : D) * toF64 leaf.scale)).foldl (· + ·) 0
  let coefficientDistance : D := ((seeds (left ++ right)).map fun seed =>
    let delta : D := coefficient D left seed - coefficient D right seed
    delta * delta).foldl (· + ·) 0
  return energy * coefficientDistance

end Model

end Ennbo.Dense
