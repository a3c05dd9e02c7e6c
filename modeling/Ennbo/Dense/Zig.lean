import Ennbo.Dense.Linear

/-! # Dense directions in Zig

The second implementation of the dense directions. It checks its inputs in
another order, and each value when it is read.
-/

namespace Ennbo.Dense.Zig

inductive Error where
  | invalidArgument
  | invalidLayout
  | invalidValue
  deriving DecidableEq

variable {F : Type} (D : Type) [DenseFloat F] [Floating D] [FloatCast D F]

def mix64 (input : UInt64) : UInt64 :=
  let value := input + 0x9e3779b97f4a7c15
  let value := (value ^^^ (value >>> 30)) * 0xbf58476d1ce4e5b9
  let value := (value ^^^ (value >>> 27)) * 0x94d049bb133111eb
  value ^^^ (value >>> 31)

def sign (seed leafKey element : UInt64) : F :=
  let leaf := mix64 (leafKey ^^^ 0xd6e8feb86659fd93)
  let coordinate := mix64 (element ^^^ 0xa0761d6478bd642f)
  if (mix64 (seed ^^^ leaf ^^^ coordinate)) &&& 1 = 0 then -1 else 1

def validateTerms : List (DenseTerm F) → Except Error Unit
  | [] => pure ()
  | term :: terms => if !isFinite term.coefficient then throw .invalidValue else validateTerms terms

def seenSeed (terms : List (DenseTerm F)) (seed : UInt64) : Bool :=
  terms.any fun term => term.seed == seed

def coefficient (terms : List (DenseTerm F)) (seed : UInt64) : D :=
  terms.foldl (fun value term =>
    if term.seed == seed then value + toF64 term.coefficient else value) 0

def hasDirection (terms : List (DenseTerm F)) : Bool :=
  terms.zipIdx.any fun p =>
    if seenSeed (terms.take p.2) p.1.seed then false
    else partialCmp (coefficient D terms p.1.seed) 0 != some .eq

/-- The loop of `validateLeaves`. -/
def leavesEnd (numValues : ℕ) : ℕ → List (DenseLeaf F) → Except Error ℕ
  | stop, [] => pure stop
  | stop, leaf :: leaves =>
    if leaf.len = 0 ∨ badScale leaf.scale = true ∨ leaf.offset ≠ stop then throw .invalidLayout
    else if 2 ^ 64 ≤ leaf.offset + leaf.len then throw .invalidLayout
    else if numValues < leaf.offset + leaf.len then throw .invalidLayout
    else leavesEnd numValues (leaf.offset + leaf.len) leaves

def validateLeaves (leaves : List (DenseLeaf F)) (numValues : ℕ) : Except Error Unit := do
  let stop ← leavesEnd numValues 0 leaves
  if stop ≠ numValues then throw .invalidLayout else pure ()

def validateView (view : DenseView F) (len : ℕ) : Except Error Unit :=
  if badScale view.scale then throw .invalidLayout
  else if 2 ^ 64 ≤ view.start.toNat + len then throw .invalidLayout
  else pure ()

/-- The body of the loop over the terms. -/
def walkTerm (key coordinate : UInt64) (walk : Walk F) (term : DenseTerm F) : Walk F :=
  if feq term.coefficient 0 then walk
  else
    let directionSign : F := sign term.seed key coordinate
    let coefficientSum := walk.sum + term.coefficient * directionSign
    if flt walk.strongest (fabs term.coefficient) then
      { sum := coefficientSum
        strongest := fabs term.coefficient
        positive := flt 0 term.coefficient == flt 0 directionSign }
    else { walk with sum := coefficientSum }

variable (nextFinite : F → Bool → F)

def perturbUnchecked (base : F) (view : DenseView F) (element : ℕ) (terms : List (DenseTerm F)) :
    Except Error F :=
  if 2 ^ 64 ≤ view.start.toNat + element then throw .invalidLayout
  else
    let coordinate := view.start + UInt64.ofNat element
    let walk := terms.foldl (walkTerm view.key coordinate) ⟨0, 0, true⟩
    let candidate := base + view.scale * walk.sum
    if feq walk.sum 0 || feq candidate base then pure (nextFinite base walk.positive)
    else if !isFinite candidate then throw .invalidValue
    else pure candidate

/-- The values and their number that has changed. -/
def apply (base : List F) (leaves : List (DenseLeaf F)) (terms : List (DenseTerm F))
    (out : List F) : Except Error (List F × ℕ) :=
  if base.length = 0 ∨ out.length ≠ base.length ∨ leaves.length = 0 ∨ terms.length = 0 then
    throw .invalidArgument
  else do
    validateTerms terms
    if !hasDirection D terms then throw .invalidArgument
    else do
      validateLeaves leaves base.length
      (elements leaves).foldlM (fun state p => do
        let index := p.1.offset + p.2
        let value := base.getD index 0
        if !isFinite value then throw .invalidValue
        else do
          let moved ← perturbUnchecked nextFinite value ⟨p.1.key, 0, p.1.scale⟩ p.2 terms
          return (state.1.set index moved, state.2 + if feq moved value then 0 else 1))
        (out, 0)

/-- One row of the loop of `linear`. -/
def linearRow (input weight : List F) (bias : Option (List F)) (weightView biasView : DenseView F)
    (terms : List (DenseTerm F)) (row : ℕ) : Except Error F := do
  let sum ← (List.range input.length).foldlM (fun sum column => do
    let index := row * input.length + column
    let base := weight.getD index 0
    if !isFinite base then throw .invalidValue
    else do
      let value ← perturbUnchecked nextFinite base weightView index terms
      return mulAdd (input.getD column 0) value sum) 0
  let sum ← match bias with
    | some values =>
      let base := values.getD row 0
      if !isFinite base then throw .invalidValue
      else do
        let value ← perturbUnchecked nextFinite base biasView row terms
        pure (sum + value)
    | none => pure sum
  if !isFinite sum then throw .invalidValue else pure sum

def linear (input weight : List F) (bias : Option (List F)) (weightView biasView : DenseView F)
    (terms : List (DenseTerm F)) (out : List F) : Except Error (List F) :=
  if input.length = 0 ∨ weight.length = 0 ∨ weight.length % input.length ≠ 0 ∨
      terms.length = 0 then
    throw .invalidArgument
  else
    let rows := weight.length / input.length
    if out.length ≠ rows ∨ (bias.any fun values => values.length != rows) = true then
      throw .invalidArgument
    else do
      validateView weightView weight.length
      if bias.isSome then validateView biasView rows else pure ()
      validateTerms terms
      if !hasDirection D terms then throw .invalidArgument
      else if input.any fun value => !isFinite value then throw .invalidValue
      else
        (List.range rows).foldlM (fun out row => do
          let sum ← linearRow nextFinite input weight bias weightView biasView terms row
          return out.set row sum) out

def dist2 (leaves : List (DenseLeaf F)) (left right : List (DenseTerm F)) : Except Error D :=
  if leaves.length = 0 then throw .invalidArgument
  else do
    let (_, energy) ← leaves.foldlM (fun state leaf =>
      if leaf.len = 0 ∨ badScale leaf.scale = true ∨ leaf.offset ≠ state.1 then
        throw .invalidLayout
      else if 2 ^ 64 ≤ leaf.offset + leaf.len then throw .invalidLayout
      else
        let scale : D := toF64 leaf.scale
        pure (leaf.offset + leaf.len, state.2 + (leaf.len : D) * scale * scale)) ((0, 0) : ℕ × D)
    validateTerms left
    validateTerms right
    let fromLeft : D := left.zipIdx.foldl (fun distance p =>
      if seenSeed (left.take p.2) p.1.seed then distance
      else
        let delta : D := coefficient D left p.1.seed - coefficient D right p.1.seed
        distance + delta * delta) 0
    let coefficientDistance : D := right.zipIdx.foldl (fun distance p =>
      if seenSeed (right.take p.2) p.1.seed || seenSeed left p.1.seed then distance
      else
        let value : D := coefficient D right p.1.seed
        distance + value * value) fromLeft
    return energy * coefficientDistance

end Ennbo.Dense.Zig
