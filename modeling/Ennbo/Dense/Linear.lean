import Ennbo.Dense.Directions

/-! # Dense linear layers

A linear layer is evaluated with moved weights that are never stored: each weight
is moved when it is read, at the coordinate of its view.
-/

namespace Ennbo.Dense

structure DenseView (F : Type) where
  key : UInt64
  start : UInt64
  scale : F

section Model

variable {F : Type} (D : Type) [DenseFloat F] [Floating D] [FloatCast D F]

def validateModel (weight : List F) (columns : ℕ) (bias : Option (List F))
    (weightView : DenseView F) (biasView : Option (DenseView F)) : Except String ℕ :=
  if columns = 0 ∨ weight = [] ∨ weight.length % columns ≠ 0 then
    throw "dense linear weight must contain complete non-empty rows"
  else
    let rows := weight.length / columns
    if bias.any fun values => values.length != rows then
      throw "dense linear bias length must equal the weight row count"
    else if bias.isSome ≠ biasView.isSome then
      throw "dense linear bias and bias view must be supplied together"
    else if (weight ++ bias.getD []).any fun value => !isFinite value then
      throw "dense linear weights must be finite"
    else if badScale weightView.scale then
      throw "dense linear weight scale must be finite and positive"
    else if biasView.any fun view => badScale view.scale then
      throw "dense linear bias scale must be finite and positive"
    else if 2 ^ 64 ≤ weightView.start.toNat + weight.length then
      throw "dense linear weight coordinates overflow u64"
    else if biasView.any fun view => decide (2 ^ 64 ≤ view.start.toNat + rows) then
      throw "dense linear bias coordinates overflow u64"
    else pure rows

def validateEval (input : List F) (columns : ℕ) (terms : List (DenseTerm F)) :
    Except String Unit :=
  if input.length ≠ columns ∨ (input.any fun value => !isFinite value) = true then
    throw s!"dense linear input must contain {columns} finite values"
  else if terms = [] ∨ (terms.any fun term => !isFinite term.coefficient) = true then
    throw "dense linear requires finite perturbation terms"
  else if !hasDirection D terms then throw "dense linear terms cancel to zero"
  else pure ()

variable (nextFinite : F → Bool → F)

def perturbed (base : F) (view : DenseView F) (element : ℕ) (terms : List (DenseTerm F)) :
    Except String F :=
  if 2 ^ 64 ≤ view.start.toNat + element then throw "dense linear coordinate overflow"
  else
    let coordinate := view.start + UInt64.ofNat element
    let walk := walkTerms view.key coordinate terms
    let candidate := base + view.scale * walk.sum
    if feq walk.sum 0 || feq candidate base then pure (nextFinite base walk.positive)
    else if isFinite candidate then pure candidate
    else throw "dense perturbation overflowed FP32"

/-- One row of the loop of `cpu`. -/
def cpuRow (input weight : List F) (bias : Option (List F)) (weightView : DenseView F)
    (biasView : Option (DenseView F)) (terms : List (DenseTerm F)) (row : ℕ) :
    Except String F := do
  let sum ← (List.range input.length).foldlM (fun sum column => do
    let index := row * input.length + column
    let value ← perturbed nextFinite (weight.getD index 0) weightView index terms
    return mulAdd (input.getD column 0) value sum) 0
  match bias, biasView with
  | some values, some view => do
    let value ← perturbed nextFinite (values.getD row 0) view row terms
    return sum + value
  | _, _ => return sum

def cpu (input weight : List F) (bias : Option (List F)) (weightView : DenseView F)
    (biasView : Option (DenseView F)) (terms : List (DenseTerm F)) (rows : ℕ) :
    Except String (List F) :=
  (List.range rows).mapM (cpuRow nextFinite input weight bias weightView biasView terms)

/-- `linear` on the processor. -/
def linear (input weight : List F) (bias : Option (List F)) (weightView : DenseView F)
    (biasView : Option (DenseView F)) (terms : List (DenseTerm F)) :
    Except String (List F) := do
  let rows ← validateModel weight input.length bias weightView biasView
  validateEval D input input.length terms
  let values ← cpu nextFinite input weight bias weightView biasView terms rows
  if values.any fun value => !isFinite value then throw "dense linear overflowed FP32"
  else pure values

end Model

end Ennbo.Dense
