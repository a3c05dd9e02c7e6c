import Mathlib.Algebra.Order.Field.Basic
import Mathlib.Algebra.Order.Field.Rat
import Mathlib.Order.Compare

/-! # Floating-point operations

The crates compute with `f32` and `f64`. The model leaves both types open and
only names the operations that are used, so that what is proved without further
hypotheses holds for IEEE arithmetic too. Exact arithmetic is the case where the
operations are those of an ordered field and conversions lose nothing.
-/

namespace Ennbo

/-- The operations of one floating-point type. -/
class Floating (F : Type) extends Zero F, One F, Add F, Sub F, Mul F, Div F, NatCast F,
    Min F, Max F where
  infinity : F
  partialCmp : F → F → Option Ordering

/-- The conversions between `f64` and `f32`. -/
class FloatCast (D F : Type) where
  toF32 : D → F
  toF64 : F → D

export Floating (infinity partialCmp)
export FloatCast (toF32 toF64)

/-- `a.partial_cmp(b).unwrap_or(Ordering::Equal)`. -/
def cmpOrEqual {F : Type} [Floating F] (a b : F) : Ordering := (partialCmp a b).getD .eq

/--
Exact arithmetic. Nothing is assumed about the value that stands for `INFINITY`.
-/
class ExactArith (K : Type) extends Floating K, Field K, LinearOrder K,
    IsStrictOrderedRing K where
  partialCmp_eq : ∀ a b : K, partialCmp a b = some (compare a b)

instance {K : Type} [ExactArith K] : FloatCast K K := ⟨id, id⟩

instance : ExactArith ℚ :=
  { (inferInstance : Field ℚ), (inferInstance : LinearOrder ℚ),
    (inferInstance : IsStrictOrderedRing ℚ) with
    infinity := 10 ^ 40
    partialCmp := fun a b => some (compare a b)
    partialCmp_eq := fun _ _ => rfl }

section Exact

variable {K : Type} [ExactArith K]

@[simp] theorem toF32_exact (a : K) : (toF32 a : K) = a := rfl

@[simp] theorem toF64_exact (a : K) : (toF64 a : K) = a := rfl

@[simp] theorem cmpOrEqual_exact (a b : K) : cmpOrEqual a b = compare a b := by
  simp [cmpOrEqual, ExactArith.partialCmp_eq]

end Exact

end Ennbo
