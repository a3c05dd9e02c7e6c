import Ennbo.Model.Bounds
import Mathlib.Data.Prod.Lex

/-! # Exact numbers with two zeros

Every number but zero is computed with exactly. Zero has a sign, as in IEEE 754:
the two zeros compare as equal, and `total_cmp` puts the negative one first.
Infinities are left out, so a division by zero gives a zero.
-/

namespace Ennbo

inductive Signed (K : Type) where
  | negZero
  | number (a : K)
  deriving DecidableEq

namespace Signed

variable {K : Type} [ExactArith K]

section Operations

def value : Signed K → K
  | negZero => 0
  | number a => a

/-- The sign bit. -/
def isNeg : Signed K → Bool
  | negZero => true
  | number a => decide (a < 0)

def ofSign (neg : Bool) (a : K) : Signed K := if a = 0 ∧ neg = true then negZero else number a

def opposite (a : Signed K) : Signed K := ofSign (!a.isNeg) (-a.value)

def add (a b : Signed K) : Signed K := ofSign (a.isNeg && b.isNeg) (a.value + b.value)

def mul (a b : Signed K) : Signed K := ofSign (a.isNeg != b.isNeg) (a.value * b.value)

def div (a b : Signed K) : Signed K := ofSign (a.isNeg != b.isNeg) (a.value / b.value)

/-- The place in the total order. -/
def place : Signed K → K ×ₗ ℕ
  | negZero => toLex (0, 0)
  | number a => toLex (a, 1)

instance : Floating (Signed K) where
  zero := number 0
  one := number 1
  add := add
  sub a b := add a b.opposite
  mul := mul
  div := div
  natCast n := number n
  min a b := if b.value < a.value then b else a
  max a b := if a.value < b.value then b else a
  infinity := number infinity
  partialCmp a b := some (compare a.value b.value)

instance [Analysis K] : Analysis (Signed K) where
  negInfinity := number negInfinity
  isFinite a := isFinite a.value
  totalCmp a b := compare a.place b.place
  neg := opposite
  sqrt a := ofSign a.isNeg (sqrt a.value)
  exp a := number (exp a.value)
  ln a := number (ln a.value)
  cos a := number (cos a.value)
  pi := number pi
  literal m e := number (literal m e)
  display
    | negZero => "-0"
    | number a => display a

end Operations

section Order

theorem place_injective : Function.Injective (place : Signed K → K ×ₗ ℕ) := by
  intro a b h
  cases a <;> cases b <;> simp_all [place]

theorem place_lt_of_value_lt {a b : Signed K} (h : a.value < b.value) : a.place < b.place := by
  cases a <;> cases b <;> exact Prod.Lex.toLex_lt_toLex.mpr (.inl h)

end Order

end Signed

end Ennbo
