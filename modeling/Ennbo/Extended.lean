import Ennbo.Model.Bounds
import Mathlib.Data.Prod.Lex

/-! # Exact numbers with infinities

Finite values are computed with exactly, and infinities and values that are no
number behave as IEEE 754 says. A zero has no sign and stands for the positive
one. Only the sign of a value that is no number is left open, since
`total_cmp` puts such values below or above all others.
-/

namespace Ennbo

inductive Extended (K : Type) where
  | nan
  | negInfinity
  | finite (a : K)
  | infinity
  deriving DecidableEq

/-- The sign that an operation gives to a value that is no number. -/
class NanSign (K : Type) where
  negative : Bool

instance : NanSign ℚ := ⟨true⟩

namespace Extended

variable {K : Type} [ExactArith K]

section Operations

def signed (a : K) : Extended K := if a = 0 then nan else if a < 0 then negInfinity else infinity

def opposite : Extended K → Extended K
  | nan => nan
  | negInfinity => infinity
  | finite a => finite (-a)
  | infinity => negInfinity

def add : Extended K → Extended K → Extended K
  | nan, _ | _, nan | infinity, negInfinity | negInfinity, infinity => nan
  | finite a, finite b => finite (a + b)
  | infinity, _ | _, infinity => infinity
  | negInfinity, _ | _, negInfinity => negInfinity

def mul : Extended K → Extended K → Extended K
  | nan, _ | _, nan => nan
  | finite a, finite b => finite (a * b)
  | finite a, infinity | infinity, finite a => signed a
  | finite a, negInfinity | negInfinity, finite a => signed (-a)
  | infinity, infinity | negInfinity, negInfinity => infinity
  | infinity, negInfinity | negInfinity, infinity => negInfinity

def div : Extended K → Extended K → Extended K
  | nan, _ | _, nan => nan
  | finite a, finite b => if b = 0 then signed a else finite (a / b)
  | finite _, infinity | finite _, negInfinity => finite 0
  | infinity, finite b => if b < 0 then negInfinity else infinity
  | negInfinity, finite b => if b < 0 then infinity else negInfinity
  | infinity, _ | negInfinity, _ => nan

/-- Where a number stands among the others. -/
def key : Extended K → ℤ ×ₗ K
  | nan => toLex (2, 0)
  | negInfinity => toLex (-1, 0)
  | finite a => toLex (0, a)
  | infinity => toLex (1, 0)

/-- The place in the total order: what is no number comes first or last, as its sign is. -/
def place [NanSign K] : Extended K → ℤ ×ₗ K
  | nan => toLex (if NanSign.negative K then -2 else 2, 0)
  | a => a.key

instance : Floating (Extended K) where
  zero := finite 0
  one := finite 1
  add := add
  sub a b := add a b.opposite
  mul := mul
  div := div
  natCast n := finite n
  min a b := if a = nan then b else if b ≠ nan ∧ b.key < a.key then b else a
  max a b := if a = nan then b else if b ≠ nan ∧ a.key < b.key then b else a
  infinity := infinity
  partialCmp a b := if a = nan ∨ b = nan then none else some (compare a.key b.key)

instance : FloatCast (Extended K) (Extended K) := ⟨id, id⟩

variable [Analysis K] [NanSign K]

/-- The functions of the numbers, where these have a value. -/
instance : Analysis (Extended K) where
  negInfinity := negInfinity
  isFinite
    | finite _ => true
    | _ => false
  totalCmp a b := compare a.place b.place
  neg := opposite
  sqrt
    | finite a => if a < 0 then nan else finite (sqrt a)
    | infinity => infinity
    | _ => nan
  exp
    | finite a => finite (exp a)
    | infinity => infinity
    | negInfinity => finite 0
    | nan => nan
  ln
    | finite a => if a < 0 then nan else if a = 0 then negInfinity else finite (ln a)
    | infinity => infinity
    | _ => nan
  cos
    | finite a => finite (cos a)
    | _ => nan
  pi := finite pi
  literal m e := finite (literal m e)
  display
    | finite a => display a
    | infinity => "inf"
    | negInfinity => "-inf"
    | nan => "NaN"

end Operations

section Finite

variable (a b : K)

@[simp] theorem finite_add : (finite a + finite b : Extended K) = finite (a + b) := rfl

@[simp] theorem finite_sub : (finite a - finite b : Extended K) = finite (a - b) :=
  congrArg finite (sub_eq_add_neg a b).symm

@[simp] theorem finite_mul : (finite a * finite b : Extended K) = finite (a * b) := rfl

@[simp] theorem natCast_eq (n : ℕ) : ((n : ℕ) : Extended K) = finite (n : K) := rfl

@[simp] theorem one_eq : (1 : Extended K) = finite 1 := rfl

@[simp] theorem zero_eq : (0 : Extended K) = finite 0 := rfl

theorem finite_div {b : K} (h : b ≠ 0) : (finite a / finite b : Extended K) = finite (a / b) :=
  if_neg h

variable [Analysis K] [NanSign K]

theorem isFinite_iff {a : Extended K} : isFinite a = true ↔ ∃ b, a = finite b := by
  cases a <;> simp [isFinite]

theorem isFinite_signed (a : K) : isFinite (signed a) = false := by
  unfold signed
  split
  · rfl
  · split <;> rfl

theorem ln_finite {a : K} (h : 0 < a) : ln (finite a) = finite (ln a) := by
  change (if a < 0 then nan else if a = 0 then negInfinity else finite (ln a)) = _
  rw [if_neg h.not_gt, if_neg h.ne']

end Finite

section Compare

variable {a b : Extended K}

theorem ltB_iff {a b : Extended K} :
    ltB a b = true ↔ a ≠ nan ∧ b ≠ nan ∧ a.key < b.key := by
  change ((if a = nan ∨ b = nan then none else some (compare a.key b.key)) == some Ordering.lt) =
    true ↔ _
  by_cases h : a = nan ∨ b = nan
  · rw [if_pos h]
    simp only [Option.none_beq_some, Bool.false_eq_true, false_iff]
    tauto
  · rw [if_neg h, beq_iff_eq, Option.some.injEq, compare_lt_iff_lt]
    tauto

theorem negInfinity_key_le (a : Extended K) : (negInfinity : Extended K).key ≤ a.key := by
  cases a <;> simp [key, Prod.Lex.toLex_le_toLex]

theorem ltB_finite {a b : K} : ltB (finite a) (finite b) = true ↔ a < b := by
  rw [ltB_iff]
  simp [key, Prod.Lex.toLex_lt_toLex]

theorem partialCmp_finite (a b : K) :
    partialCmp (finite a) (finite b) = some (compare a b) := by
  change (if _ then _ else _) = _
  rw [if_neg (by simp)]
  simp [key, Prod.Lex.compare_def, compareLex, compareOn]

theorem leB_finite {a b : K} : leB (finite a) (finite b) = true ↔ a ≤ b := by
  unfold leB
  rw [partialCmp_finite, ← compare_le_iff_le]
  cases compare a b <;> simp

theorem key_injective : Function.Injective (key : Extended K → ℤ ×ₗ K) := by
  intro a b h
  cases a <;> cases b <;> simp_all [key]

theorem eqB_iff : BpannBackend.eqB a b = true ↔ a ≠ nan ∧ a = b := by
  change ((if a = nan ∨ b = nan then none else some (compare a.key b.key)) == some Ordering.eq) =
    true ↔ _
  by_cases h : a = nan ∨ b = nan
  · rw [if_pos h]
    simp only [Option.none_beq_some, Bool.false_eq_true, false_iff, not_and]
    rintro ha rfl
    exact ha (or_self_iff.mp h)
  · rw [if_neg h, beq_iff_eq, Option.some.injEq, compare_eq_iff_eq, key_injective.eq_iff]
    tauto

end Compare

section Order

variable [NanSign K] {a b : Extended K}

end Order

end Extended

end Ennbo
