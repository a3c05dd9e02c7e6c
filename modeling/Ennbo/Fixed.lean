import Ennbo.Model.Bounds
import Mathlib.Data.Nat.Sqrt
import Mathlib.Tactic.Ring

/-! # An arithmetic that rounds

Numbers are thousandths up to a bound. Products, quotients and roots are rounded
down, so that small ones are lost in a sum or are zero, and what is beyond the
bound is an infinity. Infinities and values that are no number behave as in
IEEE 754. Words are converted up to a greatest one.
-/

namespace Ennbo

def Fixed.bound : ℤ := 1000000000

inductive Fixed where
  | nan
  | negInfinity
  | units (n : ℤ) (h : -Fixed.bound ≤ n ∧ n ≤ Fixed.bound)
  | infinity
  deriving DecidableEq

namespace Fixed

section Operations

/-- Where a value stands in the total order: what is no number comes first. -/
def place : Fixed → ℤ
  | nan => -bound - 2
  | negInfinity => -bound - 1
  | units n _ => n
  | infinity => bound + 1

def ofInt (n : ℤ) : Fixed :=
  if hlow : n < -bound then negInfinity
  else if hhigh : bound < n then infinity
  else units n ⟨not_lt.mp hlow, not_lt.mp hhigh⟩

def signed (n : ℤ) : Fixed := if n = 0 then nan else if n < 0 then negInfinity else infinity

def opposite : Fixed → Fixed
  | nan => nan
  | negInfinity => infinity
  | units n _ => ofInt (-n)
  | infinity => negInfinity

def add : Fixed → Fixed → Fixed
  | nan, _ | _, nan | infinity, negInfinity | negInfinity, infinity => nan
  | units m _, units n _ => ofInt (m + n)
  | infinity, _ | _, infinity => infinity
  | negInfinity, _ | _, negInfinity => negInfinity

def mul : Fixed → Fixed → Fixed
  | nan, _ | _, nan => nan
  | units m _, units n _ => ofInt (m * n / 1000)
  | units n _, infinity | infinity, units n _ => signed n
  | units n _, negInfinity | negInfinity, units n _ => signed (-n)
  | infinity, infinity | negInfinity, negInfinity => infinity
  | infinity, negInfinity | negInfinity, infinity => negInfinity

def div : Fixed → Fixed → Fixed
  | nan, _ | _, nan => nan
  | units m _, units n _ => if n = 0 then signed m else ofInt (m * 1000 / n)
  | units _ _, infinity | units _ _, negInfinity => ofInt 0
  | infinity, units n _ => if n < 0 then negInfinity else infinity
  | negInfinity, units n _ => if n < 0 then infinity else negInfinity
  | infinity, _ | negInfinity, _ => nan

def word : ℕ := 100000

instance : Floating Fixed where
  zero := ofInt 0
  one := ofInt 1000
  add := add
  sub a b := add a b.opposite
  mul := mul
  div := div
  natCast n := ofInt (1000 * min n word)
  min a b := if a = nan then b else if b ≠ nan ∧ b.place < a.place then b else a
  max a b := if a = nan then b else if b ≠ nan ∧ a.place < b.place then b else a
  infinity := infinity
  partialCmp a b := if a = nan ∨ b = nan then none else some (compare a.place b.place)

/-- Near one the exponential and the logarithm are straight lines. -/
instance : Analysis Fixed where
  negInfinity := negInfinity
  isFinite
    | units _ _ => true
    | _ => false
  totalCmp a b := compare a.place b.place
  neg := opposite
  sqrt
    | units n _ => if n < 0 then nan else ofInt (Nat.sqrt (n.toNat * 1000))
    | infinity => infinity
    | _ => nan
  exp
    | units n _ => ofInt (1000 + n)
    | infinity => infinity
    | negInfinity => ofInt 0
    | nan => nan
  ln
    | units n _ => if n < 0 then nan else if n = 0 then negInfinity else ofInt (n - 1000)
    | infinity => infinity
    | _ => nan
  cos
    | units n _ => ofInt (1000 - n * n / 2000)
    | _ => nan
  pi := ofInt 3141
  literal m e := ofInt (m * 1000 / 10 ^ e)
  display
    | units n _ => toString n ++ "e-3"
    | infinity => "inf"
    | negInfinity => "-inf"
    | nan => "NaN"

end Operations

section Places

variable {a b : Fixed} {n : ℤ}

@[simp] theorem place_units (h : -bound ≤ n ∧ n ≤ bound) : (units n h).place = n := rfl

theorem bound_eq : bound = 1000000000 := rfl

@[simp] theorem place_ofInt : (ofInt n).place = max (-bound - 1) (min n (bound + 1)) := by
  have hbound := bound_eq
  unfold ofInt
  split
  next => change -bound - 1 = _; omega
  next =>
    split
    next => change bound + 1 = _; omega
    next => change n = _; omega

theorem place_injective : Function.Injective place := by
  intro a b h
  have hbound := bound_eq
  cases a <;> cases b <;> simp only [place, units.injEq, reduceCtorEq] at h ⊢ <;> omega

theorem place_le (a : Fixed) : a.place ≤ bound + 1 := by
  have hbound := bound_eq
  cases a <;> simp only [place] <;> omega

theorem isFinite_iff : isFinite a = true ↔ -bound ≤ a.place ∧ a.place ≤ bound := by
  cases a with
  | units n h => exact iff_of_true rfl h
  | nan => exact iff_of_false Bool.false_ne_true (by simp [place])
  | negInfinity => exact iff_of_false Bool.false_ne_true (by simp [place])
  | infinity => exact iff_of_false Bool.false_ne_true (by simp [place])

theorem eq_units_of_isFinite (h : isFinite a = true) : ∃ n hn, a = units n hn := by
  cases a with
  | units n hn => exact ⟨n, hn, rfl⟩
  | nan => cases h
  | negInfinity => cases h
  | infinity => cases h

theorem ne_nan_iff : a ≠ nan ↔ -bound - 1 ≤ a.place := by
  have hbound := bound_eq
  cases a with
  | nan => exact iff_of_false (fun h => h rfl) (by simp only [place]; omega)
  | negInfinity => exact iff_of_true (by simp) le_rfl
  | units n h =>
    refine iff_of_true (by simp) ?_
    change _ ≤ n
    omega
  | infinity =>
    refine iff_of_true (by simp) ?_
    change _ ≤ bound + 1
    omega

end Places

end Fixed

end Ennbo
