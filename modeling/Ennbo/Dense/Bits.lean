import Ennbo.Dense.Directions
import Mathlib.Data.Int.Order.Basic

/-! # Single precision by its bits

Sums and products of `f32` are left open. Comparisons, absolute values and the
step to the next value only depend on the bits.
-/

namespace Ennbo.Dense

structure F32 where
  bits : UInt32
  deriving DecidableEq

/-- Any functions for the operations that round. -/
class F32Ops where
  add : F32 → F32 → F32
  mul : F32 → F32 → F32
  mulAdd : F32 → F32 → F32 → F32

namespace F32

def magnitude (value : F32) : ℕ := value.bits.toNat % 2 ^ 31

def negative (value : F32) : Prop := 2 ^ 31 ≤ value.bits.toNat

instance (value : F32) : Decidable value.negative := inferInstanceAs (Decidable (_ ≤ _))

def infinityBits : ℕ := 0x7f800000

def isNan (value : F32) : Prop := infinityBits < value.magnitude

instance (value : F32) : Decidable value.isNan := inferInstanceAs (Decidable (_ < _))

def key (value : F32) : ℤ := if value.negative then -value.magnitude else value.magnitude

instance [F32Ops] : DenseFloat F32 where
  zero := ⟨0⟩
  one := ⟨0x3f800000⟩
  neg value := ⟨value.bits ^^^ 0x80000000⟩
  add := F32Ops.add
  mul := F32Ops.mul
  mulAdd := F32Ops.mulAdd
  fabs value := ⟨value.bits &&& 0x7fffffff⟩
  isFinite value := decide (value.magnitude < infinityBits)
  feq a b := decide (¬ a.isNan ∧ ¬ b.isNan ∧ a.key = b.key)
  flt a b := decide (¬ a.isNan ∧ ¬ b.isNan ∧ a.key < b.key)

variable [F32Ops]

/-- `next_finite` of the first implementation. -/
def nextFinite (value : F32) (positive : Bool) : F32 :=
  if feq value 0 then ⟨if positive then 1 else 0x80000001⟩
  else
    let bits := if flt 0 value == positive then value.bits + 1 else value.bits - 1
    let candidate : F32 := ⟨bits⟩
    if isFinite candidate then candidate
    else if flt 0 value == positive then ⟨value.bits - 1⟩
    else ⟨value.bits + 1⟩

/-- `nextFinite` of the second implementation. -/
def zigNextFinite (value : F32) (positive : Bool) : F32 :=
  let bits := value.bits
  if feq value 0 then ⟨if positive then 1 else 0x80000001⟩
  else
    let bits := if flt 0 value == positive then bits + 1 else bits - 1
    let candidate : F32 := ⟨bits⟩
    if isFinite candidate then candidate
    else
      let bits := value.bits
      let bits := if flt 0 value == positive then bits - 1 else bits + 1
      ⟨bits⟩

theorem zigNextFinite_eq : zigNextFinite = nextFinite := by
  ext value positive
  unfold zigNextFinite nextFinite
  dsimp only
  split_ifs <;> rfl

theorem isFinite_iff {value : F32} : isFinite value = true ↔ value.magnitude < infinityBits :=
  decide_eq_true_iff

theorem feq_iff {a b : F32} : feq a b = true ↔ ¬ a.isNan ∧ ¬ b.isNan ∧ a.key = b.key :=
  decide_eq_true_iff

theorem feq_comm (a b : F32) : feq a b = feq b a := by
  rw [Bool.eq_iff_iff, feq_iff, feq_iff]
  constructor
  · rintro ⟨ha, hb, h⟩
    exact ⟨hb, ha, h.symm⟩
  · rintro ⟨hb, ha, h⟩
    exact ⟨ha, hb, h.symm⟩

section Step

variable {value other : F32}

omit [F32Ops] in
theorem not_isNan (h : value.magnitude < infinityBits) : ¬ value.isNan := by
  unfold isNan
  omega

omit [F32Ops] in
theorem key_eq_zero (h : value.magnitude = 0) : value.key = 0 := by
  unfold key
  rw [h]
  split
  · rfl
  · rfl

theorem feq_zero_iff (h : value.magnitude < infinityBits) :
    feq value 0 = true ↔ value.magnitude = 0 := by
  have hzero : (0 : F32).magnitude = 0 := rfl
  have hkey : (0 : F32).key = 0 := rfl
  rw [feq_iff, hkey]
  constructor
  · rintro ⟨-, -, hkey⟩
    unfold key at hkey
    split at hkey
    · omega
    · omega
  · intro hm
    exact ⟨not_isNan h, not_isNan (by rw [hzero]; decide), key_eq_zero hm⟩

theorem feq_eq_false (hneg : value.negative ↔ other.negative)
    (hne : value.magnitude ≠ other.magnitude) : feq value other = false := by
  rw [Bool.eq_false_iff]
  intro h
  obtain ⟨-, -, hkey⟩ := feq_iff.mp h
  unfold key at hkey
  by_cases hv : value.negative
  · rw [if_pos hv, if_pos (hneg.mp hv)] at hkey
    omega
  · rw [if_neg hv, if_neg fun ho => hv (hneg.mpr ho)] at hkey
    omega

omit [F32Ops] in
theorem succ_bits (h : value.magnitude < infinityBits) :
    (⟨value.bits + 1⟩ : F32).magnitude = value.magnitude + 1 ∧
      (value.negative ↔ (⟨value.bits + 1⟩ : F32).negative) := by
  have hlt := value.bits.toNat_lt
  have hbits : (value.bits + 1).toNat = (value.bits.toNat + 1) % 2 ^ 32 := rfl
  unfold magnitude infinityBits at *
  unfold negative
  rw [hbits]
  omega

omit [F32Ops] in
theorem pred_bits (h : value.magnitude ≠ 0) :
    (⟨value.bits - 1⟩ : F32).magnitude + 1 = value.magnitude ∧
      (value.negative ↔ (⟨value.bits - 1⟩ : F32).negative) := by
  have hlt := value.bits.toNat_lt
  have hone : (1 : UInt32).toNat = 1 := rfl
  have hbits : (value.bits - 1).toNat = (2 ^ 32 - 1 + value.bits.toNat) % 2 ^ 32 :=
    UInt32.toNat_sub value.bits 1
  unfold magnitude at *
  unfold negative
  rw [hbits]
  omega

/-- The step from a finite value leads to another finite value. -/
theorem nextFinite_spec (h : isFinite value = true) (positive : Bool) :
    isFinite (nextFinite value positive) = true ∧
      feq value (nextFinite value positive) = false := by
  have h := isFinite_iff.mp h
  have hsucc := succ_bits h
  unfold nextFinite
  by_cases hzero : feq value 0
  · have hm := (feq_zero_iff h).mp hzero
    have hkey := key_eq_zero hm
    have hsmall : ∀ small : F32, small.magnitude = 1 → isFinite small = true ∧
        feq value small = false := by
      intro small hone
      refine ⟨isFinite_iff.mpr (by rw [hone]; decide), ?_⟩
      rw [Bool.eq_false_iff]
      intro heq
      obtain ⟨-, -, hkeys⟩ := feq_iff.mp heq
      rw [hkey] at hkeys
      unfold key at hkeys
      rw [hone] at hkeys
      split at hkeys
      · omega
      · omega
    rw [if_pos hzero]
    cases positive with
    | false => exact hsmall _ rfl
    | true => exact hsmall _ rfl
  · have hm : value.magnitude ≠ 0 := fun hm => hzero ((feq_zero_iff h).mpr hm)
    have hpred := pred_bits hm
    have hdown : isFinite (⟨value.bits - 1⟩ : F32) = true ∧
        feq value ⟨value.bits - 1⟩ = false := by
      constructor
      · rw [isFinite_iff]
        omega
      · exact feq_eq_false hpred.2 (by omega)
    rw [if_neg hzero]
    dsimp only
    cases hside : flt 0 value == positive with
    | false =>
      simp only [Bool.false_eq_true, if_false]
      rw [if_pos hdown.1]
      exact hdown
    | true =>
      simp only [if_true]
      split
      next hfinite => exact ⟨hfinite, feq_eq_false hsucc.2 (by omega)⟩
      next => exact hdown

end Step

end F32

end Ennbo.Dense
