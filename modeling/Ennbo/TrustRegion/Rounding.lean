import Ennbo.Fixed
import Ennbo.TrustRegion.Incumbents

/-! # What rounding keeps

IEEE arithmetic rounds the exact result of an operation, so that operations keep
the order of their operands as long as no operand is no number. Counts are machine
words, which are converted to finite values.
-/

namespace Ennbo

section Order

variable {D : Type} [Floating D] [Analysis D]

/-- The order of `total_cmp`. -/
def TotalLe (a b : D) : Prop := (totalCmp a b).isLE = true

/-- What `total_cmp` puts between the infinities is a value that is no `NaN`. -/
def IsNumber (a : D) : Prop := TotalLe negInfinity a ∧ TotalLe a infinity

def NonNeg (a : D) : Prop := TotalLe 0 a ∧ isFinite a = true

end Order

/-- Operations that round keep the order of their operands. -/
class OrderedRounding (D : Type) [Floating D] [Analysis D] : Prop extends LawfulOrder D where
  isNumber_of_isFinite : ∀ a : D, isFinite a = true → IsNumber a
  natCast_nonneg : ∀ n : ℕ, NonNeg (n : D)
  natCast_le : ∀ m n : ℕ, m ≤ n → TotalLe (m : D) (n : D)
  one_le_natCast : ∀ n : ℕ, 0 < n → TotalLe 1 (n : D)
  ln_nonneg : ∀ m n : ℕ, 0 < m → NonNeg (ln ((m : D) + (n : D) + 1))
  add_isNumber : ∀ a b : D, isFinite a = true → IsNumber b → IsNumber (a + b)
  le_add : ∀ a b : D, NonNeg a → NonNeg b → TotalLe a (a + b) ∧ TotalLe b (a + b)
  add_le_add_left : ∀ a b c : D, isFinite a = true → IsNumber b → IsNumber c → TotalLe b c →
    TotalLe (a + b) (a + c)
  add_le_add_right : ∀ a b c : D, isFinite a = true → isFinite b = true → ltB a b = true →
    TotalLe (a + c) (b + c)
  div_nonneg : ∀ a b : D, NonNeg a → TotalLe 1 b → IsNumber b → NonNeg (a / b)
  div_le_div : ∀ a b c : D, NonNeg a → TotalLe 1 b → TotalLe b c → IsNumber c →
    TotalLe (a / c) (a / b)
  sqrt_nonneg : ∀ a : D, NonNeg a → NonNeg (sqrt a)
  sqrt_le_sqrt : ∀ a b : D, NonNeg a → NonNeg b → TotalLe a b → TotalLe (sqrt a) (sqrt b)
  mul_isNumber : ∀ a b : D, isFinite a = true → ltB a 0 = false → NonNeg b → IsNumber (a * b)
  mul_le_mul : ∀ a b c : D, isFinite a = true → ltB a 0 = false → NonNeg b → NonNeg c →
    TotalLe b c → TotalLe (a * b) (a * c)

namespace Fixed

variable {a b c : Fixed}

theorem totalLe_iff : TotalLe a b ↔ a.place ≤ b.place := by
  change (compare a.place b.place).isLE = true ↔ _
  exact Ordering.isLE_iff_ne_gt.trans compare_le_iff_le

theorem isNumber_iff : IsNumber a ↔ a ≠ nan := by
  unfold IsNumber
  rw [totalLe_iff, totalLe_iff, ne_nan_iff]
  exact and_iff_left (place_le a)

theorem nonNeg_iff : NonNeg a ↔ 0 ≤ a.place ∧ a.place ≤ bound := by
  have hbound := bound_eq
  unfold NonNeg
  rw [totalLe_iff, isFinite_iff, show (0 : Fixed) = ofInt 0 from rfl, place_ofInt]
  omega

theorem ltB_iff (ha : isFinite a = true) (hb : isFinite b = true) :
    ltB a b = true ↔ a.place < b.place := by
  obtain ⟨m, hm, rfl⟩ := eq_units_of_isFinite ha
  obtain ⟨n, hn, rfl⟩ := eq_units_of_isFinite hb
  change (some (compare m n) == some Ordering.lt) = true ↔ m < n
  rw [beq_iff_eq, Option.some.injEq, compare_lt_iff_lt]

theorem isNumber_of_isFinite (ha : isFinite a = true) : IsNumber a := by
  obtain ⟨m, hm, rfl⟩ := eq_units_of_isFinite ha
  exact isNumber_iff.mpr (by simp)

theorem isNumber_ofInt (n : ℤ) : IsNumber (ofInt n) := by
  have hbound := bound_eq
  rw [isNumber_iff, ne_nan_iff, place_ofInt]
  omega

theorem place_add (ha : isFinite a = true) (hb : b ≠ nan) :
    (a + b).place = if isFinite b = true then (ofInt (a.place + b.place)).place else b.place := by
  obtain ⟨m, hm, rfl⟩ := eq_units_of_isFinite ha
  cases b with
  | nan => exact absurd rfl hb
  | units n hn => rfl
  | negInfinity => rfl
  | infinity => rfl

theorem place_natCast (n : ℕ) : (n : Fixed).place = 1000 * min n word := by
  have hbound := bound_eq
  have hword : word = 100000 := rfl
  rw [show (n : Fixed) = ofInt (1000 * min n word) from rfl, place_ofInt]
  omega

/-- A quotient by one or more. -/
theorem place_div (ha : NonNeg a) (hb : 1000 ≤ b.place) :
    (a / b).place = if isFinite b = true then a.place * 1000 / b.place else 0 := by
  have hbound := bound_eq
  obtain ⟨m, hm, rfl⟩ := eq_units_of_isFinite ha.2
  have hm0 : 0 ≤ m := (nonNeg_iff.mp ha).1
  cases b with
  | nan => simp only [place] at hb; omega
  | negInfinity => simp only [place] at hb; omega
  | infinity =>
    change (ofInt 0).place = 0
    rw [place_ofInt]
    omega
  | units n hn =>
    have hb : 1000 ≤ n := hb
    have hle : m * 1000 / n ≤ m :=
      Int.ediv_le_of_le_mul (by omega) (mul_le_mul_of_nonneg_left hb hm0)
    have hnonneg : 0 ≤ m * 1000 / n := Int.ediv_nonneg (by omega) (by omega)
    change (if n = 0 then signed m else ofInt (m * 1000 / n)).place = m * 1000 / n
    rw [if_neg (by omega), place_ofInt]
    omega

theorem place_sqrt (ha : NonNeg a) : (sqrt a).place = Nat.sqrt (a.place.toNat * 1000) := by
  have hbound := bound_eq
  obtain ⟨hm0, hm1⟩ := nonNeg_iff.mp ha
  obtain ⟨m, hm, rfl⟩ := eq_units_of_isFinite ha.2
  rw [place_units] at *
  have hroot : Nat.sqrt (m.toNat * 1000) < 1000001 := Nat.sqrt_lt'.mpr (by omega)
  change (if m < 0 then nan else ofInt (Nat.sqrt (m.toNat * 1000))).place = _
  rw [if_neg (by omega), place_ofInt]
  omega

theorem place_mul (ha : isFinite a = true) (hb : isFinite b = true) :
    (a * b).place = (ofInt (a.place * b.place / 1000)).place := by
  obtain ⟨m, hm, rfl⟩ := eq_units_of_isFinite ha
  obtain ⟨n, hn, rfl⟩ := eq_units_of_isFinite hb
  rfl

theorem place_zero : (0 : Fixed).place = 0 := rfl

theorem place_one : (1 : Fixed).place = 1000 := rfl

theorem add_of_bounded (ha : isFinite a = true) (hb : isFinite b = true)
    (h : -bound ≤ a.place + b.place ∧ a.place + b.place ≤ bound) :
    isFinite (a + b) = true ∧ (a + b).place = a.place + b.place := by
  rw [isFinite_iff, place_add ha (isNumber_iff.mp (isNumber_of_isFinite hb)), if_pos hb,
    place_ofInt]
  omega

theorem place_ln_counts {m : ℕ} (n : ℕ) (hm : 0 < m) :
    (ln ((m : Fixed) + (n : Fixed) + 1)).place = 1000 * min m word + 1000 * min n word := by
  have hbound := bound_eq
  have hword : word = 100000 := rfl
  have hcast : ∀ k : ℕ, isFinite (k : Fixed) = true := fun k => by
    rw [isFinite_iff, place_natCast]
    omega
  obtain ⟨hfin, hsum⟩ := add_of_bounded (hcast m) (hcast n) (by simp only [place_natCast]; omega)
  rw [place_natCast, place_natCast] at hsum
  obtain ⟨hfin, htotal⟩ := add_of_bounded (b := 1) hfin rfl (by rw [hsum, place_one]; omega)
  rw [hsum, place_one] at htotal
  obtain ⟨k, hk, heq⟩ := eq_units_of_isFinite hfin
  rw [heq] at htotal ⊢
  rw [place_units] at htotal
  change (if k < 0 then nan else if k = 0 then negInfinity else ofInt (k - 1000)).place = _
  rw [if_neg (by omega), if_neg (by omega), place_ofInt]
  omega

theorem nonneg_of_not_ltB (ha : isFinite a = true) (h : ltB a 0 = false) : 0 ≤ a.place := by
  by_contra hlt
  rw [(ltB_iff ha rfl).mpr (by rw [place_zero]; omega)] at h
  cases h

instance : OrderedRounding Fixed where
  totalCmp_trans :=
    { eq_swap := fun {a b} => @Std.OrientedCmp.eq_swap _ compare _ a.place b.place
      isLE_trans := fun {a b c} => @Std.TransCmp.isLE_trans _ compare _ a.place b.place c.place }
  totalCmp_lawful :=
    { compare_self := fun {a} => @Std.ReflCmp.compare_self _ compare _ a.place
      eq_of_compare := fun h => place_injective (compare_eq_iff_eq.mp h) }
  exists_rank := by
    refine ⟨ℤ, inferInstance, place, fun a b ha hb => ?_⟩
    obtain ⟨m, hm, rfl⟩ := eq_units_of_isFinite ha
    obtain ⟨n, hn, rfl⟩ := eq_units_of_isFinite hb
    rfl
  isNumber_of_isFinite _ := isNumber_of_isFinite
  natCast_nonneg n := by
    have hbound := bound_eq
    have hword : word = 100000 := rfl
    rw [nonNeg_iff, place_natCast]
    omega
  natCast_le m n h := by
    rw [totalLe_iff, place_natCast, place_natCast]
    omega
  one_le_natCast n h := by
    have hword : word = 100000 := rfl
    rw [totalLe_iff, place_natCast, show (1 : Fixed).place = 1000 from rfl]
    omega
  ln_nonneg m n h := by
    have hbound := bound_eq
    have hword : word = 100000 := rfl
    rw [nonNeg_iff, place_ln_counts n h]
    omega
  add_isNumber a b ha hb := by
    have hbound := bound_eq
    rw [isNumber_iff] at hb
    rw [isNumber_iff, ne_nan_iff, place_add ha hb]
    split
    · rw [place_ofInt]
      omega
    · exact ne_nan_iff.mp hb
  le_add a b ha hb := by
    obtain ⟨ha0, ha1⟩ := nonNeg_iff.mp ha
    obtain ⟨hb0, hb1⟩ := nonNeg_iff.mp hb
    rw [totalLe_iff, totalLe_iff, place_add ha.2 (isNumber_iff.mp (isNumber_of_isFinite hb.2)),
      if_pos hb.2, place_ofInt]
    omega
  add_le_add_left a b c ha hb hc h := by
    rw [isNumber_iff] at hb hc
    rw [totalLe_iff] at h ⊢
    rw [place_add ha hb, place_add ha hc]
    rw [ne_nan_iff] at hb hc
    have hbtop := place_le b
    have hctop := place_le c
    simp only [isFinite_iff, place_ofInt]
    split
    · split <;> omega
    · split <;> omega
  add_le_add_right a b c ha hb h := by
    have h := (ltB_iff ha hb).mp h
    by_cases hc : c = nan
    · obtain ⟨m, hm, rfl⟩ := eq_units_of_isFinite ha
      obtain ⟨n, hn, rfl⟩ := eq_units_of_isFinite hb
      rw [totalLe_iff, hc]
      exact le_rfl
    · rw [totalLe_iff, place_add ha hc, place_add hb hc, place_ofInt, place_ofInt]
      split
      · omega
      · exact le_rfl
  div_nonneg a b ha h hb := by
    rw [totalLe_iff, place_one] at h
    obtain ⟨ha0, ha1⟩ := nonNeg_iff.mp ha
    rw [nonNeg_iff, place_div ha h]
    split
    · refine ⟨Int.ediv_nonneg (by omega) (by omega), le_trans ?_ ha1⟩
      exact Int.ediv_le_of_le_mul (by omega) (mul_le_mul_of_nonneg_left h ha0)
    · exact ⟨le_rfl, ha0.trans ha1⟩
  div_le_div a b c ha hb h hc := by
    rw [totalLe_iff, place_one] at hb
    rw [totalLe_iff] at h ⊢
    obtain ⟨ha0, ha1⟩ := nonNeg_iff.mp ha
    rw [place_div ha hb, place_div ha (hb.trans h)]
    by_cases hcfin : isFinite c = true
    · have hbfin : isFinite b = true := by
        rw [isFinite_iff] at hcfin ⊢
        omega
      rw [if_pos hbfin, if_pos hcfin, Int.le_ediv_iff_mul_le (by omega)]
      have hnonneg : 0 ≤ a.place * 1000 / c.place := Int.ediv_nonneg (by omega) (by omega)
      calc a.place * 1000 / c.place * b.place
          ≤ a.place * 1000 / c.place * c.place := mul_le_mul_of_nonneg_left h hnonneg
        _ ≤ a.place * 1000 := Int.ediv_mul_le _ (by omega)
    · rw [if_neg hcfin]
      split
      · exact Int.ediv_nonneg (by omega) (by omega)
      · exact le_rfl
  sqrt_nonneg a ha := by
    have hbound := bound_eq
    obtain ⟨ha0, ha1⟩ := nonNeg_iff.mp ha
    have hroot : Nat.sqrt (a.place.toNat * 1000) < 1000001 := Nat.sqrt_lt'.mpr (by omega)
    rw [nonNeg_iff, place_sqrt ha]
    omega
  sqrt_le_sqrt a b ha hb h := by
    rw [totalLe_iff] at h ⊢
    rw [place_sqrt ha, place_sqrt hb, Int.ofNat_le]
    exact Nat.sqrt_le_sqrt (Nat.mul_le_mul_right _ (Int.toNat_le_toNat h))
  mul_isNumber a b ha hneg hb := by
    obtain ⟨m, hm, rfl⟩ := eq_units_of_isFinite ha
    obtain ⟨n, hn, rfl⟩ := eq_units_of_isFinite hb.2
    exact isNumber_ofInt _
  mul_le_mul a b c ha hneg hb hc h := by
    rw [totalLe_iff] at h ⊢
    have hle : a.place * b.place / 1000 ≤ a.place * c.place / 1000 :=
      Int.ediv_le_ediv (by decide) (mul_le_mul_of_nonneg_left h (nonneg_of_not_ltB ha hneg))
    rw [place_mul ha hb.2, place_mul ha hc.2, place_ofInt, place_ofInt]
    omega

end Fixed

end Ennbo
