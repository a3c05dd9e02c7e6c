import Ennbo.Exponential

/-! # The scales of the outputs

With exact numbers the warp of a metric is increasing and has the inverse as its
inverse on both sides, whichever of its bounds are finite. The derivatives of the
two are reciprocal, so variances come back as they were too.
-/

namespace Ennbo.YBounds

open BpannBackend (eqB)
open Extended (finite)
open ExactLog (sigmoid)

variable {K : Type} [ExactArith K]

section Fraction

variable {v a b : K}

def fraction (v a b : K) : K := (v - a) / (b - a)

theorem fraction_pos (ha : a < v) (hb : v < b) : 0 < fraction v a b :=
  div_pos (sub_pos.mpr ha) (sub_pos.mpr (ha.trans hb))

theorem fraction_lt_one (ha : a < v) (hb : v < b) : fraction v a b < 1 := by
  rw [fraction, div_lt_one (sub_pos.mpr (ha.trans hb))]
  linarith

theorem fraction_lt_fraction {v' : K} (h : v < v') (hab : a < b) :
    fraction v a b < fraction v' a b :=
  div_lt_div_of_pos_right (by linarith) (sub_pos.mpr hab)

theorem add_fraction (hab : a < b) : a + (b - a) * fraction v a b = v := by
  have hne : b - a ≠ 0 := (sub_pos.mpr hab).ne'
  rw [fraction]
  field_simp
  ring

end Fraction

variable [Analysis K] [NanSign K]

instance : LawfulBounds (Extended K) where
  isFinite_negInfinity := rfl
  isFinite_infinity := rfl
  eqB_negInfinity := Extended.eqB_iff.mpr ⟨nofun, rfl⟩
  eqB_infinity := Extended.eqB_iff.mpr ⟨nofun, rfl⟩

/-- The bounds that a metric may have. -/
inductive OpenInterval : Extended K → Extended K → Prop where
  | line : OpenInterval .negInfinity .infinity
  | above (a : K) : OpenInterval (finite a) .infinity
  | below (b : K) : OpenInterval .negInfinity (finite b)
  | between {a b : K} : a < b → OpenInterval (finite a) (finite b)

theorem openInterval_of_boundsError {bounds : Array2 (Extended K)} {i : ℕ}
    (h : boundsError bounds i = none) : OpenInterval (lower bounds i) (upper bounds i) := by
  obtain ⟨-, -, hlower, hupper⟩ := entries_of_boundsError h
  unfold boundsError at h
  generalize lower bounds i = a at h hlower ⊢
  generalize upper bounds i = b at h hupper ⊢
  have ha : a = .negInfinity ∨ ∃ v, a = finite v := by
    cases hf : isFinite a with
    | false => exact .inl (Extended.eqB_iff.mp (hlower hf)).2
    | true => exact .inr (Extended.isFinite_iff.mp hf)
  have hb : b = .infinity ∨ ∃ v, b = finite v := by
    cases hf : isFinite b with
    | false => exact .inl (Extended.eqB_iff.mp (hupper hf)).2
    | true => exact .inr (Extended.isFinite_iff.mp hf)
  rcases ha with rfl | ⟨a, rfl⟩
  · rcases hb with rfl | ⟨b, rfl⟩
    · exact .line
    · exact .below b
  · rcases hb with rfl | ⟨b, rfl⟩
    · exact .above a
    · apply OpenInterval.between
      by_contra hle
      have hbad : leB (finite b) (finite a) = true := Extended.leB_finite.mpr (not_lt.mp hle)
      simp [isFinite, hbad] at h

theorem boundsError_of_openInterval {bounds : Array2 (Extended K)} {i : ℕ}
    (h : OpenInterval (lower bounds i) (upper bounds i)) : boundsError bounds i = none := by
  have heq : ∀ a : Extended K, a ≠ .nan → eqB a a = true :=
    fun a ha => Extended.eqB_iff.mpr ⟨ha, rfl⟩
  have hneg : eqB (.negInfinity : Extended K) negInfinity = true := heq _ nofun
  have hpos : eqB (.infinity : Extended K) infinity = true := heq _ nofun
  unfold boundsError isNan
  generalize lower bounds i = a at h ⊢
  generalize upper bounds i = b at h ⊢
  cases h with
  | line => simp [isFinite, heq, hneg, hpos]
  | above a => simp [isFinite, heq, hpos]
  | below b => simp [isFinite, heq, hneg]
  | @between a b hab =>
    have hlt : leB (finite b) (finite a) = false := by
      rw [← Bool.not_eq_true, Extended.leB_finite]
      exact not_le.mpr hab
    simp [isFinite, heq, hlt]

def Inside (v : K) (a b : Extended K) : Prop :=
  (∀ a', a = finite a' → a' < v) ∧ ∀ b', b = finite b' → v < b'

theorem outside_eq_false_iff {y a b : Extended K} (h : OpenInterval a b) :
    outside y a b = false ↔ ∃ v, y = finite v ∧ Inside v a b := by
  unfold outside Inside
  cases y with
  | finite v =>
    cases h <;>
      simp [isFinite, Bool.eq_false_iff, Extended.leB_finite]
  | _ => simp [isFinite]

section Warp

variable {v a b : K}

theorem warpScalar_above (h : a < v) :
    warpScalar (finite v) (finite a) .infinity = finite (ln (v - a)) := by
  change ln (finite v - finite a) = _
  rw [Extended.finite_sub, Extended.ln_finite (sub_pos.mpr h)]

theorem warpScalar_below (h : v < b) :
    warpScalar (finite v) .negInfinity (finite b) = finite (-ln (b - v)) := by
  change neg (ln (finite b - finite v)) = _
  rw [Extended.finite_sub, Extended.ln_finite (sub_pos.mpr h)]
  rfl

omit [Analysis K] [NanSign K] in
theorem finite_fraction (hab : a < b) :
    (finite v - finite a) / (finite b - finite a) = finite (fraction v a b) := by
  rw [Extended.finite_sub, Extended.finite_sub, Extended.finite_div _ (sub_pos.mpr hab).ne']
  rfl

theorem warpScalar_between (ha : a < v) (hb : v < b) :
    warpScalar (finite v) (finite a) (finite b) =
      finite (ln (fraction v a b / (1 - fraction v a b))) := by
  have hsub : 0 < 1 - fraction v a b := sub_pos.mpr (fraction_lt_one ha hb)
  change ln ((finite v - finite a) / (finite b - finite a) /
    (1 - (finite v - finite a) / (finite b - finite a))) = _
  rw [finite_fraction (ha.trans hb), Extended.one_eq, Extended.finite_sub,
    Extended.finite_div _ hsub.ne', Extended.ln_finite (div_pos (fraction_pos ha hb) hsub)]

end Warp

section Inverse

variable [ExactLog K] (z a b : K)

theorem finite_sigmoid :
    (1 / (1 + exp (neg (finite z))) : Extended K) = finite (sigmoid z) := by
  change (finite 1 / (finite 1 + finite (exp (-z))) : Extended K) = _
  have hpos := ExactLog.exp_pos (-z)
  rw [Extended.finite_add, Extended.finite_div _ (by linarith)]
  rfl

omit [ExactLog K] in
theorem invScalar_above : invScalar (finite z) (finite a) .infinity = finite (a + exp z) := rfl

omit [ExactLog K] in
theorem invScalar_below : invScalar (finite z) .negInfinity (finite b) = finite (b - exp (-z)) := by
  change finite b - finite (exp (-z)) = _
  exact Extended.finite_sub _ _

theorem invScalar_between :
    invScalar (finite z) (finite a) (finite b) = finite (a + (b - a) * sigmoid z) := by
  change finite a + (finite b - finite a) * (1 / (1 + exp (neg (finite z)))) = _
  rw [finite_sigmoid, Extended.finite_sub, Extended.finite_mul, Extended.finite_add]

end Inverse

/-- The warp of a metric is increasing, and the inverse is its inverse on both sides. -/
structure WarpInverse (a b : Extended K) : Prop where
  increasing : ∀ y y', outside y a b = false → outside y' a b = false → ltB y y' = true →
    ltB (warpScalar y a b) (warpScalar y' a b) = true
  inv_warp : ∀ y, outside y a b = false → invScalar (warpScalar y a b) a b = y
  inside_inv : ∀ z, isFinite z = true → outside (invScalar z a b) a b = false
  warp_inv : ∀ z, isFinite z = true → warpScalar (invScalar z a b) a b = z

variable [ExactLog K]

theorem OpenInterval.increasing {a b y y' : Extended K} (h : OpenInterval a b)
    (hy : outside y a b = false) (hy' : outside y' a b = false) (hlt : ltB y y' = true) :
    ltB (warpScalar y a b) (warpScalar y' a b) = true := by
  obtain ⟨v, rfl, hlow, hup⟩ := (outside_eq_false_iff h).mp hy
  obtain ⟨v', rfl, hlow', hup'⟩ := (outside_eq_false_iff h).mp hy'
  rw [Extended.ltB_finite] at hlt
  cases h with
  | line => exact Extended.ltB_finite.mpr hlt
  | above a =>
    have ha := hlow a rfl
    rw [warpScalar_above ha, warpScalar_above (hlow' a rfl), Extended.ltB_finite]
    exact ExactLog.ln_lt_ln (sub_pos.mpr ha) (sub_lt_sub_right hlt a)
  | below b =>
    have hb' := hup' b rfl
    rw [warpScalar_below (hup b rfl), warpScalar_below hb', Extended.ltB_finite]
    exact neg_lt_neg (ExactLog.ln_lt_ln (sub_pos.mpr hb') (sub_lt_sub_left hlt b))
  | between hab =>
    have ha := hlow _ rfl
    have hb := hup _ rfl
    have hb' := hup' _ rfl
    rw [warpScalar_between ha hb, warpScalar_between (hlow' _ rfl) hb', Extended.ltB_finite]
    apply ExactLog.ln_lt_ln
    · exact div_pos (fraction_pos ha hb) (sub_pos.mpr (fraction_lt_one ha hb))
    · exact ExactLog.odds_lt_odds (fraction_lt_fraction hlt hab)
        (fraction_lt_one (hlow' _ rfl) hb')

theorem OpenInterval.inv_warp {a b y : Extended K} (h : OpenInterval a b)
    (hy : outside y a b = false) : invScalar (warpScalar y a b) a b = y := by
  obtain ⟨v, rfl, hlow, hup⟩ := (outside_eq_false_iff h).mp hy
  cases h with
  | line => rfl
  | above a =>
    have ha := hlow a rfl
    rw [warpScalar_above ha, invScalar_above, ExactLog.exp_ln _ (sub_pos.mpr ha), add_sub_cancel]
  | below b =>
    have hb := hup b rfl
    rw [warpScalar_below hb, invScalar_below, neg_neg, ExactLog.exp_ln _ (sub_pos.mpr hb),
      sub_sub_cancel]
  | between hab =>
    have ha := hlow _ rfl
    have hb := hup _ rfl
    rw [warpScalar_between ha hb, invScalar_between,
      ExactLog.sigmoid_ln_odds (fraction_pos ha hb) (fraction_lt_one ha hb), add_fraction hab]

theorem OpenInterval.inside_inv {a b z : Extended K} (h : OpenInterval a b)
    (hz : isFinite z = true) : outside (invScalar z a b) a b = false := by
  obtain ⟨z, rfl⟩ := Extended.isFinite_iff.mp hz
  rw [outside_eq_false_iff h]
  have hpos := ExactLog.exp_pos z
  have hneg := ExactLog.exp_pos (-z)
  cases h with
  | line => exact ⟨z, rfl, nofun, nofun⟩
  | above a =>
    refine ⟨_, invScalar_above z a, ?_, nofun⟩
    rintro _ ⟨⟩
    linarith
  | below b =>
    refine ⟨_, invScalar_below z b, nofun, ?_⟩
    rintro _ ⟨⟩
    linarith
  | @between a b hab =>
    have hwidth := sub_pos.mpr hab
    refine ⟨_, invScalar_between z a b, ?_, ?_⟩
    · rintro _ ⟨⟩
      exact lt_add_of_pos_right a (mul_pos hwidth (ExactLog.sigmoid_pos z))
    · rintro _ ⟨⟩
      have hlt := mul_lt_mul_of_pos_left (ExactLog.sigmoid_lt_one z) hwidth
      linarith

theorem OpenInterval.warp_inv {a b z : Extended K} (h : OpenInterval a b)
    (hz : isFinite z = true) : warpScalar (invScalar z a b) a b = z := by
  have hin := h.inside_inv hz
  obtain ⟨z, rfl⟩ := Extended.isFinite_iff.mp hz
  obtain ⟨v, hv, hlow, hup⟩ := (outside_eq_false_iff h).mp hin
  rw [hv]
  cases h with
  | line => exact hv.symm
  | above a =>
    rw [warpScalar_above (hlow a rfl)]
    rw [invScalar_above, Extended.finite.injEq] at hv
    rw [← hv, add_sub_cancel_left, ExactLog.ln_exp]
  | below b =>
    rw [warpScalar_below (hup b rfl)]
    rw [invScalar_below, Extended.finite.injEq] at hv
    rw [← hv, sub_sub_cancel, ExactLog.ln_exp, neg_neg]
  | @between a b hab =>
    have hfraction : fraction v a b = sigmoid z := by
      rw [invScalar_between, Extended.finite.injEq] at hv
      rw [fraction, ← hv, add_sub_cancel_left, mul_div_cancel_left₀ _ (sub_pos.mpr hab).ne']
    rw [warpScalar_between (hlow _ rfl) (hup _ rfl), hfraction, ExactLog.sigmoid_odds,
      ExactLog.ln_exp]

theorem OpenInterval.warpInverse {a b : Extended K} (h : OpenInterval a b) : WarpInverse a b where
  increasing _ _ := h.increasing
  inv_warp _ := h.inv_warp
  inside_inv _ := h.inside_inv
  warp_inv _ := h.warp_inv

/-- The derivatives at an output and at its stored value are reciprocal. -/
theorem OpenInterval.jacobians {a b y : Extended K} (h : OpenInterval a b)
    (hy : outside y a b = false) :
    ∃ c : K, c ≠ 0 ∧ warpJacobian y a b = finite c ∧
      invJacobian (warpScalar y a b) a b = finite c⁻¹ := by
  obtain ⟨v, rfl, hlow, hup⟩ := (outside_eq_false_iff h).mp hy
  cases h with
  | line =>
    refine ⟨1, one_ne_zero, rfl, ?_⟩
    rw [inv_one]
    rfl
  | above a =>
    have ha := sub_pos.mpr (hlow a rfl)
    refine ⟨(v - a)⁻¹, inv_ne_zero ha.ne', ?_, ?_⟩
    · change (1 / (finite v - finite a) : Extended K) = _
      rw [Extended.finite_sub, Extended.one_eq, Extended.finite_div _ ha.ne', one_div]
    · rw [warpScalar_above (hlow a rfl), inv_inv]
      exact congrArg finite (ExactLog.exp_ln _ ha)
  | below b =>
    have hb := sub_pos.mpr (hup b rfl)
    refine ⟨(b - v)⁻¹, inv_ne_zero hb.ne', ?_, ?_⟩
    · change (1 / (finite b - finite v) : Extended K) = _
      rw [Extended.finite_sub, Extended.one_eq, Extended.finite_div _ hb.ne', one_div]
    · rw [warpScalar_below (hup b rfl), inv_inv]
      change finite (exp (- -ln (b - v))) = _
      rw [neg_neg, ExactLog.exp_ln _ hb]
  | @between a b hab =>
    have ha := hlow _ rfl
    have hb := hup _ rfl
    have hwidth := (sub_pos.mpr hab).ne'
    have hu := (fraction_pos ha hb).ne'
    have hsub := (sub_pos.mpr (fraction_lt_one ha hb)).ne'
    have hne := mul_ne_zero (mul_ne_zero hwidth hu) hsub
    refine ⟨((b - a) * fraction v a b * (1 - fraction v a b))⁻¹, inv_ne_zero hne, ?_, ?_⟩
    · change (1 / ((finite b - finite a) * ((finite v - finite a) / (finite b - finite a)) *
        (1 - (finite v - finite a) / (finite b - finite a))) : Extended K) = _
      rw [finite_fraction hab, Extended.finite_sub, Extended.finite_mul, Extended.one_eq,
        Extended.finite_sub, Extended.finite_mul, Extended.finite_div _ hne, one_div]
    · rw [warpScalar_between ha hb, inv_inv]
      change (finite b - finite a) * (1 / (1 + exp (neg (finite _)))) *
        (1 - 1 / (1 + exp (neg (finite _)))) = _
      rw [finite_sigmoid, ExactLog.sigmoid_ln_odds (fraction_pos ha hb) (fraction_lt_one ha hb),
        Extended.finite_sub, Extended.finite_mul, Extended.one_eq, Extended.finite_sub,
        Extended.finite_mul]

/-- A variance that is finite when it is stored comes back as it was. -/
theorem OpenInterval.yvar_eq {a b y v : Extended K} (h : OpenInterval a b)
    (hy : outside y a b = false)
    (hfinite : isFinite (warpJacobian y a b * warpJacobian y a b * v) = true) :
    warpJacobian y a b * warpJacobian y a b * v * invJacobian (warpScalar y a b) a b *
      invJacobian (warpScalar y a b) a b = v := by
  obtain ⟨c, hc, hwarp, hinv⟩ := h.jacobians hy
  rw [hwarp, Extended.finite_mul] at hfinite ⊢
  rw [hinv]
  cases v with
  | finite v =>
    simp only [Extended.finite_mul]
    congr 1
    field_simp
  | nan => cases hfinite
  | infinity =>
    have hsigned : isFinite (Extended.signed (c * c)) = true := hfinite
    rw [Extended.isFinite_signed] at hsigned
    cases hsigned
  | negInfinity =>
    have hsigned : isFinite (Extended.signed (-(c * c))) = true := hfinite
    rw [Extended.isFinite_signed] at hsigned
    cases hsigned

end Ennbo.YBounds
