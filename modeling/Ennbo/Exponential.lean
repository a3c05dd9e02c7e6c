import Ennbo.Extended
import Mathlib.Analysis.SpecialFunctions.Log.Basic
import Mathlib.Analysis.SpecialFunctions.Trigonometric.Basic

/-! # The exponential and the logarithm

What exact numbers need so that outputs can be warped to the real line and back.
The real numbers are the case that the names come from.
-/

namespace Ennbo

/-- The exponential is an order isomorphism onto the positive numbers. -/
class ExactLog (K : Type) [ExactArith K] [Analysis K] : Prop where
  exp_pos : ∀ a : K, 0 < exp a
  exp_lt_exp : ∀ a b : K, a < b → exp a < exp b
  exp_neg : ∀ a : K, exp (-a) = (exp a)⁻¹
  exp_ln : ∀ a : K, 0 < a → exp (ln a) = a
  ln_exp : ∀ a : K, ln (exp a) = a

noncomputable instance : ExactArith ℝ :=
  { (inferInstance : Field ℝ), (inferInstance : LinearOrder ℝ),
    (inferInstance : IsStrictOrderedRing ℝ) with
    infinity := 0
    partialCmp := fun a b => some (compare a b)
    partialCmp_eq := fun _ _ => rfl }

noncomputable instance : Analysis ℝ where
  negInfinity := 0
  isFinite _ := true
  totalCmp a b := compare a b
  neg a := -a
  sqrt := Real.sqrt
  exp := Real.exp
  ln := Real.log
  cos := Real.cos
  pi := Real.pi
  literal m e := (m : ℝ) / 10 ^ e
  display _ := ""

instance : NanSign ℝ := ⟨true⟩

instance : ExactLog ℝ where
  exp_pos := Real.exp_pos
  exp_lt_exp _ _ := Real.exp_lt_exp.mpr
  exp_neg := Real.exp_neg
  exp_ln _ := Real.exp_log
  ln_exp := Real.log_exp

namespace ExactLog

variable {K : Type} [ExactArith K] [Analysis K] [ExactLog K] {a b : K}

theorem ln_lt_ln (ha : 0 < a) (h : a < b) : ln a < ln b := by
  by_contra hle
  rcases (not_lt.mp hle).eq_or_lt with heq | hlt
  · have hexp := congrArg exp heq
    rw [exp_ln b (ha.trans h), exp_ln a ha] at hexp
    exact absurd hexp h.ne'
  · have hexp := exp_lt_exp _ _ hlt
    rw [exp_ln b (ha.trans h), exp_ln a ha] at hexp
    exact absurd hexp h.not_gt

def sigmoid (z : K) : K := 1 / (1 + exp (-z))

theorem sigmoid_pos (z : K) : 0 < sigmoid z :=
  one_div_pos.mpr (add_pos one_pos (exp_pos _))

theorem sigmoid_lt_one (z : K) : sigmoid z < 1 := by
  have hpos := exp_pos (-z)
  rw [sigmoid, div_lt_one (by linarith)]
  linarith

theorem sigmoid_odds (z : K) : sigmoid z / (1 - sigmoid z) = exp z := by
  have hpos := exp_pos z
  have hsum : 0 < exp z + 1 := by linarith
  rw [sigmoid, exp_neg]
  field_simp
  ring

theorem sigmoid_ln_odds {u : K} (h0 : 0 < u) (h1 : u < 1) : sigmoid (ln (u / (1 - u))) = u := by
  have hsub : 0 < 1 - u := sub_pos.mpr h1
  rw [sigmoid, exp_neg, exp_ln _ (div_pos h0 hsub)]
  field_simp
  ring

omit [Analysis K] [ExactLog K] in
theorem odds_lt_odds {u v : K} (h : u < v) (h1 : v < 1) : u / (1 - u) < v / (1 - v) := by
  rw [div_lt_div_iff₀ (by linarith) (by linarith)]
  linarith

end ExactLog

end Ennbo
