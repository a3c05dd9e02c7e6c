import Mathlib.Algebra.Order.BigOperators.Group.List
import Mathlib.Tactic.Ring
import Mathlib.Tactic.Linarith
import Ennbo.Arithmetic

/-! # Squared distances

Rows are converted to `f32`, divided by the column scale when one is in force,
and compared by squared Euclidean distance. The `f32` routine sums into eight
lanes; in exact arithmetic it is the plain sum of squares.
-/

namespace Ennbo

variable {D F : Type} [Floating D] [Floating F] [FloatCast D F]

/-- Convert a row to `f32`, dividing by the column scales when `scaleX` is set. -/
def bpannRowToF32 (row : List D) (scaleX : Bool) (xScale : List D) : List F :=
  if scaleX then List.zipWith (fun v s => toF32 (v / s)) row xScale
  else row.map toF32

def LANES : ℕ := 8

def laneStep (acc a b : List F) : List F :=
  List.zipWith (fun lane d => lane + d * d) acc (List.zipWith (· - ·) a b)

/-- Run `laneStep` over the first `m` chunks of `a` and `b`. -/
def laneSums : ℕ → List F → List F → List F → List F
  | 0, acc, _, _ => acc
  | m + 1, acc, a, b =>
    laneSums m (laneStep acc (a.take LANES) (b.take LANES)) (a.drop LANES) (b.drop LANES)

/-- What `chunks_exact(LANES)` leaves over. -/
def remainder (a : List F) : List F := a.drop (a.length / LANES * LANES)

def l2SqF32 (a b : List F) : F :=
  let acc := laneSums (min (a.length / LANES) (b.length / LANES)) (List.replicate LANES 0) a b
  (List.zipWith (· - ·) (remainder a) (remainder b)).foldl (fun sum d => sum + d * d)
    (acc.foldl (· + ·) 0)

def batchedSqL2F32 (query : List F) (rows : List (List F)) : List F :=
  rows.map (l2SqF32 query)

/-- The `f64` distance used when candidates are rescored against the stored rows. -/
def rowSqL2 (x y : List D) (scaleX : Bool) (xScale : List D) : D :=
  let diffs :=
    if scaleX then
      List.zipWith (fun xy sc => xy.1 / sc - xy.2 / sc) (x.zip y) xScale
    else List.zipWith (· - ·) x y
  max (diffs.foldl (fun acc d => acc + d * d) 0) 0

section Exact

variable {K : Type} [ExactArith K]

def sqDist (a b : List K) : K := (List.zipWith (fun x y => (x - y) * (x - y)) a b).sum

theorem sqDist_nonneg (a b : List K) : 0 ≤ sqDist a b := by
  refine List.sum_nonneg fun z hz => ?_
  obtain ⟨i, hi, rfl⟩ := List.getElem_of_mem hz
  rw [List.getElem_zipWith]
  exact mul_self_nonneg _

theorem sqDist_self (a : List K) : sqDist a a = 0 := by
  induction a with
  | nil => rfl
  | cons x a ih =>
    unfold sqDist at ih ⊢
    rw [List.zipWith_cons_cons, List.sum_cons, ih, sub_self, mul_zero, add_zero]

theorem eq_of_sqDist_eq_zero {a b : List K} (hlen : a.length = b.length)
    (h : sqDist a b = 0) : a = b := by
  induction a generalizing b with
  | nil => exact (List.eq_nil_of_length_eq_zero hlen.symm).symm
  | cons x a ih =>
    obtain ⟨y, b, rfl⟩ := List.exists_cons_of_length_eq_add_one hlen.symm
    have hsum : (x - y) * (x - y) + sqDist a b = 0 := by
      rwa [sqDist, List.zipWith_cons_cons, List.sum_cons, ← sqDist] at h
    obtain ⟨hx, hrest⟩ :=
      (add_eq_zero_iff_of_nonneg (mul_self_nonneg _) (sqDist_nonneg a b)).mp hsum
    rw [sub_eq_zero.mp (mul_self_eq_zero.mp hx), ih (Nat.succ.inj hlen) hrest]

theorem sqDist_append {a₁ b₁ : List K} (h : a₁.length = b₁.length) (a₂ b₂ : List K) :
    sqDist (a₁ ++ a₂) (b₁ ++ b₂) = sqDist a₁ b₁ + sqDist a₂ b₂ := by
  rw [sqDist, List.zipWith_append h, List.sum_append, sqDist, sqDist]

theorem foldl_squares (acc : K) (ds : List K) :
    ds.foldl (fun sum d => sum + d * d) acc = acc + (ds.map fun d => d * d).sum := by
  induction ds generalizing acc with
  | nil => simp
  | cons d ds ih => rw [List.foldl_cons, ih, List.map_cons, List.sum_cons, add_assoc]

theorem sum_laneStep {acc a b : List K} (ha : a.length = acc.length)
    (hb : b.length = acc.length) : (laneStep acc a b).sum = acc.sum + sqDist a b := by
  induction acc generalizing a b with
  | nil =>
    obtain rfl := List.eq_nil_of_length_eq_zero ha
    simp [laneStep, sqDist]
  | cons l acc ih =>
    obtain ⟨x, a, rfl⟩ := List.exists_cons_of_length_eq_add_one ha
    obtain ⟨y, b, rfl⟩ := List.exists_cons_of_length_eq_add_one hb
    have h := ih (a := a) (b := b) (by simpa using ha) (by simpa using hb)
    simp only [laneStep, sqDist, List.zipWith_cons_cons, List.sum_cons] at h ⊢
    rw [h]; ring

theorem length_laneStep {acc a b : List K} (ha : a.length = acc.length)
    (hb : b.length = acc.length) : (laneStep acc a b).length = acc.length := by
  simp [laneStep, ha, hb]

theorem sum_laneSums {m : ℕ} {acc a b : List K} (hc : acc.length = LANES)
    (ha : m * LANES ≤ a.length) (hb : m * LANES ≤ b.length) :
    (laneSums m acc a b).sum = acc.sum + sqDist (a.take (m * LANES)) (b.take (m * LANES)) := by
  induction m generalizing acc a b with
  | zero => simp [laneSums, sqDist]
  | succ m ih =>
    have hl : (m + 1) * LANES = LANES + m * LANES := by ring
    rw [hl] at ha hb ⊢
    have hta : (a.take LANES).length = acc.length := by rw [List.length_take, hc]; omega
    have htb : (b.take LANES).length = acc.length := by rw [List.length_take, hc]; omega
    rw [laneSums, ih (by rw [length_laneStep hta htb, hc]) (by rw [List.length_drop]; omega)
      (by rw [List.length_drop]; omega), sum_laneStep hta htb, List.take_add, List.take_add,
      sqDist_append (by rw [hta, htb]), add_assoc]

theorem map_sub_squares (a b : List K) :
    ((List.zipWith (· - ·) a b).map fun d => d * d).sum = sqDist a b := by
  rw [List.map_zipWith, sqDist]

theorem foldl_add (acc : K) (l : List K) : l.foldl (· + ·) acc = acc + l.sum := by
  induction l generalizing acc with
  | nil => simp
  | cons x l ih => rw [List.foldl_cons, ih, List.sum_cons, add_assoc]

@[simp] theorem l2SqF32_eq {a b : List K} (h : a.length = b.length) :
    l2SqF32 a b = sqDist a b := by
  have hm : a.length / LANES * LANES ≤ a.length := Nat.div_mul_le_self _ _
  have hacc : (List.replicate LANES (0 : K)).length = LANES := by simp
  have hs := sum_laneSums hacc hm (h ▸ hm : a.length / LANES * LANES ≤ b.length)
  simp only [l2SqF32, ← h, min_self, foldl_squares, foldl_add, map_sub_squares, hs]
  rw [List.sum_replicate, nsmul_zero, zero_add, zero_add, remainder, remainder, ← h,
    ← sqDist_append (by simp [h]), List.take_append_drop, List.take_append_drop]

theorem rowSqL2_eq {x y xScale : List K} {scaleX : Bool} (h : x.length = y.length)
    (hs : xScale.length = x.length) :
    rowSqL2 x y scaleX xScale =
      sqDist (bpannRowToF32 x scaleX xScale) (bpannRowToF32 y scaleX xScale) := by
  have hd : ∀ ds : List K, ds.foldl (fun acc d => acc + d * d) 0 =
      (ds.map fun d => d * d).sum := fun ds => by rw [foldl_squares, zero_add]
  cases scaleX with
  | false =>
    have hid : ∀ row : List K, row.map (toF32 : K → K) = row := List.map_id
    simp only [rowSqL2, bpannRowToF32, Bool.false_eq_true, if_false, hd, map_sub_squares, hid]
    exact max_eq_left (sqDist_nonneg x y)
  | true =>
    simp only [rowSqL2, bpannRowToF32, if_true, hd, toF32_exact]
    have hz : (List.zipWith (fun xy sc => xy.1 / sc - xy.2 / sc) (x.zip y) xScale).map
        (fun d => d * d) =
        List.zipWith (fun x y => (x - y) * (x - y))
          (List.zipWith (fun v s => v / s) x xScale)
          (List.zipWith (fun v s => v / s) y xScale) := by
      apply List.ext_getElem
      · simp [h, hs]
      · intro i _ _
        simp
    rw [hz, ← sqDist]
    exact max_eq_left (sqDist_nonneg _ _)

theorem length_bpannRowToF32 {row xScale : List K} (scaleX : Bool)
    (h : xScale.length = row.length) :
    (bpannRowToF32 row scaleX xScale : List K).length = row.length := by
  cases scaleX <;> simp [bpannRowToF32, h]

end Exact

end Ennbo
