import Ennbo.Search.Flat
import Ennbo.Triples
import Mathlib.Tactic.Linarith
import Mathlib.Tactic.Positivity

/-! # Random generators

What a generator draws is left open. It is only assumed that each draw is in the
range that was asked for, and that a shuffle permutes.
-/

namespace Ennbo

/-- What a generator draws in a state, and the state after that. -/
class RandomGenerator (D : outParam Type) (ρ : Type) where
  /-- `rng.gen::<f64>()` -/
  standard : ρ → D × ρ
  /-- A sample of a uniform distribution from `lower` up to `upper`, once it is built. -/
  between : D → D → ρ → D × ρ
  /-- `rng.gen_range(0..=i)` -/
  upTo : ℕ → ρ → ℕ × ρ
  /-- The eight bytes of `rng.fill_bytes` as a number. -/
  word : ρ → UInt64 × ρ
  /-- `indices.shuffle(rng)` -/
  shuffle : List ℕ → ρ → List ℕ × ρ

/-- Every draw is in its range. -/
class LawfulGenerator (K ρ : Type) [ExactArith K] [RandomGenerator K ρ] : Prop where
  standard_mem : ∀ s : ρ, 0 ≤ (RandomGenerator.standard s).1 ∧ (RandomGenerator.standard s).1 < 1
  between_mem : ∀ (lower upper : K) (s : ρ), lower < upper →
    lower ≤ (RandomGenerator.between lower upper s).1 ∧
      (RandomGenerator.between lower upper s).1 < upper
  upTo_le : ∀ (i : ℕ) (s : ρ), (RandomGenerator.upTo i s).1 ≤ i
  shuffle_perm : ∀ (l : List ℕ) (s : ρ), (RandomGenerator.shuffle l s).1.Perm l

namespace RandomGenerator

section Draws

variable {D ρ α : Type} [Floating D] [RandomGenerator D ρ]

def draw (f : ρ → α × ρ) : Call ρ α := fun s => (.ok (f s).1, (f s).2)

def gen : Call ρ D := draw standard

/-- Building the distribution panics when the range is empty. -/
def sampleUniform (lower upper : D) : Call ρ D :=
  if ltB lower upper then draw (between lower upper) else Call.ofOutcome (throw .panic)

def genUpTo (i : ℕ) : Call ρ ℕ := draw (upTo i)

def genWord : Call ρ UInt64 := draw word

def shuffled (l : List ℕ) : Call ρ (List ℕ) := draw (shuffle l)

end Draws

section Lawful

variable {K ρ α : Type} [ExactArith K] [RandomGenerator K ρ] {S : ρ → Prop} {E : Failure → Prop}

theorem ends_draw {f : ρ → α × ρ} {P : α → Prop} (h : ∀ s, P (f s).1) :
    Call.Ends (fun _ => True) E (draw f) P :=
  fun s _ => ⟨trivial, fun _ ha => Except.ok.inj ha ▸ h s, nofun⟩

variable [LawfulGenerator K ρ]

theorem ends_gen : Call.Ends (fun _ => True) E (gen : Call ρ K) fun u => 0 ≤ u ∧ u < 1 :=
  ends_draw LawfulGenerator.standard_mem

theorem ends_sampleUniform {lower upper : K} (h : lower < upper) :
    Call.Ends (fun _ => True) E (sampleUniform lower upper : Call ρ K) fun x =>
      lower ≤ x ∧ x < upper := by
  unfold sampleUniform
  rw [if_pos (by simpa using h)]
  exact ends_draw fun s => LawfulGenerator.between_mem lower upper s h

theorem ends_genUpTo (i : ℕ) :
    Call.Ends (fun _ => True) E (genUpTo i : Call ρ ℕ) fun j => j ≤ i :=
  ends_draw (LawfulGenerator.upTo_le i)

theorem ends_shuffled (l : List ℕ) :
    Call.Ends (fun _ => True) E (shuffled l : Call ρ (List ℕ)) fun l' => l'.Perm l :=
  ends_draw (LawfulGenerator.shuffle_perm l)

end Lawful

end RandomGenerator

/-- A generator that counts. -/
structure Counter where
  count : ℕ
  deriving DecidableEq

namespace Counter

def next (c : Counter) : Counter := ⟨c.count + 1⟩

def unit (c : Counter) : ℚ := (c.count % 8 : ℕ) / 8

theorem unit_mem (c : Counter) : 0 ≤ c.unit ∧ c.unit < 1 := by
  have hlt : c.count % 8 < 8 := Nat.mod_lt _ (by decide)
  have hcast : ((c.count % 8 : ℕ) : ℚ) < 8 := by exact_mod_cast hlt
  unfold unit
  constructor
  · positivity
  · linarith

instance : RandomGenerator ℚ Counter where
  standard c := (c.unit, c.next)
  between lower upper c := (lower + (upper - lower) * c.unit, c.next)
  upTo i c := (c.count % (i + 1), c.next)
  word c := (UInt64.ofNat c.count, c.next)
  shuffle l c := (l.reverse, c.next)

instance : LawfulGenerator ℚ Counter where
  standard_mem := unit_mem
  between_mem lower upper c h := by
    obtain ⟨hnonneg, hlt⟩ := c.unit_mem
    have hwidth : 0 < upper - lower := sub_pos.mpr h
    constructor
    · exact le_add_of_nonneg_right (mul_nonneg hwidth.le hnonneg)
    · have hpart := mul_lt_of_lt_one_right hwidth hlt
      change lower + (upper - lower) * c.unit < upper
      linarith
  upTo_le i c := Nat.lt_succ_iff.mp (Nat.mod_lt _ (Nat.succ_pos i))
  shuffle_perm l _ := List.reverse_perm l

end Counter

end Ennbo
