import Ennbo.Outcome
import Ennbo.Sparse.Moves
import Mathlib.Algebra.Group.Nat.Defs
import Mathlib.Data.List.GetD
import Mathlib.Data.List.Induction
import Mathlib.Data.List.Perm.Basic

/-! # Random sparse moves

A layout divides parameters into ranges, each packed with one width into words
of its own. A random move flips bits of some fields: parameters are drawn, found
in their range, and turned into a word and a mask. Masks of one word are merged
after sorting.
-/

namespace Ennbo

open SortedMap

/-- Why no moves are drawn: an error, or an operation on machine integers that would lose
something. -/
inductive DrawFailure where
  | error (message : String)
  | underflow
  | overflow
  | narrowing
  deriving DecidableEq

/-- A source of random numbers. -/
structure RandomSource (σ : Type) where
  seedFromU64 : ℕ → σ
  genRange : ℕ → ℕ → σ → ℕ × σ

/-- `gen_range` returns a number of the range. -/
def RandomSource.Lawful {σ : Type} (rng : RandomSource σ) : Prop :=
  ∀ low high s, low < high → low ≤ (rng.genRange low high s).1 ∧ (rng.genRange low high s).1 < high

def subU64 (a b : ℕ) : Except DrawFailure ℕ := if a < b then throw .underflow else pure (a - b)

/-- `a as u32`, where no bits are lost. -/
def asU32 (a : ℕ) : Except DrawFailure ℕ := if 2 ^ 32 ≤ a then throw .narrowing else pure a

def addU32 (a b : ℕ) : Except DrawFailure ℕ :=
  if 2 ^ 32 ≤ a + b then throw .overflow else pure (a + b)

def partitionPoint (ends : List ℕ) (parameter : ℕ) : ℕ :=
  ends.findIdx fun e => !decide (e ≤ parameter)

/-- A number of draws, one after another. -/
def drawMany {σ α : Type} (step : σ → Except DrawFailure (α × σ)) :
    ℕ → σ → Except DrawFailure (List α × σ)
  | 0, s => pure ([], s)
  | n + 1, s => do
    let (a, s) ← step s
    let (as, s) ← drawMany step n s
    return (a :: as, s)

/-- Merge a pair with the pair before it. -/
def collapseStep (out : List (ℕ × Mask)) (pair : ℕ × Mask) : List (ℕ × Mask) :=
  match out.getLast? with
  | some last =>
    if last.1 = pair.1 then
      let mask := last.2 ^^^ pair.2
      if mask = 0 then out.dropLast else out.dropLast ++ [(last.1, mask)]
    else out ++ [pair]
  | none => [pair]

def collapse (pairs : List (ℕ × Mask)) : List (ℕ × Mask) := pairs.foldl collapseStep []

/-- The arrays that describe a layout. -/
structure WeightLayout where
  parameterStarts : List ℕ
  parameterEnds : List ℕ
  wordOffsets : List ℕ
  widths : List ℕ

namespace WeightLayout

variable (l : WeightLayout)

def start (i : ℕ) : ℕ := l.parameterStarts.getD i 0

def stop (i : ℕ) : ℕ := l.parameterEnds.getD i 0

def offset (i : ℕ) : ℕ := l.wordOffsets.getD i 0

def width (i : ℕ) : ℕ := l.widths.getD i 0

/-- What is wrong with one range. -/
def rangeError (i : ℕ) : Option String :=
  if l.stop i ≤ l.start i then some "layout parameter ranges must be nonempty"
  else if 0 < i ∧ l.start i < l.stop (i - 1) then
    some "layout parameter ranges must be sorted and nonoverlapping"
  else if l.width i ≠ 4 ∧ l.width i ≠ 8 then some s!"weight width must be 4 or 8, got {l.width i}"
  else none

def check (count size dimension : ℕ) : Except DrawFailure Unit :=
  let n := l.parameterEnds.length
  if count = 0 ∨ size = 0 ∨ dimension = 0 then
    throw (.error "count, size, and dimension must be positive")
  else if l.parameterStarts.length ≠ n ∨ l.wordOffsets.length ≠ n ∨ l.widths.length ≠ n ∨
      n = 0 then
    throw (.error "weight layout arrays must have the same positive length")
  else
    match (List.range n).findSome? l.rangeError with
    | some message => throw (.error message)
    | none =>
      if l.start 0 ≠ 0 ∨ l.stop (n - 1) ≠ dimension then
        throw (.error "layout parameter ranges must cover the full metric dimension")
      else pure ()

/-- A word and a mask from two draws. -/
def drawPair {σ : Type} (rng : RandomSource σ) (dimension : ℕ) (s : σ) :
    Except DrawFailure ((ℕ × Mask) × σ) := do
  let (parameter, s) := rng.genRange 0 dimension s
  let spec := partitionPoint l.parameterEnds parameter
  let inRange ← subU64 parameter (l.start spec)
  let inRange ← asU32 inRange
  let width := l.width spec
  let fieldsPerWord := 32 / width
  let word ← addU32 (l.offset spec) (inRange / fieldsPerWord)
  let bit := inRange % fieldsPerWord * width
  let (code, s) := rng.genRange 1 (2 ^ width) s
  return ((word, BitVec.ofNat 32 code <<< bit), s)

def drawRow {σ : Type} (rng : RandomSource σ) (sort : List (ℕ × Mask) → List (ℕ × Mask))
    (size dimension : ℕ) (s : σ) : Except DrawFailure (RawMove × σ) := do
  let (pairs, s) ← drawMany (l.drawPair rng dimension) size s
  return ((collapse (sort pairs)).unzip, s)

def drawSparse {σ : Type} (rng : RandomSource σ) (sort : List (ℕ × Mask) → List (ℕ × Mask))
    (count size dimension seed : ℕ) : Except DrawFailure (List RawMove) := do
  l.check count size dimension
  let (rows, _) ← drawMany (l.drawRow rng sort size dimension) count (rng.seedFromU64 seed)
  return rows

end WeightLayout

/-- `sort_unstable_by_key` puts the entries in an order of their words. -/
structure SortsByWord (sort : List (ℕ × Mask) → List (ℕ × Mask)) : Prop where
  perm : ∀ pairs, (sort pairs).Perm pairs
  ascending : ∀ pairs, (sort pairs).Pairwise fun a b => a.1 ≤ b.1

section Collapse

/-- What pairs that ascend by word become. -/
structure Collapsed (pairs out : List (ℕ × Mask)) : Prop where
  ascending : Ascending out
  nonzero : ∀ e ∈ out, e.2 ≠ 0
  length_le : out.length ≤ pairs.length
  /-- Every bit comes from a pair of the same word. -/
  bits : ∀ e ∈ out, ∀ b, e.2.getLsbD b = true → ∃ p ∈ pairs, p.1 = e.1 ∧ p.2.getLsbD b = true
  key : ∀ e ∈ out, ∃ p ∈ pairs, p.1 = e.1

variable {pairs pairs' out init : List (ℕ × Mask)} {last pair : ℕ × Mask}

theorem ascending_append_singleton :
    Ascending (init ++ [last]) ↔ Ascending init ∧ ∀ e ∈ init, e.1 < last.1 := by
  unfold Ascending
  rw [List.pairwise_append]
  simp

theorem Collapsed.nil : Collapsed [] [] :=
  ⟨ascending_nil, by simp, le_rfl, by simp, by simp⟩

theorem Collapsed.mono (h : Collapsed pairs out) (hsub : init.Sublist out)
    (hpairs : pairs.Sublist pairs') : Collapsed pairs' init where
  ascending := h.ascending.sublist hsub
  nonzero e he := h.nonzero e (hsub.subset he)
  length_le := (hsub.length_le.trans h.length_le).trans hpairs.length_le
  bits e he b hb := by
    obtain ⟨p, hp, hkey⟩ := h.bits e (hsub.subset he) b hb
    exact ⟨p, hpairs.subset hp, hkey⟩
  key e he := by
    obtain ⟨p, hp, hkey⟩ := h.key e (hsub.subset he)
    exact ⟨p, hpairs.subset hp, hkey⟩

theorem Collapsed.push (h : Collapsed pairs out) (hlen : out.length + 1 ≤ pairs.length)
    (hlt : ∀ e ∈ out, e.1 < last.1) (hne : last.2 ≠ 0) (hkey : ∃ p ∈ pairs, p.1 = last.1)
    (hbits : ∀ b, last.2.getLsbD b = true → ∃ p ∈ pairs, p.1 = last.1 ∧ p.2.getLsbD b = true) :
    Collapsed pairs (out ++ [last]) where
  ascending := ascending_append_singleton.mpr ⟨h.ascending, hlt⟩
  nonzero := List.forall_mem_append.mpr ⟨h.nonzero, List.forall_mem_singleton.mpr hne⟩
  length_le := by simpa using hlen
  bits := List.forall_mem_append.mpr ⟨h.bits, List.forall_mem_singleton.mpr hbits⟩
  key := List.forall_mem_append.mpr ⟨h.key, List.forall_mem_singleton.mpr hkey⟩

theorem collapseStep_concat : collapseStep (init ++ [last]) pair =
    if last.1 = pair.1 then
      if last.2 ^^^ pair.2 = 0 then init else init ++ [(last.1, last.2 ^^^ pair.2)]
    else init ++ [last] ++ [pair] := by
  unfold collapseStep
  rw [List.getLast?_concat, List.dropLast_concat]

theorem Collapsed.step (h : Collapsed pairs out) (hle : ∀ p ∈ pairs, p.1 ≤ pair.1)
    (hne : pair.2 ≠ 0) : Collapsed (pairs ++ [pair]) (collapseStep out pair) := by
  have hall : Collapsed (pairs ++ [pair]) out :=
    h.mono (List.Sublist.refl _) (List.sublist_append_left _ _)
  have hself : pair ∈ pairs ++ [pair] := by simp
  rcases List.eq_nil_or_concat' out with rfl | ⟨init, last, rfl⟩
  · exact hall.push (by simp) nofun hne ⟨pair, hself, rfl⟩ fun b hb => ⟨pair, hself, rfl, hb⟩
  · obtain ⟨hinit, hlast⟩ := ascending_append_singleton.mp h.ascending
    have hlen : init.length + 1 ≤ pairs.length := by simpa using h.length_le
    have hmem : last ∈ init ++ [last] := by simp
    have hrest : Collapsed (pairs ++ [pair]) init :=
      hall.mono (List.sublist_append_left _ _) (List.Sublist.refl _)
    rw [collapseStep_concat]
    split_ifs with hkey hmask
    · exact hrest
    · refine hrest.push (by simp; omega) hlast hmask (hall.key last hmem) fun b hb => ?_
      rw [BitVec.getLsbD_xor] at hb
      cases hbit : last.2.getLsbD b with
      | true => exact hall.bits last hmem b hbit
      | false => exact ⟨pair, hself, hkey.symm, by simpa [hbit] using hb⟩
    · obtain ⟨p, hp, hpkey⟩ := h.key last hmem
      have hlt : last.1 < pair.1 := lt_of_le_of_ne (hpkey ▸ hle p hp) hkey
      refine hall.push (by simp; omega) ?_ hne ⟨pair, hself, rfl⟩ fun b hb => ⟨pair, hself, rfl, hb⟩
      rw [List.forall_mem_append, List.forall_mem_singleton]
      exact ⟨fun e he => (hlast e he).trans hlt, hlt⟩

theorem collapsed (hsorted : pairs.Pairwise fun a b => a.1 ≤ b.1) (hne : ∀ p ∈ pairs, p.2 ≠ 0) :
    Collapsed pairs (collapse pairs) := by
  induction pairs using List.reverseRec with
  | nil => exact .nil
  | append_singleton pairs pair ih =>
    rw [List.pairwise_append] at hsorted
    rw [List.forall_mem_append, List.forall_mem_singleton] at hne
    unfold collapse
    rw [List.foldl_concat]
    exact (ih hsorted.1 hne.1).step (fun p hp => hsorted.2.2 p hp pair (by simp)) hne.2

end Collapse

section Many

variable {σ α : Type} {step : σ → Except DrawFailure (α × σ)} {P : α → Prop}

theorem exists_drawMany (h : ∀ s, ∃ a s', step s = .ok (a, s') ∧ P a) (n : ℕ) (s : σ) :
    ∃ as s', drawMany step n s = .ok (as, s') ∧ as.length = n ∧ ∀ a ∈ as, P a := by
  induction n generalizing s with
  | zero => exact ⟨[], s, rfl, rfl, nofun⟩
  | succ n ih =>
    obtain ⟨a, s₁, hstep, ha⟩ := h s
    obtain ⟨as, s₂, hmany, hlen, has⟩ := ih s₁
    refine ⟨a :: as, s₂, ?_, by rw [List.length_cons, hlen], List.forall_mem_cons.mpr ⟨ha, has⟩⟩
    unfold drawMany
    rw [hstep]
    change (drawMany step n s₁ >>= _) = _
    rw [hmany]
    rfl

theorem exists_step_of_drawMany {n : ℕ} {s : σ} {out : List α × σ}
    (h : drawMany step n s = .ok out) (hn : 0 < n) : ∃ r, step s = .ok r := by
  cases n with
  | zero => cases hn
  | succ n =>
    obtain ⟨r, hr, -⟩ := bind_ok_iff.mp h
    exact ⟨r, hr⟩

end Many

namespace WeightLayout

variable {l : WeightLayout} {count size dimension : ℕ}

/-- What is checked of the arrays. -/
structure Valid (l : WeightLayout) (dimension : ℕ) : Prop where
  pos : 0 < l.parameterEnds.length
  nonempty : ∀ i < l.parameterEnds.length, l.start i < l.stop i
  apart : ∀ i < l.parameterEnds.length, 0 < i → l.stop (i - 1) ≤ l.start i
  width : ∀ i < l.parameterEnds.length, l.width i = 4 ∨ l.width i = 8
  start_zero : l.start 0 = 0
  stop_last : l.stop (l.parameterEnds.length - 1) = dimension

theorem of_check (h : l.check count size dimension = .ok ()) :
    0 < count ∧ 0 < size ∧ l.Valid dimension := by
  unfold check at h
  dsimp only at h
  split at h
  next => cases h
  next hpos =>
  split at h
  next => cases h
  next hlen =>
  split at h
  next => cases h
  next hrange =>
  split at h
  next => cases h
  next hcover =>
    have herror : ∀ i < l.parameterEnds.length, l.rangeError i = none := by
      simpa using hrange
    refine ⟨by omega, by omega, by omega, fun i hi => ?_, fun i hi hpos => ?_, fun i hi => ?_,
      by omega, by omega⟩
    all_goals
      have hi := herror i hi
      unfold rangeError at hi
      split_ifs at hi
      omega

/-- An array of ranges that follow each other, each addressed by 32 bits and stored in words
that have numbers of 32 bits. -/
structure Fits (l : WeightLayout) : Prop where
  continued : ∀ i < l.parameterEnds.length, 0 < i → l.start i = l.stop (i - 1)
  addressed : ∀ i < l.parameterEnds.length, l.stop i - l.start i ≤ 2 ^ 32
  stored : ∀ i < l.parameterEnds.length,
    l.offset i + (l.stop i - l.start i - 1) / (32 / l.width i) < 2 ^ 32

/-- The range of a parameter. -/
theorem Valid.partitionPoint (h : l.Valid dimension) {parameter : ℕ}
    (hp : parameter < dimension) :
    partitionPoint l.parameterEnds parameter < l.parameterEnds.length ∧
      parameter < l.stop (partitionPoint l.parameterEnds parameter) ∧
      ∀ i < partitionPoint l.parameterEnds parameter, l.stop i ≤ parameter := by
  unfold Ennbo.partitionPoint
  have hlt : l.parameterEnds.findIdx (fun e => !decide (e ≤ parameter)) <
      l.parameterEnds.length := by
    apply List.findIdx_lt_length_of_exists
    refine ⟨l.stop (l.parameterEnds.length - 1), ?_, ?_⟩
    · unfold stop
      rw [List.getD_eq_getElem _ _ (by have := h.pos; omega)]
      exact List.getElem_mem _
    · simpa [h.stop_last] using hp
  refine ⟨hlt, ?_, fun i hi => ?_⟩
  · have hfound := List.findIdx_getElem (w := hlt)
    unfold stop
    rw [List.getD_eq_getElem _ _ hlt]
    simpa using hfound
  · have hbefore := List.not_of_lt_findIdx hi
    unfold stop
    rw [List.getD_eq_getElem _ _ (hi.trans hlt)]
    simpa using hbefore

section Pair

variable {σ : Type} {rng : RandomSource σ} {s s' : σ} {pair : ℕ × Mask}

/-- A bit of a word belongs to the field of a parameter. -/
def InField (l : WeightLayout) (word bit : ℕ) : Prop :=
  ∃ spec < l.parameterEnds.length, ∃ inRange < l.stop spec - l.start spec,
    word = l.offset spec + inRange / (32 / l.width spec) ∧
      inRange % (32 / l.width spec) * l.width spec ≤ bit ∧
      bit < inRange % (32 / l.width spec) * l.width spec + l.width spec

theorem guarded_eq_ok {p : Prop} [Decidable p] {e : DrawFailure} {a c : ℕ} :
    (if p then throw e else pure a : Except DrawFailure ℕ) = .ok c ↔ ¬ p ∧ a = c := by
  rw [check_ok_iff, pure_ok_iff]

theorem subU64_eq_ok {a b c : ℕ} : subU64 a b = .ok c ↔ b ≤ a ∧ a - b = c := by
  unfold subU64
  rw [guarded_eq_ok, not_lt]

theorem asU32_eq_ok {a c : ℕ} : asU32 a = .ok c ↔ a < 2 ^ 32 ∧ a = c := by
  unfold asU32
  rw [guarded_eq_ok, not_le]

theorem addU32_eq_ok {a b c : ℕ} : addU32 a b = .ok c ↔ a + b < 2 ^ 32 ∧ a + b = c := by
  unfold addU32
  rw [guarded_eq_ok, not_le]

/-- The word and the mask of a parameter and a code. -/
def pairOf (l : WeightLayout) (parameter code : ℕ) : ℕ × Mask :=
  let spec := Ennbo.partitionPoint l.parameterEnds parameter
  let inRange := parameter - l.start spec
  (l.offset spec + inRange / (32 / l.width spec),
    BitVec.ofNat 32 code <<< (inRange % (32 / l.width spec) * l.width spec))

/-- A parameter lies in its range, and addresses a word. -/
structure Addresses (l : WeightLayout) (parameter : ℕ) : Prop where
  start_le : l.start (Ennbo.partitionPoint l.parameterEnds parameter) ≤ parameter
  addressed : parameter - l.start (Ennbo.partitionPoint l.parameterEnds parameter) < 2 ^ 32
  stored : l.offset (Ennbo.partitionPoint l.parameterEnds parameter) +
    (parameter - l.start (Ennbo.partitionPoint l.parameterEnds parameter)) /
      (32 / l.width (Ennbo.partitionPoint l.parameterEnds parameter)) < 2 ^ 32

theorem drawPair_eq_ok {r : (ℕ × Mask) × σ} : l.drawPair rng dimension s = .ok r ↔
    l.Addresses (rng.genRange 0 dimension s).1 ∧
      (l.pairOf (rng.genRange 0 dimension s).1 (rng.genRange 1
          (2 ^ l.width (Ennbo.partitionPoint l.parameterEnds (rng.genRange 0 dimension s).1))
          (rng.genRange 0 dimension s).2).1,
        (rng.genRange 1
          (2 ^ l.width (Ennbo.partitionPoint l.parameterEnds (rng.genRange 0 dimension s).1))
          (rng.genRange 0 dimension s).2).2) = r := by
  unfold drawPair
  generalize rng.genRange 0 dimension s = first
  obtain ⟨parameter, s₁⟩ := first
  dsimp only
  constructor
  · intro h
    obtain ⟨inRange, hsub, h⟩ := bind_ok_iff.mp h
    obtain ⟨hle, rfl⟩ := subU64_eq_ok.mp hsub
    obtain ⟨inRange, hnarrow, h⟩ := bind_ok_iff.mp h
    obtain ⟨hlt, rfl⟩ := asU32_eq_ok.mp hnarrow
    obtain ⟨word, hadd, h⟩ := bind_ok_iff.mp h
    obtain ⟨hword, rfl⟩ := addU32_eq_ok.mp hadd
    exact ⟨⟨hle, hlt, hword⟩, Except.ok.inj h⟩
  · rintro ⟨⟨hle, hlt, hword⟩, rfl⟩
    rw [subU64_eq_ok.mpr ⟨hle, rfl⟩]
    change (asU32 _ >>= _) = _
    rw [asU32_eq_ok.mpr ⟨hlt, rfl⟩]
    change (addU32 _ _ >>= _) = _
    rw [addU32_eq_ok.mpr ⟨hword, rfl⟩]
    rfl

theorem Valid.addresses (h : l.Valid dimension) (hfits : l.Fits) {parameter : ℕ}
    (hp : parameter < dimension) : l.Addresses parameter := by
  obtain ⟨hspec, hstop, hbefore⟩ := h.partitionPoint hp
  have hle : l.start (Ennbo.partitionPoint l.parameterEnds parameter) ≤ parameter := by
    rcases Nat.eq_zero_or_pos (Ennbo.partitionPoint l.parameterEnds parameter) with h0 | hpos
    · rw [h0, h.start_zero]
      exact Nat.zero_le _
    · rw [hfits.continued _ hspec hpos]
      exact hbefore _ (by omega)
  have haddressed := hfits.addressed _ hspec
  have hstored := hfits.stored _ hspec
  refine ⟨hle, by omega, lt_of_le_of_lt ?_ hstored⟩
  exact Nat.add_le_add_left (Nat.div_le_div_right (by omega)) _

/-- The bits of a pair are those of a field, and there are some. -/
theorem Valid.pairOf (h : l.Valid dimension) {parameter code : ℕ} (hp : parameter < dimension)
    (ha : l.Addresses parameter) (hcode : 1 ≤ code)
    (hwidth : code < 2 ^ l.width (Ennbo.partitionPoint l.parameterEnds parameter)) :
    (l.pairOf parameter code).2 ≠ 0 ∧
      ∀ bit, (l.pairOf parameter code).2.getLsbD bit = true →
        l.InField (l.pairOf parameter code).1 bit := by
  obtain ⟨hspec, hstop, -⟩ := h.partitionPoint hp
  have hle := ha.start_le
  have hw := h.width _ hspec
  unfold WeightLayout.pairOf
  dsimp only
  generalize hi : Ennbo.partitionPoint l.parameterEnds parameter = spec at *
  have hfield : (parameter - l.start spec) % (32 / l.width spec) * l.width spec + l.width spec ≤
      32 := by
    rcases hw with hw | hw <;> rw [hw] <;> omega
  constructor
  · intro hzero
    obtain ⟨k, hk⟩ := Nat.exists_testBit_of_ne_zero (show code ≠ 0 by omega)
    have hlt : k < l.width spec := by
      by_contra hge
      have hfalse := Nat.testBit_lt_two_pow (hwidth.trans_le
        (Nat.pow_le_pow_right Nat.two_pos (not_lt.mp hge)))
      rw [hfalse] at hk
      cases hk
    have hbit := congrArg (fun m : Mask => m.getLsbD
      (k + (parameter - l.start spec) % (32 / l.width spec) * l.width spec)) hzero
    simp only [BitVec.getLsbD_shiftLeft, BitVec.getLsbD_ofNat] at hbit
    simp [hk] at hbit
    omega
  · intro bit hbit
    simp only [BitVec.getLsbD_shiftLeft, BitVec.getLsbD_ofNat, Bool.and_eq_true,
      decide_eq_true_eq] at hbit
    refine ⟨spec, hspec, parameter - l.start spec, by omega, rfl, by simpa using hbit.1.2, ?_⟩
    by_contra hge
    have hlarge : l.width spec ≤
        bit - (parameter - l.start spec) % (32 / l.width spec) * l.width spec := by omega
    have hfalse := Nat.testBit_lt_two_pow (hwidth.trans_le
      (Nat.pow_le_pow_right Nat.two_pos hlarge))
    rw [hfalse] at hbit
    simp at hbit

theorem Valid.two_le (h : l.Valid dimension) {i : ℕ} (hi : i < l.parameterEnds.length) :
    1 < 2 ^ l.width i := by
  rcases h.width i hi with hw | hw <;> rw [hw] <;> decide

/-- A row that is drawn: a move of bounded size whose bits belong to parameters. -/
structure GoodRow (l : WeightLayout) (size : ℕ) (row : RawMove) : Prop where
  accepted : Accepted row
  length_le : row.1.length ≤ size
  inField : ∀ e ∈ row.1.zip row.2, ∀ bit, e.2.getLsbD bit = true → l.InField e.1 bit

theorem exists_drawRow (h : l.Valid dimension) (hfits : l.Fits) (hrng : rng.Lawful)
    {sort : List (ℕ × Mask) → List (ℕ × Mask)} (hsort : SortsByWord sort) (s : σ) :
    ∃ row s', l.drawRow rng sort size dimension s = .ok (row, s') ∧ l.GoodRow size row := by
  have hdim : 0 < dimension := by
    have hlast := h.nonempty _ (Nat.sub_lt h.pos Nat.one_pos)
    rw [h.stop_last] at hlast
    omega
  have hstep : ∀ s, ∃ (pair : ℕ × Mask) (s' : σ), l.drawPair rng dimension s = .ok (pair, s') ∧
      (pair.2 ≠ 0 ∧ ∀ bit, pair.2.getLsbD bit = true → l.InField pair.1 bit) := by
    intro s
    have hp := (hrng 0 dimension s hdim).2
    have ha := h.addresses hfits hp
    obtain ⟨hlow, hhigh⟩ := hrng 1
      (2 ^ l.width (Ennbo.partitionPoint l.parameterEnds (rng.genRange 0 dimension s).1))
      (rng.genRange 0 dimension s).2 (h.two_le (h.partitionPoint hp).1)
    exact ⟨_, _, drawPair_eq_ok.mpr ⟨ha, rfl⟩, h.pairOf hp ha hlow hhigh⟩
  obtain ⟨pairs, s', hpairs, hlen, hgood⟩ := exists_drawMany hstep size s
  have hperm := hsort.perm pairs
  have hcollapsed := collapsed (hsort.ascending pairs) fun p hp =>
    (hgood p (hperm.mem_iff.mp hp)).1
  refine ⟨(collapse (sort pairs)).unzip, s', ?_, ?_⟩
  · unfold drawRow
    rw [hpairs]
    rfl
  · let m : Move := ⟨collapse (sort pairs), hcollapsed.ascending, hcollapsed.nonzero⟩
    have hrow : (collapse (sort pairs)).unzip = (m.words, m.masks) := m.unzip_entries
    rw [hrow]
    refine ⟨m.checkMove_eq, ?_, ?_⟩
    · have hle := hcollapsed.length_le
      rw [hperm.length_eq, hlen] at hle
      simpa [Move.words] using hle
    · rw [Move.zip_words_masks]
      intro e he bit hbit
      obtain ⟨p, hp, hkey, hpbit⟩ := hcollapsed.bits e he bit hbit
      rw [← hkey]
      exact (hgood p (hperm.mem_iff.mp hp)).2 bit hpbit

theorem Valid.stop_le (h : l.Valid dimension) {i j : ℕ} (hij : i ≤ j)
    (hj : j < l.parameterEnds.length) : l.stop i ≤ l.stop j := by
  induction j with
  | zero => rw [Nat.le_zero.mp hij]
  | succ j ih =>
    rcases Nat.of_le_succ hij with hij | rfl
    · have hstep := ih hij (by omega)
      have hapart := h.apart (j + 1) hj (by omega)
      have hnonempty := h.nonempty (j + 1) hj
      simp only [Nat.add_sub_cancel] at hapart
      omega
    · exact le_rfl

theorem Valid.partitionPoint_eq (h : l.Valid dimension) {i parameter : ℕ}
    (hi : i < l.parameterEnds.length) (hlow : 0 < i → l.stop (i - 1) ≤ parameter)
    (hhigh : parameter < l.stop i) : Ennbo.partitionPoint l.parameterEnds parameter = i := by
  have hdim : parameter < dimension := by
    rw [← h.stop_last]
    exact hhigh.trans_le (h.stop_le (by omega) (by omega))
  obtain ⟨hspec, hstop, hbefore⟩ := h.partitionPoint hdim
  rcases lt_trichotomy (Ennbo.partitionPoint l.parameterEnds parameter) i with hlt | heq | hgt
  · have hprevious : Ennbo.partitionPoint l.parameterEnds parameter ≤ i - 1 := by omega
    have hle := h.stop_le hprevious (by omega)
    have hlow := hlow (by omega)
    omega
  · exact heq
  · exact absurd (hbefore i hgt) (not_le.mpr hhigh)

/-- A layout fits when all parameters do. -/
theorem Valid.fits (h : l.Valid dimension) (ha : ∀ p < dimension, l.Addresses p) : l.Fits := by
  have hlast : ∀ i < l.parameterEnds.length, l.stop i ≤ dimension := by
    intro i hi
    rw [← h.stop_last]
    exact h.stop_le (by omega) (by omega)
  have hend : ∀ i < l.parameterEnds.length, l.stop i - l.start i - 1 < 2 ^ 32 ∧
      l.offset i + (l.stop i - l.start i - 1) / (32 / l.width i) < 2 ^ 32 := by
    intro i hi
    have hnonempty := h.nonempty i hi
    have hstop := hlast i hi
    have hp := ha (l.stop i - 1) (by omega)
    have hspec : Ennbo.partitionPoint l.parameterEnds (l.stop i - 1) = i := by
      apply h.partitionPoint_eq hi
      · intro hpos
        have hapart := h.apart i hi hpos
        omega
      · omega
    have hcomm : l.stop i - 1 - l.start i = l.stop i - l.start i - 1 := by omega
    have haddressed := hp.addressed
    have hstored := hp.stored
    rw [hspec, hcomm] at haddressed hstored
    exact ⟨haddressed, hstored⟩
  refine ⟨fun i hi hpos => ?_, fun i hi => ?_, fun i hi => (hend i hi).2⟩
  · have hapart := h.apart i hi hpos
    have hnonempty := h.nonempty i hi
    have hstop := hlast i hi
    have hp := (ha (l.stop (i - 1)) (by omega)).start_le
    rw [h.partitionPoint_eq hi (fun _ => le_rfl) (by omega)] at hp
    omega
  · have hlt := (hend i hi).1
    omega

/-- Every generator and seed give as many good rows as are wanted. -/
def DrawsGoodRows (l : WeightLayout) (count size dimension : ℕ) : Prop :=
  ∀ (σ : Type) (rng : RandomSource σ) sort seed, rng.Lawful → SortsByWord sort →
    ∃ rows, l.drawSparse rng sort count size dimension seed = .ok rows ∧ rows.length = count ∧
      ∀ row ∈ rows, l.GoodRow size row

/-- A generator of one parameter. -/
def only (parameter : ℕ) : RandomSource Unit where
  seedFromU64 _ := ()
  genRange low high _ := (if low ≤ parameter ∧ parameter < high then parameter else low, ())

theorem lawful_only (parameter : ℕ) : (only parameter).Lawful := by
  intro low high s h
  unfold only
  dsimp only
  split <;> omega

theorem sortsByWord_insertionSort :
    SortsByWord fun pairs => pairs.insertionSort fun a b => a.1 ≤ b.1 where
  perm pairs := List.perm_insertionSort _ _
  ascending pairs := by
    have : Std.Total fun a b : ℕ × Mask => a.1 ≤ b.1 := ⟨fun a b => le_total a.1 b.1⟩
    have : IsTrans (ℕ × Mask) fun a b => a.1 ≤ b.1 := ⟨fun a b c hab hbc => hab.trans hbc⟩
    exact List.pairwise_insertionSort _ _

/-- For every generator and seed, the draws from an accepted layout lose nothing and are good
exactly when the ranges leave no gaps and all their words and places fit 32 bits. -/
theorem drawsGoodRows_iff (h : l.check count size dimension = .ok ()) :
    l.DrawsGoodRows count size dimension ↔ l.Fits := by
  obtain ⟨hcount, hsize, hvalid⟩ := of_check h
  constructor
  · intro hgood
    have haddresses : ∀ p < dimension, l.Addresses p := by
      intro p hp
      obtain ⟨rows, hrows, -⟩ := hgood Unit (only p) _ 0 (lawful_only p)
        sortsByWord_insertionSort
      unfold drawSparse at hrows
      rw [h] at hrows
      obtain ⟨_, -, hrows⟩ := bind_ok_iff.mp hrows
      obtain ⟨_, hmany, -⟩ := bind_ok_iff.mp hrows
      obtain ⟨_, hrow⟩ := exists_step_of_drawMany hmany hcount
      obtain ⟨_, hmany, -⟩ := bind_ok_iff.mp hrow
      obtain ⟨_, hpair⟩ := exists_step_of_drawMany hmany hsize
      have ha := (drawPair_eq_ok.mp hpair).1
      have hfirst : ∀ s, ((only p).genRange 0 dimension s).1 = p := by
        intro s
        exact if_pos ⟨Nat.zero_le _, hp⟩
      rwa [hfirst] at ha
    exact hvalid.fits haddresses
  · intro hfits σ rng sort seed hrng hsort
    obtain ⟨rows, s, hrows, hlen, hgood⟩ := exists_drawMany
      (exists_drawRow hvalid hfits hrng hsort) count (rng.seedFromU64 seed)
    refine ⟨rows, ?_, hlen, hgood⟩
    unfold drawSparse
    rw [h]
    change (drawMany _ _ _ >>= _) = _
    rw [hrows]
    rfl

def twoRanges : WeightLayout := ⟨[0, 8], [8, 12], [0, 1], [4, 8]⟩

theorem drawsGoodRows_twoRanges : twoRanges.DrawsGoodRows 3 2 12 := by
  refine (drawsGoodRows_iff (by decide)).mpr ⟨?_, ?_, ?_⟩ <;> decide

def apartRanges : WeightLayout := ⟨[0, 9], [8, 12], [0, 1], [4, 8]⟩

/-- The parameter of the gap lies in front of the range in which it is looked up. -/
theorem not_drawsGoodRows_apartRanges :
    apartRanges.check 1 1 12 = .ok () ∧ ¬ apartRanges.DrawsGoodRows 1 1 12 := by
  refine ⟨by decide, fun h => ?_⟩
  obtain ⟨rows, hrows, -⟩ := h Unit (only 8) _ 0 (lawful_only 8) sortsByWord_insertionSort
  have hfault : apartRanges.drawSparse (only 8)
      (fun pairs => pairs.insertionSort fun a b => a.1 ≤ b.1) 1 1 12 0 = .error .underflow := rfl
  rw [hfault] at hrows
  cases hrows

end Pair

end WeightLayout

end Ennbo
