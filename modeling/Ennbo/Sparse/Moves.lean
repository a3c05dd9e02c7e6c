import Ennbo.Sparse.SortedMap
import Mathlib.Algebra.Group.Basic

/-! # Sparse moves

A move changes bits of some words: the words ascend, and each has a mask that is
not zero. Moves are composed by merging, and applied to the values of a cache of
words in one pass.
-/

namespace Ennbo

open SortedMap

abbrev Mask := BitVec 32

/-- What a move does to each of its words. -/
def checkEntries (previous : Option ℕ) : List (ℕ × Mask) → Except String Unit
  | [] => pure ()
  | (word, mask) :: rest =>
    if mask = 0 then throw "move masks must be nonzero"
    else if previous.any (word ≤ ·) then throw "move words must be strictly increasing"
    else checkEntries (some word) rest

def checkMove (words : List ℕ) (masks : List Mask) : Except String Unit :=
  if words.length ≠ masks.length then throw "move words and masks must have the same length"
  else checkEntries none (words.zip masks)

/-- Two masks of one word. Without bits the word is dropped. -/
def xorMasks (left right : Mask) : Option Mask :=
  let mask := left ^^^ right
  if mask ≠ 0 then some mask else none

def sparseXor (leftWords : List ℕ) (leftMasks : List Mask) (rightWords : List ℕ)
    (rightMasks : List Mask) : Except String (List ℕ × List Mask) := do
  checkMove leftWords leftMasks
  checkMove rightWords rightMasks
  return (mergeWith xorMasks (leftWords.zip leftMasks) (rightWords.zip rightMasks)).unzip

/-- Flip the bits of a mask, if there is one. -/
def flip (value : BitVec 32) : Option Mask → BitVec 32
  | some mask => value ^^^ mask
  | none => value

def applySparse (words : List ℕ) (values : List (BitVec 32)) (moveWords : List ℕ)
    (moveMasks : List Mask) : Except String (List (BitVec 32)) :=
  if words.length ≠ values.length then throw "word and value arrays must have matching lengths"
  else do
    checkMove moveWords moveMasks
    return List.zipWith flip values (lookups (moveWords.zip moveMasks) words)

/-- A move that passes its check. -/
@[ext] structure Move where
  entries : List (ℕ × Mask)
  ascending : Ascending entries
  nonzero : ∀ e ∈ entries, e.2 ≠ 0

section Check

theorem checkEntries_eq_ok {previous : Option ℕ} {l : List (ℕ × Mask)} :
    checkEntries previous l = .ok () ↔
      (∀ p ∈ previous, ∀ e ∈ l, p < e.1) ∧ Ascending l ∧ ∀ e ∈ l, e.2 ≠ 0 := by
  induction l generalizing previous with
  | nil => simp [checkEntries, ascending_nil, pure, Except.pure]
  | cons a l ih =>
    unfold checkEntries
    rw [ascending_cons, List.forall_mem_cons]
    split_ifs with hmask hword
    · simp [hmask]
    · obtain ⟨p, rfl, hp⟩ : ∃ p, previous = some p ∧ a.1 ≤ p := by
        cases previous with
        | none => cases hword
        | some p => exact ⟨p, rfl, by simpa using hword⟩
      constructor
      · intro h
        cases h
      · intro h
        exact absurd (h.1 p rfl a List.mem_cons_self) (not_lt.mpr hp)
    · rw [ih]
      constructor
      · rintro ⟨hlt, hl, hne⟩
        refine ⟨?_, ⟨hlt a.1 rfl, hl⟩, hmask, hne⟩
        rintro p rfl
        have hp : p < a.1 := by simpa using hword
        exact List.forall_mem_cons.mpr ⟨hp, fun e he => hp.trans (hlt a.1 rfl e he)⟩
      · rintro ⟨-, ⟨ha, hl⟩, -, hne⟩
        refine ⟨?_, hl, hne⟩
        rintro p ⟨⟩
        exact ha

end Check

namespace Move

variable {a b c : Move}

def words (m : Move) : List ℕ := m.entries.map Prod.fst

def masks (m : Move) : List Mask := m.entries.map Prod.snd

@[simp] theorem zip_words_masks (m : Move) : m.words.zip m.masks = m.entries := by
  unfold words masks
  rw [← List.unzip_fst, ← List.unzip_snd, List.zip_unzip]

@[simp] theorem unzip_entries (m : Move) : m.entries.unzip = (m.words, m.masks) :=
  List.unzip_eq_map

theorem length_words (m : Move) : m.words.length = m.masks.length := by
  simp [words, masks]

@[simp] theorem checkMove_eq (m : Move) : checkMove m.words m.masks = .ok () := by
  unfold checkMove
  rw [if_neg (not_not.mpr m.length_words), zip_words_masks]
  exact checkEntries_eq_ok.mpr ⟨nofun, m.ascending, m.nonzero⟩

theorem of_checkMove {words : List ℕ} {masks : List Mask} (h : checkMove words masks = .ok ()) :
    ∃ m : Move, m.words = words ∧ m.masks = masks := by
  unfold checkMove at h
  split at h
  · cases h
  next hlen =>
    have hlen : words.length = masks.length := not_not.mp hlen
    obtain ⟨-, hascending, hne⟩ := checkEntries_eq_ok.mp h
    exact ⟨⟨words.zip masks, hascending, hne⟩, List.map_fst_zip hlen.le, List.map_snd_zip hlen.ge⟩

def maskAt (m : Move) (w : ℕ) : Mask := (m.entries.lookup w).getD 0

theorem lookup_entries (m : Move) (w : ℕ) :
    m.entries.lookup w = if m.maskAt w = 0 then none else some (m.maskAt w) := by
  unfold maskAt
  cases h : m.entries.lookup w with
  | none => rfl
  | some mask => exact (if_neg (m.nonzero _ (mem_of_lookup h))).symm

theorem eq_of_maskAt (h : ∀ w, a.maskAt w = b.maskAt w) : a = b := by
  ext1
  apply eq_of_lookup a.ascending b.ascending
  intro w
  rw [lookup_entries, lookup_entries, h]

theorem maskAt_eq_zero (m : Move) {w : ℕ} (h : w ∉ m.words) : m.maskAt w = 0 := by
  unfold maskAt
  cases hw : m.entries.lookup w with
  | none => rfl
  | some mask => exact absurd (List.mem_map_of_mem (mem_of_lookup hw)) h

/-- No bits. -/
instance : Zero Move := ⟨[], ascending_nil, nofun⟩

@[simp] theorem maskAt_zero (w : ℕ) : maskAt 0 w = 0 := rfl

theorem nonzero_xorMasks {left right mask : Mask} (h : xorMasks left right = some mask) :
    mask ≠ 0 := by
  unfold xorMasks at h
  dsimp only at h
  split at h
  next hne => exact Option.some.inj h ▸ hne
  next => cases h

/-- Moves are merged word by word. -/
instance : Add Move where
  add a b :=
    { entries := mergeWith xorMasks a.entries b.entries
      ascending := ascending_mergeWith a.ascending b.ascending
      nonzero := by
        rintro ⟨w, mask⟩ he
        have hlookup := (lookup_eq_some_iff (ascending_mergeWith a.ascending b.ascending)).mpr he
        rw [lookup_mergeWith a.ascending b.ascending] at hlookup
        cases ha : a.entries.lookup w with
        | none =>
          rw [ha, combine_none_left] at hlookup
          exact b.nonzero _ (mem_of_lookup hlookup)
        | some left =>
          cases hb : b.entries.lookup w with
          | none =>
            rw [hb, combine_none_right] at hlookup
            exact a.nonzero _ (mem_of_lookup hlookup)
          | some right =>
            rw [ha, hb] at hlookup
            exact nonzero_xorMasks hlookup }

theorem entries_add : (a + b).entries = mergeWith xorMasks a.entries b.entries := rfl

@[simp] theorem maskAt_add (w : ℕ) : (a + b).maskAt w = a.maskAt w ^^^ b.maskAt w := by
  unfold maskAt
  rw [entries_add, lookup_mergeWith a.ascending b.ascending]
  cases a.entries.lookup w with
  | none => simp
  | some left =>
    cases b.entries.lookup w with
    | none => simp
    | some right =>
      change (xorMasks left right).getD 0 = left ^^^ right
      unfold xorMasks
      dsimp only
      split
      next => rfl
      next h => exact (not_not.mp h).symm

instance : Neg Move := ⟨id⟩

theorem maskAt_neg (w : ℕ) : (-a).maskAt w = a.maskAt w := rfl

/-- Moves are a group in which every move undoes itself. -/
instance : AddCommGroup Move where
  add_assoc a b c := eq_of_maskAt fun w => by simp [BitVec.xor_assoc]
  zero_add a := eq_of_maskAt fun w => by simp
  add_zero a := eq_of_maskAt fun w => by simp
  add_comm a b := eq_of_maskAt fun w => by simp [BitVec.xor_comm]
  neg_add_cancel a := eq_of_maskAt fun w => by simp [maskAt_neg]
  nsmul := nsmulRec
  zsmul := zsmulRec

theorem add_self (a : Move) : a + a = 0 := neg_add_cancel a

theorem sparseXor_eq (a b : Move) : sparseXor a.words a.masks b.words b.masks =
    .ok ((a + b).words, (a + b).masks) := by
  unfold sparseXor
  rw [checkMove_eq, checkMove_eq, zip_words_masks, zip_words_masks, ← entries_add, unzip_entries]
  rfl

theorem applySparse_eq {words : List ℕ} {values : List (BitVec 32)}
    (hwords : words.Pairwise (· < ·)) (hlen : words.length = values.length) (a : Move) :
    applySparse words values a.words a.masks =
      .ok (List.zipWith (fun value w => value ^^^ a.maskAt w) values words) := by
  unfold applySparse
  rw [if_neg (not_not.mpr hlen), checkMove_eq, zip_words_masks,
    lookups_eq a.ascending (hwords.imp le_of_lt), List.zipWith_map_right]
  have hflip : ∀ (value : BitVec 32) w, flip value (a.entries.lookup w) = value ^^^ a.maskAt w := by
    intro value w
    unfold maskAt
    cases a.entries.lookup w with
    | none => simp [flip]
    | some mask => rfl
  simp only [hflip]
  rfl

end Move

section Group

/-- Words and masks as the source passes them. -/
abbrev RawMove := List ℕ × List Mask

def Accepted (m : RawMove) : Prop := checkMove m.1 m.2 = .ok ()

/-- Accepted moves are a commutative group in which every move is its own inverse. -/
structure XorGroup : Prop where
  closed : ∀ a b : RawMove, Accepted a → Accepted b → ∃ ab : RawMove,
    sparseXor a.1 a.2 b.1 b.2 = .ok ab ∧ Accepted ab
  comm : ∀ a b : RawMove, Accepted a → Accepted b →
    sparseXor a.1 a.2 b.1 b.2 = sparseXor b.1 b.2 a.1 a.2
  assoc : ∀ a b c : RawMove, Accepted a → Accepted b → Accepted c →
    (sparseXor a.1 a.2 b.1 b.2 >>= fun ab => sparseXor ab.1 ab.2 c.1 c.2) =
      (sparseXor b.1 b.2 c.1 c.2 >>= fun bc => sparseXor a.1 a.2 bc.1 bc.2)
  neutral : ∀ a : RawMove, Accepted a →
    sparseXor a.1 a.2 [] [] = .ok a ∧ sparseXor [] [] a.1 a.2 = .ok a
  inverse : ∀ a : RawMove, Accepted a → sparseXor a.1 a.2 a.1 a.2 = .ok ([], [])

/-- A cached word list has one value for each of its words, which ascend. -/
structure Cached (words : List ℕ) (values : List (BitVec 32)) : Prop where
  ascending : words.Pairwise (· < ·)
  length_eq : words.length = values.length

/-- The group acts on the values of a cache, and a move leaves the other words alone. -/
structure XorActs (words : List ℕ) (values : List (BitVec 32)) : Prop where
  compose : ∀ a b : RawMove, Accepted a → Accepted b → ∃ va vab,
    applySparse words values a.1 a.2 = .ok va ∧ applySparse words va b.1 b.2 = .ok vab ∧
      (sparseXor a.1 a.2 b.1 b.2 >>= fun ab => applySparse words values ab.1 ab.2) = .ok vab
  unchanged : ∀ a : RawMove, Accepted a → ∃ va : List (BitVec 32),
    applySparse words values a.1 a.2 = .ok va ∧ va.length = values.length ∧
      ∀ (i w : ℕ), words[i]? = some w → w ∉ a.1 → va[i]? = values[i]?
  twice : ∀ a : RawMove, Accepted a →
    (applySparse words values a.1 a.2 >>= fun va => applySparse words va a.1 a.2) = .ok values

theorem exists_move {a : RawMove} (h : Accepted a) : ∃ m : Move, a = (m.words, m.masks) := by
  obtain ⟨m, hwords, hmasks⟩ := Move.of_checkMove h
  exact ⟨m, Prod.ext hwords.symm hmasks.symm⟩

theorem xorGroup : XorGroup where
  closed a b ha hb := by
    obtain ⟨m, rfl⟩ := exists_move ha
    obtain ⟨n, rfl⟩ := exists_move hb
    exact ⟨_, Move.sparseXor_eq m n, Move.checkMove_eq _⟩
  comm a b ha hb := by
    obtain ⟨m, rfl⟩ := exists_move ha
    obtain ⟨n, rfl⟩ := exists_move hb
    rw [Move.sparseXor_eq, Move.sparseXor_eq, add_comm]
  assoc a b c ha hb hc := by
    obtain ⟨m, rfl⟩ := exists_move ha
    obtain ⟨n, rfl⟩ := exists_move hb
    obtain ⟨o, rfl⟩ := exists_move hc
    dsimp only
    rw [Move.sparseXor_eq, Move.sparseXor_eq]
    change sparseXor _ _ _ _ = sparseXor _ _ _ _
    rw [Move.sparseXor_eq, Move.sparseXor_eq, add_assoc]
  neutral a ha := by
    obtain ⟨m, rfl⟩ := exists_move ha
    constructor
    · have h := Move.sparseXor_eq m 0
      rwa [add_zero] at h
    · have h := Move.sparseXor_eq 0 m
      rwa [zero_add] at h
  inverse a ha := by
    obtain ⟨m, rfl⟩ := exists_move ha
    have h := Move.sparseXor_eq m m
    rwa [Move.add_self] at h

theorem xorActs {words : List ℕ} {values : List (BitVec 32)} (h : Cached words values) :
    XorActs words values := by
  have hlen : ∀ m : Move, words.length =
      (List.zipWith (fun value w => value ^^^ m.maskAt w) values words).length := by
    intro m
    rw [List.length_zipWith, ← h.length_eq, min_self]
  constructor
  · intro a b ha hb
    obtain ⟨m, rfl⟩ := exists_move ha
    obtain ⟨n, rfl⟩ := exists_move hb
    refine ⟨_, _, Move.applySparse_eq h.ascending h.length_eq m,
      Move.applySparse_eq h.ascending (hlen m) n, ?_⟩
    rw [Move.sparseXor_eq]
    change applySparse _ _ _ _ = _
    rw [Move.applySparse_eq h.ascending h.length_eq]
    congr 1
    apply List.ext_getElem
    · simp
    · intro i hi hi'
      simp [BitVec.xor_assoc]
  · intro a ha
    obtain ⟨m, rfl⟩ := exists_move ha
    refine ⟨_, Move.applySparse_eq h.ascending h.length_eq m, (hlen m).symm.trans h.length_eq, ?_⟩
    intro i w hi hw
    have hmask := m.maskAt_eq_zero hw
    rw [List.getElem?_zipWith, hi]
    cases values[i]? <;> simp [hmask]
  · intro a ha
    obtain ⟨m, rfl⟩ := exists_move ha
    dsimp only
    rw [Move.applySparse_eq h.ascending h.length_eq]
    change applySparse _ _ _ _ = _
    rw [Move.applySparse_eq h.ascending (hlen m)]
    congr 1
    apply List.ext_getElem
    · simp [h.length_eq]
    · intro i hi hi'
      rw [List.getElem_zipWith, List.getElem_zipWith, BitVec.xor_assoc, BitVec.xor_self,
        BitVec.xor_zero]

/-- Moves compose as a commutative group, which acts on the values of every cache. -/
theorem sparseXor_group {words : List ℕ} {values : List (BitVec 32)} (h : Cached words values) :
    XorGroup ∧ XorActs words values := ⟨xorGroup, xorActs h⟩

theorem sparseXor_group_three : XorGroup ∧ XorActs [1, 3, 5] [7, 0, 2] :=
  sparseXor_group ⟨by decide, rfl⟩

example : sparseXor [1, 3] [7, 4] [3, 5] [4, 2] = .ok ([1, 5], [7, 2]) := by decide

end Group

end Ennbo
