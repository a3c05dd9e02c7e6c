import Ennbo.Trials.Layout
import Mathlib.Data.List.GetD

/-! # Codes of a materialized row

A row is built element by element. Every element has a place of its own, a byte
or half of one, so what is read back is what was written there.
-/

namespace Ennbo.Trials

section Nibble

/-- The four bits of a byte from `shift` on. -/
def nibble (byte : UInt8) (shift : ℕ) : ℕ := (byte.toNat >>> shift) &&& 0x0f

theorem nibble_le (byte : UInt8) (shift : ℕ) : nibble byte shift ≤ 15 := Nat.and_le_right

theorem nibble_or (x y : UInt8) (shift : ℕ) :
    nibble (x ||| y) shift = nibble x shift ||| nibble y shift := by
  rw [nibble, UInt8.toNat_or, Nat.shiftRight_or_distrib, Nat.and_or_distrib_right]
  rfl

theorem nibble_shiftLeft : ∀ value < 16, ∀ i < 2, ∀ j < 2,
    nibble (UInt8.ofNat value <<< UInt8.ofNat (i * 4)) (j * 4) = if i = j then value else 0 := by
  decide

end Nibble

variable {F : Type} [TrialFloat F]

theorem perturb_le {code element : ℕ} {seed : UInt64} {step : Step}
    (h : code ≤ 2 ^ step.bits - 1) : perturb code seed element step ≤ 2 ^ step.bits - 1 := by
  unfold perturb
  extract_lets random sign extra amount maxCode
  split
  · exact h
  split
  · split
    · exact (Nat.sub_le _ _).trans h
    · exact min_le_right _ _
  · split
    next hle => exact hle
    next => exact (Nat.sub_le _ _).trans h

section Element

variable {leaf : Leaf F} {step : Step} {base row row' : Row} {seed : UInt64} {element : ℕ}

def Leaf.byteOf (leaf : Leaf F) (step : Step) (element : ℕ) : ℕ :=
  if leaf.bits = 4 then step.byteOffset + element / 2 else step.byteOffset + element

omit [TrialFloat F] in
theorem Leaf.code_le (leaf : Leaf F) (step : Step) (row : Row) (element : ℕ) :
    leaf.code step row element ≤ 2 ^ leaf.bits - 1 := by
  rw [code]
  split
  next hbits =>
    rw [hbits]
    exact nibble_le _ _
  next hbits =>
    rw [leaf.bits_eq.resolve_left hbits]
    exact Nat.le_of_lt_succ (UInt8.toNat_lt _)

omit [TrialFloat F] in
theorem Leaf.code_congr
    (h : row.getD (leaf.byteOf step element) 0 = row'.getD (leaf.byteOf step element) 0) :
    leaf.code step row element = leaf.code step row' element := by
  simp only [byteOf] at h
  simp only [code]
  split at h
  next hbits => rw [if_pos hbits, if_pos hbits, h]
  next hbits => rw [if_neg hbits, if_neg hbits, h]

omit [TrialFloat F] in
theorem Leaf.byteOf_bounds (step : Step) (helement : element < leaf.length) :
    step.byteOffset ≤ leaf.byteOf step element ∧
      leaf.byteOf step element < step.byteOffset + leaf.bytes := by
  rw [byteOf, bytes]
  split
  · omega
  · omega

theorem getD_set (row : Row) (i j : ℕ) (value : UInt8) (hi : i < row.length) :
    (row.set i value).getD j 0 = if i = j then value else row.getD j 0 := by
  simp only [List.getD_eq_getElem?_getD, List.getElem?_set, if_pos hi]
  split
  next => rfl
  next => rfl

omit [TrialFloat F] in
theorem getD_materializeElement_of_ne {byte : ℕ} (hne : leaf.byteOf step element ≠ byte) :
    (materializeElement base leaf step seed row element).getD byte 0 = row.getD byte 0 := by
  simp only [Leaf.byteOf] at hne
  simp only [materializeElement]
  split
  next hbits =>
    rw [if_pos hbits] at hne
    simp [List.getD_eq_getElem?_getD, List.getElem?_set_ne hne]
  next hbits =>
    rw [if_neg hbits] at hne
    simp [List.getD_eq_getElem?_getD, List.getElem?_set_ne hne]

omit [TrialFloat F] in
/-- Where nothing was written yet, the perturbed code is read back. -/
theorem code_materializeElement_self (hbits : step.bits = leaf.bits)
    (hbyte : leaf.byteOf step element < row.length) (hzero : leaf.code step row element = 0) :
    leaf.code step (materializeElement base leaf step seed row element) element =
      perturb (leaf.code step base element) seed (leaf.offset + element) step := by
  have hle : perturb (leaf.code step base element) seed (leaf.offset + element) step ≤
      2 ^ leaf.bits - 1 := hbits ▸ perturb_le (hbits ▸ leaf.code_le step base element)
  generalize hvalue : perturb (leaf.code step base element) seed (leaf.offset + element) step =
    value at hle ⊢
  by_cases hfour : leaf.bits = 4
  · simp only [Leaf.byteOf, if_pos hfour] at hbyte
    rw [Leaf.code, if_pos hfour] at hzero
    rw [hfour] at hle
    rw [materializeElement]
    simp only [hvalue]
    rw [Leaf.code, if_pos hfour, if_pos hfour, getD_set _ _ _ _ hbyte, if_pos rfl]
    change nibble _ _ = 0 at hzero
    change nibble _ _ = value
    have hparity : element &&& 1 < 2 := Nat.lt_succ_of_le Nat.and_le_right
    rw [nibble_or, hzero, Nat.zero_or,
      nibble_shiftLeft value (by omega) _ hparity _ hparity, if_pos rfl]
  · simp only [Leaf.byteOf, if_neg hfour] at hbyte
    rw [leaf.bits_eq.resolve_left hfour] at hle
    rw [materializeElement]
    simp only [hvalue]
    rw [Leaf.code, if_neg hfour, if_neg hfour, getD_set _ _ _ _ hbyte, if_pos rfl,
      UInt8.toNat_ofNat']
    omega

omit [TrialFloat F] in
/-- Elements of a leaf do not share their places. -/
theorem code_materializeElement_of_ne (hbits : step.bits = leaf.bits) {other : ℕ}
    (hbyte : leaf.byteOf step element < row.length) (hne : element ≠ other) :
    leaf.code step (materializeElement base leaf step seed row element) other =
      leaf.code step row other := by
  have hle : perturb (leaf.code step base element) seed (leaf.offset + element) step ≤
      2 ^ leaf.bits - 1 := hbits ▸ perturb_le (hbits ▸ leaf.code_le step base element)
  by_cases hsame : leaf.byteOf step element = leaf.byteOf step other
  · by_cases hfour : leaf.bits = 4
    · simp only [Leaf.byteOf, if_pos hfour] at hbyte hsame
      rw [hfour] at hle
      have hparity : (element &&& 1) ≠ (other &&& 1) := by
        simp only [Nat.and_one_is_mod]
        omega
      rw [materializeElement]
      simp only [Leaf.code, if_pos hfour, ← hsame] at hle ⊢
      rw [getD_set _ _ _ _ hbyte, if_pos rfl]
      change nibble _ _ = nibble _ _
      rw [nibble_or, nibble_shiftLeft _ (by omega) _ (Nat.lt_succ_of_le Nat.and_le_right) _
        (Nat.lt_succ_of_le Nat.and_le_right), if_neg hparity, Nat.or_zero]
    · simp only [Leaf.byteOf, if_neg hfour] at hsame
      omega
  · apply Leaf.code_congr
    exact getD_materializeElement_of_ne hsame

end Element

section Leaf

variable {leaf : Leaf F} {step : Step} {base row : Row} {seed : UInt64}

omit [TrialFloat F] in
theorem materializeLeaf_eq (base : Row) (seed : UInt64) (row : Row) (p : Leaf F × Step) :
    materializeLeaf base seed row p =
      (List.range p.1.length).foldl (materializeElement base p.1 p.2 seed) row := rfl

omit [TrialFloat F] in
theorem length_foldl_materializeElement (elements : List ℕ) (row : Row) :
    (elements.foldl (materializeElement base leaf step seed) row).length = row.length := by
  induction elements generalizing row with
  | nil => rfl
  | cons element elements ih => rw [List.foldl_cons, ih, length_materializeElement]

omit [TrialFloat F] in
theorem getD_materializeLeaf_of_notMem {byte : ℕ}
    (h : byte < step.byteOffset ∨ step.byteOffset + leaf.bytes ≤ byte) :
    (materializeLeaf base seed row (leaf, step)).getD byte 0 = row.getD byte 0 := by
  rw [materializeLeaf_eq]
  have key : ∀ (elements : List ℕ) (row : Row), (∀ element ∈ elements, element < leaf.length) →
      (elements.foldl (materializeElement base leaf step seed) row).getD byte 0 =
        row.getD byte 0 := by
    intro elements
    induction elements with
    | nil => exact fun _ _ => rfl
    | cons element elements ih =>
      intro row helements
      rw [List.forall_mem_cons] at helements
      have hbounds := Leaf.byteOf_bounds step helements.1
      rw [List.foldl_cons, ih _ helements.2]
      exact getD_materializeElement_of_ne (by omega)
  exact key _ row fun element helement => List.mem_range.mp helement

omit [TrialFloat F] in
/-- After the first `n` elements these have their codes, and the places of the others are empty. -/
theorem code_foldl_materializeElement (hbits : step.bits = leaf.bits)
    (hbytes : step.byteOffset + leaf.bytes ≤ row.length)
    (hzero : ∀ element < leaf.length, leaf.code step row element = 0) {n : ℕ}
    (hn : n ≤ leaf.length) :
    ∀ element < leaf.length,
      leaf.code step ((List.range n).foldl (materializeElement base leaf step seed) row) element =
        if element < n then
          perturb (leaf.code step base element) seed (leaf.offset + element) step
        else 0 := by
  induction n with
  | zero =>
    intro element helement
    rw [if_neg (Nat.not_lt_zero _)]
    exact hzero element helement
  | succ n ih =>
    have hrow := ih (Nat.le_of_succ_le hn)
    have hbyte : leaf.byteOf step n <
        ((List.range n).foldl (materializeElement base leaf step seed) row).length := by
      rw [length_foldl_materializeElement]
      exact (Leaf.byteOf_bounds step hn).2.trans_le hbytes
    intro element helement
    rw [List.range_succ, List.foldl_append, List.foldl_cons, List.foldl_nil]
    by_cases heq : n = element
    · subst heq
      have hempty := hrow n helement
      rw [if_neg (Nat.lt_irrefl _)] at hempty
      rw [if_pos (Nat.lt_succ_self _), code_materializeElement_self hbits hbyte hempty]
    · rw [code_materializeElement_of_ne hbits hbyte heq, hrow element helement]
      congr 1
      exact propext (by omega)

end Leaf

section Row

variable {base row : Row} {seed : UInt64} {length : F}

def leavesBytes (leaves : List (Leaf F)) : ℕ := (leaves.map Leaf.bytes).sum

omit [TrialFloat F] in
theorem checkLeaves_eq_ok {leaves : List (Leaf F)} {offset rowBytes : ℕ} {result : ℕ × ℕ}
    (h : checkLeaves leaves offset rowBytes = .ok result) :
    result.2 = rowBytes + leavesBytes leaves := by
  induction leaves generalizing offset rowBytes with
  | nil =>
    obtain rfl := Except.ok.inj h
    rfl
  | cons leaf leaves ih =>
    rw [checkLeaves] at h
    split at h
    · cases h
    split at h
    · cases h
    split at h
    · cases h
    · rw [ih h, leavesBytes, leavesBytes, List.map_cons, List.sum_cons, Nat.add_assoc]

omit [TrialFloat F] in
theorem checkLayout_eq_ok {leaves : List (Leaf F)} {rowBytes : ℕ}
    (h : checkLayout leaves = .ok rowBytes) : rowBytes = leavesBytes leaves := by
  rw [checkLayout] at h
  split at h
  · cases h
  cases hleaves : checkLeaves leaves 0 0 with
  | error e =>
    rw [hleaves] at h
    cases h
  | ok result =>
    rw [hleaves] at h
    dsimp only at h
    split at h
    · cases h
    · obtain rfl := Except.ok.inj h
      rw [checkLeaves_eq_ok hleaves, Nat.zero_add]

theorem bounds_of_mem_zip {leaves : List (Leaf F)} {offset : ℕ} {p : Leaf F × Step}
    (h : p ∈ leaves.zip (makeStepsFrom length offset leaves)) :
    p.2.bits = p.1.bits ∧ offset ≤ p.2.byteOffset ∧
      p.2.byteOffset + p.1.bytes ≤ offset + leavesBytes leaves := by
  induction leaves generalizing offset with
  | nil => cases h
  | cons leaf leaves ih =>
    rw [makeStepsFrom, List.zip_cons_cons, List.mem_cons] at h
    rw [leavesBytes, List.map_cons, List.sum_cons, ← leavesBytes]
    obtain rfl | h := h
    · refine ⟨rfl, le_rfl, ?_⟩
      dsimp only [makeStep]
      omega
    · obtain ⟨hbits, hle, hbytes⟩ := ih h
      exact ⟨hbits, by omega, by omega⟩

/-- The loop over the leaves, from a row that is empty from their first byte on. -/
theorem code_foldl_materializeLeaf {leaves : List (Leaf F)} {offset : ℕ}
    (hbytes : offset + leavesBytes leaves ≤ row.length)
    (hzero : ∀ byte, offset ≤ byte → row.getD byte 0 = 0) :
    (∀ byte < offset, ((leaves.zip (makeStepsFrom length offset leaves)).foldl
        (materializeLeaf base seed) row).getD byte 0 = row.getD byte 0) ∧
      ∀ p ∈ leaves.zip (makeStepsFrom length offset leaves), ∀ element < p.1.length,
        p.1.code p.2 ((leaves.zip (makeStepsFrom length offset leaves)).foldl
            (materializeLeaf base seed) row) element =
          perturb (p.1.code p.2 base element) seed (p.1.offset + element) p.2 := by
  induction leaves generalizing offset row with
  | nil =>
    constructor
    · exact fun _ _ => rfl
    · rintro p ⟨⟩
  | cons leaf leaves ih =>
    rw [leavesBytes, List.map_cons, List.sum_cons, ← leavesBytes] at hbytes
    rw [makeStepsFrom, List.zip_cons_cons, List.foldl_cons]
    have hbelow : ∀ byte, byte < offset ∨ offset + leaf.bytes ≤ byte →
        (materializeLeaf base seed row (leaf, makeStep length offset leaf)).getD byte 0 =
          row.getD byte 0 := fun byte hbyte => getD_materializeLeaf_of_notMem hbyte
    have hcode : ∀ element < leaf.length, leaf.code (makeStep length offset leaf)
        (materializeLeaf base seed row (leaf, makeStep length offset leaf)) element =
          perturb (leaf.code (makeStep length offset leaf) base element) seed
            (leaf.offset + element) (makeStep length offset leaf) := by
      intro element helement
      have hempty : ∀ element < leaf.length,
          leaf.code (makeStep length offset leaf) row element = 0 := by
        intro element helement
        have hbyte := hzero _ (Leaf.byteOf_bounds (makeStep length offset leaf) helement).1
        have hcongr : leaf.code (makeStep length offset leaf) row element =
            leaf.code (makeStep length offset leaf) [] element :=
          Leaf.code_congr (hbyte.trans List.getD_nil.symm)
        rw [hcongr]
        simp [Leaf.code]
      have hfit : (makeStep length offset leaf).byteOffset + leaf.bytes ≤ row.length := by
        dsimp only [makeStep]
        omega
      rw [materializeLeaf_eq, code_foldl_materializeElement rfl hfit hempty le_rfl element helement,
        if_pos helement]
    have hfit : offset + leaf.bytes + leavesBytes leaves ≤
        (materializeLeaf base seed row (leaf, makeStep length offset leaf)).length := by
      rw [length_materializeLeaf]
      omega
    obtain ⟨hkeep, hrest⟩ := ih hfit (by
      intro byte hbyte
      rw [hbelow byte (.inr hbyte)]
      exact hzero byte (by omega))
    constructor
    · intro byte hbyte
      rw [hkeep byte (by omega), hbelow byte (.inl hbyte)]
    · intro p hp element helement
      obtain rfl | hp := List.mem_cons.mp hp
      · rw [← hcode element helement]
        apply Leaf.code_congr
        exact hkeep _ (Leaf.byteOf_bounds _ helement).2
      · exact hrest p hp element helement

end Row

section Distance

variable {leaves : List (Leaf F)} {rowBytes : ℕ} {base observation : Row} {length : F}
  {seed : UInt64}

/-- The contribution of one element to the distance of two rows. -/
def decodedDistance (row observation : Row) (leaf : Leaf F) (step : Step) (distance : F)
    (element : ℕ) : F :=
  let delta := decodeCode (leaf.code step row element) leaf.encoding leaf.scale -
    decodeCode (leaf.code step observation element) leaf.encoding leaf.scale
  mulAdd delta (delta * leaf.weight) distance

/-- The weighted squared distance of two rows, element by element. -/
def rowDistance (row observation : Row) (leaves : List (Leaf F)) (steps : List Step) : F :=
  (leaves.zip steps).foldl
    (fun distance p =>
      (List.range p.1.length).foldl (decodedDistance row observation p.1 p.2) distance)
    0.0

theorem foldl_congr_mem {α β : Type} {f g : α → β → α} {l : List β} (a : α)
    (h : ∀ b ∈ l, ∀ a, f a b = g a b) : l.foldl f a = l.foldl g a := by
  induction l generalizing a with
  | nil => rfl
  | cons b l ih =>
    rw [List.forall_mem_cons] at h
    rw [List.foldl_cons, List.foldl_cons, h.1 a, ih _ h.2]

theorem code_materialize (seed : UInt64) (hlayout : checkLayout leaves = .ok rowBytes)
    (hbase : base.length = rowBytes) {p : Leaf F × Step}
    (hp : p ∈ leaves.zip (makeSteps leaves length)) {element : ℕ}
    (helement : element < p.1.length) :
    p.1.code p.2 (materialize base leaves (makeSteps leaves length) seed) element =
      perturb (p.1.code p.2 base element) seed (p.1.offset + element) p.2 := by
  have hbytes : 0 + leavesBytes leaves ≤ (List.replicate base.length (0 : UInt8)).length := by
    rw [List.length_replicate, hbase, checkLayout_eq_ok hlayout, Nat.zero_add]
  have hzero : ∀ byte, 0 ≤ byte → (List.replicate base.length (0 : UInt8)).getD byte 0 = 0 := by
    intro byte _
    rw [List.getD_eq_getElem?_getD, List.getElem?_replicate]
    split
    · rfl
    · rfl
  exact (code_foldl_materializeLeaf hbytes hzero).2 p hp element helement

theorem trialDistance_eq (hlayout : checkLayout leaves = .ok rowBytes)
    (hbase : base.length = rowBytes) :
    trialDistance base observation leaves (makeSteps leaves length) seed =
      rowDistance (materialize base leaves (makeSteps leaves length) seed) observation leaves
        (makeSteps leaves length) := by
  apply foldl_congr_mem
  intro p hp distance
  apply foldl_congr_mem
  intro element helement distance
  rw [List.mem_range] at helement
  rw [elementDistance, decodedDistance, code_materialize seed hlayout hbase hp helement]

/-- What a materialized row and the distance of its trial are. -/
structure Materializes (leaves : List (Leaf F)) (rowBytes : ℕ) (base : Row) (length : F)
    (seed : UInt64) : Prop where
  length_eq : (materialize base leaves (makeSteps leaves length) seed).length = rowBytes
  byte_lt : ∀ p ∈ leaves.zip (makeSteps leaves length), ∀ element < p.1.length,
    p.1.byteOf p.2 element < rowBytes
  code_eq : ∀ p ∈ leaves.zip (makeSteps leaves length), ∀ element < p.1.length,
    p.1.code p.2 (materialize base leaves (makeSteps leaves length) seed) element =
      perturb (p.1.code p.2 base element) seed (p.1.offset + element) p.2
  code_le : ∀ p ∈ leaves.zip (makeSteps leaves length), ∀ element < p.1.length,
    perturb (p.1.code p.2 base element) seed (p.1.offset + element) p.2 ≤ 2 ^ p.1.bits - 1
  /-- Rows that agree in the code of one element keep agreeing in it, whatever else they hold. -/
  independent : ∀ base', base'.length = rowBytes →
    ∀ p ∈ leaves.zip (makeSteps leaves length), ∀ element < p.1.length,
      p.1.code p.2 base' element = p.1.code p.2 base element →
        p.1.code p.2 (materialize base' leaves (makeSteps leaves length) seed) element =
          p.1.code p.2 (materialize base leaves (makeSteps leaves length) seed) element
  distance_eq : ∀ observation, observation.length = rowBytes →
    trialDistance base observation leaves (makeSteps leaves length) seed =
      rowDistance (materialize base leaves (makeSteps leaves length) seed) observation leaves
        (makeSteps leaves length)

/--
A materialized row holds the perturbed code of every element, and the distance
of a trial is the distance of this row.
-/
theorem materialize_exact (hlayout : checkLayout leaves = .ok rowBytes)
    (hbase : base.length = rowBytes) (length : F) (seed : UInt64) :
    Materializes leaves rowBytes base length seed where
  length_eq := by rw [length_materialize, hbase]
  byte_lt := by
    intro p hp element helement
    have hbytes := (bounds_of_mem_zip hp).2.2
    have hbyte := (Leaf.byteOf_bounds p.2 helement).2
    rw [checkLayout_eq_ok hlayout]
    omega
  code_eq p hp element helement := code_materialize seed hlayout hbase hp helement
  code_le := by
    intro p hp element _
    have hbits := (bounds_of_mem_zip hp).1
    rw [← hbits]
    exact perturb_le (hbits ▸ p.1.code_le p.2 base element)
  independent := by
    intro base' hbase' p hp element helement hsame
    rw [code_materialize seed hlayout hbase hp helement,
      code_materialize seed hlayout hbase' hp helement, hsame]
  distance_eq _ _ := trialDistance_eq hlayout hbase

/-- Three codes of four bits, then one of eight. -/
def mixedLeaves : List (Leaf ℚ) :=
  [{ offset := 0, length := 3, bits := 4, encoding := .int4, scale := 1, weight := 1, radius := 2,
     bits_eq := .inl rfl },
   { offset := 3, length := 1, bits := 8, encoding := .int8, scale := 1, weight := 1, radius := 2,
     bits_eq := .inr rfl }]

theorem materialize_exact_mixed : Materializes mixedLeaves 3 [0x76, 0x0a, 100] (1 : ℚ) 31 := by
  have hlayout : checkLayout mixedLeaves = .ok 3 := by rfl
  exact materialize_exact hlayout rfl 1 31

end Distance

end Ennbo.Trials
