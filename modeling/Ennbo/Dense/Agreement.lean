import Ennbo.Dense.Bits
import Ennbo.Dense.Zig
import Ennbo.Loops
import Mathlib.Data.List.GetD

/-! # The implementations agree

Both implementations check the same conditions and move every value by the same
rule. A linear layer multiplies with the weights that moving the whole model
would give.
-/

namespace Ennbo.Dense

open Loops

variable {F D : Type} [DenseFloat F] [Floating D] [FloatCast D F] {nextFinite : F → Bool → F}

/-- A step that leads from each finite value to another one. -/
structure StepsFinitely (nextFinite : F → Bool → F) : Prop where
  finite : ∀ {value : F} (positive : Bool), isFinite value = true →
    isFinite (nextFinite value positive) = true
  moves : ∀ {value : F} (positive : Bool), isFinite value = true →
    feq value (nextFinite value positive) = false
  comm : ∀ a b : F, feq a b = feq b a

/-- The rule by which a value is moved, given what the terms add up to. -/
def moved (nextFinite : F → Bool → F) (base scale : F) (walk : Walk F) : Option F :=
  let candidate := base + scale * walk.sum
  if feq walk.sum 0 || feq candidate base then some (nextFinite base walk.positive)
  else if isFinite candidate then some candidate
  else none

section Rule

omit [DenseFloat F] in
theorem settle_ok_iff {ε : Type} {step finite : Bool} {a b value : F} {e : ε} :
    (if step then pure a else if finite then pure b else throw e : Except ε F) = .ok value ↔
      (if step then some a else if finite then some b else none) = some value := by
  cases step with
  | true => simp [pure, Except.pure]
  | false =>
    cases finite with
    | true => simp [pure, Except.pure]
    | false => simp [throw, throwThe, MonadExceptOf.throw]

omit [DenseFloat F] in
theorem settle_not_ok_iff {ε : Type} {step finite : Bool} {a b value : F} {e : ε} :
    (if step then pure a else if !finite then throw e else pure b : Except ε F) = .ok value ↔
      (if step then some a else if finite then some b else none) = some value := by
  rw [← settle_ok_iff (e := e)]
  cases finite <;> rfl

variable {base scale value : F} {walk : Walk F} {leaf : DenseLeaf F} {view : DenseView F}
  {element : ℕ} {terms : List (DenseTerm F)}

theorem StepsFinitely.moved_spec (h : StepsFinitely nextFinite) (hbase : isFinite base = true)
    (hmoved : moved nextFinite base scale walk = some value) :
    isFinite value = true ∧ feq base value = false := by
  unfold moved at hmoved
  dsimp only at hmoved
  split_ifs at hmoved with hstep hfinite
  · obtain rfl := Option.some.inj hmoved
    exact ⟨h.finite _ hbase, h.moves _ hbase⟩
  · obtain rfl := Option.some.inj hmoved
    rw [Bool.or_eq_true, not_or] at hstep
    exact ⟨hfinite, by rw [h.comm]; exact Bool.eq_false_iff.mpr hstep.2⟩

theorem referenceValue_ok_iff :
    referenceValue nextFinite base leaf element terms = .ok value ↔
      moved nextFinite base leaf.scale (walkTerms leaf.key (UInt64.ofNat element) terms) =
        some value := settle_ok_iff

theorem perturbed_ok_iff :
    perturbed nextFinite base view element terms = .ok value ↔
      view.start.toNat + element < 2 ^ 64 ∧ moved nextFinite base view.scale
        (walkTerms view.key (view.start + UInt64.ofNat element) terms) = some value := by
  unfold perturbed moved
  rw [check_ok_iff, not_le]
  exact and_congr_right fun _ => settle_ok_iff

theorem walkTerm_eq : Zig.walkTerm (F := F) = walkTerm := rfl

theorem perturbUnchecked_ok_iff :
    Zig.perturbUnchecked nextFinite base view element terms = .ok value ↔
      view.start.toNat + element < 2 ^ 64 ∧ moved nextFinite base view.scale
        (walkTerms view.key (view.start + UInt64.ofNat element) terms) = some value := by
  unfold Zig.perturbUnchecked moved walkTerms
  rw [check_ok_iff, not_le, walkTerm_eq]
  exact and_congr_right fun _ => settle_not_ok_iff

end Rule

section Checks

variable {terms : List (DenseTerm F)} {leaves : List (DenseLeaf F)} {start stop n : ℕ}

omit [DenseFloat F] in
theorem coefficient_eq (seed : UInt64) :
    Zig.coefficient D terms seed = coefficient D terms seed := by
  unfold Zig.coefficient coefficient
  rw [List.foldl_map, List.foldl_filter]

omit [DenseFloat F] in
theorem hasDirection_eq : Zig.hasDirection D terms = hasDirection D terms := by
  unfold Zig.hasDirection hasDirection Zig.seenSeed
  congr 1
  ext p
  rw [coefficient_eq]
  split
  next h => simp [h]
  next h => simp [h]

omit [DenseFloat F] in
theorem ne_of_direction (h : hasDirection D terms = true) : terms ≠ [] := by
  rintro rfl
  cases h

theorem validateTerms_ok_iff :
    validateTerms terms = .ok () ↔ ∀ term ∈ terms, isFinite term.coefficient = true := by
  unfold validateTerms
  rw [check_ok_iff]
  simp [pure, Except.pure]

theorem zigValidateTerms_ok_iff :
    Zig.validateTerms terms = .ok () ↔ ∀ term ∈ terms, isFinite term.coefficient = true := by
  induction terms with
  | nil => simp [Zig.validateTerms, pure, Except.pure]
  | cons term terms ih =>
    unfold Zig.validateTerms
    rw [check_ok_iff, ih, List.forall_mem_cons]
    simp

theorem le_leavesEnd (h : leavesEnd start leaves = .ok stop) : start ≤ stop := by
  induction leaves generalizing start with
  | nil => exact (pure_ok_iff.mp h).le
  | cons leaf leaves ih =>
    unfold leavesEnd at h
    rw [check_ok_iff, check_ok_iff, check_ok_iff, not_not] at h
    obtain ⟨rfl, -, -, h⟩ := h
    exact (Nat.le_add_right _ _).trans (ih h)

theorem leavesEnd_spec (h : leavesEnd start leaves = .ok stop) :
    ∀ leaf ∈ leaves, leaf.len ≠ 0 ∧ ¬ badScale leaf.scale = true := by
  induction leaves generalizing start with
  | nil => simp
  | cons leaf leaves ih =>
    unfold leavesEnd at h
    rw [check_ok_iff, check_ok_iff, check_ok_iff, not_or] at h
    obtain ⟨-, hleaf, -, h⟩ := h
    exact List.forall_mem_cons.mpr ⟨hleaf, ih h⟩

/-- The leaves are checked against the number of values on the way or at the end. -/
theorem zigLeavesEnd_ok_iff (hle : start ≤ n) :
    Zig.leavesEnd n start leaves = .ok stop ↔ leavesEnd start leaves = .ok stop ∧ stop ≤ n := by
  induction leaves generalizing start with
  | nil =>
    unfold Zig.leavesEnd leavesEnd
    rw [pure_ok_iff, pure_ok_iff]
    constructor
    · rintro rfl
      exact ⟨rfl, hle⟩
    · rintro ⟨rfl, -⟩
      rfl
  | cons leaf leaves ih =>
    unfold Zig.leavesEnd leavesEnd
    rw [check_ok_iff, check_ok_iff, check_ok_iff, check_ok_iff, check_ok_iff, check_ok_iff]
    constructor
    · rintro ⟨hleaf, hlt, hn, h⟩
      obtain ⟨hend, hstop⟩ := (ih (not_lt.mp hn)).mp h
      rw [not_or, not_or] at hleaf
      exact ⟨⟨hleaf.2.2, fun h => h.elim hleaf.1 hleaf.2.1, hlt, hend⟩, hstop⟩
    · rintro ⟨⟨hoffset, hleaf, hlt, hend⟩, hstop⟩
      have hn := (le_leavesEnd hend).trans hstop
      rw [not_or] at hleaf
      refine ⟨?_, hlt, not_lt.mpr hn, (ih hn).mpr ⟨hend, hstop⟩⟩
      rintro (h | h | h)
      · exact hleaf.1 h
      · exact hleaf.2 h
      · exact hoffset h

theorem zigValidateLeaves_ok_iff :
    Zig.validateLeaves leaves n = .ok () ↔ leavesEnd 0 leaves = .ok n := by
  unfold Zig.validateLeaves
  rw [bind_ok_iff]
  simp only [zigLeavesEnd_ok_iff (Nat.zero_le n), check_ok_iff, pure_ok_iff, and_true, not_not]
  constructor
  · rintro ⟨stop, ⟨hend, -⟩, rfl⟩
    exact hend
  · intro hend
    exact ⟨n, ⟨hend, le_rfl⟩, rfl⟩

theorem validateLeaves_ok_iff :
    validateLeaves leaves (some n) = .ok () ↔ leaves ≠ [] ∧ leavesEnd 0 leaves = .ok n := by
  unfold validateLeaves
  rw [check_ok_iff, bind_ok_iff]
  simp only [check_ok_iff, pure_ok_iff, and_true, Option.any_some, bne_iff_ne, not_not]
  constructor
  · rintro ⟨hne, stop, hend, rfl⟩
    exact ⟨hne, hend⟩
  · rintro ⟨hne, hend⟩
    exact ⟨hne, n, hend, rfl⟩

theorem validateLeaves_none_iff :
    validateLeaves leaves none = .ok () ↔ leaves ≠ [] ∧ ∃ stop, leavesEnd 0 leaves = .ok stop := by
  unfold validateLeaves
  rw [check_ok_iff, bind_ok_iff]
  simp [pure_ok_iff]

/-- Checked leaves follow one another. -/
theorem elements_places (h : leavesEnd start leaves = .ok stop) :
    (elements leaves).map (fun p => p.1.offset + p.2) = List.range' start (stop - start) ∧
      ∀ p ∈ elements leaves, p.2 < 2 ^ 64 := by
  induction leaves generalizing start with
  | nil =>
    obtain rfl := pure_ok_iff.mp h
    simp [elements]
  | cons leaf leaves ih =>
    unfold leavesEnd at h
    rw [check_ok_iff, check_ok_iff, check_ok_iff, not_not, not_le] at h
    obtain ⟨rfl, -, hlt, h⟩ := h
    obtain ⟨hplaces, hsmall⟩ := ih h
    have hle := le_leavesEnd h
    unfold elements at hplaces hsmall ⊢
    rw [List.flatMap_cons]
    constructor
    · rw [List.map_append, hplaces, List.map_map]
      have hleaf : (List.range leaf.len).map ((fun p : DenseLeaf F × ℕ => p.1.offset + p.2) ∘
          fun element => (leaf, element)) = List.range' leaf.offset leaf.len := by
        rw [List.range'_eq_map_range]
        rfl
      rw [hleaf, List.range'_append_1]
      congr 1
      omega
    · intro p hp
      rcases List.mem_append.mp hp with hp | hp
      · obtain ⟨element, helement, rfl⟩ := List.mem_map.mp hp
        have helement := List.mem_range.mp helement
        dsimp only
        omega
      · exact hsmall p hp

end Checks

section Apply

variable {base values : List F} {leaves : List (DenseLeaf F)} {terms : List (DenseTerm F)}

/-- The inputs that both implementations accept, as long as no value overflows. -/
structure Accepted (D : Type) [Floating D] [FloatCast D F] (base : List F)
    (leaves : List (DenseLeaf F)) (terms : List (DenseTerm F)) : Prop where
  base_ne : base ≠ []
  finite : ∀ value ∈ base, isFinite value = true
  leaves_ne : leaves ≠ []
  leavesEnd_eq : leavesEnd 0 leaves = .ok base.length
  terms_finite : ∀ term ∈ terms, isFinite term.coefficient = true
  direction : hasDirection D terms = true

/-- Every element is moved by the rule. -/
def MovesTo (nextFinite : F → Bool → F) (base : List F) (leaves : List (DenseLeaf F))
    (terms : List (DenseTerm F)) (values : List F) : Prop :=
  List.Forall₂ (fun p value => moved nextFinite (base.getD (p.1.offset + p.2) 0) p.1.scale
    (walkTerms p.1.key (UInt64.ofNat p.2) terms) = some value) (elements leaves) values

theorem validate_ok_iff : validate D base leaves terms = .ok () ↔ Accepted D base leaves terms := by
  unfold validate
  rw [check_ok_iff, check_ok_iff, check_then_ok_iff, check_then_ok_iff, check_ok_iff,
    validateLeaves_ok_iff, validateTerms_ok_iff]
  constructor
  · rintro ⟨hbase, hfinite, ⟨hleaves, hend⟩, hterms, hdirection, -⟩
    exact ⟨hbase, by simpa using hfinite, hleaves, hend, hterms, by simpa using hdirection⟩
  · rintro ⟨hbase, hfinite, hleaves, hend, hterms, hdirection⟩
    exact ⟨hbase, by simpa using hfinite, ⟨hleaves, hend⟩, hterms, by simpa using hdirection, rfl⟩

theorem length_elements (h : leavesEnd 0 leaves = .ok base.length) :
    (elements leaves).length = base.length := by
  have hplaces := congrArg List.length (elements_places h).1
  simpa using hplaces

theorem reference_ok_iff (h : leavesEnd 0 leaves = .ok base.length) :
    reference nextFinite base leaves terms (List.replicate base.length 0) = .ok values ↔
      MovesTo nextFinite base leaves terms values := by
  have hlen := length_elements h
  have hplaces := (elements_places h).1
  rw [Nat.sub_zero, ← hlen] at hplaces
  unfold reference MovesTo
  dsimp only
  rw [foldlM_set (fun p : DenseLeaf F × ℕ => p.1.offset + p.2) hplaces (by simp [hlen])]
  simp only [referenceValue_ok_iff]

theorem MovesTo.length_eq (h : MovesTo nextFinite base leaves terms values)
    (hend : leavesEnd 0 leaves = .ok base.length) : values.length = base.length := by
  rw [← length_elements hend]
  exact (List.Forall₂.length_eq h).symm

theorem getElem_place (hend : leavesEnd 0 leaves = .ok base.length) {i : ℕ}
    (hi : i < (elements leaves).length) :
    (elements leaves)[i].1.offset + (elements leaves)[i].2 = i := by
  have hplaces := (elements_places hend).1
  have hget : ((elements leaves).map fun p => p.1.offset + p.2)[i]? = _ :=
    congrArg (fun l : List ℕ => l[i]?) hplaces
  rw [List.getElem?_map, List.getElem?_eq_getElem hi,
    List.getElem?_range' (by rw [← length_elements hend]; omega)] at hget
  simpa using hget

omit [DenseFloat F] in
theorem mem_elements_iff {p : DenseLeaf F × ℕ} :
    p ∈ elements leaves ↔ p.1 ∈ leaves ∧ p.2 < p.1.len := by
  unfold elements
  simp only [List.mem_flatMap, List.mem_map, List.mem_range]
  constructor
  · rintro ⟨leaf, hleaf, element, helement, rfl⟩
    exact ⟨hleaf, helement⟩
  · rintro ⟨hleaf, helement⟩
    exact ⟨p.1, hleaf, p.2, helement, rfl⟩

theorem exists_place (hend : leavesEnd 0 leaves = .ok base.length) {leaf : DenseLeaf F}
    {element : ℕ} (hleaf : leaf ∈ leaves) (h : element < leaf.len) :
    ∃ hi : leaf.offset + element < (elements leaves).length,
      (elements leaves)[leaf.offset + element] = (leaf, element) := by
  have hmem : (leaf, element) ∈ elements leaves := mem_elements_iff.mpr ⟨hleaf, h⟩
  obtain ⟨i, hi, heq⟩ := List.getElem_of_mem hmem
  have hplace := getElem_place hend hi
  rw [heq] at hplace
  obtain rfl : leaf.offset + element = i := hplace
  exact ⟨hi, heq⟩

theorem MovesTo.changes (hstep : StepsFinitely nextFinite)
    (h : MovesTo nextFinite base leaves terms values)
    (hend : leavesEnd 0 leaves = .ok base.length)
    (hfinite : ∀ value ∈ base, isFinite value = true) {i : ℕ} (hi : i < values.length)
    (hb : i < base.length) : isFinite values[i] = true ∧ feq base[i] values[i] = false := by
  have he : i < (elements leaves).length := by rwa [length_elements hend]
  have hmoved := List.Forall₂.get h he hi
  simp only [List.get_eq_getElem, getElem_place hend he, List.getD_eq_getElem _ _ hb] at hmoved
  exact hstep.moved_spec (hfinite _ (List.getElem_mem hb)) hmoved

/-- The check that follows the moves never rejects. -/
theorem apply_ok_iff (hstep : StepsFinitely nextFinite) {result : DenseResult F} :
    apply D nextFinite base leaves terms = .ok result ↔ Accepted D base leaves terms ∧
      MovesTo nextFinite base leaves terms result.values ∧ result.changed = base.length := by
  unfold apply
  rw [check_then_ok_iff, validate_ok_iff]
  apply and_congr_right
  intro hvalid
  rw [bind_ok_iff]
  simp only [reference_ok_iff hvalid.leavesEnd_eq]
  have hall : ∀ {values : List F}, MovesTo nextFinite base leaves terms values →
      (values.any fun value => !isFinite value) = false ∧
        ((base.zip values).filter fun p => !feq p.1 p.2).length = base.length := by
    intro values hmoved
    have hlen := hmoved.length_eq hvalid.leavesEnd_eq
    have hchanges := fun {i : ℕ} => hmoved.changes hstep hvalid.leavesEnd_eq hvalid.finite (i := i)
    constructor
    · rw [List.any_eq_false]
      intro value hvalue
      obtain ⟨i, hi, rfl⟩ := List.getElem_of_mem hvalue
      simpa using (hchanges hi (hlen ▸ hi)).1
    · have hfilter : (base.zip values).filter (fun p => !feq p.1 p.2) = base.zip values := by
        rw [List.filter_eq_self]
        intro p hp
        obtain ⟨i, hi, rfl⟩ := List.getElem_of_mem hp
        rw [List.length_zip] at hi
        rw [List.getElem_zip, (hchanges (by omega) (by omega)).2]
        rfl
      rw [hfilter, List.length_zip, hlen, min_self]
  constructor
  · rintro ⟨values, hmoved, h⟩
    obtain ⟨hfinite, hcount⟩ := hall hmoved
    rw [if_neg (by simp [hfinite]), hcount, if_neg (not_not.mpr rfl), pure_ok_iff] at h
    obtain rfl := h
    exact ⟨hmoved, rfl⟩
  · rintro ⟨hmoved, hchanged⟩
    obtain ⟨hfinite, hcount⟩ := hall hmoved
    refine ⟨result.values, hmoved, ?_⟩
    rw [if_neg (by simp [hfinite]), hcount, if_neg (not_not.mpr rfl), ← hchanged]
    rfl

/-- What the loop of the second implementation does to one element. -/
theorem zigStep_ok_iff (hend : leavesEnd 0 leaves = .ok base.length) {p : DenseLeaf F × ℕ}
    (hp : p ∈ elements leaves) {state next : List F × ℕ} :
    (do
      let value := base.getD (p.1.offset + p.2) 0
      if !isFinite value then throw .invalidValue
      else do
        let moved ← Zig.perturbUnchecked nextFinite value ⟨p.1.key, 0, p.1.scale⟩ p.2 terms
        return (state.1.set (p.1.offset + p.2) moved,
          state.2 + if feq moved value then 0 else 1) : Except Zig.Error (List F × ℕ)) =
      .ok next ↔
    ∃ value, (isFinite (base.getD (p.1.offset + p.2) 0) = true ∧
        moved nextFinite (base.getD (p.1.offset + p.2) 0) p.1.scale
          (walkTerms p.1.key (UInt64.ofNat p.2) terms) = some value) ∧
      (state.1.set (p.1.offset + p.2) value,
        state.2 + if feq value (base.getD (p.1.offset + p.2) 0) then 0 else 1) = next := by
  have hsmall : (0 : UInt64).toNat + p.2 < 2 ^ 64 := by
    rw [show (0 : UInt64).toNat = 0 from rfl, Nat.zero_add]
    exact (elements_places hend).2 p hp
  dsimp only
  rw [check_ok_iff, bind_ok_iff]
  simp only [pure_ok_iff, perturbUnchecked_ok_iff, hsmall, true_and, UInt64.zero_add]
  constructor
  · rintro ⟨hfinite, value, hmoved, hnext⟩
    exact ⟨value, ⟨by simpa using hfinite, hmoved⟩, hnext⟩
  · rintro ⟨value, ⟨hfinite, hmoved⟩, hnext⟩
    exact ⟨by simpa using hfinite, value, hmoved, hnext⟩

theorem finite_elements_iff (hend : leavesEnd 0 leaves = .ok base.length) :
    (∀ p ∈ elements leaves, isFinite (base.getD (p.1.offset + p.2) 0) = true) ↔
      ∀ value ∈ base, isFinite value = true := by
  have hlen := length_elements hend
  constructor
  · intro h value hvalue
    obtain ⟨i, hi, rfl⟩ := List.getElem_of_mem hvalue
    have he : i < (elements leaves).length := by omega
    have hread := h _ (List.getElem_mem he)
    rwa [getElem_place hend he, List.getD_eq_getElem _ _ hi] at hread
  · intro h p hp
    obtain ⟨i, hi, rfl⟩ := List.getElem_of_mem hp
    have hb : i < base.length := by omega
    rw [getElem_place hend hi, List.getD_eq_getElem _ _ hb]
    exact h _ (List.getElem_mem hb)

/-- The values are written in order, and each is counted. -/
theorem zigWrites (hstep : StepsFinitely nextFinite) (hend : leavesEnd 0 leaves = .ok base.length)
    (hfinite : ∀ value ∈ base, isFinite value = true)
    (hmoved : MovesTo nextFinite base leaves terms values) :
    ((elements leaves).zip values).foldl (fun state p =>
        (state.1.set (p.1.1.offset + p.1.2) p.2,
          state.2 + if feq p.2 (base.getD (p.1.1.offset + p.1.2) 0) then 0 else 1))
      (List.replicate base.length 0, 0) = (values, base.length) := by
  have hlen := length_elements hend
  have hplaces := (elements_places hend).1
  rw [Nat.sub_zero, ← hlen] at hplaces
  have hvalues : values.length = (elements leaves).length := (List.Forall₂.length_eq hmoved).symm
  let write := fun (out : List F) (p : (DenseLeaf F × ℕ) × F) =>
    out.set (p.1.1.offset + p.1.2) p.2
  let count := fun p : (DenseLeaf F × ℕ) × F =>
    if feq p.2 (base.getD (p.1.1.offset + p.1.2) 0) then 0 else 1
  have hone : ∀ p ∈ (elements leaves).zip values, count p = 1 := by
    intro p hp
    obtain ⟨i, hi, rfl⟩ := List.getElem_of_mem hp
    rw [List.length_zip] at hi
    have hb : i < base.length := by omega
    have hchange := (hmoved.changes hstep hend hfinite (by omega) hb).2
    rw [hstep.comm] at hchange
    dsimp only [count]
    rw [List.getElem_zip, getElem_place hend (by omega), List.getD_eq_getElem _ _ hb, hchange]
    rfl
  have hset : ((elements leaves).zip values).foldl write (List.replicate base.length 0) = values :=
    foldl_set hvalues hplaces (by simp [hlen])
  refine (foldl_count (f := write) hone (List.replicate base.length 0) 0).trans ?_
  rw [hset, List.length_zip, hvalues, min_self, hlen, Nat.zero_add]

/-- The loop of the second implementation. -/
theorem zigLoop_ok_iff (hstep : StepsFinitely nextFinite)
    (hend : leavesEnd 0 leaves = .ok base.length) {result : List F × ℕ} :
    ((elements leaves).foldlM (fun state p => do
      let index := p.1.offset + p.2
      let value := base.getD index 0
      if !isFinite value then throw .invalidValue
      else do
        let moved ← Zig.perturbUnchecked nextFinite value ⟨p.1.key, 0, p.1.scale⟩ p.2 terms
        return (state.1.set index moved, state.2 + if feq moved value then 0 else 1))
      (List.replicate base.length 0, 0) : Except Zig.Error (List F × ℕ)) = .ok result ↔
    (∀ value ∈ base, isFinite value = true) ∧ MovesTo nextFinite base leaves terms result.1 ∧
      result.2 = base.length := by
  refine (foldlM_write fun p hp state next => zigStep_ok_iff hend hp).trans ?_
  simp only [List.forall₂_and_left, finite_elements_iff hend]
  constructor
  · rintro ⟨values, ⟨hfinite, hmoved⟩, rfl⟩
    rw [zigWrites hstep hend hfinite hmoved]
    exact ⟨hfinite, hmoved, rfl⟩
  · rintro ⟨hfinite, hmoved, hchanged⟩
    refine ⟨result.1, ⟨hfinite, hmoved⟩, ?_⟩
    rw [zigWrites hstep hend hfinite hmoved, ← hchanged]

theorem zigApply_ok_iff (hstep : StepsFinitely nextFinite) {result : List F × ℕ} :
    Zig.apply D nextFinite base leaves terms (List.replicate base.length 0) = .ok result ↔
      Accepted D base leaves terms ∧ MovesTo nextFinite base leaves terms result.1 ∧
        result.2 = base.length := by
  unfold Zig.apply
  rw [check_ok_iff, check_then_ok_iff, zigValidateTerms_ok_iff, check_ok_iff, check_then_ok_iff,
    hasDirection_eq, zigValidateLeaves_ok_iff]
  constructor
  · rintro ⟨hargs, hterms, hdirection, hend, hloop⟩
    obtain ⟨hfinite, h⟩ := (zigLoop_ok_iff hstep hend).mp hloop
    simp only [List.length_eq_zero_iff, not_or] at hargs
    exact ⟨⟨hargs.1, hfinite, hargs.2.2.1, hend, hterms, by simpa using hdirection⟩, h⟩
  · rintro ⟨⟨hbase, hfinite, hleaves, hend, hterms, hdirection⟩, h⟩
    refine ⟨?_, hterms, by simpa using hdirection, hend,
      (zigLoop_ok_iff hstep hend).mpr ⟨hfinite, h⟩⟩
    simp [hbase, hleaves, ne_of_direction hdirection]

end Apply

end Ennbo.Dense
