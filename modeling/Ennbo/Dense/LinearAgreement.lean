import Ennbo.Dense.Agreement

/-! # Linear layers agree

A row is returned exactly when each of its weights is moved by the rule. The rows
are those of a layer whose moved weights are stored, whichever implementation
evaluates them.
-/

namespace Ennbo.Dense

open Loops

variable {F D : Type} [DenseFloat F] [Floating D] [FloatCast D F] {nextFinite : F → Bool → F}

section Accepted

variable {input weight : List F} {bias : Option (List F)} {weightView : DenseView F}
  {biasView : Option (DenseView F)} {terms : List (DenseTerm F)} {rows : ℕ}

/-- A bias is accepted together with its view. -/
inductive AcceptsBias (rows : ℕ) : Option (List F) → Option (DenseView F) → Prop
  | none : AcceptsBias rows none none
  | some {values : List F} {view : DenseView F} (length_eq : values.length = rows)
      (scale : badScale view.scale = false) (fits : view.start.toNat + rows < 2 ^ 64)
      (finite : ∀ value ∈ values, isFinite value = true) :
      AcceptsBias rows (some values) (some view)

theorem AcceptsBias.isSome_eq (h : AcceptsBias rows bias biasView) :
    bias.isSome = biasView.isSome := by
  cases h with
  | none => rfl
  | some => rfl

theorem acceptsBias_some_iff {values : List F} {view : DenseView F} :
    AcceptsBias rows (some values) (some view) ↔ values.length = rows ∧
      badScale view.scale = false ∧ view.start.toNat + rows < 2 ^ 64 ∧
        ∀ value ∈ values, isFinite value = true := by
  constructor
  · rintro (_ | ⟨hlen, hscale, hfits, hfinite⟩)
    exact ⟨hlen, hscale, hfits, hfinite⟩
  · rintro ⟨hlen, hscale, hfits, hfinite⟩
    exact .some hlen hscale hfits hfinite

/-- The layers that both implementations accept, as long as no value overflows. -/
structure AcceptsLayer (D : Type) [Floating D] [FloatCast D F] (input weight : List F)
    (bias : Option (List F)) (weightView : DenseView F) (biasView : Option (DenseView F))
    (terms : List (DenseTerm F)) : Prop where
  input_ne : input ≠ []
  weight_ne : weight ≠ []
  complete : weight.length % input.length = 0
  scale : badScale weightView.scale = false
  fits : weightView.start.toNat + weight.length < 2 ^ 64
  bias : AcceptsBias (weight.length / input.length) bias biasView
  weight_finite : ∀ value ∈ weight, isFinite value = true
  input_finite : ∀ value ∈ input, isFinite value = true
  terms_finite : ∀ term ∈ terms, isFinite term.coefficient = true
  direction : hasDirection D terms = true

theorem validateModel_ok_iff {columns : ℕ} :
    validateModel weight columns bias weightView biasView = .ok rows ↔
      (columns ≠ 0 ∧ weight ≠ [] ∧ weight.length % columns = 0) ∧
        AcceptsBias (weight.length / columns) bias biasView ∧
        (∀ value ∈ weight, isFinite value = true) ∧ badScale weightView.scale = false ∧
        weightView.start.toNat + weight.length < 2 ^ 64 ∧ weight.length / columns = rows := by
  unfold validateModel
  rw [check_ok_iff]
  dsimp only
  rw [check_ok_iff, check_ok_iff, check_ok_iff, check_ok_iff, check_ok_iff, check_ok_iff,
    check_ok_iff, pure_ok_iff]
  simp only [not_or, ne_eq, not_not, Bool.not_eq_true, not_le]
  apply and_congr_right
  rintro -
  cases bias with
  | none =>
    cases biasView with
    | none => simp [AcceptsBias.none]
    | some view =>
      constructor
      · rintro ⟨-, h, -⟩
        cases h
      · rintro ⟨h, -⟩
        cases h
  | some values =>
    cases biasView with
    | none =>
      constructor
      · rintro ⟨-, h, -⟩
        cases h
      · rintro ⟨h, -⟩
        cases h
    | some view =>
      rw [acceptsBias_some_iff]
      simp only [Option.any_some, bne_eq_false_iff_eq, Option.isSome_some, Option.getD_some,
        List.any_append, Bool.or_eq_false_iff, List.any_eq_false, Bool.not_eq_eq_eq_not,
        Bool.not_true, Bool.not_eq_false, decide_eq_false_iff_not, not_le, true_and]
      tauto

theorem validateEval_ok_iff :
    validateEval D input input.length terms = .ok () ↔
      (∀ value ∈ input, isFinite value = true) ∧
        (∀ term ∈ terms, isFinite term.coefficient = true) ∧ hasDirection D terms = true := by
  unfold validateEval
  rw [check_ok_iff, check_ok_iff, check_ok_iff]
  simp only [ne_eq, not_true_eq_false, false_or, not_or, List.any_eq_true, Bool.not_eq_true',
    not_exists, not_and, Bool.not_eq_false, pure_ok_iff, and_true]
  constructor
  · rintro ⟨hinput, ⟨-, hterms⟩, hdirection⟩
    exact ⟨hinput, hterms, hdirection⟩
  · rintro ⟨hinput, hterms, hdirection⟩
    exact ⟨hinput, ⟨ne_of_direction hdirection, hterms⟩, hdirection⟩

theorem validateView_ok_iff {view : DenseView F} {len : ℕ} :
    Zig.validateView view len = .ok () ↔
      badScale view.scale = false ∧ view.start.toNat + len < 2 ^ 64 := by
  unfold Zig.validateView
  rw [check_ok_iff, check_ok_iff, pure_ok_iff]
  simp

end Accepted

section Rows

variable {input weight : List F} {bias : Option (List F)} {weightView view : DenseView F}
  {terms : List (DenseTerm F)} {row : ℕ} {value : F}

def FiniteBias (bias : Option (List F)) (row : ℕ) : Prop :=
  ∀ values, bias = some values → isFinite (values.getD row 0) = true

theorem finiteBias_none : FiniteBias (F := F) none row := by
  rintro values h
  cases h

theorem finiteBias_some {values : List F} :
    FiniteBias (some values) row ↔ isFinite (values.getD row 0) = true := by
  constructor
  · intro h
    exact h values rfl
  · rintro h _ ⟨⟩
    exact h

/-- The loop over the columns of a row. -/
theorem zigColumns_ok_iff {sum : F} :
    ((List.range input.length).foldlM (fun sum column => do
      let index := row * input.length + column
      let base := weight.getD index 0
      if !isFinite base then throw .invalidValue
      else do
        let value ← Zig.perturbUnchecked nextFinite base weightView index terms
        return mulAdd (input.getD column 0) value sum) 0 : Except Zig.Error F) = .ok sum ↔
    (∀ column ∈ List.range input.length,
      isFinite (weight.getD (row * input.length + column) 0) = true) ∧
    ((List.range input.length).foldlM (fun sum column => do
      let index := row * input.length + column
      let value ← perturbed nextFinite (weight.getD index 0) weightView index terms
      return mulAdd (input.getD column 0) value sum) 0 : Except String F) = .ok sum := by
  apply foldlM_check
  intro column _ s t
  dsimp only
  rw [check_ok_iff, bind_ok_iff, bind_ok_iff]
  simp only [perturbUnchecked_ok_iff, perturbed_ok_iff, pure_ok_iff, Bool.not_eq_true',
    Bool.not_eq_false]

/-- The second implementation checks what it reads and what it returns. -/
theorem linearRow_ok_iff :
    Zig.linearRow nextFinite input weight bias weightView view terms row = .ok value ↔
      ((∀ column ∈ List.range input.length,
          isFinite (weight.getD (row * input.length + column) 0) = true) ∧ FiniteBias bias row) ∧
        cpuRow nextFinite input weight bias weightView (bias.map fun _ => view) terms row =
          .ok value ∧ isFinite value = true := by
  unfold Zig.linearRow cpuRow
  rw [bind_ok_iff, bind_ok_iff]
  simp only [zigColumns_ok_iff]
  cases bias with
  | none =>
    simp only [pure_bind, check_ok_iff, pure_ok_iff]
    constructor
    · rintro ⟨sum, ⟨hweights, hsum⟩, hfinite, rfl⟩
      exact ⟨⟨hweights, finiteBias_none⟩, ⟨sum, hsum, rfl⟩, by simpa using hfinite⟩
    · rintro ⟨⟨hweights, -⟩, ⟨sum, hsum, rfl⟩, hfinite⟩
      exact ⟨sum, ⟨hweights, hsum⟩, by simp [hfinite], rfl⟩
  | some values =>
    simp only [throw_bind, pure_bind, Option.map_some, check_ok_iff, bind_ok_iff, pure_ok_iff,
      perturbUnchecked_ok_iff, perturbed_ok_iff, finiteBias_some]
    constructor
    · rintro ⟨sum, ⟨hweights, hsum⟩, hbias, moved, hmoved, hfinite, rfl⟩
      exact ⟨⟨hweights, by simpa using hbias⟩, ⟨sum, hsum, moved, hmoved, rfl⟩,
        by simpa using hfinite⟩
    · rintro ⟨⟨hweights, hbias⟩, ⟨sum, hsum, moved, hmoved, rfl⟩, hfinite⟩
      exact ⟨sum, ⟨hweights, hsum⟩, by simpa using hbias, moved, hmoved, by simp [hfinite], rfl⟩

theorem index_lt {columns rows row column : ℕ} (hrow : row < rows) (hcolumn : column < columns) :
    row * columns + column < rows * columns := by
  have hle : (row + 1) * columns ≤ rows * columns := Nat.mul_le_mul_right columns hrow
  rw [Nat.add_mul] at hle
  omega

omit [DenseFloat F] in
theorem row_column {columns rows i : ℕ} (hrows : weight.length = rows * columns)
    (hi : i < weight.length) :
    i / columns < rows ∧ i % columns < columns ∧ i / columns * columns + i % columns = i := by
  have hcolumns : 0 < columns := by
    rcases Nat.eq_zero_or_pos columns with rfl | hpos
    · omega
    · exact hpos
  constructor
  · exact Nat.div_lt_of_lt_mul (by rwa [Nat.mul_comm, ← hrows])
  · exact ⟨Nat.mod_lt i hcolumns, by rw [Nat.mul_comm, Nat.div_add_mod]⟩

theorem finite_rows_iff {columns rows : ℕ} (hrows : weight.length = rows * columns) :
    (∀ row ∈ List.range rows, ∀ column ∈ List.range columns,
      isFinite (weight.getD (row * columns + column) 0) = true) ↔
        ∀ value ∈ weight, isFinite value = true := by
  constructor
  · intro h value hvalue
    obtain ⟨i, hi, rfl⟩ := List.getElem_of_mem hvalue
    obtain ⟨hrow, hcolumn, hindex⟩ := row_column hrows hi
    have hread := h _ (List.mem_range.mpr hrow) _ (List.mem_range.mpr hcolumn)
    rwa [hindex, List.getD_eq_getElem _ _ hi] at hread
  · intro h row hrow column hcolumn
    rw [List.mem_range] at hrow hcolumn
    have hi : row * columns + column < weight.length := hrows ▸ index_lt hrow hcolumn
    rw [List.getD_eq_getElem _ _ hi]
    exact h _ (List.getElem_mem hi)

/-- What the second implementation checks of a bias. -/
theorem acceptsBias_map_iff {rows : ℕ} :
    AcceptsBias rows bias (bias.map fun _ => view) ↔
      ¬ (bias.any fun values => values.length != rows) = true ∧
        (if bias.isSome then Zig.validateView view rows else pure ()) = .ok () ∧
          ∀ row ∈ List.range rows, FiniteBias bias row := by
  cases bias with
  | none => simp [AcceptsBias.none, finiteBias_none, pure_ok_iff]
  | some values =>
    simp only [Option.map_some, acceptsBias_some_iff, Option.any_some, bne_iff_ne, ne_eq, not_not,
      Option.isSome_some, if_true, validateView_ok_iff, finiteBias_some]
    apply and_congr_right
    rintro rfl
    rw [and_assoc]
    apply and_congr_right
    intro _
    apply and_congr_right
    intro _
    constructor
    · intro h row hrow
      rw [List.getD_eq_getElem _ _ (List.mem_range.mp hrow)]
      exact h _ (List.getElem_mem _)
    · intro h value hvalue
      obtain ⟨i, hi, rfl⟩ := List.getElem_of_mem hvalue
      have hread := h i (List.mem_range.mpr hi)
      rwa [List.getD_eq_getElem _ _ hi] at hread

/-- The rows that the loop of the first implementation returns. -/
def Rows (nextFinite : F → Bool → F) (input weight : List F) (bias : Option (List F))
    (weightView : DenseView F) (biasView : Option (DenseView F)) (terms : List (DenseTerm F))
    (values : List F) : Prop :=
  List.Forall₂ (fun row value =>
      cpuRow nextFinite input weight bias weightView biasView terms row = .ok value)
    (List.range (weight.length / input.length)) values ∧ ∀ value ∈ values, isFinite value = true

theorem linear_ok_iff {biasView : Option (DenseView F)} {values : List F} :
    linear D nextFinite input weight bias weightView biasView terms = .ok values ↔
      AcceptsLayer D input weight bias weightView biasView terms ∧
        Rows nextFinite input weight bias weightView biasView terms values := by
  unfold linear cpu Rows
  rw [bind_ok_iff]
  simp only [validateModel_ok_iff, check_then_ok_iff, validateEval_ok_iff]
  simp only [bind_ok_iff, check_ok_iff, pure_ok_iff, mapM_ok_iff]
  constructor
  · rintro ⟨rows, ⟨⟨hcolumns, hne, hcomplete⟩, hbias, hweight, hscale, hfits, rfl⟩,
      ⟨hinput, hterms, hdirection⟩, values, hrows, hfinite, rfl⟩
    exact ⟨⟨fun h => hcolumns (by rw [h]; rfl), hne, hcomplete, hscale, hfits, hbias, hweight,
      hinput, hterms, hdirection⟩, hrows, by simpa using hfinite⟩
  · rintro ⟨h, hrows, hfinite⟩
    exact ⟨_, ⟨⟨fun hzero => h.input_ne (List.length_eq_zero_iff.mp hzero), h.weight_ne,
      h.complete⟩, h.bias, h.weight_finite, h.scale, h.fits, rfl⟩,
      ⟨h.input_finite, h.terms_finite, h.direction⟩, values, hrows, by simpa using hfinite, rfl⟩

theorem zigLinear_ok_iff {values : List F} :
    Zig.linear D nextFinite input weight bias weightView view terms
        (List.replicate (weight.length / input.length) 0) = .ok values ↔
      AcceptsLayer D input weight bias weightView (bias.map fun _ => view) terms ∧
        Rows nextFinite input weight bias weightView (bias.map fun _ => view) terms values := by
  unfold Zig.linear
  rw [check_ok_iff]
  dsimp only
  rw [check_ok_iff, check_then_ok_iff, ite_then_ok_iff, check_then_ok_iff, check_ok_iff,
    check_ok_iff, validateView_ok_iff, zigValidateTerms_ok_iff, hasDirection_eq,
    foldlM_set (fun row => row) (by simp [List.range_eq_range']) (by simp)]
  simp only [linearRow_ok_iff, List.forall₂_and_left, forall₂_and_right]
  unfold Rows
  constructor
  · rintro ⟨hargs, hrows, ⟨hscale, hfits⟩, hview, hterms, hdirection, hinput, hread, hvalues⟩
    rw [not_or, not_or, not_or, not_not] at hargs
    rw [not_or] at hrows
    have hweight := (finite_rows_iff (Nat.div_mul_cancel
      (Nat.dvd_of_mod_eq_zero hargs.2.2.1)).symm).mp fun row hrow => (hread row hrow).1
    have hbias := acceptsBias_map_iff.mpr ⟨hrows.2, hview, fun row hrow => (hread row hrow).2⟩
    exact ⟨⟨fun h => hargs.1 (by rw [h]; rfl), fun h => hargs.2.1 (by rw [h]; rfl), hargs.2.2.1,
      hscale, hfits, hbias, hweight, by simpa using hinput, hterms, by simpa using hdirection⟩,
      hvalues⟩
  · rintro ⟨h, hvalues⟩
    obtain ⟨hrows, hview, hread⟩ := acceptsBias_map_iff.mp h.bias
    have hweight := (finite_rows_iff (Nat.div_mul_cancel
      (Nat.dvd_of_mod_eq_zero h.complete)).symm).mpr h.weight_finite
    refine ⟨?_, ?_, ⟨h.scale, h.fits⟩, hview, h.terms_finite, by simpa using h.direction,
      by simpa using h.input_finite, fun row hrow => ⟨hweight row hrow, hread row hrow⟩, hvalues⟩
    · simp [h.input_ne, h.weight_ne, h.complete, ne_of_direction h.direction]
    · rw [List.length_replicate]
      exact fun hor => hor.elim (fun hne => hne rfl) hrows

/-- The first implementation rejects a bias without its view, or a view without a bias. All
other layers are evaluated alike. -/
theorem linear_iff_zigLinear {biasView : Option (DenseView F)} {values : List F} :
    linear D nextFinite input weight bias weightView biasView terms = .ok values ↔
      bias.isSome = biasView.isSome ∧
        Zig.linear D nextFinite input weight bias weightView (biasView.getD view) terms
          (List.replicate (weight.length / input.length) 0) = .ok values := by
  have hview : bias.isSome = biasView.isSome →
      (bias.map fun _ => biasView.getD view) = biasView := by
    cases bias <;> cases biasView <;> simp
  rw [linear_ok_iff, zigLinear_ok_iff]
  constructor
  · rintro ⟨h, hrows⟩
    rw [hview h.bias.isSome_eq]
    exact ⟨h.bias.isSome_eq, h, hrows⟩
  · rintro ⟨hsome, h⟩
    rwa [hview hsome] at h

end Rows

section Stored

variable {input weight weights : List F} {bias biases : Option (List F)}
  {weightView : DenseView F} {biasView : Option (DenseView F)} {terms : List (DenseTerm F)}
  {row : ℕ} {value : F}

/-- The product of the input with a row of weights that are stored. -/
def storedSum (input weights : List F) (row : ℕ) : F :=
  (List.range input.length).foldl (fun sum column =>
    mulAdd (input.getD column 0) (weights.getD (row * input.length + column) 0) sum) 0

def storedRow (input weights : List F) (biases : Option (List F)) (row : ℕ) : F :=
  biases.elim (storedSum input weights row) fun values =>
    storedSum input weights row + values.getD row 0

/-- The values of a view after they are moved, each at its coordinate of the leaf. -/
def MovesView (nextFinite : F → Bool → F) (base : List F) (view : DenseView F)
    (terms : List (DenseTerm F)) (values : List F) : Prop :=
  List.Forall₂ (fun p value => referenceValue nextFinite p.1 ⟨view.key, 0, base.length, view.scale⟩
    (view.start.toNat + p.2) terms = .ok value) base.zipIdx values

inductive MovesBias (nextFinite : F → Bool → F) (terms : List (DenseTerm F)) :
    Option (List F) → Option (DenseView F) → Option (List F) → Prop
  | none : MovesBias nextFinite terms none none none
  | some {base values : List F} {view : DenseView F}
      (moves : MovesView nextFinite base view terms values) :
      MovesBias nextFinite terms (some base) (some view) (some values)

theorem perturbed_eq {base : F} {view : DenseView F} {element offset len : ℕ}
    (h : view.start.toNat + element < 2 ^ 64) :
    perturbed nextFinite base view element terms = .ok value ↔
      referenceValue nextFinite base ⟨view.key, offset, len, view.scale⟩
        (view.start.toNat + element) terms = .ok value := by
  have hcoordinate : view.start + UInt64.ofNat element =
      UInt64.ofNat (view.start.toNat + element) := by
    rw [UInt64.ofNat_add, UInt64.ofNat_toNat]
  rw [perturbed_ok_iff, referenceValue_ok_iff, hcoordinate]
  exact and_iff_right h

theorem MovesView.perturbed {base values : List F} {view : DenseView F}
    (h : MovesView nextFinite base view terms values)
    (hfits : view.start.toNat + base.length < 2 ^ 64) {i : ℕ} (hi : i < base.length) :
    perturbed nextFinite (base.getD i 0) view i terms = .ok (values.getD i 0) := by
  have hlen : base.zipIdx.length = values.length := h.length_eq
  rw [List.length_zipIdx] at hlen
  have hvalue := h.get (i := i) (by rwa [List.length_zipIdx]) (by omega)
  rw [List.getD_eq_getElem _ _ hi, List.getD_eq_getElem _ _ (by omega), perturbed_eq (by omega)]
  simpa using hvalue

theorem columns_stored {rows : ℕ} (hrows : weight.length = rows * input.length)
    (hfits : weightView.start.toNat + weight.length < 2 ^ 64)
    (hweights : MovesView nextFinite weight weightView terms weights) (hrow : row < rows) :
    ((List.range input.length).foldlM (fun sum column => do
      let index := row * input.length + column
      let value ← perturbed nextFinite (weight.getD index 0) weightView index terms
      return mulAdd (input.getD column 0) value sum) 0 : Except String F) =
      .ok (storedSum input weights row) := by
  apply foldlM_pure
  intro column hcolumn sum
  have hi := index_lt hrow (List.mem_range.mp hcolumn)
  dsimp only
  rw [hweights.perturbed hfits (hrows ▸ hi)]
  rfl

theorem cpuRow_stored {rows : ℕ} (hrows : weight.length = rows * input.length)
    (hfits : weightView.start.toNat + weight.length < 2 ^ 64)
    (hbias : AcceptsBias rows bias biasView)
    (hweights : MovesView nextFinite weight weightView terms weights)
    (hbiases : MovesBias nextFinite terms bias biasView biases) (hrow : row < rows) :
    cpuRow nextFinite input weight bias weightView biasView terms row =
      .ok (storedRow input weights biases row) := by
  unfold cpuRow
  rw [columns_stored hrows hfits hweights hrow]
  cases hbiases with
  | none => rfl
  | some hmoves =>
    obtain ⟨hlen, -, hfits, -⟩ := acceptsBias_some_iff.mp hbias
    have hvalue := hmoves.perturbed (by rwa [hlen]) (hlen ▸ hrow)
    dsimp only [bind, Except.bind]
    rw [hvalue]
    rfl

theorem exists_movesView {base : List F} {view : DenseView F}
    (hfits : view.start.toNat + base.length < 2 ^ 64)
    (h : ∀ i < base.length,
      ∃ value, perturbed nextFinite (base.getD i 0) view i terms = .ok value) :
    ∃ values, MovesView nextFinite base view terms values := by
  apply exists_forall₂
  intro p hp
  obtain ⟨i, hi, rfl⟩ := List.getElem_of_mem hp
  rw [List.length_zipIdx] at hi
  obtain ⟨value, hvalue⟩ := h i hi
  rw [List.getD_eq_getElem _ _ hi, perturbed_eq (by omega)] at hvalue
  exact ⟨value, by simpa using hvalue⟩

theorem Rows.exists_row {values : List F}
    (h : Rows nextFinite input weight bias weightView biasView terms values)
    (hrow : row < weight.length / input.length) :
    ∃ value, cpuRow nextFinite input weight bias weightView biasView terms row = .ok value := by
  have hlen := h.1.length_eq
  rw [List.length_range] at hlen
  have hvalue := h.1.get (i := row) (by rwa [List.length_range]) (by omega)
  rw [List.get_eq_getElem, List.getElem_range] at hvalue
  exact ⟨_, hvalue⟩

theorem Rows.exists_weights {values : List F}
    (h : Rows nextFinite input weight bias weightView biasView terms values)
    (hrows : weight.length = weight.length / input.length * input.length)
    (hfits : weightView.start.toNat + weight.length < 2 ^ 64) :
    ∃ weights, MovesView nextFinite weight weightView terms weights := by
  apply exists_movesView hfits
  intro i hi
  obtain ⟨hrow, hcolumn, hindex⟩ := row_column hrows hi
  obtain ⟨value, hvalue⟩ := h.exists_row hrow
  unfold cpuRow at hvalue
  obtain ⟨sum, hsum, -⟩ := bind_ok_iff.mp hvalue
  obtain ⟨before, after, hpass⟩ := exists_pass hsum (List.mem_range.mpr hcolumn)
  dsimp only at hpass
  rw [hindex] at hpass
  obtain ⟨moved, hmoved, -⟩ := bind_ok_iff.mp hpass
  exact ⟨moved, hmoved⟩

theorem Rows.exists_biases {values : List F}
    (h : Rows nextFinite input weight bias weightView biasView terms values)
    (hbias : AcceptsBias (weight.length / input.length) bias biasView) :
    ∃ biases, MovesBias nextFinite terms bias biasView biases := by
  cases hbias with
  | none => exact ⟨none, .none⟩
  | some hlen _ hfits _ =>
    rw [← hlen] at hfits
    obtain ⟨moved, hmoved⟩ := exists_movesView hfits fun i hi => by
      obtain ⟨value, hvalue⟩ := h.exists_row (hlen ▸ hi)
      unfold cpuRow at hvalue
      obtain ⟨sum, -, hrest⟩ := bind_ok_iff.mp hvalue
      obtain ⟨moved, hmoved, -⟩ := bind_ok_iff.mp hrest
      exact ⟨moved, hmoved⟩
    exact ⟨some moved, .some hmoved⟩

theorem rows_iff_stored {values : List F}
    (h : AcceptsLayer D input weight bias weightView biasView terms)
    (hweights : MovesView nextFinite weight weightView terms weights)
    (hbiases : MovesBias nextFinite terms bias biasView biases) :
    Rows nextFinite input weight bias weightView biasView terms values ↔
      values = (List.range (weight.length / input.length)).map (storedRow input weights biases) ∧
        ∀ value ∈ values, isFinite value = true := by
  have hrows := (Nat.div_mul_cancel (Nat.dvd_of_mod_eq_zero h.complete)).symm
  apply and_congr_left
  rintro -
  apply forall₂_ok_iff
  intro row hrow
  exact cpuRow_stored hrows h.fits h.bias hweights hbiases (List.mem_range.mp hrow)

theorem linear_iff_stored {values : List F} :
    linear D nextFinite input weight bias weightView biasView terms = .ok values ↔
      AcceptsLayer D input weight bias weightView biasView terms ∧
        ∃ weights biases, MovesView nextFinite weight weightView terms weights ∧
          MovesBias nextFinite terms bias biasView biases ∧
          values = (List.range (weight.length / input.length)).map
            (storedRow input weights biases) ∧ ∀ value ∈ values, isFinite value = true := by
  rw [linear_ok_iff]
  apply and_congr_right
  intro h
  constructor
  · intro hvalues
    obtain ⟨weights, hweights⟩ := hvalues.exists_weights
      (Nat.div_mul_cancel (Nat.dvd_of_mod_eq_zero h.complete)).symm h.fits
    obtain ⟨biases, hbiases⟩ := hvalues.exists_biases h.bias
    exact ⟨weights, biases, hweights, hbiases, (rows_iff_stored h hweights hbiases).mp hvalues⟩
  · rintro ⟨weights, biases, hweights, hbiases, hvalues⟩
    exact (rows_iff_stored h hweights hbiases).mpr hvalues

end Stored

section Parts

variable {base values part : List F} {leaves : List (DenseLeaf F)} {leaf : DenseLeaf F}
  {view : DenseView F} {terms : List (DenseTerm F)}

def partOf (values : List F) (leaf : DenseLeaf F) (view : DenseView F) (len : ℕ) : List F :=
  (values.drop (leaf.offset + view.start.toNat)).take len

/-- A view of a part of a leaf, from its coordinate on. -/
structure Views (base : List F) (leaves : List (DenseLeaf F)) (leaf : DenseLeaf F)
    (view : DenseView F) (part : List F) : Prop where
  mem : leaf ∈ leaves
  key_eq : leaf.key = view.key
  scale_eq : leaf.scale = view.scale
  within : view.start.toNat + part.length ≤ leaf.len
  part_eq : part = partOf base leaf view part.length

/-- A view is moved as the part of the model that it shows. -/
theorem MovesTo.movesView (h : MovesTo nextFinite base leaves terms values)
    (hend : leavesEnd 0 leaves = .ok base.length) (hview : Views base leaves leaf view part) :
    MovesView nextFinite part view terms (partOf values leaf view part.length) := by
  have hvalues := h.length_eq hend
  have hle := hview.within
  have hfits : part.length = 0 ∨ leaf.offset + view.start.toNat + part.length ≤ base.length := by
    rcases Nat.eq_zero_or_pos part.length with hzero | hpos
    · exact .inl hzero
    · obtain ⟨hi, -⟩ := exists_place hend hview.mem
        (show view.start.toNat + part.length - 1 < leaf.len by omega)
      rw [length_elements hend] at hi
      exact .inr (by omega)
  unfold MovesView
  rw [List.forall₂_iff_get]
  constructor
  · unfold partOf
    rw [List.length_zipIdx, List.length_take, List.length_drop]
    omega
  · intro i hi hi'
    rw [List.length_zipIdx] at hi
    obtain ⟨hplace, helement⟩ := exists_place hend hview.mem
      (show view.start.toNat + i < leaf.len by omega)
    have hmoved := h.get hplace (by rw [hvalues]; omega)
    simp only [List.get_eq_getElem, helement] at hmoved
    have hb : leaf.offset + (view.start.toNat + i) < base.length := by omega
    have hpart : part[i] = base[leaf.offset + (view.start.toNat + i)] := by
      have heq : part[i]? = (partOf base leaf view part.length)[i]? :=
        congrArg (fun l : List F => l[i]?) hview.part_eq
      unfold partOf at heq
      rw [List.getElem?_take_of_lt hi, List.getElem?_drop, Nat.add_assoc,
        List.getElem?_eq_getElem hi, List.getElem?_eq_getElem hb] at heq
      exact Option.some.inj heq
    rw [List.getD_eq_getElem _ _ hb, ← hpart, hview.key_eq, hview.scale_eq] at hmoved
    rw [referenceValue_ok_iff]
    simpa [partOf, Nat.add_assoc] using hmoved

end Parts

section Single

variable [F32Ops] [FloatCast D F32]

omit [DenseFloat F] [FloatCast D F]

theorem F32.stepsFinitely : StepsFinitely F32.nextFinite where
  finite positive h := (F32.nextFinite_spec h positive).1
  moves positive h := (F32.nextFinite_spec h positive).2
  comm := F32.feq_comm

/-- Whatever the sums and products of `f32` are, the implementations accept the same inputs and
return the same values, layers are evaluated with the weights that `apply` stores, and every
value that does not overflow is finite and has changed. -/
theorem implementations_agree :
    (∀ (base : List F32) (leaves : List (DenseLeaf F32)) (terms : List (DenseTerm F32))
        (values : List F32) (changed : ℕ),
      apply D F32.nextFinite base leaves terms = .ok ⟨values, changed⟩ ↔
        Zig.apply D F32.zigNextFinite base leaves terms (List.replicate base.length 0) =
          .ok (values, changed)) ∧
    (∀ (input weight : List F32) (bias : Option (List F32)) (weightView view : DenseView F32)
        (biasView : Option (DenseView F32)) (terms : List (DenseTerm F32)) (rows : List F32),
      linear D F32.nextFinite input weight bias weightView biasView terms = .ok rows ↔
        bias.isSome = biasView.isSome ∧
          Zig.linear D F32.zigNextFinite input weight bias weightView (biasView.getD view) terms
            (List.replicate (weight.length / input.length) 0) = .ok rows) ∧
    (∀ (input weight : List F32) (bias : Option (List F32)) (weightView : DenseView F32)
        (biasView : Option (DenseView F32)) (terms : List (DenseTerm F32)) (rows : List F32),
      linear D F32.nextFinite input weight bias weightView biasView terms = .ok rows ↔
        AcceptsLayer D input weight bias weightView biasView terms ∧
          ∃ weights biases, MovesView F32.nextFinite weight weightView terms weights ∧
            MovesBias F32.nextFinite terms bias biasView biases ∧
            rows = (List.range (weight.length / input.length)).map
              (storedRow input weights biases) ∧ ∀ row ∈ rows, isFinite row = true) ∧
    (∀ (base part : List F32) (leaves : List (DenseLeaf F32)) (leaf : DenseLeaf F32)
        (view : DenseView F32) (terms : List (DenseTerm F32)) (result : DenseResult F32),
      apply D F32.nextFinite base leaves terms = .ok result →
        Views base leaves leaf view part →
          MovesView F32.nextFinite part view terms
            (partOf result.values leaf view part.length)) ∧
    (∀ (base value : F32) (leaf : DenseLeaf F32) (element : ℕ) (terms : List (DenseTerm F32)),
      isFinite base = true → referenceValue F32.nextFinite base leaf element terms = .ok value →
        isFinite value = true ∧ feq base value = false) ∧
    ∀ (base values : List F32) (leaves : List (DenseLeaf F32)) (terms : List (DenseTerm F32)),
      validate D base leaves terms = .ok () →
        reference F32.nextFinite base leaves terms (List.replicate base.length 0) = .ok values →
          apply D F32.nextFinite base leaves terms = .ok ⟨values, base.length⟩ := by
  rw [F32.zigNextFinite_eq]
  refine ⟨?_, ?_, ?_, ?_, ?_, ?_⟩
  · intro base leaves terms values changed
    rw [apply_ok_iff F32.stepsFinitely, zigApply_ok_iff F32.stepsFinitely]
  · intro input weight bias weightView view biasView terms rows
    exact linear_iff_zigLinear
  · intro input weight bias weightView biasView terms rows
    exact linear_iff_stored
  · intro base part leaves leaf view terms result h hview
    obtain ⟨haccepted, hmoves, -⟩ := (apply_ok_iff F32.stepsFinitely).mp h
    exact hmoves.movesView haccepted.leavesEnd_eq hview
  · intro base value leaf element terms hbase h
    exact F32.stepsFinitely.moved_spec hbase (referenceValue_ok_iff.mp h)
  · intro base values leaves terms hvalid h
    have haccepted := validate_ok_iff.mp hvalid
    exact (apply_ok_iff F32.stepsFinitely).mpr
      ⟨haccepted, (reference_ok_iff haccepted.leavesEnd_eq).mp h, rfl⟩

end Single

section Example

/-- The results of the operations on the few values below. -/
local instance : F32Ops where
  add a b := if a = ⟨0⟩ then b else ⟨0x40000000⟩
  mul _ b := b
  mulAdd _ b _ := b

local instance : FloatCast ℚ F32 where
  toF32 value := if value = 0 then ⟨0⟩ else ⟨0x3f800000⟩
  toF64 value := if value = ⟨0⟩ then 0 else 1

/-- One leaf of two values, and a view of the second of them. -/
theorem implementations_agree_oneLeaf :
    let leaf : DenseLeaf F32 := ⟨7, 0, 2, 1⟩
    let view : DenseView F32 := ⟨7, 1, 1⟩
    ∃ result, apply ℚ F32.nextFinite [1, 1] [leaf] [⟨0, 1⟩] = .ok result ∧
      Views [1, 1] [leaf] leaf view [1] ∧
        MovesView F32.nextFinite [1] view [⟨0, 1⟩] (partOf result.values leaf view 1) := by
  intro leaf view
  have happly : apply ℚ F32.nextFinite [1, 1] [leaf] [⟨0, 1⟩] =
      .ok ⟨[⟨0x40000000⟩, ⟨0x40000000⟩], 2⟩ := by decide +kernel
  have hview : Views [1, 1] [leaf] leaf view [1] := ⟨by simp, rfl, rfl, by decide, rfl⟩
  obtain ⟨-, -, -, hmoves, -⟩ := implementations_agree (D := ℚ)
  exact ⟨_, happly, hview, hmoves _ _ _ _ _ _ _ happly hview⟩

/-- A layer without a bias, whose bias has a view. -/
theorem not_linear_loneView :
    let view : DenseView F32 := ⟨0, 0, 1⟩
    linear ℚ F32.nextFinite [1] [1] none view (some view) [⟨0, 1⟩] =
        .error "dense linear bias and bias view must be supplied together" ∧
      Zig.linear ℚ F32.zigNextFinite [1] [1] none view view [⟨0, 1⟩] [0] =
        .ok [⟨0x40000000⟩] := by
  constructor
  · rfl
  · decide +kernel

end Example

end Ennbo.Dense
