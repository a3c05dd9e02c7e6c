import Ennbo.TrustRegion.Optimizer

/-! # Ranges kept by batches

An optimizer widens the ranges of its Morbo region by each batch, drops them at a
restart and reads them back from its observations. A reference region is updated
from all rows told so far instead. The two agree after each tell as long as every
batch has the metrics of the region, and no rows are found in a directory.
-/

namespace Ennbo

variable {D : Type} [Floating D] [Analysis D] [Rounding D]

/-- Rows of one width as an array. -/
def Array2.ofUniform (rows : List (List D)) : Option (Array2 D) :=
  if h : ∀ row ∈ rows, row.length = (rows.headD []).length then
    some ⟨(rows.headD []).length, rows, h⟩
  else none

namespace MorboTrustRegion

section Columns

variable (f : D → D → D) (n : ℕ)

omit [Analysis D] [Rounding D] in
theorem foldMetrics_map (g : ℕ → D) (rows : List (List D)) :
    foldMetrics f n ((List.range n).map g) rows =
      (List.range n).map fun m => rows.foldl (fun acc row => f acc (row.getD m 0)) (g m) := by
  induction rows generalizing g with
  | nil => rfl
  | cons row rows ih =>
    have hrow : ((List.range n).map fun m => f (((List.range n).map g).getD m 0) (row.getD m 0)) =
        (List.range n).map fun m => f (g m) (row.getD m 0) := by
      apply List.map_congr_left
      intro m hm
      rw [List.getD_eq_getElem?_getD, List.getElem?_map,
        List.getElem?_range (List.mem_range.mp hm)]
      rfl
    unfold foldMetrics at ih ⊢
    rw [List.foldl_cons, hrow, ih]
    rfl

omit [Analysis D] [Rounding D] in
theorem foldMetrics_replicate (start : D) (rows : List (List D)) :
    foldMetrics f n (List.replicate n start) rows = foldColumns f n start rows := by
  have hstart : List.replicate n start = (List.range n).map fun _ => start := by
    rw [List.map_const', List.length_range]
  rw [hstart]
  exact foldMetrics_map f n _ rows

omit [Analysis D] [Rounding D] in
theorem foldMetrics_foldColumns (start : D) (rows rows' : List (List D)) :
    foldMetrics f n (foldColumns f n start rows) rows' = foldColumns f n start (rows ++ rows') := by
  unfold foldColumns
  simp only [List.foldl_append]
  exact foldMetrics_map f n _ rows'

end Columns

/-- The ranges over some rows. -/
def withRanges (rows : List (List D)) (m : MorboTrustRegion D) : MorboTrustRegion D :=
  { m with
    yMin := some (foldColumns lower m.numMetrics infinity rows)
    yMax := some (foldColumns raise m.numMetrics negInfinity rows) }

def Spans (rows : List (List D)) (m : MorboTrustRegion D) : Prop :=
  (rows = [] ∧ m.yMin = none) ∨ m = m.withRanges rows

/-- What an ask does to a region. -/
def propose (numArms : ℕ) (us : ℕ → D) (numObs : ℕ) (m : MorboTrustRegion D) :
    MorboTrustRegion D :=
  let m := (if m.rescalarize = .onPropose then m.resampleWeights us else m).setNumArms numArms
  if 0 < numObs then (rescalarizeIncumbentUnderWeights numObs m).2 else m

/-- The update from all rows told so far; rows of several widths are no array. -/
def receive (told : List (List D)) (yIncumbent : List D) (m : MorboTrustRegion D) :
    MorboTrustRegion D :=
  match Array2.ofUniform told with
  | some yObs => (update yObs yIncumbent m).2
  | none => m

variable {m m' r : MorboTrustRegion D} {told : List (List D)}

omit [Rounding D] in
theorem Spans.updateRangesIncremental (h : m.Spans told) {y : Array2 D} (hpos : 0 < y.nrows)
    (hupdate : m.updateRangesIncremental y = .ok m') : m' = m.withRanges (told ++ y.rows) := by
  unfold MorboTrustRegion.updateRangesIncremental at hupdate
  rw [if_neg hpos.ne'] at hupdate
  split at hupdate
  next => simp at hupdate
  next =>
    rcases h with ⟨rfl, hnone⟩ | hspan
    · rw [hnone] at hupdate
      obtain rfl := Outcome.pure_eq_ok.mp hupdate
      simp only [foldMetrics_replicate, List.nil_append]
      rfl
    · rw [hspan] at hupdate
      obtain rfl := Outcome.pure_eq_ok.mp hupdate
      simp only [withRanges, foldMetrics_foldColumns]

omit [Rounding D] in
theorem update_eq_updateIncumbentOnly {y : Array2 D} {yIncumbent : List D}
    (hcols : y.ncols = r.numMetrics) (hlength : yIncumbent.length = r.numMetrics)
    (hpos : 0 < y.nrows) (hcount : r.inner.prevNumObs ≤ y.nrows)
    (hfirst : r.inner.prevNumObs = 0 → r.incumbentYRaw = none) :
    update y yIncumbent r = updateIncumbentOnly yIncumbent y.nrows (r.withRanges y.rows) := by
  have hisNone : decide (r.inner.prevNumObs = 0 ∨ r.incumbentYRaw.isNone = true) =
      r.incumbentYRaw.isNone := by
    rw [Bool.eq_iff_iff, decide_eq_true_eq, or_iff_right_iff_imp]
    intro h0
    rw [hfirst h0]
    rfl
  unfold update updateIncumbentOnly
  rw [Call.get_bind_apply, Call.get_bind_apply]
  dsimp only
  rw [if_neg (not_not.mpr hcols), if_neg (not_not.mpr hlength), if_neg hpos.ne',
    if_neg (Nat.not_lt.mpr hcount), Call.modify_bind_apply, hisNone]
  change _ = (if yIncumbent.length ≠ r.numMetrics then _ else _ : Call _ _) _
  rw [if_neg (not_not.mpr hlength), if_neg hpos.ne']
  rfl

section Kept

variable {P : MorboTrustRegion D → Prop} {n : ℕ}

omit [Rounding D] in
theorem keeps_takeScore {score : D} (h : ∀ m inner, P m →
    m.inner.updateScalarIncumbent n score = .ok inner → P { m with inner := inner }) :
    Call.Keeps P (takeScore n score) := by
  intro m hm
  unfold takeScore
  rw [Call.get_bind_apply]
  cases hinner : m.inner.updateScalarIncumbent n score with
  | ok inner => exact h m inner hm hinner
  | error e => exact hm

omit [Rounding D] in
theorem keeps_takeIncumbent {yIncumbent yMin yMax : List D} {first : Bool}
    (hinner : ∀ m inner, P m → P { m with inner := inner })
    (hincumbent : ∀ m, P m → P { m with incumbentYRaw := some yIncumbent }) :
    Call.Keeps P (takeIncumbent yIncumbent yMin yMax first n) := by
  have hscore : ∀ score, Call.Keeps P (takeScore n score) :=
    fun score => keeps_takeScore fun m inner hm _ => hinner m inner hm
  unfold takeIncumbent
  refine Call.keeps_get.bind fun m => ?_
  split
  next =>
    refine (Call.keeps_ofOutcome _).bind fun _ => (Call.keeps_ofOutcome _).bind fun _ => ?_
    refine (Call.keeps_modify fun m hm => hinner m _ hm).bind fun _ => (hscore _).bind fun _ => ?_
    apply Call.Keeps.ite
    · exact Call.keeps_modify hincumbent
    · exact Call.keeps_pure _
  next =>
    refine (Call.keeps_modify hincumbent).bind fun _ => (Call.keeps_ofOutcome _).bind fun _ => ?_
    exact hscore _

end Kept

omit [Rounding D] in
theorem prevNumObs_of_updateScalarIncumbent {t t' : TurboTrustRegion D} {n : ℕ} {score : D}
    (hpos : 0 < n) (h : t.updateScalarIncumbent n score = .ok t') : t'.prevNumObs = n := by
  unfold TurboTrustRegion.updateScalarIncumbent at h
  split at h
  next h0 =>
    cases h
    exact (h0.resolve_left hpos.ne').symm
  next =>
    split at h
    next => cases h
    next =>
      cases h
      rfl

omit [Rounding D] in
theorem prevNumObs_of_takeScore {n : ℕ} {score : D} (hpos : 0 < n)
    (h : (takeScore n score).Returns m () m') : m'.inner.prevNumObs = n := by
  unfold takeScore at h
  obtain ⟨_, _, hget, h⟩ := Call.returns_bind.mp h
  obtain ⟨rfl, rfl⟩ := Call.returns_get.mp hget
  split at h
  next inner hinner =>
    obtain rfl := Call.returns_modify.mp h
    exact prevNumObs_of_updateScalarIncumbent hpos hinner
  next => simp at h

omit [Rounding D] in
/-- The step of an incumbent that returns has counted the observations. -/
theorem prevNumObs_of_takeIncumbent {yIncumbent yMin yMax : List D} {first : Bool} {n : ℕ}
    (hpos : 0 < n) (h : (takeIncumbent yIncumbent yMin yMax first n).Returns m () m') :
    m'.inner.prevNumObs = n := by
  unfold takeIncumbent at h
  obtain ⟨_, _, hget, h⟩ := Call.returns_bind.mp h
  obtain ⟨rfl, rfl⟩ := Call.returns_get.mp hget
  split at h
  next =>
    simp only [Call.returns_bind, Call.returns_ofOutcome, Call.returns_modify] at h
    obtain ⟨_, _, ⟨-, rfl⟩, _, _, ⟨-, rfl⟩, _, _, rfl, _, m₁, hscore, h⟩ := h
    have hcount := prevNumObs_of_takeScore hpos hscore
    rw [Call.returns_ite] at h
    split at h
    next =>
      obtain rfl := Call.returns_modify.mp h
      exact hcount
    next =>
      obtain ⟨-, rfl⟩ := Call.returns_pure.mp h
      exact hcount
  next =>
    simp only [Call.returns_bind, Call.returns_ofOutcome, Call.returns_modify] at h
    obtain ⟨_, _, rfl, _, _, ⟨-, rfl⟩, hscore⟩ := h
    exact prevNumObs_of_takeScore hpos hscore

omit [Rounding D] in
theorem returns_updateIncumbentOnly {yIncumbent yMin yMax : List D} {n : ℕ} (hpos : 0 < n)
    (hmin : m.yMin = some yMin) (hmax : m.yMax = some yMax)
    (h : (updateIncumbentOnly yIncumbent n).Returns m () m') :
    yIncumbent.length = m.numMetrics ∧
      (takeIncumbent yIncumbent yMin yMax m.incumbentYRaw.isNone n).Returns m () m' := by
  unfold updateIncumbentOnly at h
  obtain ⟨_, _, hget, h⟩ := Call.returns_bind.mp h
  obtain ⟨rfl, rfl⟩ := Call.returns_get.mp hget
  split at h
  next => simp at h
  next hlength =>
    rw [if_neg hpos.ne', hmin, hmax] at h
    exact ⟨not_not.mp hlength, h⟩

/-- A region that has taken in some rows and their incumbent. -/
structure Settled (told : List (List D)) (m : MorboTrustRegion D) : Prop where
  ranges_eq : m = m.withRanges told
  pos : 0 < m.inner.prevNumObs
  counted : m.inner.prevNumObs ≤ told.length
  wide : ∀ row ∈ told, row.length = m.numMetrics

/-- A region kept by batches beside the reference region. -/
structure Linked (told : List (List D)) (m r : MorboTrustRegion D) : Prop where
  spans : m.Spans told
  agree : ∃ yMin yMax, m = { r with yMin := yMin, yMax := yMax }
  known : r.incumbentYRaw.isSome → m = r ∧ 0 < r.inner.prevNumObs
  counted : r.inner.prevNumObs ≤ told.length
  wide : ∀ row ∈ told, row.length = r.numMetrics

omit [Rounding D] in
theorem Settled.linked (h : m.Settled told) : Linked told m m where
  spans := .inr h.ranges_eq
  agree := ⟨_, _, rfl⟩
  known := fun _ => ⟨rfl, h.pos⟩
  counted := h.counted
  wide := h.wide

omit [Rounding D] in
theorem Settled.withInner (h : m.Settled told) {inner : TurboTrustRegion D}
    (hpos : 0 < inner.prevNumObs) (hcounted : inner.prevNumObs ≤ told.length) :
    Settled told { m with inner := inner } where
  ranges_eq := congrArg (fun m : MorboTrustRegion D => { m with inner := inner }) h.ranges_eq
  pos := hpos
  counted := hcounted
  wide := h.wide

omit [Rounding D] in
theorem Linked.settled (h : Linked told m r) (hsome : r.incumbentYRaw.isSome) :
    m = r ∧ r.Settled told := by
  obtain ⟨rfl, hpos⟩ := h.known hsome
  refine ⟨rfl, ?_, hpos, h.counted, h.wide⟩
  rcases h.spans with ⟨rfl, -⟩ | hspans
  · exact absurd h.counted (Nat.not_le.mpr hpos)
  · exact hspans

omit [Rounding D] in
/-- A change to both regions that looks at neither ranges nor incumbent. -/
theorem Linked.map (h : Linked told m r) {f : MorboTrustRegion D → MorboTrustRegion D}
    (hf : ∀ (m : MorboTrustRegion D) yMin yMax,
      f { m with yMin := yMin, yMax := yMax } = { f m with yMin := yMin, yMax := yMax })
    (hmetrics : ∀ m, (f m).numMetrics = m.numMetrics)
    (hincumbent : (f r).incumbentYRaw = r.incumbentYRaw)
    (hcount : (f r).inner.prevNumObs = r.inner.prevNumObs) : Linked told (f m) (f r) := by
  have hagree : f m = { f m with yMin := m.yMin, yMax := m.yMax } := hf m m.yMin m.yMax
  constructor
  · rcases h.spans with ⟨hnil, hnone⟩ | hspans
    · left
      rw [hagree]
      exact ⟨hnil, hnone⟩
    · right
      have hranges : (f m).withRanges told = f (m.withRanges told) := by
        unfold withRanges
        rw [hf m (some (foldColumns lower m.numMetrics infinity told))
          (some (foldColumns raise m.numMetrics negInfinity told))]
        dsimp only
        rw [hmetrics]
      rw [hranges]
      exact congrArg f hspans
  · obtain ⟨yMin, yMax, rfl⟩ := h.agree
    exact ⟨yMin, yMax, hf r yMin yMax⟩
  · rw [hincumbent, hcount]
    intro hsome
    exact ⟨congrArg f (h.known hsome).1, (h.known hsome).2⟩
  · rw [hcount]
    exact h.counted
  · rw [hmetrics]
    exact h.wide

omit [Rounding D] in
theorem Linked.resampleWeights (h : Linked told m r) (us : ℕ → D) :
    Linked told (m.resampleWeights us) (r.resampleWeights us) :=
  h.map (fun _ _ _ => rfl) (fun _ => rfl) rfl rfl

theorem Linked.setNumArms (h : Linked told m r) (numArms : ℕ) :
    Linked told (m.setNumArms numArms) (r.setNumArms numArms) :=
  h.map (fun _ _ _ => rfl) (fun _ => rfl) rfl rfl

omit [Rounding D] in
theorem keeps_settled_rescalarize :
    Call.Keeps (Settled told) (rescalarizeIncumbentUnderWeights told.length) := by
  refine Call.keeps_get.bind fun m => ?_
  split
  next =>
    refine (Call.keeps_ofOutcome _).bind fun _ => ?_
    refine (Call.keeps_modify fun m hm => hm.withInner hm.pos hm.counted).bind fun _ => ?_
    apply keeps_takeScore
    intro m inner hm hinner
    have hpos : 0 < told.length := lt_of_lt_of_le hm.pos hm.counted
    have hcount := prevNumObs_of_updateScalarIncumbent hpos hinner
    exact hm.withInner (by rwa [hcount]) hcount.le
  next => exact Call.keeps_pure _

omit [Rounding D] in
theorem rescalarize_of_none {n : ℕ} (h : m.incumbentYRaw = none) :
    (rescalarizeIncumbentUnderWeights n m).2 = m := by
  unfold rescalarizeIncumbentUnderWeights
  rw [Call.get_bind_apply, h]
  rfl

omit [Rounding D] in
theorem Linked.rescalarize (h : Linked told m r) :
    Linked told (rescalarizeIncumbentUnderWeights told.length m).2
      (rescalarizeIncumbentUnderWeights told.length r).2 := by
  cases hincumbent : r.incumbentYRaw with
  | none =>
    have hm : m.incumbentYRaw = none := by
      obtain ⟨yMin, yMax, rfl⟩ := h.agree
      exact hincumbent
    rw [rescalarize_of_none hm, rescalarize_of_none hincumbent]
    exact h
  | some incumbent =>
    obtain ⟨rfl, hsettled⟩ := h.settled (by rw [hincumbent]; rfl)
    exact (keeps_settled_rescalarize _ hsettled).linked

theorem Linked.propose (h : Linked told m r) (numArms : ℕ) (us : ℕ → D) :
    Linked told (m.propose numArms us told.length) (r.propose numArms us told.length) := by
  have hweights : Linked told (if m.rescalarize = .onPropose then m.resampleWeights us else m)
      (if r.rescalarize = .onPropose then r.resampleWeights us else r) := by
    have hmode : m.rescalarize = r.rescalarize := by
      obtain ⟨yMin, yMax, rfl⟩ := h.agree
      rfl
    rw [hmode]
    split
    · exact h.resampleWeights us
    · exact h
  have harms := hweights.setNumArms numArms
  unfold MorboTrustRegion.propose
  dsimp only
  split
  · exact harms.rescalarize
  · exact harms

omit [Rounding D] in
/-- A region that starts over reads the ranges back from the rows told. -/
theorem Linked.restart (h : Linked told m r) (us : ℕ → D) :
    Linked told ((m.restart us).withRanges told) (r.restart us) := by
  have hnone : (r.restart us).incumbentYRaw = none ∧
      (r.restart us).inner.prevNumObs = r.inner.prevNumObs ∧
      (r.restart us).numMetrics = r.numMetrics := by
    unfold MorboTrustRegion.restart
    split <;> exact ⟨rfl, rfl, rfl⟩
  have hsame : m.restart us = r.restart us := by
    obtain ⟨yMin, yMax, rfl⟩ := h.agree
    rfl
  constructor
  · exact .inr rfl
  · rw [hsame]
    exact ⟨_, _, rfl⟩
  · rw [hnone.1]
    intro hsome
    cases hsome
  · rw [hnone.2.1]
    exact h.counted
  · rw [hnone.2.2]
    exact h.wide

omit [Floating D] [Analysis D] [Rounding D] in
theorem ofUniform_eq {rows : List (List D)} {n : ℕ} (hne : rows ≠ [])
    (h : ∀ row ∈ rows, row.length = n) :
    ∃ a, Array2.ofUniform rows = some a ∧ a.ncols = n ∧ a.rows = rows := by
  obtain ⟨row, rows, rfl⟩ := List.exists_cons_of_ne_nil hne
  have hrow : row.length = n := h row List.mem_cons_self
  unfold Array2.ofUniform
  rw [dif_pos (by simpa [hrow] using h)]
  exact ⟨_, rfl, hrow, rfl⟩

omit [Rounding D] in
/-- A batch and its incumbent lead to the region that all rows told lead to. -/
theorem Linked.step (h : Linked told m r) {y : Array2 D} {yIncumbent : List D}
    {m₁ m₂ : MorboTrustRegion D} (hcols : y.ncols = r.numMetrics) (hpos : 0 < y.nrows)
    (hranges : m.updateRangesIncremental y = .ok m₁)
    (hstep : (updateIncumbentOnly yIncumbent (told.length + y.nrows)).Returns m₁ () m₂) :
    r.receive (told ++ y.rows) yIncumbent = m₂ ∧ m₂.Settled (told ++ y.rows) := by
  have hne : told ++ y.rows ≠ [] := by
    intro hnil
    rw [Array2.nrows, (List.append_eq_nil_iff.mp hnil).2] at hpos
    exact absurd hpos (by simp)
  have hwide : ∀ row ∈ told ++ y.rows, row.length = r.numMetrics := by
    rw [List.forall_mem_append]
    exact ⟨h.wide, fun row hrow => (y.width row hrow).trans hcols⟩
  have hm₁ : m₁ = r.withRanges (told ++ y.rows) := by
    obtain rfl := h.spans.updateRangesIncremental hpos hranges
    obtain ⟨yMin, yMax, rfl⟩ := h.agree
    rfl
  subst hm₁
  have hcount : told.length + y.nrows = (told ++ y.rows).length := List.length_append.symm
  rw [hcount] at hstep
  have hlength : 0 < (told ++ y.rows).length := List.length_pos_of_ne_nil hne
  obtain ⟨hincumbent, htake⟩ := returns_updateIncumbentOnly hlength rfl rfl hstep
  constructor
  · obtain ⟨a, ha, hncols, hrows⟩ := ofUniform_eq hne hwide
    have hupdate : update a yIncumbent r = (.ok (), m₂) := by
      rw [update_eq_updateIncumbentOnly hncols hincumbent, Array2.nrows, hrows]
      · exact hstep
      · rwa [Array2.nrows, hrows]
      · rw [Array2.nrows, hrows, ← hcount]
        exact h.counted.trans (Nat.le_add_right _ _)
      · intro h0
        by_contra hsome
        have := (h.known (Option.isSome_iff_ne_none.mpr hsome)).2
        omega
    unfold receive
    rw [ha]
    dsimp only
    rw [hupdate]
  · have hkeeps : ∀ yMin yMax first, Call.Keeps
        (fun m => m = m.withRanges (told ++ y.rows) ∧ m.numMetrics = r.numMetrics)
        (takeIncumbent yIncumbent yMin yMax first (told ++ y.rows).length) := by
      intro yMin yMax first
      apply keeps_takeIncumbent
      · rintro m inner ⟨hm, hn⟩
        exact ⟨congrArg (fun m : MorboTrustRegion D => { m with inner := inner }) hm, hn⟩
      · rintro m ⟨hm, hn⟩
        exact ⟨congrArg (fun m : MorboTrustRegion D =>
          { m with incumbentYRaw := some yIncumbent }) hm, hn⟩
    obtain ⟨hranges_eq, hmetrics⟩ := (hkeeps _ _ _).of_returns
      (s := r.withRanges (told ++ y.rows)) ⟨rfl, rfl⟩ htake
    have hnum := prevNumObs_of_takeIncumbent hlength htake
    constructor
    · exact hranges_eq
    · rwa [hnum]
    · exact hnum.le
    · rwa [hmetrics]

end MorboTrustRegion

namespace Observations

/-- All rows told are kept. -/
structure Holds (told : List (List D)) (o : Observations D) : Prop where
  rows_eq : o.rows = told
  stored_eq : o.surrogate = true → o.stored = []
  unfitted : o.surrogate = true → o.fittedNumMetrics = none → told = []

variable {o : Observations D} {told : List (List D)}

omit [Floating D] [Analysis D] [Rounding D] in
theorem Holds.append (h : o.Holds told) (y : Array2 D) : (o.append y).Holds (told ++ y.rows) := by
  obtain ⟨surrogate, stored, fitted, rows⟩ := o
  obtain ⟨rfl, hstored, hunfitted⟩ := h
  cases surrogate with
  | false => exact ⟨rfl, by rintro ⟨⟩, by rintro ⟨⟩⟩
  | true =>
    cases fitted with
    | some n => exact ⟨rfl, hstored, fun _ => by rintro ⟨⟩⟩
    | none =>
      obtain rfl : rows = [] := hunfitted rfl rfl
      exact ⟨if_pos (hstored rfl), hstored, fun _ => by rintro ⟨⟩⟩

omit [Floating D] [Analysis D] [Rounding D] in
theorem Holds.count_eq (h : o.Holds told) : o.count = told.length := by
  unfold count
  rw [h.rows_eq]

omit [Floating D] [Analysis D] [Rounding D] in
theorem Holds.yObs (h : o.Holds told) {n : ℕ} (hne : told ≠ [])
    (hwide : ∀ row ∈ told, row.length = n) :
    ∃ a, o.yObs = .ok (some a) ∧ a.rows = told := by
  obtain ⟨surrogate, stored, fitted, rows⟩ := o
  obtain rfl : rows = told := h.rows_eq
  obtain ⟨first, rows, rfl⟩ := List.exists_cons_of_ne_nil hne
  have hfirst : first.length = n := hwide first List.mem_cons_self
  have hle : ∀ row ∈ first :: rows, first.length ≤ row.length :=
    fun row hrow => (hfirst.trans (hwide row hrow).symm).le
  unfold Observations.yObs
  dsimp only
  rw [dif_pos hle]
  refine ⟨_, rfl, ?_⟩
  calc (first :: rows).map (fun row => row.take first.length)
      = (first :: rows).map id := List.map_congr_left fun row hrow =>
        List.take_of_length_le ((hwide row hrow).trans hfirst.symm).le
    _ = first :: rows := List.map_id _

end Observations

namespace TrustRegionState

variable {m : MorboTrustRegion D} {tr : TrustRegionState D}

omit [Floating D] [Analysis D] [Rounding D] in
theorem returns_onMorbo {c : Call (MorboTrustRegion D) Unit} {message : String} {u : Unit}
    (h : (onMorbo c message).Returns (.morbo m) u tr) :
    ∃ m', c.Returns m u m' ∧ tr = .morbo m' := by
  obtain ⟨hvalue, rfl⟩ := Prod.mk.inj h
  exact ⟨_, Prod.ext hvalue rfl, rfl⟩

omit [Rounding D] in
theorem returns_morboUpdateRangesOnly {y : Array2 D}
    (h : (morboUpdateRangesOnly y).Returns (.morbo m) () tr) :
    ∃ m', m.updateRangesIncremental y = .ok m' ∧ tr = .morbo m' := by
  obtain ⟨_, hcall, rfl⟩ := returns_onMorbo h
  simp only [Call.returns_bind, Call.returns_get, Call.returns_ofOutcome,
    Call.returns_modify] at hcall
  obtain ⟨_, _, ⟨rfl, rfl⟩, m', _, ⟨hm', rfl⟩, rfl⟩ := hcall
  exact ⟨m', hm', rfl⟩

end TrustRegionState

namespace Optimizer

variable {o o₁ : Optimizer D} {m : MorboTrustRegion D} {told : List (List D)} {b : Tell D}

omit [Floating D] [Analysis D] [Rounding D] in
theorem expectIncumbent_eq_ok {inc : List D} (h : o.expectIncumbent = .ok inc) :
    o.incumbentYScalar = some inc := by
  unfold expectIncumbent at h
  split at h
  next hsome =>
    rw [hsome, Outcome.pure_eq_ok.mp h]
  next => simp at h

omit [Rounding D] in
theorem returns_morboRanges (hm : o.trState = .morbo m) {y : Array2 D} {oldN newN : ℕ}
    (hlt : oldN < newN) (h : (morboRanges y oldN newN).Returns o () o₁) :
    ∃ m₁, m.updateRangesIncremental y = .ok m₁ ∧ o₁ = { o with trState := .morbo m₁ } := by
  obtain ⟨_, _, hget, h⟩ := Call.returns_bind.mp h
  obtain ⟨rfl, rfl⟩ := Call.returns_get.mp hget
  rw [if_pos ⟨by rw [hm]; rfl, hlt⟩] at h
  obtain ⟨_, hranges, rfl⟩ := returns_onRegion.mp h
  rw [hm] at hranges
  obtain ⟨m₁, hm₁, rfl⟩ := TrustRegionState.returns_morboUpdateRangesOnly hranges
  exact ⟨m₁, hm₁, rfl⟩

omit [Rounding D] in
theorem returns_morboIncumbent (hm : o.trState = .morbo m) {n : ℕ} (hpos : 0 < n)
    (h : (morboIncumbent n).Returns o () o₁) :
    ∃ inc m₁, o.incumbentYScalar = some inc ∧
      (MorboTrustRegion.updateIncumbentOnly inc n).Returns m () m₁ ∧
      o₁ = { o with trState := .morbo m₁ } := by
  obtain ⟨_, _, hget, h⟩ := Call.returns_bind.mp h
  obtain ⟨rfl, rfl⟩ := Call.returns_get.mp hget
  rw [if_pos ⟨by rw [hm]; rfl, hpos⟩] at h
  obtain ⟨inc, _, hexpect, h⟩ := Call.returns_bind.mp h
  obtain ⟨hinc, rfl⟩ := Call.returns_ofOutcome.mp hexpect
  obtain ⟨_, hincumbent, rfl⟩ := returns_onRegion.mp h
  rw [hm] at hincumbent
  obtain ⟨m₁, hm₁, rfl⟩ := TrustRegionState.returns_onMorbo hincumbent
  exact ⟨inc, m₁, expectIncumbent_eq_ok hinc, hm₁, rfl⟩

omit [Rounding D] in
theorem tellCommon_morbo (hm : o.trState = .morbo m) (h : (tellCommon b).Returns o () o₁) :
    ∃ m₁ m₂ inc, 0 < b.y.nrows ∧ m.updateRangesIncremental b.y = .ok m₁ ∧
      (MorboTrustRegion.updateIncumbentOnly inc (o.observations.count + b.y.nrows)).Returns m₁ ()
        m₂ ∧
      o₁ = { o with
        trState := .morbo m₂
        observations := o.observations.append b.y
        incumbentYScalar := some inc } := by
  simp only [tellCommon, Call.returns_bind, Call.returns_get, Call.returns_ofOutcome,
    Call.returns_modify] at h
  obtain ⟨_, _, ⟨rfl, rfl⟩, _, _, ⟨-, rfl⟩, n, _, ⟨hprepare, rfl⟩, _, _, ⟨-, rfl⟩, _, _, rfl,
    _, o₂, hranges, inc, _, ⟨-, rfl⟩, _, _, rfl, hincumbent⟩ := h
  obtain ⟨-, hpos, rfl⟩ := prepareObservations_eq_ok hprepare
  obtain ⟨m₁, hm₁, rfl⟩ := returns_morboRanges (by exact hm)
    (by exact Nat.lt_add_of_pos_right hpos) hranges
  obtain ⟨inc, m₂, rfl, hm₂, rfl⟩ := returns_morboIncumbent rfl (Nat.add_pos_right _ hpos)
    hincumbent
  exact ⟨m₁, m₂, inc, hpos, hm₁, hm₂, rfl⟩

theorem tellRegion_morbo (hm : o.trState = .morbo m) (h : (tellRegion b).Returns o () o₁) :
    o₁ = { o with trState := .morbo (m.setNumArms b.x.nrows) } := by
  simp only [tellRegion, Call.returns_bind, Call.returns_get, Call.returns_ofOutcome,
    returns_onRegion, Call.returns_modify] at h
  obtain ⟨_, _, ⟨rfl, rfl⟩, _, _, ⟨-, rfl⟩, _, _, ⟨_, rfl, rfl⟩, h⟩ := h
  rw [hm] at h
  obtain ⟨-, rfl⟩ := Call.returns_pure.mp h
  rfl

omit [Rounding D] in
/-- The ranges are read back from the rows told. -/
theorem morboSyncRanges_morbo (hm : o.trState = .morbo m) (hnone : m.yMin = none)
    (hholds : o.observations.Holds told) (hne : told ≠ [])
    (hwide : ∀ row ∈ told, row.length = m.numMetrics)
    (h : morboSyncRangesFromObs.Returns o () o₁) :
    o₁ = { o with trState := .morbo (m.withRanges told) } := by
  obtain ⟨a, ha, hrows⟩ := hholds.yObs hne hwide
  have hpos : 0 < a.nrows := by
    rw [Array2.nrows, hrows]
    exact List.length_pos_of_ne_nil hne
  obtain ⟨_, _, hget, h⟩ := Call.returns_bind.mp h
  obtain ⟨rfl, rfl⟩ := Call.returns_get.mp hget
  rw [if_neg (by rw [hm]; exact Bool.false_ne_true)] at h
  obtain ⟨_, _, hread, h⟩ := Call.returns_bind.mp h
  obtain ⟨hobs, rfl⟩ := Call.returns_ofOutcome.mp hread
  obtain rfl := Except.ok.inj (ha.symm.trans hobs)
  dsimp only at h
  rw [if_neg hpos.ne'] at h
  obtain ⟨_, hranges, rfl⟩ := returns_onRegion.mp h
  rw [hm] at hranges
  obtain ⟨m₁, hm₁, rfl⟩ := TrustRegionState.returns_morboUpdateRangesOnly hranges
  have hspans : m.Spans [] := .inl ⟨rfl, hnone⟩
  rw [hspans.updateRangesIncremental hpos hm₁, hrows, List.nil_append]

omit [Rounding D] in
/-- A region that starts over has the ranges of all rows told again. -/
theorem restartRegion_morbo (hm : o.trState = .morbo m) (hholds : o.observations.Holds told)
    (hne : told ≠ []) (hwide : ∀ row ∈ told, row.length = m.numMetrics)
    (h : (restartRegion b).Returns o () o₁) :
    o₁.trState = .morbo (if m.needsRestart then (m.restart b.us).withRanges told else m) ∧
      o₁.observations = o.observations := by
  obtain ⟨_, _, hget, h⟩ := Call.returns_bind.mp h
  obtain ⟨rfl, rfl⟩ := Call.returns_get.mp hget
  rw [hm, Call.returns_ite] at h
  change if m.needsRestart = true then _ else _ at h
  split at h
  next hrestart =>
    simp only [Call.returns_bind, returns_onRegion, Call.returns_modify] at h
    obtain ⟨_, _, ⟨_, rfl, rfl⟩, _, _, rfl, h⟩ := h
    have hnone : (m.restart b.us).yMin = none ∧ (m.restart b.us).numMetrics = m.numMetrics := by
      unfold MorboTrustRegion.restart
      split <;> exact ⟨rfl, rfl⟩
    rw [← hnone.2] at hwide
    obtain rfl := morboSyncRanges_morbo (by exact congrArg (TrustRegionState.restart b.us) hm)
      hnone.1 (by exact hholds) hne hwide h
    rw [if_pos hrestart]
    exact ⟨rfl, rfl⟩
  next hrestart =>
    obtain ⟨-, rfl⟩ := Call.returns_pure.mp h
    rw [if_neg hrestart]
    exact ⟨hm, rfl⟩

theorem ask_morbo (hm : o.trState = .morbo m) (numArms : ℕ) (us : ℕ → D) :
    (ask numArms us o).2 =
      if o.inInit then o
      else { o with trState := .morbo (m.propose numArms us o.observations.count) } := by
  obtain ⟨trState, strategy, observations, incumbent, generation⟩ := o
  obtain rfl : trState = .morbo m := hm
  unfold ask
  rw [Call.get_bind_apply, Call.ite_apply]
  split
  · rfl
  · unfold MorboTrustRegion.propose
    dsimp only
    by_cases hpos : 0 < observations.count
    · rw [if_pos ⟨rfl, hpos⟩, if_pos hpos]
      rfl
    · rw [if_neg (fun h => hpos h.2), if_neg hpos]
      rfl

end Optimizer

/-- An optimizer, a reference region, and the rows told so far. -/
structure Paired (D : Type) where
  optimizer : Optimizer D
  reference : MorboTrustRegion D
  told : List (List D)

namespace Paired

def new (m : MorboTrustRegion D) (strategy : Strategy) (observations : Observations D) :
    Paired D :=
  ⟨.new (.morbo m) strategy observations, m, []⟩

/-- An ask, however it ends. -/
def ask (numArms : ℕ) (us : ℕ → D) (s : Paired D) : Paired D :=
  { s with
    optimizer := (Optimizer.ask numArms us s.optimizer).2
    reference :=
      if s.optimizer.inInit then s.reference
      else s.reference.propose numArms us s.optimizer.observations.count }

/-- A tell up to the step of the trust region. -/
def step (b : Tell D) (s : Paired D) : Outcome (Paired D) := do
  let o ← (Optimizer.tellCommon b).exec s.optimizer
  let told := s.told ++ b.y.rows
  return {
    optimizer := o
    reference := s.reference.receive told (o.incumbentYScalar.getD [])
    told := told }

/-- The arms and the restart that follow on a step outside the initial phase. -/
def follow (b : Tell D) (s : Paired D) : MorboTrustRegion D :=
  let r := s.reference.setNumArms b.x.nrows
  if s.optimizer.trState.needsRestart then r.restart b.us else r

/-- A tell that is accepted. -/
def tell (b : Tell D) (s : Paired D) : Outcome (Paired D) := do
  let o ← (Optimizer.tell b).exec s.optimizer
  let s₁ ← s.step b
  return {
    optimizer := o
    reference := if s.optimizer.inInit then s₁.reference else s₁.follow b
    told := s₁.told }

def Fits (s : Paired D) (b : Tell D) : Prop := b.y.ncols = s.reference.numMetrics

/-- Runs of asks and accepted tells that all meet a condition. -/
inductive Run (good : Paired D → Tell D → Prop) : Paired D → Paired D → Prop where
  | refl (s : Paired D) : Run good s s
  | ask {s s₁ : Paired D} (numArms : ℕ) (us : ℕ → D) :
      Run good s s₁ → Run good s (s₁.ask numArms us)
  | tell {s s₁ s₂ : Paired D} (b : Tell D) : Run good s s₁ → good s₁ b → s₁.tell b = .ok s₂ →
      Run good s s₂

/-- The regions are the same, and their ranges are those of all rows told. -/
structure Agrees (s : Paired D) : Prop where
  region_eq : s.optimizer.trState = .morbo s.reference
  ranges_eq : s.reference = s.reference.withRanges s.told

/-- The region of the optimizer is kept beside the reference region. -/
def Linked (s : Paired D) : Prop :=
  s.optimizer.observations.Holds s.told ∧
    ∃ m, s.optimizer.trState = .morbo m ∧ MorboTrustRegion.Linked s.told m s.reference

variable {s s' s₁ : Paired D} {b : Tell D}

omit [Rounding D] in
theorem linked_new {numDim : ℕ} {settings : MorboTRSettings D} {us : ℕ → D}
    {m : MorboTrustRegion D} (hm : MorboTrustRegion.new numDim settings us = .ok m)
    (strategy : Strategy) {surrogate : Bool} {stored : List (List D)}
    (hstored : surrogate = true → stored = []) :
    (new m strategy (.new surrogate stored)).Linked := by
  unfold MorboTrustRegion.new at hm
  split at hm
  next => cases hm
  next =>
    cases hm
    refine ⟨⟨rfl, hstored, fun _ _ => rfl⟩, _, rfl, ?_⟩
    constructor
    · exact .inl ⟨rfl, rfl⟩
    · exact ⟨_, _, rfl⟩
    · rintro ⟨⟩
    · exact le_rfl
    · rintro row ⟨⟩

theorem linked_ask (h : s.Linked) (numArms : ℕ) (us : ℕ → D) : (s.ask numArms us).Linked := by
  obtain ⟨hholds, m, hm, hlinked⟩ := h
  unfold Linked ask
  dsimp only
  rw [Optimizer.ask_morbo hm]
  split
  · exact ⟨hholds, m, hm, hlinked⟩
  · rw [hholds.count_eq]
    exact ⟨hholds, _, rfl, hlinked.propose numArms us⟩

omit [Rounding D] in
theorem agrees_step (h : s.Linked) (hfits : s.Fits b) (hstep : s.step b = .ok s₁) :
    s₁.Agrees ∧ s₁.optimizer.observations.Holds s₁.told ∧
      s₁.reference.Settled s₁.told ∧ s₁.optimizer.strategy = s.optimizer.strategy := by
  obtain ⟨hholds, m, hm, hlinked⟩ := h
  obtain ⟨o, ho, heq⟩ := Outcome.bind_eq_ok.mp hstep
  obtain rfl := Outcome.pure_eq_ok.mp heq
  obtain ⟨m₁, m₂, inc, hpos, hranges, hincumbent, rfl⟩ :=
    Optimizer.tellCommon_morbo hm (Call.exec_eq_ok.mp ho)
  rw [hholds.count_eq] at hincumbent
  obtain ⟨hreceive, hsettled⟩ := hlinked.step hfits hpos hranges hincumbent
  have hreference : s.reference.receive (s.told ++ b.y.rows) ((some inc).getD []) = m₂ := hreceive
  dsimp only
  rw [hreference]
  exact ⟨⟨rfl, hsettled.ranges_eq⟩, hholds.append b.y, hsettled, rfl⟩

omit [Rounding D] in
theorem optimizer_of_step {o : Optimizer D} (hstep : s.step b = .ok s₁)
    (h : (Optimizer.tellCommon b).Returns s.optimizer () o) : s₁.optimizer = o := by
  obtain ⟨o₁, ho₁, heq⟩ := Outcome.bind_eq_ok.mp hstep
  obtain rfl := Outcome.pure_eq_ok.mp heq
  exact Except.ok.inj (ho₁.symm.trans (Call.exec_eq_ok.mpr h))

theorem linked_tell (h : s.Linked) (hfits : s.Fits b) (htell : s.tell b = .ok s') :
    s'.Linked := by
  obtain ⟨o, ho, htell⟩ := Outcome.bind_eq_ok.mp htell
  obtain ⟨s₁, hstep, heq⟩ := Outcome.bind_eq_ok.mp htell
  obtain rfl := Outcome.pure_eq_ok.mp heq
  obtain ⟨hagrees, hholds, hsettled, -⟩ := agrees_step h hfits hstep
  have hlinked := hsettled.linked
  have hne : s₁.told ≠ [] := by
    intro hnil
    have hcounted := hsettled.counted
    rw [hnil] at hcounted
    exact absurd hsettled.pos (Nat.not_lt.mpr hcounted)
  have ho := Call.exec_eq_ok.mp ho
  obtain ⟨_, _, hget, ho⟩ := Call.returns_bind.mp ho
  obtain ⟨rfl, rfl⟩ := Call.returns_get.mp hget
  cases hinit : s.optimizer.inInit with
  | true =>
    rw [if_pos hinit] at ho
    obtain ⟨_, o₁, hcommon, ho⟩ := Call.returns_bind.mp ho
    obtain rfl := Call.returns_modify.mp ho
    obtain rfl := optimizer_of_step hstep hcommon
    exact ⟨hholds, _, hagrees.region_eq, hlinked⟩
  | false =>
    rw [if_neg (by simp [hinit])] at ho
    obtain ⟨_, o₁, hcommon, ho⟩ := Call.returns_bind.mp ho
    obtain ⟨_, o₂, hregion, ho⟩ := Call.returns_bind.mp ho
    obtain rfl := optimizer_of_step hstep hcommon
    obtain rfl := Optimizer.tellRegion_morbo hagrees.region_eq hregion
    obtain ⟨htrState, hobservations⟩ :=
      Optimizer.restartRegion_morbo (m := s₁.reference.setNumArms b.x.nrows) rfl
        (by exact hholds) hne hlinked.wide ho
    have hrestart : s₁.optimizer.trState.needsRestart =
        (s₁.reference.setNumArms b.x.nrows).needsRestart := by
      rw [hagrees.region_eq]
      rfl
    unfold Linked follow
    dsimp only
    rw [hobservations, hrestart]
    refine ⟨hholds, _, htrState, ?_⟩
    have harms := hlinked.setNumArms b.x.nrows
    rw [if_neg Bool.false_ne_true]
    split
    · exact harms.restart b.us
    · exact harms

theorem linked_run (hrun : Run Fits s s') (h : s.Linked) : s'.Linked := by
  induction hrun with
  | refl => exact h
  | ask numArms us _ ih => exact linked_ask ih numArms us
  | tell b _ hfits htell ih => exact linked_tell ih hfits htell

/-- After any run whose batches have the metrics of the region, and without rows found in a
directory, a further batch leads to the region that all rows told lead to. -/
theorem agrees_of_run (numDim : ℕ) (settings : MorboTRSettings D) (us : ℕ → D)
    (strategy : Strategy) {surrogate : Bool} {stored : List (List D)} {m : MorboTrustRegion D}
    (hm : MorboTrustRegion.new numDim settings us = .ok m)
    (hstored : surrogate = true → stored = [])
    (hrun : Run Fits (new m strategy (.new surrogate stored)) s) (hfits : s.Fits b)
    (hstep : s.step b = .ok s₁) : s₁.Agrees :=
  (agrees_step (linked_run hrun (linked_new hm strategy hstored)) hfits hstep).1

section Example

def settings : MorboTRSettings ℚ where
  numMetrics := 2
  alpha := 1 / 20
  length := .default
  rescalarize := .onPropose
  noiseAware := false

def region : MorboTrustRegion ℚ :=
  (MorboTrustRegion.new 1 settings fun _ => 1 / 2).toOption.get rfl

def start : Paired ℚ := new region .turbo (.new false [])

/-- A row of values with the incumbent after it. -/
def row (ys incumbent : List ℚ) : Tell ℚ where
  x := .column [0]
  y := .ofRow ys
  fit := .ok ()
  incumbent := .ok (some incumbent)
  us := fun _ => 1 / 2

theorem returns_first : (start.tell (row [1, 4] [1, 4])).returns = true := by decide +kernel

def first : Paired ℚ := (start.tell (row [1, 4] [1, 4])).value returns_first

theorem returns_second :
    ((first.ask 1 fun _ => 1 / 4).step (row [2, 3] [2, 3])).returns = true := by decide +kernel

theorem agrees_second :
    ∃ s s₁, Run Fits start s ∧ s.step (row [2, 3] [2, 3]) = .ok s₁ ∧ s₁.Agrees := by
  have hfirst : Run Fits start first := .tell (row [1, 4] [1, 4]) (.refl _) rfl
    (Outcome.eq_ok_value returns_first)
  have hask : Run Fits start (first.ask 1 fun _ => 1 / 4) := .ask 1 _ hfirst
  have hfits : (first.ask 1 fun _ => 1 / 4).reference.numMetrics = 2 := by decide +kernel
  refine ⟨_, _, hask, Outcome.eq_ok_value returns_second, ?_⟩
  exact agrees_of_run (b := row [2, 3] [2, 3]) 1 settings (fun _ => 1 / 2) .turbo rfl (by decide)
    hask hfits.symm (Outcome.eq_ok_value returns_second)

theorem returns_wide : (start.tell (row [1, 4, 2] [1, 4])).returns = true := by decide +kernel

theorem returns_wide_step : (start.step (row [1, 4, 2] [1, 4])).returns = true := by decide +kernel

/-- A batch with a metric too many is taken in, where the update from all rows is refused. -/
theorem not_agrees :
    ∃ b s₁, (start.tell b).returns = true ∧ start.step b = .ok s₁ ∧ ¬ s₁.Agrees := by
  refine ⟨row [1, 4, 2] [1, 4], _, returns_wide, Outcome.eq_ok_value returns_wide_step, ?_⟩
  intro hagrees
  have hnone : ((start.step (row [1, 4, 2] [1, 4])).value returns_wide_step).reference.yMin =
      none := by decide +kernel
  rw [hagrees.ranges_eq] at hnone
  cases hnone

end Example

section Exact

theorem isLeast_foldl_min {α : Type} [LinearOrder α] (start : α) (vs : List α) :
    IsLeast {v | v = start ∨ v ∈ vs} (vs.foldl min start) := by
  induction vs generalizing start with
  | nil =>
    constructor
    · exact .inl rfl
    · rintro v (rfl | hv)
      · exact le_rfl
      · cases hv
  | cons v vs ih =>
    obtain ⟨hmem, hle⟩ := ih (min start v)
    rw [List.foldl_cons]
    constructor
    · rcases hmem with hmin | hmem
      · rcases min_choice start v with hstart | hv
        · exact .inl (hmin.trans hstart)
        · exact .inr (List.mem_cons.mpr (.inl (hmin.trans hv)))
      · exact .inr (List.mem_cons_of_mem v hmem)
    · have hbound := hle (.inl rfl)
      rintro w (rfl | hw)
      · exact hbound.trans (min_le_left w v)
      · rcases List.mem_cons.mp hw with rfl | hw
        · exact hbound.trans (min_le_right start w)
        · exact hle (.inr hw)

theorem isLeast_foldl_min_of_le {α : Type} [LinearOrder α] {start : α} {vs : List α} (hne : vs ≠ [])
    (hle : ∀ v ∈ vs, v ≤ start) : IsLeast {v | v ∈ vs} (vs.foldl min start) := by
  obtain ⟨hmem, hbound⟩ := isLeast_foldl_min start vs
  constructor
  · rcases hmem with hstart | hmem
    · obtain ⟨v, hv⟩ := List.exists_mem_of_ne_nil vs hne
      have heq : vs.foldl min start = v :=
        le_antisymm (hbound (.inr hv)) ((hle v hv).trans hstart.ge)
      rw [heq]
      exact hv
    · exact hmem
  · intro v hv
    exact hbound (.inr hv)

theorem isGreatest_foldl_max_of_le {α : Type} [LinearOrder α] {start : α} {vs : List α}
    (hne : vs ≠ []) (hle : ∀ v ∈ vs, start ≤ v) : IsGreatest {v | v ∈ vs} (vs.foldl max start) :=
  isLeast_foldl_min_of_le (α := αᵒᵈ) hne hle

variable {K : Type} [ExactArith K] [Analysis K]

open MorboTrustRegion

omit [Analysis K] in
theorem lower_exact (lo v : K) : lower lo v = min lo v := by
  unfold lower
  rw [ltB_exact]
  by_cases h : v < lo
  · simp [h, min_eq_right h.le]
  · simp [h, min_eq_left (not_lt.mp h)]

omit [Analysis K] in
theorem raise_exact (hi v : K) : raise hi v = max hi v := by
  unfold raise
  rw [ltB_exact]
  by_cases h : hi < v
  · simp [h, max_eq_right h.le]
  · simp [h, max_eq_left (not_lt.mp h)]

omit [Analysis K] in
theorem getD_foldColumns (f : K → K → K) {n m : ℕ} (hm : m < n) (start : K)
    (rows : List (List K)) : (foldColumns f n start rows).getD m 0 =
      (rows.map fun row => row.getD m 0).foldl f start := by
  unfold foldColumns
  rw [List.getD_eq_getElem?_getD, List.getElem?_map, List.getElem?_range hm, List.foldl_map]
  rfl

/-- In exact arithmetic the ranges are the least and greatest values told of each metric. -/
theorem Agrees.isLeast {s : Paired K} (h : s.Agrees) {m : ℕ} (hm : m < s.reference.numMetrics)
    (hne : s.told ≠ []) (hfinite : ∀ row ∈ s.told, negInfinity ≤ row.getD m 0 ∧
      row.getD m 0 ≤ infinity) :
    ∃ lo hi, s.reference.yMin = some lo ∧ s.reference.yMax = some hi ∧
      IsLeast {v | v ∈ s.told.map fun row => row.getD m 0} (lo.getD m 0) ∧
      IsGreatest {v | v ∈ s.told.map fun row => row.getD m 0} (hi.getD m 0) := by
  have hlower : (lower : K → K → K) = min := funext fun lo => funext (lower_exact lo)
  have hraise : (raise : K → K → K) = max := funext fun hi => funext (raise_exact hi)
  have hne' : (s.told.map fun row => row.getD m 0) ≠ [] :=
    fun hnil => hne (List.map_eq_nil_iff.mp hnil)
  refine ⟨_, _, congrArg MorboTrustRegion.yMin h.ranges_eq,
    congrArg MorboTrustRegion.yMax h.ranges_eq, ?_, ?_⟩
  · rw [getD_foldColumns lower hm, hlower]
    apply isLeast_foldl_min_of_le hne'
    rw [List.forall_mem_map]
    exact fun row hrow => (hfinite row hrow).2
  · rw [getD_foldColumns raise hm, hraise]
    apply isGreatest_foldl_max_of_le hne'
    rw [List.forall_mem_map]
    exact fun row hrow => (hfinite row hrow).1

end Exact

end Paired

end Ennbo
