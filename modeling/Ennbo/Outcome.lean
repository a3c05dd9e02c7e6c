import Mathlib.Data.List.Forall2

/-! # Outcomes of calls

A call returns a value, returns an error of the crate, or does neither: it
panics or never returns.
-/

namespace Ennbo

inductive BpannError where
  | invalidShape (expected got : List ℕ)
  | invalidParameter (message : String)
  deriving DecidableEq, Repr

/-- How a call ends when it returns no value. -/
inductive Failure where
  | error (e : BpannError)
  | panic
  | diverge
  deriving DecidableEq, Repr

abbrev Outcome (α : Type) : Type := Except Failure α

section Except

variable {ε α β : Type} {x : Except ε α} {f : α → Except ε β} {b : β}

theorem bind_ok_iff : (x >>= f) = .ok b ↔ ∃ a, x = .ok a ∧ f a = .ok b := by
  cases x with
  | error e => simp [bind, Except.bind]
  | ok a => simp [bind, Except.bind]

theorem check_ok_iff {p : Prop} [Decidable p] {e : ε} {a : α} :
    (if p then throw e else x) = .ok a ↔ ¬ p ∧ x = .ok a := by
  by_cases h : p
  · simp [h, throw, throwThe, MonadExceptOf.throw]
  · simp [h]

theorem pure_ok_iff {a c : α} : (pure a : Except ε α) = .ok c ↔ a = c := by
  simp [pure, Except.pure]

theorem mapM_ok_iff {as : List α} {bs : List β} :
    as.mapM f = .ok bs ↔ List.Forall₂ (fun a b => f a = .ok b) as bs := by
  induction as generalizing bs with
  | nil =>
    rw [List.mapM_nil, pure_ok_iff, List.forall₂_nil_left_iff]
    exact eq_comm
  | cons a as ih =>
    rw [List.mapM_cons, bind_ok_iff, List.forall₂_cons_left_iff]
    constructor
    · rintro ⟨b, hb, h⟩
      obtain ⟨bs', hbs, h⟩ := bind_ok_iff.mp h
      exact ⟨b, bs', hb, ih.mp hbs, (pure_ok_iff.mp h).symm⟩
    · rintro ⟨b, bs', hb, hbs, rfl⟩
      exact ⟨b, hb, bind_ok_iff.mpr ⟨bs', ih.mpr hbs, rfl⟩⟩

end Except

namespace Outcome

variable {α β : Type}

/-- The value of an option, or the given failure. -/
def ofOption (f : Failure) : Option α → Outcome α
  | some a => .ok a
  | none => .error f

@[simp] theorem ofOption_eq_ok {f : Failure} {o : Option α} {a : α} :
    ofOption f o = .ok a ↔ o = some a := by
  cases o <;> simp [ofOption]

def returns : Outcome α → Bool
  | .ok _ => true
  | .error _ => false

/-- What a call that is known to return returns. -/
def value (x : Outcome α) (h : x.returns = true) : α :=
  match x, h with
  | .ok a, _ => a

theorem eq_ok_value {x : Outcome α} (h : x.returns = true) : x = .ok (x.value h) := by
  cases x with
  | error e => cases h
  | ok a => rfl

@[simp] theorem bind_eq_ok {x : Outcome α} {f : α → Outcome β} {b : β} :
    (x >>= f) = .ok b ↔ ∃ a, x = .ok a ∧ f a = .ok b := bind_ok_iff

@[simp] theorem pure_eq_ok {a b : α} : (pure a : Outcome α) = .ok b ↔ a = b := pure_ok_iff

@[simp] theorem throw_ne_ok {e : Failure} {b : α} : (throw e : Outcome α) ≠ .ok b := by
  simp [throw, throwThe, MonadExceptOf.throw]

@[simp] theorem map_eq_ok {x : Outcome α} {f : α → β} {b : β} :
    f <$> x = .ok b ↔ ∃ a, x = .ok a ∧ f a = b := by
  cases x with
  | error e => simp [Functor.map, Except.map]
  | ok a => simp [Functor.map, Except.map]

theorem mapM_congr {f g : α → Outcome β} {as : List α} (h : ∀ a ∈ as, f a = g a) :
    as.mapM f = as.mapM g := by
  induction as with
  | nil => rfl
  | cons a as ih =>
    rw [List.forall_mem_cons] at h
    rw [List.mapM_cons, List.mapM_cons, h.1, ih h.2]

theorem exists_mapM {P : α → β → Prop} {f : α → Outcome β} {as : List α}
    (h : ∀ a ∈ as, ∃ b, f a = .ok b ∧ P a b) :
    ∃ bs, as.mapM f = .ok bs ∧ List.Forall₂ P as bs := by
  induction as with
  | nil => exact ⟨[], rfl, .nil⟩
  | cons a as ih =>
    rw [List.forall_mem_cons] at h
    obtain ⟨b, hb, hP⟩ := h.1
    obtain ⟨bs, hbs, hPs⟩ := ih h.2
    refine ⟨b :: bs, ?_, .cons hP hPs⟩
    rw [List.mapM_cons, hb, hbs]
    rfl

theorem foldlM_eq_ok {f : β → α → Outcome β} {g : β → α → β} {as : List α}
    (h : ∀ a ∈ as, ∀ b, f b a = .ok (g b a)) (b : β) : as.foldlM f b = .ok (as.foldl g b) := by
  induction as generalizing b with
  | nil => rfl
  | cons a as ih =>
    rw [List.forall_mem_cons] at h
    rw [List.foldlM_cons, h.1, List.foldl_cons]
    exact ih h.2 (g b a)

theorem exists_foldlM {P : β → Prop} {f : β → α → Outcome β} {as : List α}
    (h : ∀ a ∈ as, ∀ b, P b → ∃ b', f b a = .ok b' ∧ P b') {b : β} (hb : P b) :
    ∃ b', as.foldlM f b = .ok b' ∧ P b' := by
  induction as generalizing b with
  | nil => exact ⟨b, rfl, hb⟩
  | cons a as ih =>
    rw [List.forall_mem_cons] at h
    obtain ⟨b₁, hb₁, hP⟩ := h.1 b hb
    obtain ⟨b', hb', hP'⟩ := ih h.2 hP
    refine ⟨b', ?_, hP'⟩
    rw [List.foldlM_cons, bind_eq_ok]
    exact ⟨b₁, hb₁, hb'⟩

end Outcome

section Related

variable {α β : Type} {R : α → β → Prop} {as : List α} {bs : List β}

theorem exists_mem_left (h : List.Forall₂ R as bs) {b : β} (hb : b ∈ bs) : ∃ a ∈ as, R a b := by
  obtain ⟨i, hi, rfl⟩ := List.getElem_of_mem hb
  have hi' : i < as.length := h.length_eq ▸ hi
  exact ⟨as[i], List.getElem_mem hi', h.get hi' hi⟩

theorem exists_mem_right (h : List.Forall₂ R as bs) {a : α} (ha : a ∈ as) : ∃ b ∈ bs, R a b := by
  obtain ⟨i, hi, rfl⟩ := List.getElem_of_mem ha
  have hi' : i < bs.length := h.length_eq ▸ hi
  exact ⟨bs[i], List.getElem_mem hi', h.get hi hi'⟩

theorem forall₂_trans {γ : Type} {S : β → γ → Prop} {cs : List γ} (h : List.Forall₂ R as bs)
    (h' : List.Forall₂ S bs cs) : List.Forall₂ (fun a c => ∃ b, R a b ∧ S b c) as cs := by
  induction h generalizing cs with
  | nil =>
    cases h'
    exact .nil
  | cons hab _ ih =>
    cases h' with
    | cons hbc h' => exact .cons ⟨_, hab, hbc⟩ (ih h')

theorem forall₂_zip {γ : Type} {S : β → γ → Prop} {cs : List γ} (h : List.Forall₂ R as bs)
    (h' : List.Forall₂ S bs cs) :
    List.Forall₂ (fun a (p : β × γ) => R a p.1 ∧ S p.1 p.2) as (bs.zip cs) := by
  induction h generalizing cs with
  | nil => exact .nil
  | cons hab _ ih =>
    cases h' with
    | cons hbc h' => exact .cons ⟨hab, hbc⟩ (ih h')

theorem forall₂_exists_iff {γ : Type} {g : β → γ} {cs : List γ} :
    List.Forall₂ (fun a c => ∃ b, R a b ∧ g b = c) as cs ↔
      ∃ bs, List.Forall₂ R as bs ∧ bs.map g = cs := by
  constructor
  · intro h
    induction h with
    | nil => exact ⟨[], .nil, rfl⟩
    | cons hb _ ih =>
      obtain ⟨b, hb, rfl⟩ := hb
      obtain ⟨bs, hbs, rfl⟩ := ih
      exact ⟨b :: bs, .cons hb hbs, rfl⟩
  · rintro ⟨bs, h, rfl⟩
    rw [List.forall₂_map_right_iff]
    apply h.imp
    intro a b hab
    exact ⟨b, hab, rfl⟩

end Related

theorem Outcome.exists_mapM_iff {α β : Type} {f : α → Outcome β} {as : List α} :
    (∃ bs, as.mapM f = .ok bs) ↔ ∀ a ∈ as, ∃ b, f a = .ok b := by
  constructor
  · rintro ⟨bs, h⟩ a ha
    obtain ⟨b, -, hb⟩ := exists_mem_right (mapM_ok_iff.mp h) ha
    exact ⟨b, hb⟩
  · intro h
    obtain ⟨bs, hbs, -⟩ := exists_mapM (P := fun _ _ => True) fun a ha => by
      obtain ⟨b, hb⟩ := h a ha
      exact ⟨b, hb, trivial⟩
    exact ⟨bs, hbs⟩

theorem mapM_eq_some {α β : Type} {f : α → Option β} {as : List α} {bs : List β} :
    as.mapM f = some bs ↔ List.Forall₂ (fun a b => f a = some b) as bs := by
  induction as generalizing bs with
  | nil => simp [eq_comm]
  | cons a as ih => cases bs <;> simp [List.mapM_cons, ih, Option.bind_eq_some_iff]

end Ennbo
