import Ennbo.Outcome

/-! # Loops that may fail

A loop returns exactly when each of its passes does. A loop that checks its
entries returns what the loop without the checks does, and a loop that writes a
value for each entry is described by the values.
-/

namespace Ennbo.Loops

variable {ε δ α β σ : Type} {as : List α}

theorem check_then_ok_iff {x : Except ε Unit} {y : Except ε β} {b : β} :
    (do x; y) = .ok b ↔ x = .ok () ∧ y = .ok b := by
  rw [bind_ok_iff]
  constructor
  · rintro ⟨⟨⟩, hx, hy⟩
    exact ⟨hx, hy⟩
  · rintro ⟨hx, hy⟩
    exact ⟨(), hx, hy⟩

theorem ite_then_ok_iff {p : Prop} [Decidable p] {x : Except ε Unit} {y : Except ε β} {b : β} :
    (if p then do x; y else y) = .ok b ↔ (if p then x else pure ()) = .ok () ∧ y = .ok b := by
  by_cases hp : p
  · rw [if_pos hp, if_pos hp]
    exact check_then_ok_iff
  · rw [if_neg hp, if_neg hp]
    exact (and_iff_right rfl).symm

theorem throw_bind {e : ε} {f : α → Except ε β} : (throw e >>= f) = throw e := rfl

theorem foldlM_check {P : α → Prop} {f : σ → α → Except ε σ} {g : σ → α → Except δ σ}
    (h : ∀ a ∈ as, ∀ s t, g s a = .ok t ↔ P a ∧ f s a = .ok t) {s t : σ} :
    as.foldlM g s = .ok t ↔ (∀ a ∈ as, P a) ∧ as.foldlM f s = .ok t := by
  induction as generalizing s with
  | nil => simp [pure_ok_iff]
  | cons a as ih =>
    rw [List.forall_mem_cons] at h
    rw [List.foldlM_cons, List.foldlM_cons, bind_ok_iff, bind_ok_iff, List.forall_mem_cons]
    simp only [h.1, ih h.2]
    constructor
    · rintro ⟨s', ⟨ha, hs⟩, hall, ht⟩
      exact ⟨⟨ha, hall⟩, s', hs, ht⟩
    · rintro ⟨⟨ha, hall⟩, s', hs, ht⟩
      exact ⟨s', ⟨ha, hs⟩, hall, ht⟩

theorem exists_pass {f : σ → α → Except ε σ} {s t : σ} (h : as.foldlM f s = .ok t) {a : α}
    (ha : a ∈ as) : ∃ s' t', f s' a = .ok t' := by
  induction as generalizing s with
  | nil => cases ha
  | cons b as ih =>
    rw [List.foldlM_cons] at h
    obtain ⟨s', hb, hrest⟩ := bind_ok_iff.mp h
    rcases List.mem_cons.mp ha with rfl | ha
    · exact ⟨s, s', hb⟩
    · exact ih hrest ha

theorem foldlM_pure {f : σ → α → Except ε σ} {g : σ → α → σ}
    (h : ∀ a ∈ as, ∀ s, f s a = .ok (g s a)) (s : σ) : as.foldlM f s = .ok (as.foldl g s) := by
  induction as generalizing s with
  | nil => rfl
  | cons a as ih =>
    rw [List.forall_mem_cons] at h
    rw [List.foldlM_cons, h.1, List.foldl_cons]
    exact ih h.2 (g s a)

theorem exists_forall₂ {R : α → β → Prop} (h : ∀ a ∈ as, ∃ b, R a b) :
    ∃ bs, List.Forall₂ R as bs := by
  induction as with
  | nil => exact ⟨[], .nil⟩
  | cons a as ih =>
    rw [List.forall_mem_cons] at h
    obtain ⟨b, hb⟩ := h.1
    obtain ⟨bs, hbs⟩ := ih h.2
    exact ⟨b :: bs, .cons hb hbs⟩

theorem forall₂_and_right {R : α → β → Prop} {P : β → Prop} {bs : List β} :
    List.Forall₂ (fun a b => R a b ∧ P b) as bs ↔ List.Forall₂ R as bs ∧ ∀ b ∈ bs, P b := by
  constructor
  · intro h
    induction h with
    | nil => simp
    | cons hab _ ih => exact ⟨.cons hab.1 ih.1, List.forall_mem_cons.mpr ⟨hab.2, ih.2⟩⟩
  · rintro ⟨h, hall⟩
    induction h with
    | nil => exact .nil
    | cons hab _ ih =>
      rw [List.forall_mem_cons] at hall
      exact .cons ⟨hab, hall.1⟩ (ih hall.2)

theorem forall₂_ok_iff {f : α → Except ε β} {g : α → β} {bs : List β}
    (h : ∀ a ∈ as, f a = .ok (g a)) :
    List.Forall₂ (fun a b => f a = .ok b) as bs ↔ bs = as.map g := by
  induction as generalizing bs with
  | nil => rw [List.forall₂_nil_left_iff, List.map_nil]
  | cons a as ih =>
    rw [List.forall_mem_cons] at h
    rw [List.forall₂_cons_left_iff, h.1, List.map_cons]
    constructor
    · rintro ⟨b, bs, ⟨⟩, hbs, rfl⟩
      rw [(ih h.2).mp hbs]
    · rintro rfl
      exact ⟨_, _, rfl, (ih h.2).mpr rfl, rfl⟩

/-- A loop that finds a value for each entry and writes it. -/
theorem foldlM_write {R : α → β → Prop} {write : σ → α → β → σ} {step : σ → α → Except ε σ}
    (h : ∀ a ∈ as, ∀ s t, step s a = .ok t ↔ ∃ b, R a b ∧ write s a b = t) {s t : σ} :
    as.foldlM step s = .ok t ↔ ∃ bs, List.Forall₂ R as bs ∧
      (as.zip bs).foldl (fun s p => write s p.1 p.2) s = t := by
  induction as generalizing s with
  | nil =>
    rw [List.foldlM_nil, pure_ok_iff]
    constructor
    · rintro rfl
      exact ⟨[], .nil, rfl⟩
    · rintro ⟨bs, -, rfl⟩
      rfl
  | cons a as ih =>
    rw [List.forall_mem_cons] at h
    rw [List.foldlM_cons, bind_ok_iff]
    simp only [h.1, ih h.2]
    constructor
    · rintro ⟨s', ⟨b, hb, rfl⟩, bs, hbs, rfl⟩
      exact ⟨b :: bs, .cons hb hbs, rfl⟩
    · rintro ⟨bs, hbs, rfl⟩
      cases hbs with
      | cons hb hbs => exact ⟨_, ⟨_, hb, rfl⟩, _, hbs, rfl⟩

/-- Values written to places that follow one another. -/
theorem foldl_set {place : α → ℕ} {bs out : List β} {start : ℕ} (hbs : bs.length = as.length)
    (hplaces : as.map place = List.range' start as.length)
    (hout : out.length = start + as.length) :
    (as.zip bs).foldl (fun out p => out.set (place p.1) p.2) out = out.take start ++ bs := by
  induction as generalizing bs out start with
  | nil =>
    obtain rfl := List.length_eq_zero_iff.mp hbs
    have hlen : out.length = start := hout
    rw [List.append_nil, List.take_of_length_le (Nat.le_of_eq hlen)]
    rfl
  | cons a as ih =>
    cases bs with
    | nil => cases hbs
    | cons b bs =>
      rw [List.map_cons, List.length_cons, List.range'_succ, List.cons.injEq] at hplaces
      rw [List.length_cons] at hout
      have hlt : start < out.length := by omega
      rw [List.zip_cons_cons, List.foldl_cons]
      dsimp only
      rw [ih (Nat.succ.inj hbs) hplaces.2 (by rw [List.length_set]; omega), hplaces.1,
        List.take_add_one, List.getElem?_set_self hlt, List.take_set_of_le (Nat.le_refl start)]
      simp

/-- A loop that fills a list in order returns what each pass found. -/
theorem foldlM_set {f : α → Except ε β} (place : α → ℕ) {bs out : List β}
    (hplaces : as.map place = List.range' 0 as.length) (hout : out.length = as.length) :
    as.foldlM (fun out a => do
      let b ← f a
      return out.set (place a) b) out = .ok bs ↔ List.Forall₂ (fun a b => f a = .ok b) as bs := by
  have hstep : ∀ a ∈ as, ∀ out next : List β, (do
      let b ← f a
      return out.set (place a) b) = .ok next ↔
      ∃ b, f a = .ok b ∧ out.set (place a) b = next := by
    intro a _ out next
    simp only [bind_ok_iff, pure_ok_iff]
  have hwrite : ∀ {bs : List β}, List.Forall₂ (fun a b => f a = .ok b) as bs →
      (as.zip bs).foldl (fun out p => out.set (place p.1) p.2) out = bs := by
    intro bs hbs
    exact foldl_set hbs.length_eq.symm hplaces (by omega)
  apply (foldlM_write hstep).trans
  constructor
  · rintro ⟨bs, hbs, rfl⟩
    rwa [hwrite hbs]
  · intro hbs
    exact ⟨bs, hbs, hwrite hbs⟩

theorem foldl_count {f : σ → α → σ} {g : α → ℕ} (h : ∀ a ∈ as, g a = 1) (s : σ) (n : ℕ) :
    as.foldl (fun s a => (f s.1 a, s.2 + g a)) (s, n) = (as.foldl f s, n + as.length) := by
  induction as generalizing s n with
  | nil => rfl
  | cons a as ih =>
    rw [List.forall_mem_cons] at h
    rw [List.foldl_cons, List.foldl_cons, h.1, ih h.2, List.length_cons, Nat.add_assoc,
      Nat.add_comm 1]

end Ennbo.Loops
