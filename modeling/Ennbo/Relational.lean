import Ennbo.Call

/-! # Two calls side by side

Two calls match when they end alike: with related values or with the same
failure, and in related states. The rules follow the calls that a call makes.
-/

namespace Ennbo

variable {σ τ α α' β β' : Type}

/-- Related values, or the same failure. -/
def Outcome.Matches (Q : α → α' → Prop) : Outcome α → Outcome α' → Prop
  | .ok a, .ok a' => Q a a'
  | .error e, .error e' => e = e'
  | _, _ => False

namespace Outcome

variable {Q : α → α' → Prop} {x : Outcome α} {x' : Outcome α'}

theorem matches_eq {x y : Outcome α} : x.Matches Eq y ↔ x = y := by
  cases x <;> cases y <;> simp [Matches]

theorem matches_rfl (x : Outcome α) : x.Matches Eq x := matches_eq.mpr rfl

theorem Matches.mono {Q' : α → α' → Prop} (hx : x.Matches Q x') (h : ∀ a a', Q a a' → Q' a a') :
    x.Matches Q' x' := by
  cases x <;> cases x' <;> first | exact hx | exact h _ _ hx

theorem Matches.exists_iff {γ : Type} {f : α → γ} {g : α' → γ}
    (hx : x.Matches (fun a a' => f a = g a') x') (c : γ) :
    (∃ a, x = .ok a ∧ f a = c) ↔ ∃ a', x' = .ok a' ∧ g a' = c := by
  cases x <;> cases x'
  case error.error => simp
  case error.ok => exact hx.elim
  case ok.error => exact hx.elim
  case ok.ok a a' =>
    have h : f a = g a' := hx
    simp [h]

end Outcome

namespace Call

/-- The calls end alike on these states. -/
def Matches (R : σ → τ → Prop) (Q : α → α' → Prop) (c : Call σ α) (s : σ) (c' : Call τ α')
    (t : τ) : Prop :=
  (c s).1.Matches Q (c' t).1 ∧ R (c s).2 (c' t).2

variable {R : σ → τ → Prop} {Q : α → α' → Prop} {P : β → β' → Prop} {s : σ} {t : τ}

theorem matches_pure {a : α} {a' : α'} (hR : R s t) (h : Q a a') :
    Matches R Q (pure a) s (pure a') t := ⟨h, hR⟩

theorem matches_ofOutcome {x : Outcome α} {x' : Outcome α'} (hR : R s t) (h : x.Matches Q x') :
    Matches R Q (ofOutcome x) s (ofOutcome x') t := ⟨h, hR⟩

theorem matches_throw {e : Failure} (hR : R s t) :
    Matches R Q (ofOutcome (throw e)) s (ofOutcome (throw e)) t := ⟨rfl, hR⟩

theorem Matches.bind {x : Call σ α} {x' : Call τ α'} {f : α → Call σ β} {f' : α' → Call τ β'}
    (hx : Matches R Q x s x' t)
    (hf : ∀ a a' s₁ t₁, Q a a' → R s₁ t₁ → Matches R P (f a) s₁ (f' a') t₁) :
    Matches R P (x >>= f) s (x' >>= f') t := by
  unfold Matches at hx ⊢
  simp only [Bind.bind]
  rcases hs : x s with ⟨e | a, s₁⟩ <;> rcases ht : x' t with ⟨e' | a', t₁⟩ <;>
    simp only [hs, ht] at hx
  · exact hx
  · exact hx.1.elim
  · exact hx.1.elim
  · exact hf a a' s₁ t₁ hx.1 hx.2

theorem Matches.mono {Q' : α → α' → Prop} {x : Call σ α} {x' : Call τ α'}
    (hx : Matches R Q x s x' t) (h : ∀ a a', Q a a' → Q' a a') : Matches R Q' x s x' t :=
  ⟨hx.1.mono h, hx.2⟩

theorem matches_get_bind {f : σ → Call σ β} {f' : τ → Call τ β'}
    (h : Matches R P (f s) s (f' t) t) : Matches R P (get >>= f) s (get >>= f') t := h

theorem matches_ok_bind {a : α} {a' : α'} {f : α → Call σ β} {f' : α' → Call τ β'}
    (h : Matches R P (f a) s (f' a') t) :
    Matches R P (ofOutcome (.ok a) >>= f) s (ofOutcome (.ok a') >>= f') t := h

theorem matches_ofOutcome_bind {x : Outcome α} {x' : Outcome α'} {f : α → Call σ β}
    {f' : α' → Call τ β'} (hR : R s t) (hx : x.Matches Q x')
    (hf : ∀ a a', Q a a' → Matches R P (f a) s (f' a') t) :
    Matches R P (ofOutcome x >>= f) s (ofOutcome x' >>= f') t := by
  cases x with
  | error e =>
    cases x' with
    | error e' => exact ⟨hx, hR⟩
    | ok a' => exact hx.elim
  | ok a =>
    cases x' with
    | error e' => exact hx.elim
    | ok a' => exact hf a a' hx

theorem matches_ite {p p' : Prop} [Decidable p] [Decidable p'] {x y : Call σ α} {x' y' : Call τ α'}
    (hp : p ↔ p') (hx : p → Matches R Q x s x' t) (hy : ¬ p → Matches R Q y s y' t) :
    Matches R Q (if p then x else y) s (if p' then x' else y') t := by
  by_cases h : p
  · rw [if_pos h, if_pos (hp.mp h)]
    exact hx h
  · rw [if_neg h, if_neg (hp.not.mp h)]
    exact hy h

instance : LawfulMonad (Call σ) :=
  LawfulMonad.mk' (Call σ)
    (fun x => by
      funext s
      change (x >>= fun a => pure a) s = x s
      simp only [Bind.bind, pure]
      rcases x s with ⟨e | a, s₁⟩ <;> rfl)
    (fun _ _ => rfl)
    (fun x f g => by
      funext s
      simp only [Bind.bind]
      rcases x s with ⟨e | a, s₁⟩ <;> rfl)

theorem Keeps.map {P : σ → Prop} {c : Call σ α} (h : Keeps P c) (f : α → β) :
    Keeps P (f <$> c) := by
  rw [← bind_pure_comp]
  exact h.bind fun _ => keeps_pure _

theorem keeps_mapM {P : σ → Prop} {f : β → Call σ α} (h : ∀ b, Keeps P (f b)) (bs : List β) :
    Keeps P (bs.mapM f) := by
  induction bs with
  | nil => exact keeps_pure _
  | cons b bs ih =>
    rw [List.mapM_cons]
    exact (h b).bind fun _ => ih.bind fun _ => keeps_pure _

theorem matches_mapM {S : β → β' → Prop} {f : β → Call σ α} {f' : β' → Call τ α'} {bs : List β}
    {bs' : List β'} (h : List.Forall₂ S bs bs') (hR : R s t)
    (hf : ∀ b b' s₁ t₁, S b b' → R s₁ t₁ → Matches R Q (f b) s₁ (f' b') t₁) :
    Matches R (List.Forall₂ Q) (bs.mapM f) s (bs'.mapM f') t := by
  induction h generalizing s t with
  | nil => exact ⟨.nil, hR⟩
  | cons hb _ ih =>
    simp only [List.mapM_cons]
    apply (hf _ _ _ _ hb hR).bind
    intro a a' s₁ t₁ ha hR₁
    apply (ih hR₁).bind
    intro as as' s₂ t₂ has hR₂
    exact matches_pure hR₂ (.cons ha has)

/-- The call ends as this outcome, with a related value, and leaves a state of `S`. -/
def Answers (S : σ → Prop) (Q : α → α' → Prop) (c : Call σ α) (s : σ) (o : Outcome α') : Prop :=
  (c s).1.Matches Q o ∧ S (c s).2

section Answers

variable {S : σ → Prop} {Q : α → α' → Prop} {P : β → β' → Prop} {s : σ}

theorem answers_pure {a : α} {a' : α'} (hS : S s) (h : Q a a') :
    Answers S Q (pure a) s (pure a') := ⟨h, hS⟩

theorem answers_ofOutcome {x : Outcome α} {o : Outcome α'} (hS : S s) (h : x.Matches Q o) :
    Answers S Q (ofOutcome x) s o := ⟨h, hS⟩

theorem answers_get_bind {f : σ → Call σ α} {o : Outcome α'} (h : Answers S Q (f s) s o) :
    Answers S Q (get >>= f) s o := h

theorem Answers.bind {x : Call σ α} {o : Outcome α'} {f : α → Call σ β} {g : α' → Outcome β'}
    (hx : Answers S Q x s o) (hf : ∀ a a' s₁, Q a a' → S s₁ → Answers S P (f a) s₁ (g a')) :
    Answers S P (x >>= f) s (o >>= g) := by
  unfold Answers at hx ⊢
  simp only [Bind.bind]
  rcases hs : x s with ⟨e | a, s₁⟩ <;> cases o <;> simp only [hs] at hx
  case error.error => exact hx
  case error.ok => exact hx.1.elim
  case ok.error => exact hx.1.elim
  case ok.ok a' => exact hf a a' s₁ hx.1 hx.2

theorem answers_ofOutcome_bind {x : Outcome α} {f : α → Call σ β} {g : α → Outcome β'} (hS : S s)
    (hf : ∀ a, x = .ok a → Answers S P (f a) s (g a)) :
    Answers S P (ofOutcome x >>= f) s (x >>= g) := by
  cases x with
  | error e => exact ⟨rfl, hS⟩
  | ok a => exact hf a rfl

theorem answers_ite {p : Prop} [Decidable p] {x y : Call σ α} {o o' : Outcome α'}
    (hx : p → Answers S Q x s o) (hy : ¬ p → Answers S Q y s o') :
    Answers S Q (if p then x else y) s (if p then o else o') := by
  by_cases h : p
  · rw [if_pos h, if_pos h]
    exact hx h
  · rw [if_neg h, if_neg h]
    exact hy h

theorem answers_mapM {f : β → Call σ α} {g : β → Outcome α'} {bs : List β} (hS : S s)
    (hf : ∀ b s₁, S s₁ → Answers S Q (f b) s₁ (g b)) :
    Answers S (List.Forall₂ Q) (bs.mapM f) s (bs.mapM g) := by
  induction bs generalizing s with
  | nil => exact ⟨.nil, hS⟩
  | cons b bs ih =>
    simp only [List.mapM_cons]
    apply (hf b s hS).bind
    intro a a' s₁ ha hS₁
    apply (ih hS₁).bind
    intro as as' s₂ has hS₂
    exact answers_pure hS₂ (.cons ha has)

end Answers

end Call

end Ennbo
