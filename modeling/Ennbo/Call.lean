import Ennbo.Outcome

/-! # Calls on a state

A call that may change a state ends with a value or a failure and leaves a
state in either case. The rules below take a call apart into the calls it makes.
-/

namespace Ennbo

variable {σ τ α β : Type}

def Call (σ α : Type) : Type := σ → Outcome α × σ

namespace Call

instance : Monad (Call σ) where
  pure a := fun s => (.ok a, s)
  bind x f := fun s =>
    match x s with
    | (.ok a, s') => f a s'
    | (.error e, s') => (.error e, s')

def get : Call σ σ := fun s => (.ok s, s)

def modify (f : σ → σ) : Call σ Unit := fun s => (.ok (), f s)

def ofOutcome (o : Outcome α) : Call σ α := fun s => (o, s)

def on (view : σ → τ) (put : σ → τ → σ) (c : Call τ α) : Call σ α :=
  fun s => ((c (view s)).1, put s (c (view s)).2)

/-- The call returns `a` and leaves `s'`. -/
def Returns (c : Call σ α) (s : σ) (a : α) (s' : σ) : Prop := c s = (.ok a, s')

@[simp] theorem returns_pure {s s' : σ} {a b : α} :
    Returns (pure a : Call σ α) s b s' ↔ a = b ∧ s = s' := by
  simp [Returns, pure]

@[simp] theorem returns_bind {x : Call σ α} {f : α → Call σ β} {s s' : σ} {b : β} :
    Returns (x >>= f) s b s' ↔ ∃ a s₁, Returns x s a s₁ ∧ Returns (f a) s₁ b s' := by
  simp only [Returns, bind]
  rcases x s with ⟨e | a, s₁⟩
  · simp
  · constructor
    · intro h
      exact ⟨a, s₁, rfl, h⟩
    · rintro ⟨a', s₁', h, hf⟩
      cases h
      exact hf

@[simp] theorem returns_get {s s' a : σ} : Returns get s a s' ↔ s = a ∧ s = s' := by
  simp [Returns, get]

@[simp] theorem returns_modify {f : σ → σ} {s s' : σ} {u : Unit} :
    Returns (modify f) s u s' ↔ f s = s' := by
  simp [Returns, modify]

@[simp] theorem returns_ofOutcome {o : Outcome α} {s s' : σ} {a : α} :
    Returns (ofOutcome o) s a s' ↔ o = .ok a ∧ s = s' := by
  simp [Returns, ofOutcome]

@[simp] theorem returns_on {view : σ → τ} {put : σ → τ → σ} {c : Call τ α} {s s' : σ} {a : α} :
    Returns (c.on view put) s a s' ↔ ∃ t, Returns c (view s) a t ∧ put s t = s' := by
  rw [Returns, on]
  constructor
  · intro h
    obtain ⟨h₁, h₂⟩ := Prod.mk.inj h
    exact ⟨_, Prod.ext h₁ rfl, h₂⟩
  · rintro ⟨t, h, rfl⟩
    rw [h]

@[simp] theorem returns_ite {p : Prop} [Decidable p] {x y : Call σ α} {s s' : σ} {a : α} :
    Returns (if p then x else y) s a s' ↔ if p then Returns x s a s' else Returns y s a s' := by
  split <;> rfl

section Apply

variable {s : σ}

theorem get_bind_apply (f : σ → Call σ β) : (get >>= f) s = f s s := rfl

theorem modify_bind_apply (g : σ → σ) (f : Unit → Call σ β) : (modify g >>= f) s = f () (g s) := rfl

theorem ok_bind_apply (a : α) (f : α → Call σ β) : (ofOutcome (.ok a) >>= f) s = f a s := rfl

theorem error_bind_apply (e : Failure) (f : α → Call σ β) :
    (ofOutcome (.error e) >>= f) s = (.error e, s) := rfl

theorem bind_apply_of_ok {x : Call σ α} {s' : σ} {a : α} (f : α → Call σ β)
    (h : x s = (.ok a, s')) : (x >>= f) s = f a s' := by
  simp only [Bind.bind, h]

theorem bind_apply_of_error {x : Call σ α} {s' : σ} {e : Failure} (f : α → Call σ β)
    (h : x s = (.error e, s')) : (x >>= f) s = (.error e, s') := by
  simp only [Bind.bind, h]

theorem ite_apply (p : Prop) [Decidable p] (x y : Call σ α) :
    (if p then x else y) s = if p then x s else y s := by
  split <;> rfl

end Apply

def exec (c : Call σ Unit) (s : σ) : Outcome σ := (c s).1.map fun _ => (c s).2

@[simp] theorem exec_eq_ok {c : Call σ Unit} {s s' : σ} :
    c.exec s = .ok s' ↔ Returns c s () s' := by
  rw [exec, Returns]
  rcases c s with ⟨e | a, s₁⟩ <;> simp [Except.map]

def Keeps (P : σ → Prop) (c : Call σ α) : Prop := ∀ s, P s → P (c s).2

section Keeps

variable {P : σ → Prop}

theorem keeps_pure (a : α) : Keeps P (pure a : Call σ α) := fun _ h => h

theorem keeps_get : Keeps P get := fun _ h => h

theorem keeps_ofOutcome (o : Outcome α) : Keeps P (ofOutcome o) := fun _ h => h

theorem keeps_modify {f : σ → σ} (h : ∀ s, P s → P (f s)) : Keeps P (modify f) := h

theorem Keeps.after {x : Call σ α} {f : α → Call σ β} {s : σ} (hx : P (x s).2)
    (hf : ∀ a, Keeps P (f a)) : P ((x >>= f) s).2 := by
  simp only [Bind.bind]
  rcases hxs : x s with ⟨e | a, s₁⟩
  · rwa [hxs] at hx
  · rw [hxs] at hx
    exact hf a s₁ hx

theorem Keeps.bind {x : Call σ α} {f : α → Call σ β} (hx : Keeps P x)
    (hf : ∀ a, Keeps P (f a)) : Keeps P (x >>= f) :=
  fun s hs => Keeps.after (hx s hs) hf

theorem Keeps.ofOutcome_bind {o : Outcome α} {f : α → Call σ β}
    (hf : ∀ a, o = .ok a → Keeps P (f a)) : Keeps P (ofOutcome o >>= f) := by
  intro s hs
  cases o with
  | error e => exact hs
  | ok a => exact hf a rfl s hs

theorem Keeps.get_bind {f : σ → Call σ α} {s : σ} (hf : Keeps P (f s)) (hs : P s) :
    P ((get >>= f) s).2 := hf s hs

theorem keeps_on {Q : τ → Prop} {view : σ → τ} {put : σ → τ → σ} {c : Call τ α}
    (hc : Keeps Q c) (hview : ∀ s, P s → Q (view s))
    (hput : ∀ s t, P s → Q t → P (put s t)) : Keeps P (c.on view put) :=
  fun s hs => hput s _ hs (hc _ (hview s hs))

theorem Keeps.of_returns {c : Call σ α} {s s' : σ} {a : α} (hc : Keeps P c) (hs : P s)
    (h : Returns c s a s') : P s' := by
  have hkeeps := hc s hs
  rwa [show c s = _ from h] at hkeeps

theorem Keeps.ite {p : Prop} [Decidable p] {x y : Call σ α} (hx : Keeps P x)
    (hy : Keeps P y) : Keeps P (if p then x else y) := by
  split
  · exact hx
  · exact hy

end Keeps

def KeepsFailing (P : σ → Prop) (c : Call σ α) : Prop :=
  ∀ s, P s → (∀ a, (c s).1 ≠ .ok a) → P (c s).2

section KeepsFailing

variable {P : σ → Prop}

theorem Keeps.failing {c : Call σ α} (h : Keeps P c) : KeepsFailing P c := fun s hs _ => h s hs

theorem keepsFailing_pure (a : α) : KeepsFailing P (pure a : Call σ α) :=
  (keeps_pure a).failing

theorem keepsFailing_modify (f : σ → σ) : KeepsFailing P (modify f) :=
  fun _ _ h => absurd rfl (h ())

theorem Keeps.bind_failing {x : Call σ α} {f : α → Call σ β} (hx : Keeps P x)
    (hf : ∀ a, KeepsFailing P (f a)) : KeepsFailing P (x >>= f) := by
  intro s hs hfail
  have h := hx s hs
  simp only [Bind.bind] at hfail ⊢
  rcases hxs : x s with ⟨e | a, s₁⟩
  · rwa [hxs] at h
  · rw [hxs] at h hfail
    exact hf a s₁ h hfail

theorem KeepsFailing.bind_keeps {Q : σ → Prop} {x : Call σ α} {f : α → Call σ β}
    (hx : KeepsFailing P x) (hQ : ∀ s, P s → Q (x s).2) (hf : ∀ a s, Q s → P (f a s).2) :
    Keeps P (x >>= f) := by
  intro s hs
  have hq := hQ s hs
  have h := hx s hs
  simp only [Bind.bind]
  rcases hxs : x s with ⟨e | a, s₁⟩
  · rw [hxs] at h
    exact h fun a => by simp
  · rw [hxs] at hq
    exact hf a s₁ hq

theorem KeepsFailing.bind_returns {x : Call σ α} {f : α → Call σ β} (hx : KeepsFailing P x)
    (hf : ∀ a s, ∃ b, (f a s).1 = .ok b) : KeepsFailing P (x >>= f) := by
  intro s hs hfail
  have h := hx s hs
  simp only [Bind.bind] at hfail ⊢
  rcases hxs : x s with ⟨e | a, s₁⟩
  · rw [hxs] at h
    exact h fun a => by simp
  · rw [hxs] at hfail
    obtain ⟨b, hb⟩ := hf a s₁
    exact absurd hb (hfail b)

theorem KeepsFailing.ite {p : Prop} [Decidable p] {x y : Call σ α} (hx : KeepsFailing P x)
    (hy : KeepsFailing P y) : KeepsFailing P (if p then x else y) := by
  split
  · exact hx
  · exact hy

theorem keepsFailing_on {Q : τ → Prop} {view : σ → τ} {put : σ → τ → σ} {c : Call τ α}
    (hc : KeepsFailing Q c) (hview : ∀ s, P s → Q (view s))
    (hput : ∀ s t, P s → Q t → P (put s t)) : KeepsFailing P (c.on view put) :=
  fun s hs hfail => hput s _ hs (hc _ (hview s hs) hfail)

end KeepsFailing

end Call

end Ennbo
