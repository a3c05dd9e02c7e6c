import Ennbo.Relational

/-! # Triples of calls

A call ends well from the states of a set when it stays in the set, returns only
values that satisfy a postcondition, and fails only in ways that are allowed. The
rules follow the calls that a call makes. Without an allowed failure a call that
ends well returns.
-/

namespace Ennbo.Call

variable {σ τ α β : Type} {S : σ → Prop} {E : Failure → Prop}

/-- From a state of `S` the call ends in one, with a value of `P` or a failure of `E`. -/
structure EndsFrom (S : σ → Prop) (E : Failure → Prop) (c : Call σ α) (P : α → Prop) (s : σ) :
    Prop where
  keeps : S (c s).2
  value : ∀ a, (c s).1 = .ok a → P a
  failure : ∀ e, (c s).1 = .error e → E e

def Ends (S : σ → Prop) (E : Failure → Prop) (c : Call σ α) (P : α → Prop) : Prop :=
  ∀ s, S s → EndsFrom S E c P s

variable {c : Call σ α} {P Q : α → Prop}

theorem ends_pure {a : α} (h : P a) : Ends S E (pure a) P := fun _ hs =>
  ⟨hs, fun _ ha => Except.ok.inj ha ▸ h, nofun⟩

theorem ends_ofOutcome {o : Outcome α} (hvalue : ∀ a, o = .ok a → P a)
    (hfailure : ∀ e, o = .error e → E e) : Ends S E (ofOutcome o) P :=
  fun _ hs => ⟨hs, hvalue, hfailure⟩

theorem ends_ok {a : α} (h : P a) : Ends S E (ofOutcome (.ok a)) P := ends_pure h

theorem EndsFrom.bind {f : α → Call σ β} {R : β → Prop} {s : σ} (hc : EndsFrom S E c P s)
    (hf : ∀ a, P a → Ends S E (f a) R) : EndsFrom S E (c >>= f) R s := by
  obtain ⟨hkeeps, hvalue, hfailure⟩ := hc
  rcases hcs : c s with ⟨e | a, s₁⟩ <;> rw [hcs] at hkeeps hvalue hfailure
  · have hbind : (c >>= f) s = (.error e, s₁) := bind_apply_of_error f hcs
    constructor <;> rw [hbind]
    · exact hkeeps
    · exact nofun
    · intro e' he
      exact hfailure e' (Except.error.inj he ▸ rfl)
  · have hbind : (c >>= f) s = f a s₁ := bind_apply_of_ok f hcs
    obtain ⟨hkeeps', hvalue', hfailure'⟩ := hf a (hvalue a rfl) s₁ hkeeps
    constructor <;> rw [hbind] <;> assumption

theorem Ends.bind {f : α → Call σ β} {R : β → Prop} (hc : Ends S E c P)
    (hf : ∀ a, P a → Ends S E (f a) R) : Ends S E (c >>= f) R :=
  fun s hs => (hc s hs).bind hf

theorem Ends.map {f : α → β} {R : β → Prop} (hc : Ends S E c P) (hf : ∀ a, P a → R (f a)) :
    Ends S E (f <$> c) R := by
  rw [← bind_pure_comp]
  exact hc.bind fun a ha => ends_pure (hf a ha)

theorem EndsFrom.mono {s : σ} (hc : EndsFrom S E c P s) (h : ∀ a, P a → Q a) :
    EndsFrom S E c Q s where
  keeps := hc.keeps
  value a ha := h a (hc.value a ha)
  failure := hc.failure

theorem Ends.mono (hc : Ends S E c P) (h : ∀ a, P a → Q a) : Ends S E c Q :=
  fun s hs => (hc s hs).mono h

theorem Ends.returned (hc : Ends S E c P) : Ends S E c fun a => P a ∧ ∃ s s', Returns c s a s' :=
  fun s hs =>
    { keeps := (hc s hs).keeps
      value := fun a ha => ⟨(hc s hs).value a ha, s, (c s).2, Prod.ext ha rfl⟩
      failure := (hc s hs).failure }

theorem ends_get_bind {f : σ → Call σ β} {R : β → Prop} (h : ∀ s, S s → EndsFrom S E (f s) R s) :
    Ends S E (get >>= f) R :=
  fun s hs => ⟨(h s hs).keeps, (h s hs).value, (h s hs).failure⟩

theorem ends_ite {p : Prop} [Decidable p] {x y : Call σ α} (hx : p → Ends S E x P)
    (hy : ¬ p → Ends S E y P) : Ends S E (if p then x else y) P := by
  split
  · exact hx ‹_›
  · exact hy ‹_›

theorem ends_on {T : τ → Prop} {view : σ → τ} {put : σ → τ → σ} {c : Call τ α}
    (hc : Ends T E c P) (hview : ∀ s, S s → T (view s)) (hput : ∀ s t, S s → T t → S (put s t)) :
    Ends S E (c.on view put) P := by
  intro s hs
  obtain ⟨hkeeps, hvalue, hfailure⟩ := hc (view s) (hview s hs)
  exact ⟨hput s _ hs hkeeps, hvalue, hfailure⟩

theorem ends_mapM {f : β → Call σ α} {R : β → α → Prop} {bs : List β}
    (hf : ∀ b ∈ bs, Ends S E (f b) (R b)) :
    Ends S E (bs.mapM f) (List.Forall₂ R bs) := by
  induction bs with
  | nil => exact ends_pure .nil
  | cons b bs ih =>
    rw [List.forall_mem_cons] at hf
    rw [List.mapM_cons]
    apply hf.1.bind
    intro a ha
    apply (ih hf.2).bind
    intro as has
    exact ends_pure (.cons ha has)

theorem ends_foldlM {f : α → β → Call σ α} {bs : List β} {a : α}
    (hf : ∀ b ∈ bs, ∀ a, P a → Ends S E (f a b) P) (ha : P a) : Ends S E (bs.foldlM f a) P := by
  induction bs generalizing a with
  | nil => exact ends_pure ha
  | cons b bs ih =>
    rw [List.forall_mem_cons] at hf
    rw [List.foldlM_cons]
    apply (hf.1 a ha).bind
    intro a' ha'
    exact ih hf.2 ha'

theorem Ends.of_returns {s s' : σ} {a : α} (hc : Ends S E c P) (hs : S s)
    (h : Returns c s a s') : P a ∧ S s' := by
  obtain ⟨hkeeps, hvalue, -⟩ := hc s hs
  rw [show c s = _ from h] at hkeeps hvalue
  exact ⟨hvalue a rfl, hkeeps⟩

theorem EndsFrom.returns {s : σ} (hc : EndsFrom S (fun _ => False) c P s) :
    ∃ a s', Returns c s a s' ∧ P a ∧ S s' := by
  obtain ⟨hkeeps, hvalue, hfailure⟩ := hc
  rcases hcs : c s with ⟨e | a, s₁⟩ <;> rw [hcs] at hkeeps hvalue hfailure
  · exact (hfailure e rfl).elim
  · exact ⟨a, s₁, hcs, hvalue a rfl, hkeeps⟩

end Ennbo.Call
