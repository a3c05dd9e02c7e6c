import Ennbo.Extended
import Ennbo.TrustRegion.Statistics
import Mathlib.Data.Fintype.EquivFin
import Mathlib.Data.List.FinRange

/-! # Credit for an observation

Under the policy of the nearest center a region is improved only by an
observation that is nearest to it. The regions have their turns one behind the
other, and a turn measures the distances to the centers that the turns before it
have left. So what a turn may find depends on the numbering of the regions.
-/

namespace Ennbo

section Order

/-- What the comparison `<` of floats promises. A value that is no number compares with none. -/
class NumberOrder (D : Type) [Floating D] [Analysis D] : Prop where
  lt_irrefl : ∀ a : D, ltB a a = false
  lt_trans : ∀ a b c : D, ltB a b = true → ltB b c = true → ltB a c = true
  negInfinity_lt : ∀ a b : D, ltB a b = true → ltB negInfinity b = true
  lt_of_not_lt : ∀ a b c : D, ltB negInfinity a = true → ltB b a = false → ltB b c = true →
    ltB a c = true

variable {K : Type} [ExactArith K] [Analysis K] [NanSign K]

instance : NumberOrder (Extended K) where
  lt_irrefl a := by
    rw [← Bool.not_eq_true, Extended.ltB_iff]
    exact fun h => lt_irrefl _ h.2.2
  lt_trans a b c hab hbc := by
    rw [Extended.ltB_iff] at hab hbc ⊢
    exact ⟨hab.1, hbc.2.1, hab.2.2.trans hbc.2.2⟩
  negInfinity_lt a b hab := by
    rw [Extended.ltB_iff] at hab ⊢
    exact ⟨nofun, hab.2.1, (Extended.negInfinity_key_le a).trans_lt hab.2.2⟩
  lt_of_not_lt a b c ha hba hbc := by
    rw [Extended.ltB_iff] at ha hbc ⊢
    rw [← Bool.not_eq_true, Extended.ltB_iff] at hba
    have hle : a.key ≤ b.key := not_lt.mp fun hlt => hba ⟨hbc.1, ha.2.1, hlt⟩
    exact ⟨ha.2.1, hbc.2.1, hle.trans_lt hbc.2.2⟩

end Order

namespace MultiTrustRegionState

variable {D : Type} [Floating D] [Analysis D] {M : ℕ}

section Best

variable {current : D} {takes takes' : Observation D → Bool} {observations : List (Observation D)}

/-- The best of the observations that a region takes, if it improves on the incumbent. -/
def bestOf (current : D) (takes : Observation D → Bool) (observations : List (Observation D)) :
    D × Option (Observation D) :=
  observations.foldl (fun best o => better current best (takes o) o) (negInfinity, none)

theorem bestOf_concat (o : Observation D) :
    bestOf current takes (observations ++ [o]) =
      better current (bestOf current takes observations) (takes o) o :=
  List.foldl_concat ..

omit [Analysis D] in
theorem better_cases (current : D) (best : D × Option (Observation D)) (inside : Bool)
    (o : Observation D) :
    (inside = true ∧ ltB current o.y = true ∧ ltB best.1 o.y = true ∧
      better current best inside o = (o.y, some o)) ∨
    (¬ (inside = true ∧ ltB current o.y = true ∧ ltB best.1 o.y = true) ∧
      better current best inside o = best) := by
  unfold better
  split
  next h => simp_all
  next h => simp_all

variable [NumberOrder D]

theorem bestOf_cases (current : D) (takes : Observation D → Bool)
    (observations : List (Observation D)) :
    bestOf current takes observations = (negInfinity, none) ∨
      ∃ o ∈ observations, takes o = true ∧ ltB current o.y = true ∧
        ltB negInfinity o.y = true ∧ bestOf current takes observations = (o.y, some o) := by
  induction observations using List.reverseRecOn with
  | nil => exact .inl rfl
  | append_singleton observations o ih =>
    rw [bestOf_concat]
    rcases better_cases current (bestOf current takes observations) (takes o) o with
      ⟨htakes, hcurrent, hbest, heq⟩ | ⟨-, heq⟩
    · exact .inr ⟨o, by simp, htakes, hcurrent, NumberOrder.negInfinity_lt _ _ hbest, heq⟩
    · rw [heq]
      apply ih.imp_right
      rintro ⟨p, hp, h⟩
      exact ⟨p, List.mem_append_left _ hp, h⟩

theorem mem_of_bestOf {o : Observation D} (h : (bestOf current takes observations).2 = some o) :
    o ∈ observations ∧ takes o = true ∧ ltB current o.y = true := by
  rcases bestOf_cases current takes observations with heq | ⟨p, hp, htakes, hcurrent, -, heq⟩
  · rw [heq] at h
    cases h
  · rw [heq] at h
    cases h
    exact ⟨hp, htakes, hcurrent⟩

/-- How the best of fewer observations stands to the best of more. -/
structure Below (takes : Observation D → Bool) (a b : D × Option (Observation D)) : Prop where
  not_lt : ltB b.1 a.1 = false
  eq_of_takes : ∀ o, b.2 = some o → takes o = true → a = b
  eq_of_none : b.2 = none → a = b

theorem below_bestOf (h : ∀ o, takes o = true → takes' o = true) :
    Below takes (bestOf current takes observations) (bestOf current takes' observations) := by
  induction observations using List.reverseRecOn with
  | nil => exact ⟨NumberOrder.lt_irrefl _, fun _ h => (nomatch h), fun _ => rfl⟩
  | append_singleton observations o ih =>
    have hfound := bestOf_cases current takes observations
    rw [bestOf_concat, bestOf_concat]
    generalize bestOf current takes observations = a at ih hfound ⊢
    generalize bestOf current takes' observations = b at ih ⊢
    rcases better_cases current b (takes' o) o with
      ⟨htakes', hcurrent, hb, heqb⟩ | ⟨hb, heqb⟩
    · rw [heqb]
      rcases better_cases current a (takes o) o with
        ⟨-, -, -, heqa⟩ | ⟨ha, heqa⟩
      · rw [heqa]
        exact ⟨NumberOrder.lt_irrefl _, fun _ _ _ => rfl, fun _ => rfl⟩
      · rw [heqa]
        -- the smaller list does not take `o`, or `o` would be better there too
        have htakes : takes o = false := by
          by_contra htakes
          rw [Bool.not_eq_false] at htakes
          apply ha
          refine ⟨htakes, hcurrent, ?_⟩
          rcases hfound with rfl | ⟨p, -, -, -, hp, rfl⟩
          · exact NumberOrder.negInfinity_lt _ _ hb
          · exact NumberOrder.lt_of_not_lt _ _ _ hp ih.not_lt hb
        constructor
        · rw [← Bool.not_eq_true]
          intro hlt
          have hnot := ih.not_lt
          rw [NumberOrder.lt_trans _ _ _ hb hlt] at hnot
          cases hnot
        · intro p hp hptakes
          cases hp
          rw [htakes] at hptakes
          cases hptakes
        · intro hnone
          cases hnone
    · rw [heqb]
      rcases better_cases current a (takes o) o with
        ⟨htakes, hcurrent, ha, heqa⟩ | ⟨ha, heqa⟩
      · rw [heqa]
        have hnot : ltB b.1 o.y = false := by
          rw [← Bool.not_eq_true]
          exact fun hlt => hb ⟨h o htakes, hcurrent, hlt⟩
        have hne : a ≠ b := by
          rintro rfl
          rw [ha] at hnot
          cases hnot
        exact ⟨hnot, fun p hp hptakes => absurd (ih.eq_of_takes p hp hptakes) hne,
          fun hnone => absurd (ih.eq_of_none hnone) hne⟩
      · rw [heqa]
        exact ih

theorem bestOf_of_takes (h : ∀ o, takes o = true → takes' o = true) {o : Observation D}
    (hbest : (bestOf current takes' observations).2 = some o) (htakes : takes o = true) :
    (bestOf current takes observations).2 = some o := by
  rw [(below_bestOf h).eq_of_takes o hbest htakes, hbest]

theorem bestOf_of_none (h : ∀ o, takes o = true → takes' o = true)
    (hbest : (bestOf current takes' observations).2 = none) :
    (bestOf current takes observations).2 = none := by
  rw [(below_bestOf h).eq_of_none hbest, hbest]

end Best

section Turn

variable {s : MultiTrustRegionState D M} {observations : List (Observation D)} {r q : Fin M}

def toldOf (observations : List (Observation D)) (r : Fin M) : List D :=
  (observations.filter fun o => o.region == some r.val).map Observation.y

/-- The observation that improves a region. -/
def pick (s : MultiTrustRegionState D M) (observations : List (Observation D)) (r : Fin M) :
    Option (Observation D) :=
  (bestOf (s.regions r).incumbentY (s.accepts r) observations).2

def credit (config : MultiTrustRegionConfig D) (region : Region D) :
    Option (Observation D) → Region D
  | some o => improve config region o
  | none => decline config region

/-- What its turn makes of a region. -/
def turn (s : MultiTrustRegionState D M) (observations : List (Observation D)) (r : Fin M) :
    Region D :=
  if (s.regions r).active then
    credit s.config (recorded (s.regions r) (toldOf observations r)) (s.pick observations r)
  else s.regions r

theorem snd_foldl_observations (current : D) (region : Region D)
    (best : D × Option (Observation D)) :
    (observations.foldl (fun (acc : Region D × D × Option (Observation D)) o =>
        (if o.region == some r.val then record acc.1 o.y else acc.1,
          better current acc.2 (s.accepts r o) o)) (region, best)).2 =
      observations.foldl (fun best o => better current best (s.accepts r o) o) best := by
  induction observations generalizing region best with
  | nil => rfl
  | cons o observations ih => exact ih _ _

theorem tellRegion_eq : tellRegion observations s r =
    { s with regions := Function.update s.regions r (s.turn observations r) } := by
  unfold tellRegion turn
  cases hactive : (s.regions r).active with
  | false => simp
  | true =>
    have hregion := @fst_foldl_observations D _ _ M s observations r
      (s.regions r).incumbentY (s.regions r) (negInfinity, none)
    have hbest := @snd_foldl_observations D _ _ M s observations r
      (s.regions r).incumbentY (s.regions r) (negInfinity, none)
    simp only [Bool.not_true, Bool.false_eq_true, if_false, if_true]
    rw [pick, bestOf, toldOf, ← hregion, ← hbest]
    rfl

theorem turn_of_active (h : (s.regions r).active = true) : s.turn observations r =
    credit s.config (recorded (s.regions r) (toldOf observations r)) (s.pick observations r) :=
  if_pos h

theorem turn_of_inactive (h : (s.regions r).active = false) :
    s.turn observations r = s.regions r :=
  if_neg (by simp [h])

omit [Analysis D] in
theorem recorded_eq (region : Region D) (values : List D) :
    recorded region values = { region with
      trialCount := (recorded region values).trialCount
      meanY := (recorded region values).meanY
      m2Y := (recorded region values).m2Y } := by
  induction values using List.reverseRecOn with
  | nil => rfl
  | append_singleton values y ih =>
    unfold recorded at ih ⊢
    rw [List.foldl_concat, ih]
    rfl

section Improve

variable (config : MultiTrustRegionConfig D) (region : Region D) (o : Observation D)

omit [Analysis D] in
theorem center_improve : (improve config region o).center = o.x := by
  unfold improve
  dsimp only
  split <;> rfl

omit [Analysis D] in
theorem incumbentY_improve : (improve config region o).incumbentY = o.y := by
  unfold improve
  dsimp only
  split <;> rfl

omit [Analysis D] in
theorem active_improve : (improve config region o).active = region.active := by
  unfold improve
  dsimp only
  split <;> rfl

theorem center_decline : (decline config region).center = region.center := by
  unfold decline
  dsimp only
  split
  · split <;> rfl
  · rfl

theorem incumbentY_decline : (decline config region).incumbentY = region.incumbentY := by
  unfold decline
  dsimp only
  split
  · split <;> rfl
  · rfl

theorem active_decline : (decline config region).active = (region.active &&
    !(decide (config.failTolerance ≤ region.failCount + 1) &&
      ltB (region.length * literal 5 1) config.length.lengthMin)) := by
  unfold decline
  dsimp only
  split
  next hfail =>
    split
    next hlt => simp [hfail, hlt]
    next hlt => simp [hlt]
  next hfail => simp [hfail]

end Improve

/-- Where a region is after its own turn, if that is the first one. -/
def moved (s : MultiTrustRegionState D M) (observations : List (Observation D)) (q : Fin M) :
    Region D :=
  { s.regions q with center := ((s.pick observations q).map Observation.x).getD (s.regions q).center }

/-- Whether a region is given up in its own turn, if that is the first one. -/
def drops (s : MultiTrustRegionState D M) (observations : List (Observation D)) (q : Fin M) : Bool :=
  (s.pick observations q).isNone &&
    decide (s.config.failTolerance ≤ (s.regions q).failCount + 1) &&
    ltB ((s.regions q).length * literal 5 1) s.config.length.lengthMin

theorem center_turn (h : (s.regions q).active = true) :
    (s.turn observations q).center = (s.moved observations q).center := by
  rw [turn_of_active h, moved]
  cases s.pick observations q with
  | none =>
    rw [credit, center_decline, recorded_eq]
    rfl
  | some o => exact center_improve _ _ _

theorem active_turn (h : (s.regions q).active = true) :
    (s.turn observations q).active = !s.drops observations q := by
  rw [turn_of_active h, drops]
  cases s.pick observations q with
  | none =>
    rw [credit, active_decline, recorded_eq]
    simp [h]
  | some o =>
    rw [credit, active_improve, recorded_eq]
    simp [h]

variable [NumberOrder D]

/-- The result of a turn shows which observation improved the region, up to its number. -/
theorem pick_of_turn {s' : MultiTrustRegionState D M} {o : Observation D}
    (hactive : (s.regions r).active = true) (hregion : s'.regions r = s.regions r)
    (hturn : s'.turn observations r = s.turn observations r)
    (ho : s'.pick observations r = some o) :
    ∃ o', s.pick observations r = some o' ∧ o'.x = o.x := by
  have hbest := (mem_of_bestOf ho).2.2
  have hcenter := congrArg Region.center hturn
  have hincumbent := congrArg Region.incumbentY hturn
  rw [turn_of_active (hregion ▸ hactive), turn_of_active hactive, ho, credit] at hcenter hincumbent
  rw [center_improve] at hcenter
  rw [incumbentY_improve] at hincumbent
  cases hpick : s.pick observations r with
  | none =>
    rw [hpick, credit, incumbentY_decline, recorded_eq] at hincumbent
    rw [hregion, hincumbent] at hbest
    dsimp only at hbest
    rw [NumberOrder.lt_irrefl] at hbest
    cases hbest
  | some o' =>
    rw [hpick, credit, center_improve] at hcenter
    exact ⟨o', rfl, hcenter.symm⟩

end Turn

section Settled

variable {s : MultiTrustRegionState D M} {observations : List (Observation D)} {r q : Fin M}
  {o : Observation D}

/-- A center is at least as far from an observation as that of a region at the start. -/
def Clears (s : MultiTrustRegionState D M) (region : Region D) (r : Fin M) (o : Observation D) :
    Prop :=
  geB (distanceTo region o.x) (distanceTo (s.regions r) o.x) = true

instance (s : MultiTrustRegionState D M) (region : Region D) (r : Fin M) (o : Observation D) :
    Decidable (s.Clears region r o) := inferInstanceAs (Decidable (_ = _))

def Nearest (s : MultiTrustRegionState D M) (r : Fin M) (o : Observation D) : Prop :=
  ∀ q, q ≠ r → (s.regions q).active = true → s.Clears (s.regions q) r o

instance (s : MultiTrustRegionState D M) (r : Fin M) (o : Observation D) :
    Decidable (s.Nearest r o) := inferInstanceAs (Decidable (∀ _, _))

/-- Another region does not stand in the way of a region after its own turn. -/
def ClearsAfter (s : MultiTrustRegionState D M) (observations : List (Observation D)) (q r : Fin M)
    (o : Observation D) : Prop :=
  s.drops observations q = true ∨ s.Clears (s.moved observations q) r o

instance (s : MultiTrustRegionState D M) (observations : List (Observation D)) (q r : Fin M)
    (o : Observation D) : Decidable (s.ClearsAfter observations q r o) :=
  inferInstanceAs (Decidable (_ ∨ _))

/-- Every other region is farther before its turn or after it. -/
def MayTake (s : MultiTrustRegionState D M) (observations : List (Observation D)) (r : Fin M)
    (o : Observation D) : Prop :=
  ∀ q, q ≠ r → (s.regions q).active = true →
    s.Clears (s.regions q) r o ∨ s.ClearsAfter observations q r o

instance (s : MultiTrustRegionState D M) (observations : List (Observation D)) (r : Fin M)
    (o : Observation D) : Decidable (s.MayTake observations r o) :=
  inferInstanceAs (Decidable (∀ _, _))

/-- Every other region is farther before its turn and after it. -/
def MustTake (s : MultiTrustRegionState D M) (observations : List (Observation D)) (r : Fin M)
    (o : Observation D) : Prop :=
  ∀ q, q ≠ r → (s.regions q).active = true →
    s.Clears (s.regions q) r o ∧ s.ClearsAfter observations q r o

instance (s : MultiTrustRegionState D M) (observations : List (Observation D)) (r : Fin M)
    (o : Observation D) : Decidable (s.MustTake observations r o) :=
  inferInstanceAs (Decidable (∀ _, _))

/-- The best observation that a region may find is one that it finds in any case. -/
def Settled (s : MultiTrustRegionState D M) (observations : List (Observation D)) : Prop :=
  ∀ r, (s.regions r).active = true → ∀ o,
    (bestOf (s.regions r).incumbentY (fun o => decide (s.MayTake observations r o))
      observations).2 = some o → s.MustTake observations r o

instance (s : MultiTrustRegionState D M) (observations : List (Observation D)) :
    Decidable (s.Settled observations) :=
  inferInstanceAs (Decidable (∀ r, (s.regions r).active = true → ∀ o ∈
    (bestOf (s.regions r).incumbentY (fun o => decide (s.MayTake observations r o))
      observations).2, s.MustTake observations r o))

theorem accepts_iff (h : s.config.sharingPolicy = .nearestCenter) :
    s.accepts r o = true ↔ s.Nearest r o := by
  unfold accepts
  rw [h]
  simp only [List.all_eq_true, List.mem_filter, List.mem_finRange, true_and, Bool.and_eq_true,
    decide_eq_true_eq]
  constructor
  · exact fun hall q hq hactive => hall q ⟨hq, hactive⟩
  · exact fun hall q hq => hall q hq.1 hq.2

/-- Some regions have had their turns, as if each of these were the first. -/
def withTurns (s : MultiTrustRegionState D M) (observations : List (Observation D))
    (done : List (Fin M)) : MultiTrustRegionState D M :=
  { s with regions := fun q => if q ∈ done then s.turn observations q else s.regions q }

variable {done : List (Fin M)}

theorem withTurns_of_notMem (h : q ∉ done) :
    (s.withTurns observations done).regions q = s.regions q := if_neg h

theorem withTurns_of_mem (h : q ∈ done) :
    (s.withTurns observations done).regions q = s.turn observations q := if_pos h

theorem accepts_withTurns_iff (h : s.config.sharingPolicy = .nearestCenter) (hr : r ∉ done) :
    (s.withTurns observations done).accepts r o = true ↔
      ∀ q, q ≠ r → (s.regions q).active = true →
        if q ∈ done then s.ClearsAfter observations q r o else s.Clears (s.regions q) r o := by
  have hpolicy : (s.withTurns observations done).config.sharingPolicy = .nearestCenter := h
  rw [accepts_iff hpolicy]
  apply forall_congr'
  intro q
  apply imp_congr_right
  intro hne
  unfold Clears
  rw [withTurns_of_notMem hr]
  by_cases hq : q ∈ done
  · rw [withTurns_of_mem hq, if_pos hq]
    cases hactive : (s.regions q).active with
    | false => simp [turn_of_inactive hactive, hactive]
    | true =>
      rw [active_turn hactive, distanceTo, center_turn hactive]
      unfold ClearsAfter Clears distanceTo
      cases s.drops observations q <;> simp
  · rw [withTurns_of_notMem hq, if_neg hq]

def OrderFree (s : MultiTrustRegionState D M) (observations : List (Observation D)) : Prop :=
  ∀ done r, r ∉ done → (s.withTurns observations done).turn observations r = s.turn observations r

@[simp] theorem withTurns_nil : s.withTurns observations [] = s := by
  unfold withTurns
  simp

theorem mayTake_of_accepts (h : s.config.sharingPolicy = .nearestCenter) (hr : r ∉ done)
    (haccepts : (s.withTurns observations done).accepts r o = true) :
    s.MayTake observations r o := by
  rw [accepts_withTurns_iff h hr] at haccepts
  intro q hne hactive
  have hq := haccepts q hne hactive
  split at hq
  · exact .inr hq
  · exact .inl hq

theorem accepts_of_mustTake (h : s.config.sharingPolicy = .nearestCenter) (hr : r ∉ done)
    (hmust : s.MustTake observations r o) :
    (s.withTurns observations done).accepts r o = true := by
  rw [accepts_withTurns_iff h hr]
  intro q hne hactive
  split
  · exact (hmust q hne hactive).2
  · exact (hmust q hne hactive).1

variable [NumberOrder D]

theorem Settled.pick_withTurns (hsettled : s.Settled observations)
    (h : s.config.sharingPolicy = .nearestCenter) (hr : r ∉ done)
    (hactive : (s.regions r).active = true) :
    (s.withTurns observations done).pick observations r =
      (bestOf (s.regions r).incumbentY (fun o => decide (s.MayTake observations r o))
        observations).2 := by
  have htakes : ∀ o, (s.withTurns observations done).accepts r o = true →
      decide (s.MayTake observations r o) = true :=
    fun o ho => decide_eq_true (mayTake_of_accepts h hr ho)
  unfold pick
  rw [withTurns_of_notMem hr]
  cases hbest : (bestOf (s.regions r).incumbentY
      (fun o => decide (s.MayTake observations r o)) observations).2 with
  | none => exact bestOf_of_none htakes hbest
  | some o =>
    exact bestOf_of_takes htakes hbest (accepts_of_mustTake h hr (hsettled r hactive o hbest))

theorem orderFree_of_settled (h : s.config.sharingPolicy = .nearestCenter)
    (hsettled : s.Settled observations) : s.OrderFree observations := by
  intro done r hr
  have hregion : (s.withTurns observations done).regions r = s.regions r := withTurns_of_notMem hr
  cases hactive : (s.regions r).active with
  | false => rw [turn_of_inactive hactive, turn_of_inactive (by rw [hregion, hactive]), hregion]
  | true =>
    have hpick := hsettled.pick_withTurns h (List.not_mem_nil) hactive
    rw [withTurns_nil] at hpick
    rw [turn_of_active hactive, turn_of_active (by rw [hregion, hactive]),
      hsettled.pick_withTurns h hr hactive, hpick, hregion]
    rfl

theorem OrderFree.accepts_of_pick (horder : s.OrderFree observations)
    (h : s.config.sharingPolicy = .nearestCenter) (hactive : (s.regions r).active = true)
    {done' : List (Fin M)} (hr : r ∉ done) (hr' : r ∉ done')
    (ho : (s.withTurns observations done).pick observations r = some o) :
    (s.withTurns observations done').accepts r o = true := by
  have hregion : (s.withTurns observations done).regions r = s.regions r := withTurns_of_notMem hr
  have hregion' : (s.withTurns observations done').regions r = s.regions r :=
    withTurns_of_notMem hr'
  obtain ⟨o', ho', hx⟩ := pick_of_turn (by rw [hregion', hactive]) (hregion.trans hregion'.symm)
    ((horder done r hr).trans (horder done' r hr').symm) ho
  have haccepts := (mem_of_bestOf ho').2.1
  rw [accepts_withTurns_iff h hr'] at haccepts ⊢
  unfold ClearsAfter Clears at haccepts ⊢
  rwa [hx] at haccepts

theorem settled_of_orderFree (h : s.config.sharingPolicy = .nearestCenter)
    (horder : s.OrderFree observations) : s.Settled observations := by
  intro r hactive o hbest
  have hmay : s.MayTake observations r o := of_decide_eq_true (mem_of_bestOf hbest).2.1
  -- an observation that is taken after some turns is what the region finds then
  have hfound : ∀ done, r ∉ done → (s.withTurns observations done).accepts r o = true →
      (s.withTurns observations done).pick observations r = some o := by
    intro done hr haccepts
    unfold pick
    rw [withTurns_of_notMem hr]
    apply bestOf_of_takes _ hbest haccepts
    exact fun p hp => decide_eq_true (mayTake_of_accepts h hr hp)
  -- the regions that are nearer at the start have had their turns
  let done := (List.finRange M).filter fun q =>
    decide (q ≠ r) && !decide (s.Clears (s.regions q) r o)
  have hmem : ∀ q, q ∈ done ↔ q ≠ r ∧ ¬ s.Clears (s.regions q) r o := by
    intro q
    simp [done]
  have hr : r ∉ done := fun hr => ((hmem r).mp hr).1 rfl
  have haccepts : (s.withTurns observations done).accepts r o = true := by
    rw [accepts_withTurns_iff h hr]
    intro q hne hq
    split
    next hin => exact (hmay q hne hq).resolve_left ((hmem q).mp hin).2
    next hnotin =>
      by_contra hclear
      exact hnotin ((hmem q).mpr ⟨hne, hclear⟩)
  have hstart := horder.accepts_of_pick h hactive hr List.not_mem_nil (hfound done hr haccepts)
  have hpick := hfound [] List.not_mem_nil hstart
  intro q hne hq
  have hnearest := (accepts_withTurns_iff h List.not_mem_nil).mp hstart q hne hq
  rw [if_neg List.not_mem_nil] at hnearest
  have hq' : r ∉ [q] := by simpa using hne.symm
  have hafter := horder.accepts_of_pick h hactive List.not_mem_nil hq' hpick
  have hlast := (accepts_withTurns_iff h hq').mp hafter q hne hq
  rw [if_pos List.mem_cons_self] at hlast
  exact ⟨hnearest, hlast⟩

end Settled

section Orders

variable {s s' : MultiTrustRegionState D M} {observations : List (Observation D)} {r q : Fin M}

theorem OrderFree.foldl_tellRegion (h : s.OrderFree observations) {order : List (Fin M)}
    (hnodup : order.Nodup) :
    order.foldl (tellRegion observations) s = s.withTurns observations order := by
  induction order using List.reverseRecOn with
  | nil => exact withTurns_nil.symm
  | append_singleton order r ih =>
    rw [List.nodup_append] at hnodup
    obtain ⟨horder, -, hdisjoint⟩ := hnodup
    have hr : r ∉ order := fun hr => hdisjoint r hr r List.mem_cons_self rfl
    rw [List.foldl_concat, ih horder, tellRegion_eq, h order r hr]
    unfold withTurns
    congr 1
    ext q : 1
    by_cases hq : q = r
    · subst hq
      simp
    · rw [Function.update_of_ne hq]
      simp [hq]

theorem foldl_tellRegion_eq (order : List (Fin M)) :
    order.foldl (tellRegion observations) s =
      { s with regions := (order.foldl (tellRegion observations) s).regions } := by
  induction order generalizing s with
  | nil => rfl
  | cons r order ih => rw [List.foldl_cons, ih, tellRegion_eq]

theorem foldl_tellRegion_cons {rest : List (Fin M)} (h : r ∉ rest) :
    ((r :: rest).foldl (tellRegion observations) s).regions r = s.turn observations r := by
  rw [List.foldl_cons, foldl_tellRegion_of_notMem h, tellRegion_eq]
  exact Function.update_self ..

/-- If every order of the turns gives one state, then no turn depends on those before it. -/
theorem orderFree_of_foldl
    (h : ∀ order : List (Fin M), order.Perm (List.finRange M) →
      order.foldl (tellRegion observations) s = s') : s.OrderFree observations := by
  have hperm : ∀ first : List (Fin M), first.Nodup →
      (first ++ (List.finRange M).filter fun q => decide (q ∉ first)).Perm (List.finRange M) := by
    intro first hnodup
    apply (List.perm_ext_iff_of_nodup _ (List.nodup_finRange M)).mpr
    · intro q
      simp [em]
    · apply List.nodup_append.mpr
      refine ⟨hnodup, (List.nodup_finRange M).filter _, ?_⟩
      rintro a ha b hb rfl
      exact absurd ha (by simpa using hb)
  have hturn : ∀ r, s'.regions r = s.turn observations r := by
    intro r
    rw [← h _ (hperm [r] (List.nodup_singleton r))]
    exact foldl_tellRegion_cons (by simp)
  have hdone : ∀ first : List (Fin M), first.Nodup →
      first.foldl (tellRegion observations) s = s.withTurns observations first := by
    intro first hnodup
    rw [foldl_tellRegion_eq]
    unfold withTurns
    congr 1
    ext q : 1
    split
    next hq =>
      have hlater : q ∉ (List.finRange M).filter fun q => decide (q ∉ first) := by simpa using hq
      rw [← hturn q, ← h _ (hperm first hnodup), List.foldl_append,
        foldl_tellRegion_of_notMem hlater]
    next hq => exact foldl_tellRegion_of_notMem hq
  intro done r hr
  have hdedup : s.withTurns observations done = s.withTurns observations done.dedup := by
    unfold withTurns
    simp
  have hnodup : (done.dedup ++ [r]).Nodup := by
    apply List.nodup_append.mpr
    refine ⟨done.nodup_dedup, List.nodup_singleton r, ?_⟩
    rintro a ha b hb rfl
    rw [List.mem_singleton] at hb
    exact hr (List.mem_dedup.mp (hb ▸ ha))
  have hlast := hdone _ hnodup
  rw [List.foldl_concat, hdone _ done.nodup_dedup, tellRegion_eq, ← hdedup] at hlast
  have hregion := congrFun (congrArg MultiTrustRegionState.regions hlast) r
  rw [withTurns_of_mem (by simp)] at hregion
  simpa using hregion

end Orders

section Renumber

variable {s s' : MultiTrustRegionState D M} {observations : List (Observation D)} {r q : Fin M}
  (σ : Equiv.Perm (Fin M))

def renumber (s : MultiTrustRegionState D M) : MultiTrustRegionState D M :=
  { s with regions := s.regions ∘ σ }

def renumberId (id : ℕ) : ℕ := if h : id < M then (σ.symm ⟨id, h⟩).val else id

def renumberObservation (o : Observation D) : Observation D :=
  { o with region := o.region.map (renumberId σ) }

theorem le_renumberId_iff (id : ℕ) : M ≤ renumberId σ id ↔ M ≤ id := by
  unfold renumberId
  split
  next h => exact iff_of_false (not_le.mpr (σ.symm ⟨id, h⟩).isLt) (not_le.mpr h)
  next => rfl

theorem renumberId_eq_iff (id : ℕ) (r : Fin M) : renumberId σ id = r.val ↔ id = (σ r).val := by
  unfold renumberId
  split
  next h =>
    rw [← Fin.ext_iff, Equiv.symm_apply_eq, Fin.ext_iff]
  next h =>
    constructor
    · rintro rfl
      exact absurd r.isLt h
    · rintro rfl
      exact absurd (σ r).isLt h

omit [Floating D] [Analysis D] in
theorem observationsOf_renumber (x : Array2 D) (y : List D) (regions : Option (List ℕ)) :
    observationsOf x y (regions.map (List.map (renumberId σ))) =
      (observationsOf x y regions).map (renumberObservation σ) := by
  cases regions with
  | none => simp [observationsOf, List.map_zipWith, renumberObservation]
  | some ids =>
    simp [observationsOf, List.map_zipWith, renumberObservation, List.zip_map_right,
      List.zipWith_map_right]

omit [Floating D] [Analysis D] in
theorem toldOf_renumber :
    toldOf (observations.map (renumberObservation σ)) r = toldOf observations (σ r) := by
  unfold toldOf
  rw [List.filter_map, List.map_map]
  have hregion : ((fun o : Observation D => o.region == some r.val) ∘ renumberObservation σ) =
      fun o => o.region == some (σ r).val := by
    ext o
    unfold renumberObservation
    cases hregion : o.region with
    | none => simp [hregion]
    | some id => simp [hregion, renumberId_eq_iff]
  rw [hregion]
  rfl

theorem accepts_renumber (h : s.config.sharingPolicy = .nearestCenter) (o : Observation D) :
    (s.renumber σ).accepts r (renumberObservation σ o) = s.accepts (σ r) o := by
  have h' : (s.renumber σ).config.sharingPolicy = .nearestCenter := h
  rw [Bool.eq_iff_iff, accepts_iff h', accepts_iff h]
  constructor
  · intro hall q hne hactive
    have hq := hall (σ.symm q) (by rwa [Ne, Equiv.symm_apply_eq])
    unfold Clears renumber at hq
    simp only [Function.comp_apply, Equiv.apply_symm_apply] at hq
    exact hq hactive
  · exact fun hall q hne hactive => hall (σ q) (σ.injective.ne hne) hactive

theorem bestOf_map (current : D) (takes takes' : Observation D → Bool)
    (f : Observation D → Observation D) (hy : ∀ o, (f o).y = o.y)
    (htakes : ∀ o, takes' (f o) = takes o) :
    bestOf current takes' (observations.map f) =
      (bestOf current takes observations).map id (Option.map f) := by
  induction observations using List.reverseRecOn with
  | nil => rfl
  | append_singleton observations o ih =>
    rw [List.map_append, List.map_singleton, bestOf_concat, bestOf_concat, ih, htakes]
    unfold better
    rw [hy, Prod.map_fst, id]
    split <;> simp

theorem turn_renumber (h : s.config.sharingPolicy = .nearestCenter) :
    (s.renumber σ).turn (observations.map (renumberObservation σ)) r =
      s.turn observations (σ r) := by
  have hpick : (s.renumber σ).pick (observations.map (renumberObservation σ)) r =
      (s.pick observations (σ r)).map (renumberObservation σ) := by
    unfold pick
    exact congrArg Prod.snd (bestOf_map _ (s.accepts (σ r)) _ (renumberObservation σ)
      (fun _ => rfl) fun o => accepts_renumber σ h o)
  unfold turn
  rw [hpick, toldOf_renumber]
  cases s.pick observations (σ r) <;> rfl

theorem tellRegion_renumber (h : s.config.sharingPolicy = .nearestCenter) :
    tellRegion (observations.map (renumberObservation σ)) (s.renumber σ) r =
      (tellRegion observations s (σ r)).renumber σ := by
  rw [tellRegion_eq, tellRegion_eq, turn_renumber σ h]
  unfold renumber
  congr 1
  ext q : 1
  by_cases hq : q = r
  · subst hq
    simp
  · rw [Function.update_of_ne hq]
    exact (Function.update_of_ne (σ.injective.ne hq) _ _).symm

theorem foldl_tellRegion_renumber (h : s.config.sharingPolicy = .nearestCenter)
    (order : List (Fin M)) :
    order.foldl (tellRegion (observations.map (renumberObservation σ))) (s.renumber σ) =
      ((order.map σ).foldl (tellRegion observations) s).renumber σ := by
  induction order generalizing s with
  | nil => rfl
  | cons r order ih =>
    rw [List.foldl_cons, tellRegion_renumber σ h, List.map_cons, List.foldl_cons]
    apply ih
    rwa [tellRegion_config]

omit [Floating D] [Analysis D] in
theorem renumber_injective : Function.Injective (renumber (D := D) σ) := by
  rintro ⟨n, regions, config⟩ ⟨n', regions', config'⟩ h
  simp only [renumber, MultiTrustRegionState.mk.injEq] at h ⊢
  exact ⟨h.1, σ.surjective.injective_comp_right h.2.1, h.2.2⟩

theorem exists_perm_of_order {order : List (Fin M)} (h : order.Perm (List.finRange M)) :
    ∃ σ : Equiv.Perm (Fin M), order = (List.finRange M).map σ := by
  have hlen : order.length = M := by rw [h.length_eq, List.length_finRange]
  have hnodup : order.Nodup := h.nodup_iff.mpr (List.nodup_finRange M)
  have horder : order = List.ofFn fun i : Fin M => order.get (i.cast hlen.symm) := by
    apply List.ext_get <;> simp [hlen]
  have hinjective : Function.Injective fun i : Fin M => order.get (i.cast hlen.symm) := by
    rw [← List.nodup_ofFn, ← horder]
    exact hnodup
  exact ⟨Equiv.ofBijective _ (Finite.injective_iff_bijective.mp hinjective),
    horder.trans List.ofFn_eq_map⟩

/-- The call after the renumbering is accepted too, and gives the regions their turns in the order
of the new numbers. -/
theorem tell_renumber (hpolicy : s.config.sharingPolicy = .nearestCenter) {x : Array2 D}
    {y : List D} {regions : Option (List ℕ)} (hn : x.nrows ≠ 0)
    (h : s.tell x y regions = .ok s') :
    (s.renumber σ).tell x y (regions.map (List.map (renumberId σ))) =
      .ok ((((List.finRange M).map σ).foldl (tellRegion (observationsOf x y regions)) s).renumber
        σ) := by
  rw [← foldl_tellRegion_renumber σ hpolicy, ← observationsOf_renumber]
  unfold tell at h ⊢
  rw [if_neg hn] at h ⊢
  split at h
  next => cases h
  next hshape =>
    rw [if_neg (show ¬ (x.ncols ≠ (s.renumber σ).numDim ∨ y.length ≠ x.nrows) from hshape)]
    cases regions with
    | none =>
      rw [Option.map_none]
      dsimp only
      rw [if_neg (by rw [show (s.renumber σ).config = s.config from rfl, hpolicy]; simp)]
      rfl
    | some ids =>
      dsimp only at h
      rw [Option.map_some]
      dsimp only
      split at h
      next => cases h
      next hids =>
        rw [if_neg (by simpa [le_renumberId_iff] using hids)]
        rfl

end Renumber

section Once

variable {s s' : MultiTrustRegionState D M} {x : Array2 D} {y : List D}
  {regions : Option (List ℕ)} {observations : List (Observation D)} {r : Fin M}

/-- How a call may leave a region, if credit goes to what is nearest at the start of the call. -/
inductive Credited (s : MultiTrustRegionState D M) (observations : List (Observation D))
    (r : Fin M) : Region D → Prop where
  | unchanged : Credited s observations r (s.regions r)
  | declined : Credited s observations r
      (decline s.config (recorded (s.regions r) (toldOf observations r)))
  | improved {o : Observation D} : o ∈ observations → s.Nearest r o → Credited s observations r
      (improve s.config (recorded (s.regions r) (toldOf observations r)) o)

theorem Credited.center_eq {region : Region D} (h : Credited s observations r region) :
    region.center = (s.regions r).center ∨
      ∃ o ∈ observations, s.Nearest r o ∧ region.center = o.x := by
  cases h with
  | unchanged => exact .inl rfl
  | declined =>
    left
    rw [center_decline, recorded_eq]
  | improved ho hnearest => exact .inr ⟨_, ho, hnearest, center_improve _ _ _⟩

/-- A call credits what is nearest at its start and does not depend on the numbers of the
regions. -/
structure CreditedOnce (s : MultiTrustRegionState D M) (x : Array2 D) (y : List D)
    (regions : Option (List ℕ)) (s' : MultiTrustRegionState D M) : Prop where
  credited : ∀ r, Credited s (observationsOf x y regions) r (s'.regions r)
  renumbered : ∀ σ : Equiv.Perm (Fin M),
    (s.renumber σ).tell x y (regions.map (List.map (renumberId σ))) = .ok (s'.renumber σ)

variable [NumberOrder D]

theorem credited_turn (h : s.config.sharingPolicy = .nearestCenter) :
    Credited s observations r (s.turn observations r) := by
  cases hactive : (s.regions r).active with
  | false =>
    rw [turn_of_inactive hactive]
    exact .unchanged
  | true =>
    rw [turn_of_active hactive]
    cases hpick : s.pick observations r with
    | none => exact .declined
    | some o =>
      obtain ⟨hmem, haccepts, -⟩ := mem_of_bestOf hpick
      exact .improved hmem ((accepts_iff h).mp haccepts)

/-- In a call credit is decided once exactly when the best observation that a region may find is
one that it finds in any case. -/
theorem creditedOnce_iff (hpolicy : s.config.sharingPolicy = .nearestCenter)
    (h : s.tell x y regions = .ok s') :
    CreditedOnce s x y regions s' ↔ s.Settled (observationsOf x y regions) := by
  obtain ⟨hn, rfl⟩ | ⟨hn, rfl⟩ := tell_eq_ok h
  · have hnone := observationsOf_of_nrows hn y regions
    constructor
    · rintro - r - o ho
      rw [hnone] at ho
      cases ho
    · rintro -
      refine ⟨fun r => .unchanged, fun σ => ?_⟩
      unfold tell
      rw [if_pos hn]
  · constructor
    · intro honce
      apply settled_of_orderFree hpolicy
      apply orderFree_of_foldl
      intro order hperm
      obtain ⟨σ, rfl⟩ := exists_perm_of_order hperm
      have hσ := honce.renumbered σ
      rw [tell_renumber σ hpolicy hn.ne' h] at hσ
      exact renumber_injective σ (Except.ok.inj hσ)
    · intro hsettled
      have horder := orderFree_of_settled hpolicy hsettled
      have hall : ∀ order : List (Fin M), order.Perm (List.finRange M) →
          order.foldl (tellRegion (observationsOf x y regions)) s =
            s.withTurns (observationsOf x y regions) (List.finRange M) := by
        intro order hperm
        rw [horder.foldl_tellRegion (hperm.nodup_iff.mpr (List.nodup_finRange M))]
        unfold withTurns
        simp [hperm.mem_iff]
      constructor
      · intro r
        rw [hall _ (List.Perm.refl _), withTurns_of_mem (List.mem_finRange r)]
        exact credited_turn hpolicy
      · intro σ
        rw [tell_renumber σ hpolicy hn.ne' h, hall _ (List.Perm.refl _), hall]
        apply (List.perm_ext_iff_of_nodup ((List.nodup_finRange M).map σ.injective)
          (List.nodup_finRange M)).mpr
        intro q
        simp [σ.surjective q]

/-- Two regions in one dimension. -/
def twoCenters : MultiTrustRegionState (Extended ℚ) 2 where
  numDim := 1
  regions := fun r =>
    freshRegion ⟨.default, 3, 5, .nearestCenter, 1, 0⟩ [if r = 0 then .finite (3 / 10) else 1]
  config := ⟨.default, 3, 5, .nearestCenter, 1, 0⟩

/-- The first region moves away from the first observation, which the second region then takes. -/
theorem not_creditedOnce_moving :
    ∃ s', twoCenters.tell (.column [.finite (3 / 5), 0]) [1, 2] none = .ok s' ∧
      (s'.regions 1).center = [.finite (3 / 5)] ∧
      ¬ CreditedOnce twoCenters (.column [.finite (3 / 5), 0]) [1, 2] none s' := by
  refine ⟨_, rfl, by decide +kernel, fun h => ?_⟩
  rcases (h.credited 1).center_eq with hcenter | ⟨o, ho, hnearest, -⟩
  · exact absurd hcenter (by decide +kernel)
  · have hfar : ∀ o ∈ observationsOf (.column [.finite (3 / 5), 0]) [1, 2] none,
        ¬ twoCenters.Nearest 1 o := by decide +kernel
    exact hfar o ho hnearest

/-- An observation at the center of each region. -/
theorem creditedOnce_apart :
    ∃ s', twoCenters.tell (.column [.finite (3 / 10), 1]) [1, 2] none = .ok s' ∧
      CreditedOnce twoCenters (.column [.finite (3 / 10), 1]) [1, 2] none s' :=
  ⟨_, rfl, (creditedOnce_iff rfl rfl).mpr (by decide +kernel)⟩

end Once

end MultiTrustRegionState

end Ennbo
