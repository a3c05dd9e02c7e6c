import Mathlib.Data.List.Dedup
import Mathlib.Data.List.Induction
import Mathlib.Order.Bounds.Basic

/-! # Interleaved rankings

Several rankings are read rank by rank, and each entry is taken where it is seen
first. An entry that some ranking has further in front comes earlier, and a bound
on the number of entries only cuts the end.
-/

namespace Ennbo.Ranking

open List

variable {α : Type*} [DecidableEq α]

section Firsts

def takeNew (seen : List α) (a : α) : List α := if a ∈ seen then seen else seen ++ [a]

def firsts (l : List α) : List α := l.foldl takeNew []

theorem firsts_append_singleton (l : List α) (a : α) : firsts (l ++ [a]) = takeNew (firsts l) a := by
  rw [firsts, foldl_append]
  rfl

theorem mem_firsts {l : List α} {a : α} : a ∈ firsts l ↔ a ∈ l := by
  induction l using List.reverseRecOn with
  | nil => rfl
  | append_singleton l b ih =>
    rw [firsts_append_singleton, takeNew, mem_append, mem_singleton]
    split
    next hb =>
      rw [ih]
      constructor
      · exact .inl
      · rintro (h | rfl)
        · exact h
        · exact ih.mp hb
    next => rw [mem_append, mem_singleton, ih]

theorem nodup_firsts (l : List α) : (firsts l).Nodup := by
  induction l using List.reverseRecOn with
  | nil => exact nodup_nil
  | append_singleton l a ih =>
    rw [firsts_append_singleton, takeNew]
    split
    next => exact ih
    next ha => exact ih.append (nodup_singleton a) (by simpa using ha)

theorem firsts_prefix (l m : List α) : firsts l <+: firsts (l ++ m) := by
  induction m using List.reverseRecOn with
  | nil => simp
  | append_singleton m a ih =>
    rw [← append_assoc, firsts_append_singleton, takeNew]
    split
    next => exact ih
    next => exact ih.trans (prefix_append _ _)

theorem length_firsts (l : List α) : (firsts l).length = l.dedup.length := by
  apply Perm.length_eq
  rw [perm_ext_iff_of_nodup (nodup_firsts l) (nodup_dedup l)]
  intro a
  rw [mem_firsts, mem_dedup]

theorem firsts_before {xs : List α} {a b : α} (ha : a ∈ xs) (hb : b ∉ xs) (ys : List α) :
    ∃ us vs, firsts (xs ++ b :: ys) = us ++ b :: vs ∧ a ∈ us := by
  have hxs : firsts (xs ++ [b]) = firsts xs ++ [b] := by
    rw [firsts_append_singleton, takeNew, if_neg (mem_firsts.not.mpr hb)]
  obtain ⟨vs, hvs⟩ := firsts_prefix (xs ++ [b]) ys
  refine ⟨firsts xs, vs, ?_, mem_firsts.mpr ha⟩
  rw [hxs, append_assoc, append_assoc] at hvs
  exact hvs.symm

end Firsts

section Ranks

def rankMajor (rankings : List (List α)) (ranks : ℕ) : List α :=
  (range ranks).flatMap fun rank => rankings.filterMap fun row => row[rank]?

def BestRank (rankings : List (List α)) (a : α) (rank : ℕ) : Prop :=
  IsLeast {rank | ∃ row ∈ rankings, row[rank]? = some a} rank

variable {rankings : List (List α)} {ranks : ℕ} {a b : α}

omit [DecidableEq α] in
theorem mem_rankMajor :
    a ∈ rankMajor rankings ranks ↔ ∃ rank < ranks, ∃ row ∈ rankings, row[rank]? = some a := by
  simp [rankMajor]

omit [DecidableEq α] in
theorem mem_rankMajor_of_le (h : ∀ row ∈ rankings, row.length ≤ ranks) :
    a ∈ rankMajor rankings ranks ↔ ∃ row ∈ rankings, a ∈ row := by
  rw [mem_rankMajor]
  constructor
  · rintro ⟨rank, -, row, hrow, ha⟩
    exact ⟨row, hrow, mem_of_getElem? ha⟩
  · rintro ⟨row, hrow, ha⟩
    obtain ⟨rank, hrank, rfl⟩ := getElem_of_mem ha
    exact ⟨rank, hrank.trans_le (h row hrow), row, hrow, getElem?_eq_getElem hrank⟩

omit [DecidableEq α] in
theorem rankMajor_before {r s : ℕ} (ha : BestRank rankings a r) (hb : BestRank rankings b s)
    (hrs : r < s) (hs : s < ranks) :
    ∃ xs ys, rankMajor rankings ranks = xs ++ b :: ys ∧ a ∈ xs ∧ b ∉ xs := by
  have hblock : b ∈ rankings.filterMap fun row => row[s]? := by
    obtain ⟨row, hrow, h⟩ := hb.1
    exact mem_filterMap.mpr ⟨row, hrow, h⟩
  obtain ⟨us, vs, hsplit, hus⟩ := eq_append_cons_of_mem hblock
  obtain ⟨m, rfl⟩ := Nat.exists_eq_add_of_lt hs
  refine ⟨rankMajor rankings s ++ us, vs ++ ((range m).map (s + 1 + ·)).flatMap fun rank =>
    rankings.filterMap fun row => row[rank]?, ?_, ?_, ?_⟩
  · rw [Nat.add_right_comm, rankMajor, range_add, range_succ, flatMap_append, flatMap_append,
      flatMap_singleton, hsplit, rankMajor]
    simp only [append_assoc, cons_append]
  · obtain ⟨row, hrow, h⟩ := ha.1
    exact mem_append_left _ (mem_rankMajor.mpr ⟨r, hrs, row, hrow, h⟩)
  · rw [mem_append, not_or]
    refine ⟨fun h => ?_, hus⟩
    obtain ⟨rank, hrank, hmem⟩ := mem_rankMajor.mp h
    exact absurd (hb.2 hmem) (not_le.mpr hrank)

def interleave (rankings : List (List α)) (ranks limit : ℕ) : List α :=
  (firsts (rankMajor rankings ranks)).take limit

theorem nodup_interleave (rankings : List (List α)) (ranks limit : ℕ) :
    (interleave rankings ranks limit).Nodup :=
  (nodup_firsts _).sublist (take_sublist _ _)

theorem exists_mem_of_mem_interleave {limit : ℕ} (h : a ∈ interleave rankings ranks limit) :
    ∃ row ∈ rankings, a ∈ row := by
  obtain ⟨rank, -, row, hrow, ha⟩ := mem_rankMajor.mp (mem_firsts.mp (mem_of_mem_take h))
  exact ⟨row, hrow, mem_of_getElem? ha⟩

/-- A better rank comes before a worse one. -/
theorem interleave_before {r s limit : ℕ} (hranks : ∀ row ∈ rankings, row.length ≤ ranks)
    (ha : BestRank rankings a r) (hb : BestRank rankings b s) (hrs : r < s)
    (hmem : b ∈ interleave rankings ranks limit) :
    ∃ us vs, interleave rankings ranks limit = us ++ b :: vs ∧ a ∈ us := by
  have hs : s < ranks := by
    obtain ⟨row, hrow, h⟩ := hb.1
    obtain ⟨hlt, -⟩ := List.getElem?_eq_some_iff.mp h
    exact hlt.trans_le (hranks row hrow)
  obtain ⟨xs, ys, hsplit, haxs, hbxs⟩ := rankMajor_before ha hb hrs hs
  obtain ⟨us, vs, hfirsts, haus⟩ := firsts_before haxs hbxs ys
  have hnodup := nodup_firsts (rankMajor rankings ranks)
  rw [interleave, hsplit, hfirsts] at hmem ⊢
  rw [hsplit, hfirsts] at hnodup
  -- the limit lies behind the later entry
  have hlimit : us.length < limit := by
    by_contra hle
    rw [take_append_of_le_length (not_lt.mp hle)] at hmem
    exact (nodup_append.mp hnodup).2.2 b (mem_of_mem_take hmem) b mem_cons_self rfl
  obtain ⟨n, hn⟩ := Nat.exists_eq_add_of_lt hlimit
  refine ⟨us, vs.take n, ?_, haus⟩
  rw [take_append, take_of_length_le hlimit.le, hn,
    show us.length + n + 1 - us.length = n + 1 by omega, take_succ_cons]

theorem mem_interleave_of_fits {limit : ℕ} (hranks : ∀ row ∈ rankings, row.length ≤ ranks)
    (hfits : rankings.flatten.dedup.length ≤ limit) (h : ∃ row ∈ rankings, a ∈ row) :
    a ∈ interleave rankings ranks limit := by
  have hlength : (firsts (rankMajor rankings ranks)).length ≤ limit := by
    rw [length_firsts]
    apply le_trans (Perm.length_eq _).le hfits
    rw [perm_ext_iff_of_nodup (nodup_dedup _) (nodup_dedup _)]
    intro b
    rw [mem_dedup, mem_dedup, mem_rankMajor_of_le hranks, mem_flatten]
  rw [interleave, take_of_length_le hlength]
  exact mem_firsts.mpr ((mem_rankMajor_of_le hranks).mpr h)

/-- Take an entry that is new, and stop at the limit. -/
def takeUntil (limit : ℕ) (seen : List α) (a : α) : Except (List α) (List α) :=
  if a ∈ seen then .ok seen
  else if (seen ++ [a]).length = limit then .error (seen ++ [a])
  else .ok (seen ++ [a])

/-- Stopping at the limit leaves the first entries. -/
theorem foldlM_takeUntil {limit : ℕ} (hlimit : 1 ≤ limit) (l : List α) :
    l.foldlM (takeUntil limit) [] =
      if (firsts l).length < limit then .ok (firsts l) else .error ((firsts l).take limit) := by
  induction l using List.reverseRecOn with
  | nil => rw [if_pos (show (firsts ([] : List α)).length < limit from hlimit)]; rfl
  | append_singleton l a ih =>
    rw [foldlM_append, ih, firsts_append_singleton]
    by_cases hlt : (firsts l).length < limit
    · rw [if_pos hlt]
      change [a].foldlM (takeUntil limit) (firsts l) = _
      rw [foldlM_cons, takeUntil, takeNew]
      by_cases hmem : a ∈ firsts l
      · rw [if_pos hmem, if_pos hmem, if_pos hlt]
        rfl
      · rw [if_neg hmem, if_neg hmem]
        by_cases hlast : (firsts l ++ [a]).length = limit
        · rw [if_pos hlast, if_neg hlast.not_lt, take_of_length_le hlast.le]
          rfl
        · have hlen : (firsts l ++ [a]).length < limit := by
            rw [length_append, length_singleton] at hlast ⊢
            omega
          rw [if_neg hlast, if_pos hlen]
          rfl
    · have hprefix : firsts l <+: takeNew (firsts l) a := by
        rw [← firsts_append_singleton]
        exact firsts_prefix l [a]
      have hle := not_lt.mp hlt
      rw [if_neg hlt, if_neg (hle.trans hprefix.length_le).not_gt]
      obtain ⟨zs, hzs⟩ := hprefix
      rw [← hzs, take_append_of_le_length hle]
      rfl

omit [DecidableEq α] in
/-- A loop over the ranks and over the rankings reads the entries rank by rank. -/
theorem foldlM_rankMajor {β : Type} {m : Type → Type} [Monad m] [LawfulMonad m]
    (step : ℕ → β → List α → m β) (take : β → α → m β)
    (hnone : ∀ rank acc row, row[rank]? = none → step rank acc row = pure acc)
    (hsome : ∀ rank acc row a, row[rank]? = some a → step rank acc row = take acc a)
    (rankings : List (List α)) (ranks : ℕ) (acc : β) :
    (range ranks).foldlM (fun acc rank => rankings.foldlM (step rank) acc) acc =
      (rankMajor rankings ranks).foldlM take acc := by
  have hrank : ∀ rank (rankings : List (List α)) acc, rankings.foldlM (step rank) acc =
      (rankings.filterMap fun row => row[rank]?).foldlM take acc := by
    intro rank rankings
    induction rankings with
    | nil => exact fun _ => rfl
    | cons row rankings ih =>
      intro acc
      rw [foldlM_cons, filterMap_cons]
      cases hrow : row[rank]? with
      | none => rw [hnone rank acc row hrow, pure_bind, ih]
      | some a =>
        rw [hsome rank acc row a hrow, foldlM_cons]
        simp only [ih]
  induction ranks generalizing acc with
  | zero => rfl
  | succ ranks ih =>
    have hsucc : rankMajor rankings (ranks + 1) =
        rankMajor rankings ranks ++ rankings.filterMap fun row => row[ranks]? := by
      rw [rankMajor, range_succ, flatMap_append, flatMap_singleton, rankMajor]
    rw [range_succ, foldlM_append, ih, hsucc, foldlM_append]
    simp [hrank]

end Ranks

end Ennbo.Ranking
