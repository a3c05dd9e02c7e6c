import Ennbo.Sparse.Moves
import Mathlib.Data.List.Destutter

/-! # The word cache

The values of words are fetched once. The words of many rows are united, those
that are not in the cache are fetched and merged into it, and the values of each
row are taken from it.
-/

namespace Ennbo

open SortedMap

def bare (words : List ℕ) : List (ℕ × Unit) := words.map fun w => (w, ())

def mergeWords (left right : List ℕ) : List ℕ :=
  ((mergeWith (fun _ _ => some ()) (bare left) (bare right)).map Prod.fst).destutter (· ≠ ·)

/-- One level of the reduction. -/
def mergeLevel : List (List ℕ) → List (List ℕ)
  | left :: right :: rest => mergeWords left right :: mergeLevel rest
  | level => level

theorem length_mergeLevel : ∀ level : List (List ℕ),
    (mergeLevel level).length = (level.length + 1) / 2
  | [] => rfl
  | [_] => by simp [mergeLevel]
  | _ :: _ :: rest => by
    simp only [mergeLevel, List.length_cons, length_mergeLevel rest]
    omega

def sparseUnion (level : List (List ℕ)) : List ℕ :=
  if 1 < level.length then sparseUnion (mergeLevel level) else level.getLast?.getD []
termination_by level.length
decreasing_by
  rw [length_mergeLevel]
  omega

def missingWords (cached query : List ℕ) : List ℕ :=
  (query.zip (lookups (bare cached) query)).filterMap fun e =>
    if e.2.isNone then some e.1 else none

def mergeValues (words : List ℕ) (values : List (BitVec 32)) (extraWords : List ℕ)
    (extraValues : List (BitVec 32)) : Except String (List ℕ × List (BitVec 32)) :=
  if words.length ≠ values.length ∨ extraWords.length ≠ extraValues.length then
    throw "word and value arrays must have matching lengths"
  else
    pure (mergeWith (fun _ extra => some extra) (words.zip values)
      (extraWords.zip extraValues)).unzip

/-- The values of a row, until a word is missing. -/
def takeFound : List (ℕ × Option (BitVec 32)) → Except String (List (BitVec 32))
  | [] => pure []
  | (word, none) :: _ => throw s!"word {word} is missing from cache"
  | (_, some value) :: rest => do return value :: (← takeFound rest)

def takeWords (words : List ℕ) (values : List (BitVec 32)) (query : List ℕ) :
    Except String (List (BitVec 32)) :=
  if words.length ≠ values.length then throw "word and value arrays must have matching lengths"
  else takeFound (query.zip (lookups (words.zip values) query))

section Union

variable {left right : List ℕ} {rows : List (List ℕ)} {w : ℕ}

@[simp] theorem map_fst_bare (words : List ℕ) : (bare words).map Prod.fst = words := by
  simp [bare, Function.comp_def]

theorem ascending_bare (h : left.Pairwise (· < ·)) : Ascending (bare left) := by
  rwa [ascending_iff, map_fst_bare]

theorem mergeWords_spec (hl : left.Pairwise (· < ·)) (hr : right.Pairwise (· < ·)) :
    (mergeWords left right).Pairwise (· < ·) ∧
      ∀ w, w ∈ mergeWords left right ↔ w ∈ left ∨ w ∈ right := by
  have hascending : Ascending (mergeWith (fun _ _ => some ()) (bare left) (bare right)) :=
    ascending_mergeWith (ascending_bare hl) (ascending_bare hr)
  have hkeys := ascending_iff.mp hascending
  have hself : mergeWords left right =
      (mergeWith (fun _ _ => some ()) (bare left) (bare right)).map Prod.fst :=
    List.destutter_of_isChain _ _ (hkeys.imp ne_of_lt).isChain
  rw [hself]
  refine ⟨hkeys, fun w => ?_⟩
  have hleft : w ∈ left ↔ ((bare left).lookup w).isSome = true := by
    rw [isSome_lookup_iff, map_fst_bare]
  have hright : w ∈ right ↔ ((bare right).lookup w).isSome = true := by
    rw [isSome_lookup_iff, map_fst_bare]
  rw [← isSome_lookup_iff, lookup_mergeWith (ascending_bare hl) (ascending_bare hr), hleft, hright]
  cases (bare left).lookup w <;> cases (bare right).lookup w <;> simp [combine]

theorem mergeLevel_spec : ∀ {rows : List (List ℕ)}, (∀ row ∈ rows, row.Pairwise (· < ·)) →
    (∀ row ∈ mergeLevel rows, row.Pairwise (· < ·)) ∧
      ∀ w, (∃ row ∈ mergeLevel rows, w ∈ row) ↔ ∃ row ∈ rows, w ∈ row
  | [], h => ⟨h, fun _ => Iff.rfl⟩
  | [row], h => ⟨h, fun _ => Iff.rfl⟩
  | left :: right :: rest, h => by
    rw [List.forall_mem_cons, List.forall_mem_cons] at h
    obtain ⟨hl, hr, hrest⟩ := h
    obtain ⟨hascending, hmem⟩ := mergeWords_spec hl hr
    obtain ⟨hlevel, hwords⟩ := mergeLevel_spec hrest
    refine ⟨List.forall_mem_cons.mpr ⟨hascending, hlevel⟩, fun w => ?_⟩
    have hwords := hwords w
    simp only [mergeLevel, List.exists_mem_cons_iff, hmem, hwords, or_assoc]

theorem sparseUnion_spec (h : ∀ row ∈ rows, row.Pairwise (· < ·)) :
    (sparseUnion rows).Pairwise (· < ·) ∧ ∀ w, w ∈ sparseUnion rows ↔ ∃ row ∈ rows, w ∈ row := by
  induction rows using sparseUnion.induct with
  | case1 level hlevel ih =>
    obtain ⟨hnext, hwords⟩ := mergeLevel_spec h
    obtain ⟨hascending, hmem⟩ := ih hnext
    rw [sparseUnion, if_pos hlevel]
    exact ⟨hascending, fun w => (hmem w).trans (hwords w)⟩
  | case2 level hlevel =>
    rw [sparseUnion, if_neg hlevel]
    rcases level with _ | ⟨row, _ | ⟨second, rest⟩⟩
    · simp
    · simpa using h row
    · simp at hlevel

end Union

section Values

variable {words extraWords query : List ℕ} {values extraValues out : List (BitVec 32)} {w : ℕ}
  {v : BitVec 32}

theorem zip_lookups {V : Type} {l : List (ℕ × V)} (h : Ascending l)
    (hq : query.Pairwise (· < ·)) :
    query.zip (lookups l query) = query.map fun w => (w, l.lookup w) := by
  rw [lookups_eq h (hq.imp le_of_lt)]
  clear hq
  induction query with
  | nil => rfl
  | cons w query ih => simp [ih]

theorem missingWords_eq (hw : words.Pairwise (· < ·)) (hq : query.Pairwise (· < ·)) :
    missingWords words query = query.filter (· ∉ words) := by
  have hmem : ∀ w, ((bare words).lookup w).isNone = decide (w ∉ words) := by
    intro w
    have hiff := isSome_lookup_iff (l := bare words) (w := w)
    rw [map_fst_bare] at hiff
    rw [Bool.eq_iff_iff, decide_eq_true_iff, ← hiff]
    cases (bare words).lookup w <;> simp
  unfold missingWords
  rw [zip_lookups (ascending_bare hw) hq, List.filterMap_map, ← List.filterMap_eq_filter]
  apply List.filterMap_congr
  intro w _
  simp only [Function.comp_apply, hmem, Option.guard_apply]

theorem mem_mergeWith_of_disjoint {l r : List (ℕ × BitVec 32)} (hl : Ascending l)
    (hr : Ascending r) (hdisjoint : ∀ w ∈ r.map Prod.fst, w ∉ l.map Prod.fst) :
    (w, v) ∈ mergeWith (fun _ extra => some extra) l r ↔ (w, v) ∈ l ∨ (w, v) ∈ r := by
  rw [← lookup_eq_some_iff hl, ← lookup_eq_some_iff hr,
    ← lookup_eq_some_iff (ascending_mergeWith hl hr), lookup_mergeWith hl hr]
  cases hw : r.lookup w with
  | none => simp
  | some extra =>
    have hkey : w ∈ r.map Prod.fst := isSome_lookup_iff.mp (by rw [hw]; rfl)
    have hnone : l.lookup w = none := by
      rw [← Option.not_isSome_iff_eq_none, isSome_lookup_iff]
      exact hdisjoint w hkey
    rw [hnone]
    simp

theorem exists_mem_zip (hlen : words.length = values.length) (h : w ∈ words) :
    ∃ v, (w, v) ∈ words.zip values := by
  rw [← List.map_fst_zip hlen.le] at h
  obtain ⟨⟨_, v⟩, hmem, rfl⟩ := List.mem_map.mp h
  exact ⟨v, hmem⟩

/-- What a merge of values returns: old entries and new ones. -/
theorem mergeValues_eq (hw : words.Pairwise (· < ·)) (hlen : words.length = values.length)
    (he : extraWords.Pairwise (· < ·)) (helen : extraWords.length = extraValues.length)
    (hdisjoint : ∀ w ∈ extraWords, w ∉ words) :
    ∃ outWords outValues, mergeValues words values extraWords extraValues =
        .ok (outWords, outValues) ∧ Cached outWords outValues ∧
      ∀ w v, (w, v) ∈ outWords.zip outValues ↔
        (w, v) ∈ words.zip values ∨ (w, v) ∈ extraWords.zip extraValues := by
  have hl := ascending_zip hw hlen
  have hr := ascending_zip he helen
  let out := mergeWith (fun _ extra => some extra) (words.zip values) (extraWords.zip extraValues)
  have hout : Ascending out := ascending_mergeWith hl hr
  refine ⟨out.unzip.1, out.unzip.2, ?_, ⟨?_, ?_⟩, fun w v => ?_⟩
  · unfold mergeValues
    rw [if_neg (by simp [hlen, helen])]
    rfl
  · rw [List.unzip_fst]
    exact ascending_iff.mp hout
  · rw [List.unzip_fst, List.unzip_snd, List.length_map, List.length_map]
  · rw [List.zip_unzip]
    apply mem_mergeWith_of_disjoint hl hr
    rw [List.map_fst_zip helen.le, List.map_fst_zip hlen.le]
    exact hdisjoint

theorem takeFound_eq_ok {l : List (ℕ × Option (BitVec 32))} :
    takeFound l = .ok out ↔ l.map Prod.snd = out.map some := by
  induction l generalizing out with
  | nil => cases out <;> simp [takeFound, pure, Except.pure]
  | cons e l ih =>
    rcases e with ⟨w, _ | value⟩
    · cases out <;> simp [takeFound]
    · have hcons : takeFound ((w, some value) :: l) =
          (takeFound l >>= fun rest => pure (value :: rest)) := rfl
      rw [hcons]
      cases out with
      | nil => cases takeFound l <;> simp [bind, Except.bind, pure, Except.pure]
      | cons v out =>
        rw [List.map_cons, List.map_cons, List.cons.injEq, Option.some.injEq, ← ih]
        cases takeFound l <;> simp [bind, Except.bind, pure, Except.pure]

/-- A row whose words are all cached is read position by position. -/
theorem takeWords_eq (hc : Cached words values) (hq : query.Pairwise (· < ·))
    (hall : ∀ w ∈ query, w ∈ words) :
    ∃ out, takeWords words values query = .ok out ∧
      List.Forall₂ (fun w v => (w, v) ∈ words.zip values) query out := by
  have hascending := ascending_zip hc.ascending hc.length_eq
  have hfound : ∀ w ∈ query, ∃ v, (words.zip values).lookup w = some v := by
    intro w hw
    rw [← Option.isSome_iff_exists, isSome_lookup_iff, List.map_fst_zip hc.length_eq.le]
    exact hall w hw
  obtain ⟨out, hout⟩ : ∃ out : List (BitVec 32),
      List.Forall₂ (fun w v => (words.zip values).lookup w = some v) query out := by
    clear hq
    induction query with
    | nil => exact ⟨[], .nil⟩
    | cons w query ih =>
      rw [List.forall_mem_cons] at hall hfound
      obtain ⟨v, hv⟩ := hfound.1
      obtain ⟨out, hout⟩ := ih hall.2 hfound.2
      exact ⟨v :: out, .cons hv hout⟩
  refine ⟨out, ?_, hout.imp fun w v h => (lookup_eq_some_iff hascending).mp h⟩
  unfold takeWords
  rw [if_neg (not_not.mpr hc.length_eq), takeFound_eq_ok, zip_lookups hascending hq, List.map_map]
  exact List.forall₂_eq_eq_eq ▸ List.forall₂_map_left_iff.mpr (List.forall₂_map_right_iff.mpr hout)

/-- A cache that is united with the words of some rows, given what is fetched. -/
structure CacheIsMap (words : List ℕ) (values : List (BitVec 32)) (rows : List (List ℕ)) :
    Prop where
  union_ascending : (sparseUnion rows).Pairwise (· < ·)
  mem_union : ∀ w, w ∈ sparseUnion rows ↔ ∃ row ∈ rows, w ∈ row
  union_perm : ∀ rows' : List (List ℕ), rows'.Perm rows → sparseUnion rows' = sparseUnion rows
  missing : missingWords words (sparseUnion rows) = (sparseUnion rows).filter (· ∉ words)
  /-- With the fetched values every row is read as a map of the old and the new entries. -/
  merged : ∀ fetched : List (BitVec 32),
    fetched.length = (missingWords words (sparseUnion rows)).length →
    ∃ outWords outValues,
      mergeValues words values (missingWords words (sparseUnion rows)) fetched =
        .ok (outWords, outValues) ∧ Cached outWords outValues ∧
      (∀ w v, (w, v) ∈ outWords.zip outValues ↔ (w, v) ∈ words.zip values ∨
        (w, v) ∈ (missingWords words (sparseUnion rows)).zip fetched) ∧
      ∀ row ∈ rows, ∃ out, takeWords outWords outValues row = .ok out ∧
        List.Forall₂ (fun w v => (w, v) ∈ words.zip values ∨
          (w, v) ∈ (missingWords words (sparseUnion rows)).zip fetched) row out

/-- The word cache is a finite map. -/
theorem Cached.isMap (hc : Cached words values) {rows : List (List ℕ)}
    (hrows : ∀ row ∈ rows, row.Pairwise (· < ·)) : CacheIsMap words values rows := by
  obtain ⟨hunion, hmem⟩ := sparseUnion_spec hrows
  have hmissing := missingWords_eq hc.ascending hunion
  refine ⟨hunion, hmem, ?_, hmissing, ?_⟩
  · intro rows' hperm
    obtain ⟨hunion', hmem'⟩ := sparseUnion_spec fun row hrow => hrows row (hperm.mem_iff.mp hrow)
    apply List.Perm.eq_of_pairwise (fun a b _ _ hab hba => absurd hab hba.asymm) hunion' hunion
    apply (List.perm_ext_iff_of_nodup (hunion'.imp ne_of_lt) (hunion.imp ne_of_lt)).mpr
    intro w
    simp only [hmem, hmem', hperm.mem_iff]
  · rw [hmissing]
    intro fetched hlen
    obtain ⟨outWords, outValues, hout, hcached, hentries⟩ := mergeValues_eq hc.ascending
      hc.length_eq (hunion.filter _) hlen.symm
      fun w hw => by simpa using (List.mem_filter.mp hw).2
    refine ⟨outWords, outValues, hout, hcached, hentries, fun row hrow => ?_⟩
    have hall : ∀ w ∈ row, w ∈ outWords := by
      intro w hw
      have hunited : w ∈ sparseUnion rows := (hmem w).mpr ⟨row, hrow, hw⟩
      by_cases hold : w ∈ words
      · obtain ⟨v, hv⟩ := exists_mem_zip hc.length_eq hold
        exact (List.of_mem_zip ((hentries w v).mpr (.inl hv))).1
      · have hnew : w ∈ (sparseUnion rows).filter (· ∉ words) :=
          List.mem_filter.mpr ⟨hunited, by simpa using hold⟩
        obtain ⟨v, hv⟩ := exists_mem_zip hlen.symm hnew
        exact (List.of_mem_zip ((hentries w v).mpr (.inr hv))).1
    obtain ⟨out, htake, hfound⟩ := takeWords_eq hcached (hrows row hrow) hall
    exact ⟨out, htake, hfound.imp fun w v h => (hentries w v).mp h⟩

theorem isMap_three : CacheIsMap [1, 4] [10, 40] [[1, 2], [], [2, 4, 7]] :=
  Cached.isMap ⟨by decide, rfl⟩ (by decide)

end Values

end Ennbo
