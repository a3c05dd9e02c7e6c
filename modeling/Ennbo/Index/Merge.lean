import Ennbo.Index.Build

/-! # Merged indexes

A merge keeps the leaves of its parts. Its pages are those of the parts under
new ids, and a root above them.
-/

namespace Ennbo

variable {F : Type}

section Remap

theorem leafRows_remapPage {map : ℕ → Option ℕ} {p q : Page F} (h : remapPage map p = some q) :
    q.leafRows = p.leafRows := by
  cases p with
  | internal pageId centroids childPageIds =>
    simp only [remapPage, Option.bind_eq_bind, Option.bind_eq_some_iff, Option.pure_def,
      Option.some.injEq] at h
    obtain ⟨_, -, _, -, rfl⟩ := h
    rfl
  | leaf pageId rowIds rowRange vectors storedCentroid =>
    simp only [remapPage, Option.bind_eq_bind, Option.bind_eq_some_iff, Option.pure_def,
      Option.some.injEq] at h
    obtain ⟨_, -, rfl⟩ := h
    cases rowRange <;> rfl

theorem flatMap_leafRows_remap {map : ℕ → Option ℕ} {ps qs : List (Page F)}
    (h : ps.mapM (remapPage map) = some qs) :
    qs.flatMap Page.leafRows = ps.flatMap Page.leafRows := by
  rw [mapM_eq_some] at h
  induction h with
  | nil => rfl
  | cons hpq _ ih => rw [List.flatMap_cons, List.flatMap_cons, leafRows_remapPage hpq, ih]

end Remap

section Concat

variable [Floating F]

theorem Merged.addPart_eq_some {acc acc' : Merged F} {part : BpannIndex F}
    (h : acc.addPart part = some acc') :
    ∃ root pages, idMap part.pageIds acc.nextId part.header.rootPageId = some root ∧
      part.pages.mapM (remapPage (idMap part.pageIds acc.nextId)) = some pages ∧
      acc' =
        { pages := acc.pages ++ pages
          childPageIds := acc.childPageIds ++ [root]
          childCentroids := acc.childCentroids ++ [part.rootCentroid]
          skipEdges := remapEdges (idMap part.pageIds acc.nextId) part.skipEdges acc.skipEdges
          totalRows := acc.totalRows + part.header.indexedRows
          nextId := acc.nextId + part.pages.length } := by
  simp only [addPart, Option.bind_eq_bind, Option.bind_eq_some_iff, Option.pure_def,
    Option.some.injEq] at h
  obtain ⟨root, hr, pages, hp, rfl⟩ := h
  exact ⟨root, pages, hr, hp, rfl⟩

/-- A merge lists the rows of its parts, in order. -/
structure KeepsRows (parts : List (BpannIndex F)) (rows : List ℕ) (total : ℕ) : Prop where
  rows_eq : rows = parts.flatMap BpannIndex.leafRows
  total_eq : total = (parts.map fun part => part.header.indexedRows).sum

theorem keepsRows_foldlM {parts : List (BpannIndex F)} {acc acc' : Merged F}
    (h : parts.foldlM Merged.addPart acc = some acc') :
    acc'.pages.flatMap Page.leafRows =
        acc.pages.flatMap Page.leafRows ++ parts.flatMap BpannIndex.leafRows ∧
      acc'.totalRows = acc.totalRows + (parts.map fun part => part.header.indexedRows).sum := by
  induction parts generalizing acc with
  | nil =>
    obtain rfl := Option.some.inj h
    simp
  | cons part parts ih =>
    rw [List.foldlM_cons, Option.bind_eq_bind, Option.bind_eq_some_iff] at h
    obtain ⟨acc₁, h₁, h⟩ := h
    obtain ⟨_, pages, -, hp, rfl⟩ := Merged.addPart_eq_some h₁
    obtain ⟨hrows, htotal⟩ := ih h
    constructor
    · rw [hrows, List.flatMap_append, flatMap_leafRows_remap hp, List.flatMap_cons,
        BpannIndex.leafRows, List.append_assoc]
    · rw [htotal, List.map_cons, List.sum_cons, Nat.add_assoc]

theorem keepsRows_concatMerge {parts : List (BpannIndex F)} {merged : BpannIndex F}
    (h : BpannIndex.concatMerge parts = .ok merged) :
    KeepsRows parts merged.leafRows merged.header.indexedRows := by
  match parts, h with
  | [single], h =>
    obtain rfl := Outcome.pure_eq_ok.mp h
    exact ⟨by simp, by simp⟩
  | first :: second :: rest, h =>
    simp only [BpannIndex.concatMerge, Outcome.bind_eq_ok, Outcome.ofOption_eq_ok,
      Outcome.pure_eq_ok] at h
    obtain ⟨m, hm, rfl⟩ := h
    obtain ⟨hrows, htotal⟩ := keepsRows_foldlM hm
    exact ⟨by simpa [BpannIndex.leafRows] using hrows, by simpa using htotal⟩

end Concat

end Ennbo
