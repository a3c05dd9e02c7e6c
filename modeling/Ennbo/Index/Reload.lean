import Ennbo.Index.Build

/-! # What a persisted index reads back as

Writing an index pads every vector to the row width, pairs ids with vectors and
drops the centroid of a leaf with vectors; a leaf without vectors always gets
one. The byte format is treated apart; here an index on disk is the index it
reads back as.
-/

namespace Ennbo

variable {F : Type} [Zero F]

/-- `v.get(j).unwrap_or(0.0)` for every column. -/
def fitRow (numDim : ℕ) (v : List F) : List F := (List.range numDim).map fun j => v.getD j 0

theorem length_fitRow (numDim : ℕ) (v : List F) : (fitRow numDim v).length = numDim := by
  simp [fitRow]

theorem fitRow_of_length {numDim : ℕ} {v : List F} (h : v.length = numDim) :
    fitRow numDim v = v := by
  refine List.ext_getElem (by simp [fitRow, h]) fun i hi hi' => ?_
  simp [fitRow, hi']

theorem map_fitRow_of_length {numDim : ℕ} {vs : List (List F)}
    (h : ∀ v ∈ vs, v.length = numDim) : vs.map (fitRow numDim) = vs :=
  (List.map_congr_left fun v hv => fitRow_of_length (h v hv)).trans (List.map_id _)

def Page.reload (numDim : ℕ) : Page F → Page F
  | internal pageId centroids childPageIds =>
    internal pageId (centroids.map (fitRow numDim)) (childPageIds.take centroids.length)
  | leaf pageId _ (some (start, stop)) _ storedCentroid =>
    emptyRangeLeaf pageId start stop (fitRow numDim (storedCentroid.getD []))
  | leaf pageId rowIds none [] storedCentroid =>
    leaf pageId rowIds none [] (some (fitRow numDim (storedCentroid.getD [])))
  | leaf pageId rowIds none (v :: vs) _ =>
    leaf pageId rowIds none (((v :: vs).take rowIds.length).map (fitRow numDim)) none

namespace Page

@[simp] theorem pageId_reload (numDim : ℕ) (p : Page F) : (p.reload numDim).pageId = p.pageId := by
  rcases p with _ | ⟨_, _, _ | ⟨_, _⟩, _ | _, _⟩ <;> rfl

@[simp] theorem leafRows_reload (numDim : ℕ) (p : Page F) :
    (p.reload numDim).leafRows = p.leafRows := by
  rcases p with _ | ⟨_, _, _ | ⟨_, _⟩, _ | _, _⟩ <;> rfl

end Page

namespace BpannIndex

def reload (idx : BpannIndex F) : BpannIndex F :=
  { idx with pages := idx.pages.map (Page.reload idx.header.numDim) }

@[simp] theorem header_reload (idx : BpannIndex F) : idx.reload.header = idx.header := rfl

@[simp] theorem leafRows_reload (idx : BpannIndex F) : idx.reload.leafRows = idx.leafRows := by
  simp [leafRows, reload, List.flatMap_map]

@[simp] theorem pageIds_reload (idx : BpannIndex F) : idx.reload.pageIds = idx.pageIds := by
  simp [pageIds, reload, Function.comp_def]

end BpannIndex

end Ennbo
