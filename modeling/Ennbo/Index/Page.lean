import Ennbo.Distance

/-! # Index pages

An internal page lists its children with one centroid each. A leaf lists the
rows it holds, explicitly or as a contiguous range, with or without their
vectors.
-/

namespace Ennbo

/-- A page of the index. Page and row ids are `u32` in the source. -/
inductive Page (F : Type) where
  | internal (pageId : ℕ) (centroids : List (List F)) (childPageIds : List ℕ)
  | leaf (pageId : ℕ) (rowIds : List ℕ) (rowRange : Option (ℕ × ℕ)) (vectors : List (List F))
      (storedCentroid : Option (List F))
  deriving DecidableEq, Repr

variable {F : Type}

section Mean

variable [Floating F]

/-- `acc[j] += v[j]` for every entry of `v`. -/
def addInto : List F → List F → List F
  | a :: acc, x :: v => (a + x) :: addInto acc v
  | acc, _ => acc

@[simp] theorem length_addInto (acc v : List F) : (addInto acc v).length = acc.length := by
  induction acc generalizing v with
  | nil => rfl
  | cons a acc ih => cases v <;> simp [addInto, ih]

/-- The mean of a list of vectors; empty when the list is. -/
def meanVector (vectors : List (List F)) : List F :=
  match vectors with
  | [] => []
  | v :: _ =>
    (vectors.foldl addInto (List.replicate v.length 0)).map (· / (vectors.length : F))

end Mean

namespace Page

def emptyRangeLeaf (pageId start stop : ℕ) (centroid : List F) : Page F :=
  .leaf pageId [] (some (start, stop)) [] (some centroid)

def pageId : Page F → ℕ
  | internal pageId _ _ => pageId
  | leaf pageId _ _ _ _ => pageId

def isLeaf : Page F → Bool
  | internal .. => false
  | leaf .. => true

/-- The pages an internal page points to. -/
def childPageIds : Page F → List ℕ
  | internal _ _ ids => ids
  | leaf .. => []

/-- The row ids a leaf lists, through its range when it has one. -/
def leafRows : Page F → List ℕ
  | internal .. => []
  | leaf _ _ (some (start, stop)) _ _ => List.range' start (stop - start)
  | leaf _ rowIds none _ _ => rowIds

def centroid [Floating F] : Page F → List F
  | internal _ centroids _ => meanVector centroids
  | leaf _ _ _ _ (some c) => c
  | leaf _ _ _ vectors none => meanVector vectors

@[simp] theorem leafRows_internal (i : ℕ) (cs : List (List F)) (ids : List ℕ) :
    leafRows (internal i cs ids) = [] := rfl

@[simp] theorem leafRows_leaf (i : ℕ) (ids : List ℕ) (vs : List (List F))
    (c : Option (List F)) : leafRows (leaf i ids none vs c) = ids := rfl

@[simp] theorem leafRows_emptyRangeLeaf (i start stop : ℕ) (c : List F) :
    leafRows (emptyRangeLeaf i start stop c) = List.range' start (stop - start) := rfl

end Page

end Ennbo
