import Mathlib.Data.Nat.Basic

/-! # Tuning

The process-wide tuning values and their validation. A snapshot that fails its
validation is replaced by the defaults, so every value the index reads is valid.
-/

namespace Ennbo

def INDEX_COMPACT_FRAGMENT_MAX_MIN : ℕ := 3

structure BpannTuning where
  indexCompactRowsPerFragment : ℕ := 10000
  indexCompactFragmentMax : ℕ := 32
  searchRowsPerFragment : ℕ := 80000
  smallFragmentMergeRows : ℕ := 15000
  searchFragmentBudgetMax : ℕ := 1
  buildSeed : Option ℕ := none
  pendingFlushThreshold : ℕ := 250
  pendingHardFlushThreshold : ℕ := 3000
  structuredBuildRowLimit : ℕ := 1024
  searchBeamWidth : ℕ := 1
  exhaustiveSearchRowLimit : ℕ := 2500
  skipRefinementRowLimit : ℕ := 150000
  deriving DecidableEq, Repr

namespace BpannTuning

/-- The checks of `validate`, each with the message it reports. -/
def checks (t : BpannTuning) : List (Bool × String) :=
  [(t.indexCompactRowsPerFragment == 0, "index_compact_rows_per_fragment must be >= 1"),
   (decide (t.indexCompactFragmentMax < INDEX_COMPACT_FRAGMENT_MAX_MIN),
    s!"index_compact_fragment_max must be >= {INDEX_COMPACT_FRAGMENT_MAX_MIN}"),
   (t.searchRowsPerFragment == 0, "search_rows_per_fragment must be >= 1"),
   (t.smallFragmentMergeRows == 0, "small_fragment_merge_rows must be >= 1"),
   (t.searchFragmentBudgetMax == 0, "search_fragment_budget_max must be >= 1"),
   (t.pendingFlushThreshold == 0, "pending_flush_threshold must be >= 1"),
   (t.pendingHardFlushThreshold == 0, "pending_hard_flush_threshold must be >= 1"),
   (decide (t.pendingHardFlushThreshold < t.pendingFlushThreshold),
    "pending_hard_flush_threshold must be >= pending_flush_threshold"),
   (t.structuredBuildRowLimit == 0, "structured_build_row_limit must be >= 1"),
   (t.searchBeamWidth == 0, "search_beam_width must be >= 1"),
   (t.exhaustiveSearchRowLimit == 0, "exhaustive_search_row_limit must be >= 1"),
   (decide (t.skipRefinementRowLimit < t.exhaustiveSearchRowLimit),
    "skip_refinement_row_limit must be >= exhaustive_search_row_limit")]

def validate (t : BpannTuning) : Except String Unit :=
  match t.checks.find? (·.1) with
  | some (_, message) => .error message
  | none => .ok ()

def rowsNeedSkipEdges (t : BpannTuning) (rowCount : ℕ) : Bool :=
  rowCount > t.exhaustiveSearchRowLimit && rowCount ≤ t.skipRefinementRowLimit

def useExhaustiveSearch (t : BpannTuning) (rows : ℕ) : Bool :=
  rows ≤ t.exhaustiveSearchRowLimit

def useSkipRefinementSearch (t : BpannTuning) (rows : ℕ) : Bool :=
  !t.useExhaustiveSearch rows && rows ≤ t.skipRefinementRowLimit

theorem validate_eq_ok_iff (t : BpannTuning) :
    t.validate = .ok () ↔ ∀ check ∈ t.checks, check.1 = false := by
  rw [validate]
  split
  next b message h =>
    have hb : b = true := List.find?_some h
    have hm := List.mem_of_find?_eq_some h
    simp only [reduceCtorEq, false_iff, not_forall]
    exact ⟨_, hm, by simp [hb]⟩
  next h => simpa using h

end BpannTuning

abbrev Tuning : Type := {t : BpannTuning // t.validate = .ok ()}

theorem default_tuning_valid : BpannTuning.validate {} = .ok () := by decide

/-- The snapshot in use: the provider's, or the defaults when it is absent or invalid. -/
def currentTuning (provider : Option BpannTuning) : Tuning :=
  match provider with
  | none => ⟨{}, default_tuning_valid⟩
  | some t => if h : t.validate = .ok () then ⟨t, h⟩ else ⟨{}, default_tuning_valid⟩

namespace Tuning

theorem check_eq_false (t : Tuning) (check : Bool × String) (h : check ∈ t.1.checks) :
    check.1 = false :=
  (BpannTuning.validate_eq_ok_iff t.1).mp t.2 check h

theorem indexCompactFragmentMax_ge (t : Tuning) :
    INDEX_COMPACT_FRAGMENT_MAX_MIN ≤ t.1.indexCompactFragmentMax := by
  have h := t.check_eq_false
    (decide (t.1.indexCompactFragmentMax < INDEX_COMPACT_FRAGMENT_MAX_MIN),
      s!"index_compact_fragment_max must be >= {INDEX_COMPACT_FRAGMENT_MAX_MIN}")
    (by simp [BpannTuning.checks])
  simpa using h

end Tuning

end Ennbo
