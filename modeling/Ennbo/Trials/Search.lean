import Ennbo.Trials.Engine

/-! # The trial search

A search proposes one perturbation of its base row at a time and learns from the
values told. Its rows live in `capacity + 2` slots: one for the base, one for
each record of the history and one for the pending trial.
-/

namespace Ennbo.Trials

def maxHistory : ℕ := 128

structure Trial (F : Type) where
  id : UInt64
  index : ℕ
  seed : UInt64
  score : F

structure Record (F : Type) where
  slot : ℕ
  value : F

structure Pending (F : Type) where
  id : UInt64
  slot : ℕ
  seed : UInt64
  length : F
  materialized : Bool

structure Search (F E : Type) where
  leaves : List (Leaf F)
  rowBytes : ℕ
  capacity : ℕ
  slots : ℕ
  base : ℕ
  history : List (Record F)
  pending : Option (Pending F)
  nextId : UInt64
  engine : E

/-- An observation selected for exact reranking. -/
structure IndexedObservation (F : Type) where
  id : UInt64
  value : F

variable {F : Type} [TrialFloat F]

/-- The checks that every kind of ask makes of its arguments. -/
def checkAsk (seeds : List UInt64) (observations : ℕ) (config : Ask F) : Except String Unit :=
  if seeds.isEmpty then .error "ask requires at least one seed"
  else if config.neighbors = 0 ∨ observations < config.neighbors then
    .error s!"neighbor count must be between one and {observations}"
  else
    match [("length", config.length), ("epistemic_scale", config.epistemicScale),
        ("aleatoric_scale", config.aleatoricScale), ("y_scale", config.yScale),
        ("beta", config.beta)].find? fun p => !isFinite p.2 || flt p.2 0.0 with
    | some (name, _) => .error s!"{name} must be finite and nonnegative"
    | none => .ok ()

namespace Search

variable {E : Type}

section State

variable (s : Search F E)

def observed : List (ℕ × F) := s.history.map fun record => (record.slot, record.value)

/-- Whether nothing in the history or pending lives in the slot, nor the base. -/
def isFree (slot : ℕ) : Bool :=
  slot != s.base && s.history.all (fun record => record.slot != slot) &&
    s.pending.map Pending.slot != some slot

def freeSlot : Option ℕ := (List.range s.slots).find? s.isFree

def pendingFor (trial : Trial F) : Except String (Pending F) :=
  match s.pending with
  | some pending =>
    if pending.id = trial.id then .ok pending
    else .error "trial does not match the pending ask"
  | none => .error "there is no pending trial"

/-- The slots that a replaced history of `n` rows takes. -/
def replacementSlots (n : ℕ) : List ℕ := ((List.range s.slots).filter (· != s.base)).take n

end State

variable [TrialEngine F E]

def new (base : Row) (baseValue : F) (leaves : List (Leaf F)) (capacity : ℕ) :
    Except String (Search F E) :=
  if !isFinite baseValue then .error "base value must be finite"
  else if capacity = 0 ∨ maxHistory < capacity then
    .error s!"history capacity must be in 1..={maxHistory}"
  else
    match checkLayout leaves with
    | .error e => .error e
    | .ok rowBytes =>
      if base.length ≠ rowBytes then
        .error s!"base row has {base.length} bytes, expected {rowBytes}"
      else
        match TrialEngine.new base leaves (capacity + 2) with
        | .error e => .error e
        | .ok engine =>
          .ok { leaves, rowBytes, capacity, slots := capacity + 2, base := 0,
                history := [{ slot := 0, value := baseValue }], pending := none, nextId := 0,
                engine }

variable (s : Search F E)

def askWithMaterialization (seeds : List UInt64) (config : Ask F) (materializeRow : Bool) :
    Except String (Trial F) × Search F E :=
  if s.pending.isSome then (.error "tell must finish the pending trial before ask", s)
  else
    match checkAsk seeds s.history.length config with
    | .error e => (.error e, s)
    | .ok () =>
      match s.freeSlot with
      | none => (.error "no free model slot", s)
      | some slot =>
        match TrialEngine.ask s.engine s.base s.observed slot seeds s.leaves config
            materializeRow with
        | (.error e, engine) => (.error e, { s with engine })
        | (.ok (index, score), engine) =>
          let seed := seeds.getD index 0
          (.ok { id := s.nextId, index, seed, score },
            { s with
              engine
              nextId := s.nextId + 1
              pending := some { id := s.nextId, slot, seed, length := config.length,
                                materialized := materializeRow } })

def ask (seeds : List UInt64) (config : Ask F) : Except String (Trial F) × Search F E :=
  s.askWithMaterialization seeds config true

def askLazy (seeds : List UInt64) (config : Ask F) : Except String (Trial F) × Search F E :=
  s.askWithMaterialization seeds config false

def regionSeeds (seedsPerRegion : ℕ) (seeds : List UInt64) (region : ℕ) : List UInt64 :=
  (seeds.drop (region * seedsPerRegion)).take seedsPerRegion

/-- The rounds of `ask_multi_tr` over the regions, each through the engine's own ask. -/
def askRegions (seedsPerRegion : ℕ) (seeds : List UInt64) (config : Ask F) :
    List ℕ → E → Except String (List (ℕ × F)) × E
  | [], engine => (.ok [], engine)
  | region :: regions, engine =>
    match TrialEngine.ask engine s.base s.observed 0 (regionSeeds seedsPerRegion seeds region)
        s.leaves config true with
    | (.error e, engine) => (.error e, engine)
    | (.ok (index, score), engine) =>
      match askRegions seedsPerRegion seeds config regions engine with
      | (.error e, engine) => (.error e, engine)
      | (.ok results, engine) => (.ok ((region * seedsPerRegion + index, score) :: results), engine)

/-- The checks of `ask_multi_tr`. -/
def checkAskMultiTr (numRegions seedsPerRegion : ℕ) (seeds : List UInt64) (config : Ask F) :
    Except String Unit :=
  if s.pending.isSome then .error "tell must finish the pending trial before ask"
  else if numRegions = 0 ∨ seedsPerRegion = 0 then
    .error "multi-TR search requires non-zero regions and candidates"
  else if usizeMax < numRegions * seedsPerRegion then .error "multi-TR candidate count overflow"
  else if seeds.length ≠ numRegions * seedsPerRegion then
    .error s!"expected {numRegions * seedsPerRegion} seeds for {numRegions} regions, got {seeds.length}"
  else checkAsk seeds s.history.length config

/-- `ask_multi_tr` on an engine that has no batched ask of its own. -/
def askMultiTr (numRegions seedsPerRegion : ℕ) (seeds : List UInt64) (config : Ask F) :
    Except String (List (ℕ × F)) × Search F E :=
  match s.checkAskMultiTr numRegions seedsPerRegion seeds config with
  | .error e => (.error e, s)
  | .ok () =>
    let answer := s.askRegions seedsPerRegion seeds config (List.range numRegions) s.engine
    (answer.1, { s with engine := answer.2 })

def askMultiTrTree (numRegions seedsPerRegion : ℕ) (centers : List Center)
    (regionCenters : List ℕ) (seeds : List UInt64) (config : Ask F) :
    Except String (List (ℕ × F)) × Search F E :=
  match checkCenters centers regionCenters numRegions with
  | .error e => (.error e, s)
  | .ok () =>
    if s.pending.isSome then (.error "tell must finish the pending trial before ask", s)
    else if usizeMax < numRegions * seedsPerRegion then
      (.error "multi-TR candidate count overflow", s)
    else if seedsPerRegion = 0 ∨ seeds.length ≠ numRegions * seedsPerRegion then
      (.error s!"expected {numRegions * seedsPerRegion} seeds for {numRegions} regions, got {seeds.length}", s)
    else
      match checkAsk seeds s.history.length config with
      | .error e => (.error e, s)
      | .ok () =>
        let answer := TrialEngine.askMultiTrTree s.engine s.base s.observed seedsPerRegion centers
          regionCenters seeds s.leaves config
        (answer.1, { s with engine := answer.2 })

def row (trial : Trial F) : Except String Row :=
  match s.pendingFor trial with
  | .error e => .error e
  | .ok pending =>
    if pending.materialized then TrialEngine.read F s.engine pending.slot s.rowBytes
    else .error "lazy trial row is not materialized; call materialize_pending first"

def materializePending (trial : Trial F) : Except String Unit × Search F E :=
  match s.pendingFor trial with
  | .error e => (.error e, s)
  | .ok pending =>
    if pending.materialized then (.ok (), s)
    else
      match TrialEngine.materialize s.engine s.base pending.slot pending.seed s.leaves
          pending.length with
      | (.error e, engine) => (.error e, { s with engine })
      | (.ok (), engine) =>
        (.ok (), { s with engine, pending := some { pending with materialized := true } })

/-- What `tell` does once the pending row is in its slot. -/
def record (pending : Pending F) (value : F) (accept : Bool) : Search F E :=
  { s with
    history := (if s.history.length = s.capacity then s.history.drop 1 else s.history) ++
      [{ slot := pending.slot, value }]
    base := if accept then pending.slot else s.base
    pending := none }

def tell (trial : Trial F) (value : F) (accept : Bool) : Except String Unit × Search F E :=
  if !isFinite value then (.error "trial value must be finite", s)
  else
    match s.materializePending trial with
    | (.error e, s) => (.error e, s)
    | (.ok (), s) =>
      match s.pendingFor trial with
      | .error e => (.error e, s)
      | .ok pending => (.ok (), s.record pending value accept)

/-- The checks that replacing the history makes, for `n` rows. -/
def checkReplacement (n : ℕ) : Except String Unit :=
  if s.pending.isSome then .error "tell must finish the pending trial before replacing history"
  else if n = 0 then .error "replacement history requires at least one observation"
  else if s.capacity < n then
    .error s!"replacement history has {n} rows, capacity is {s.capacity}"
  else .ok ()

/-- Write rows to slots, up to the first write that fails. -/
def writeRows (F : Type) [TrialFloat F] [TrialEngine F E] : List (ℕ × Row) → E → Except String Unit × E
  | [], engine => (.ok (), engine)
  | p :: ps, engine =>
    match TrialEngine.write F engine p.1 p.2 with
    | (.error e, engine) => (.error e, engine)
    | (.ok (), engine) => writeRows F ps engine

def replaceHistory (rows : List UInt8) (values : List F) : Except String Unit × Search F E :=
  match s.checkReplacement values.length with
  | .error e => (.error e, s)
  | .ok () =>
    if usizeMax < values.length * s.rowBytes then
      (.error "replacement history byte count overflow", s)
    else if rows.length ≠ values.length * s.rowBytes then
      (.error s!"replacement history has {rows.length} bytes, expected {values.length * s.rowBytes}", s)
    else
      let slots := s.replacementSlots values.length
      if slots.length ≠ values.length then
        (.error "not enough free model slots for replacement history", s)
      else
        let writes := slots.zipIdx.map fun p => (p.1, Buffer.row s.rowBytes rows p.2)
        match writeRows F writes s.engine with
        | (.error e, engine) => (.error e, { s with engine })
        | (.ok (), engine) =>
          (.ok (), { s with engine
                            history := (slots.zip values).map fun p => ⟨p.1, p.2⟩ })

/--
The loop of `replace_indexed_history`. The resolver may keep a state of its own, so
what it returns depends on how often it was called before.
-/
def resolveRows (resolve : ℕ → UInt64 → Except String Row) :
    List (ℕ × IndexedObservation F) → ℕ → Search F E → Except String Unit × Search F E
  | [], _, s => (.ok (), s)
  | p :: ps, calls, s =>
    match resolve calls p.2.id with
    | .error e => (.error e, s)
    | .ok row =>
      if row.length ≠ s.rowBytes then
        (.error s!"resolved observation {p.2.id} has {row.length} bytes, expected {s.rowBytes}", s)
      else
        match TrialEngine.write F s.engine p.1 row with
        | (.error e, engine) => (.error e, { s with engine })
        | (.ok (), engine) =>
          resolveRows resolve ps (calls + 1)
            { s with engine, history := s.history ++ [⟨p.1, p.2.value⟩] }

def replaceIndexedHistory (observations : List (IndexedObservation F))
    (resolve : ℕ → UInt64 → Except String Row) : Except String Unit × Search F E :=
  match s.checkReplacement observations.length with
  | .error e => (.error e, s)
  | .ok () =>
    let slots := s.replacementSlots observations.length
    if slots.length ≠ observations.length then
      (.error "not enough free model slots for replacement history", s)
    else resolveRows resolve (slots.zip observations) 0 { s with history := [] }

end Search

end Ennbo.Trials
