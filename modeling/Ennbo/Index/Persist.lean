import Ennbo.Call
import Ennbo.Index.RoundTrip

/-! # Replacing the files of an index

The pages and the skip edges of an index are written beside the old files and
renamed over them, the header is written over the old one. Each operation on the
files may fail, and a failing write may leave its target cut. When one fails the
old pages and skip edges are written back.
-/

namespace Ennbo

variable {F : Type} [Zero F] [F32Bits F]

namespace Call

variable {σ α β : Type}

/-- Change the state behind a call that fails. -/
def onError (undo : σ → σ) (c : Call σ α) : Call σ α := fun s =>
  match c s with
  | (.ok a, s') => (.ok a, s')
  | (.error e, s') => (.error e, undo s')

theorem onError_eq_error {undo : σ → σ} {c : Call σ α} {s s' : σ} {e : Failure} :
    onError undo c s = (.error e, s') ↔ ∃ s₁, c s = (.error e, s₁) ∧ undo s₁ = s' := by
  rcases h : c s with ⟨e' | a, s₁⟩ <;> simp [onError, h]

@[simp] theorem returns_onError {undo : σ → σ} {c : Call σ α} {s s' : σ} {a : α} :
    Returns (onError undo c) s a s' ↔ Returns c s a s' := by
  rcases h : c s with ⟨e' | a', s₁⟩ <;> simp [Returns, onError, h]

theorem bind_eq_error {x : Call σ α} {f : α → Call σ β} {s s' : σ} {e : Failure} :
    (x >>= f) s = (.error e, s') ↔
      x s = (.error e, s') ∨ ∃ a s₁, Returns x s a s₁ ∧ f a s₁ = (.error e, s') := by
  rcases h : x s with ⟨e' | a, s₁⟩ <;> simp [Bind.bind, Returns, h]

end Call

/-- What stands in an index directory. -/
structure IndexDir where
  header : Option String
  pages : Option (List UInt8)
  pagesTmp : Option (List UInt8)
  skipEdges : Option (List UInt8)
  skipTmp : Option (List UInt8)

/-- The operations on files of one persist. -/
inductive FileOp where
  | createDir
  | readPages
  | readSkip
  | createPagesTmp
  | writePagesTmp
  | writeSkipTmp
  | renamePages
  | renameSkip
  | writeHeader
  deriving DecidableEq, Repr

/-- The operations that fail, with the text of the error. A failing write leaves
its target as it was, or cut to a length. -/
structure Faults where
  error : FileOp → Option String
  left : FileOp → Option ℕ

namespace Faults

variable (faults : Faults)

/-- One operation, which changes the directory by `done`, or by `broken` when it fails. -/
def attempt (op : FileOp) (done broken : IndexDir → IndexDir) : Call IndexDir Unit := fun dir =>
  match faults.error op with
  | none => (.ok (), done dir)
  | some text => (.error (.error (.invalidParameter text)), broken dir)

/-- Write `content` to the file that `put` sets; `cut n` is what a failing write leaves. -/
def write {α : Type} (op : FileOp) (put : α → IndexDir → IndexDir) (content : α) (cut : ℕ → α) :
    Call IndexDir Unit :=
  faults.attempt op (put content) ((faults.left op).elim id fun n => put (cut n))

/-- `exists().then(read)`: the bytes of a file that is there. -/
def backup (op : FileOp) (file : IndexDir → Option (List UInt8)) :
    Call IndexDir (Option (List UInt8)) := do
  let dir ← Call.get
  if (file dir).isSome then
    faults.attempt op id id
  return file dir

end Faults

namespace BpannIndex

/-- The text that a failing write of the header leaves when it wrote `n` characters. -/
def cutHeader (json : HeaderJson) (header : IndexHeader) (n : ℕ) : String :=
  String.ofList ((json.toStringPretty header).toList.take n)

/-- Write the pages and the skip edges beside the old files and rename them. -/
def replaceData (faults : Faults) (numDim : ℕ) (pages : List (Page F)) (skipEdges : SkipEdges) :
    Call IndexDir Unit := do
  let pageBytes := writePagesIndex pages numDim
  let skipBytes := skipEdgesBytes skipEdges
  faults.write .createPagesTmp (fun bytes dir => { dir with pagesTmp := some bytes }) [] fun _ => []
  faults.write .writePagesTmp (fun bytes dir => { dir with pagesTmp := some bytes }) pageBytes
    pageBytes.take
  faults.write .writeSkipTmp (fun bytes dir => { dir with skipTmp := some bytes }) skipBytes
    skipBytes.take
  faults.attempt .renamePages (fun dir => { dir with pages := dir.pagesTmp, pagesTmp := none }) id
  faults.attempt .renameSkip (fun dir => { dir with skipEdges := dir.skipTmp, skipTmp := none }) id

/-- The part of `persist_index_files` whose failure is rolled back. -/
def replaceFiles (json : HeaderJson) (faults : Faults) (header : IndexHeader)
    (pages : List (Page F)) (skipEdges : SkipEdges) : Call IndexDir Unit := do
  replaceData faults header.numDim pages skipEdges
  faults.write .writeHeader (fun text dir => { dir with header := some text })
    (json.toStringPretty header) (cutHeader json header)

/-- Write the old bytes back, when there are any, and remove the new files. -/
def rollBack (pagesBackup skipBackup : Option (List UInt8)) (dir : IndexDir) : IndexDir :=
  { dir with
    pages := pagesBackup <|> dir.pages
    skipEdges := skipBackup <|> dir.skipEdges
    pagesTmp := none
    skipTmp := none }

def persistIndexFiles (json : HeaderJson) (faults : Faults) (header : IndexHeader)
    (pages : List (Page F)) (skipEdges : SkipEdges) : Call IndexDir Unit := do
  faults.attempt .createDir id id
  let pagesBackup ← faults.backup .readPages IndexDir.pages
  let skipBackup ← faults.backup .readSkip IndexDir.skipEdges
  Call.onError (rollBack pagesBackup skipBackup) (replaceFiles json faults header pages skipEdges)

/-- The text of the error that opening an absent file reports. -/
def NOT_FOUND : String := "No such file or directory (os error 2)"

/-- `BpannIndex::open` on a directory; skip edges that are not there are none. -/
def openDir (json : HeaderJson) (order : SkipEdges → SkipEdges) (dir : IndexDir) :
    Outcome (BpannIndex F) := do
  let text ← Outcome.ofOption (.error (.invalidParameter NOT_FOUND)) dir.header
  let header ← orInvalid (json.fromStr text)
  let bytes ← Outcome.ofOption (.error (.invalidParameter NOT_FOUND)) dir.pages
  let pages ← orInvalid (readPagesIndex bytes)
  return { header, pages, skipEdges := order (readSkipEdges (dir.skipEdges.getD [])) }

/-- A directory in which an index was persisted. -/
structure Persisted (json : HeaderJson) (order : SkipEdges → SkipEdges) (dir : IndexDir)
    (idx : BpannIndex F) : Prop where
  opens : openDir json order dir = .ok idx
  skipEdges : dir.skipEdges.isSome

/-- The directory that a persist of `idx` leaves. -/
def persistedDir (json : HeaderJson) (idx : BpannIndex F) : IndexDir where
  header := some (persist json idx).header
  pages := some (persist json idx).pages
  pagesTmp := none
  skipEdges := some (persist json idx).skipEdges
  skipTmp := none

theorem openDir_persistedDir (json : HeaderJson) (order : SkipEdges → SkipEdges)
    (idx : BpannIndex F) :
    openDir json order (persistedDir json idx) =
      (openFiles json order (persist json idx) : Outcome (BpannIndex F)) :=
  rfl

omit [Zero F] [F32Bits F] in
theorem orInvalid_eq_ok {α : Type} {x : Except String α} {a : α} :
    orInvalid x = .ok a ↔ x = .ok a := by
  cases x <;> simp [orInvalid]

omit [Zero F] in
theorem openDir_eq_ok {json : HeaderJson} {order : SkipEdges → SkipEdges} {dir : IndexDir}
    {idx : BpannIndex F} :
    openDir json order dir = .ok idx ↔
      ((∃ text, dir.header = some text ∧ json.fromStr text = .ok idx.header) ∧
        ∃ bytes, dir.pages = some bytes ∧ readPagesIndex bytes = .ok idx.pages) ∧
          order (readSkipEdges (dir.skipEdges.getD [])) = idx.skipEdges := by
  simp only [openDir, Outcome.bind_eq_ok, Outcome.ofOption_eq_ok, orInvalid_eq_ok,
    Outcome.pure_eq_ok]
  constructor
  · rintro ⟨text, htext, header, hheader, bytes, hbytes, pages, hpages, rfl⟩
    exact ⟨⟨⟨text, htext, hheader⟩, bytes, hbytes, hpages⟩, rfl⟩
  · rintro ⟨⟨⟨text, htext, hheader⟩, bytes, hbytes, hpages⟩, hedges⟩
    exact ⟨text, htext, idx.header, hheader, bytes, hbytes, idx.pages, hpages, by rw [hedges]⟩

end BpannIndex

namespace Faults

variable {faults : Faults} {op : FileOp} {done broken : IndexDir → IndexDir} {dir dir' : IndexDir}

@[simp] theorem returns_attempt {u : Unit} :
    Call.Returns (faults.attempt op done broken) dir u dir' ↔
      faults.error op = none ∧ done dir = dir' := by
  unfold Call.Returns attempt
  cases faults.error op <;> simp

@[simp] theorem returns_write {α : Type} {put : α → IndexDir → IndexDir} {content : α}
    {cut : ℕ → α} {u : Unit} :
    Call.Returns (faults.write op put content cut) dir u dir' ↔
      faults.error op = none ∧ put content dir = dir' :=
  returns_attempt

theorem keeps_attempt {P : IndexDir → Prop} (hdone : ∀ d, P d → P (done d))
    (hbroken : ∀ d, P d → P (broken d)) : Call.Keeps P (faults.attempt op done broken) := by
  intro dir hdir
  unfold attempt
  cases faults.error op with
  | none => exact hdone dir hdir
  | some text => exact hbroken dir hdir

theorem keeps_write {α : Type} {P : IndexDir → Prop} {put : α → IndexDir → IndexDir} {content : α}
    {cut : ℕ → α} (hput : ∀ c d, P d → P (put c d)) :
    Call.Keeps P (faults.write op put content cut) := by
  apply keeps_attempt (hput content)
  intro d hd
  cases faults.left op with
  | none => exact hd
  | some n => exact hput (cut n) d hd

theorem attempt_error {e : Failure} (h : faults.attempt op done broken dir = (.error e, dir')) :
    faults.error op ≠ none ∧ dir' = broken dir := by
  unfold attempt at h
  cases hop : faults.error op with
  | none => simp [hop] at h
  | some text =>
    simp only [hop, Prod.mk.injEq] at h
    exact ⟨by simp, h.2.symm⟩

theorem backup_error {file : IndexDir → Option (List UInt8)} {e : Failure}
    (h : faults.backup op file dir = (.error e, dir')) : faults.error op ≠ none ∧ dir' = dir := by
  simp only [backup, Call.get_bind_apply] at h
  by_cases hfile : (file dir).isSome
  · rw [if_pos hfile] at h
    obtain h | ⟨_, _, _, h⟩ := Call.bind_eq_error.mp h
    · exact attempt_error h
    · cases h
  · rw [if_neg hfile] at h
    cases h

theorem returns_backup {file : IndexDir → Option (List UInt8)} {bytes : Option (List UInt8)}
    (hfile : (file dir).isSome) :
    Call.Returns (faults.backup op file) dir bytes dir' ↔
      (faults.error op = none ∧ dir = dir') ∧ file dir = bytes := by
  have hbackup : faults.backup op file dir =
      (faults.attempt op id id >>= fun _ => pure (file dir)) dir := by
    simp only [backup, Call.get_bind_apply, hfile, if_true]
  rw [Call.Returns, hbackup, ← Call.Returns, Call.returns_bind]
  constructor
  · rintro ⟨_, _, hread, hpure⟩
    obtain ⟨rfl, rfl⟩ := Call.returns_pure.mp hpure
    exact ⟨returns_attempt.mp hread, rfl⟩
  · rintro ⟨hread, rfl⟩
    exact ⟨(), dir', returns_attempt.mpr hread, Call.returns_pure.mpr ⟨rfl, rfl⟩⟩

/-- No operation before the write of the header fails. -/
def ReachesHeader (faults : Faults) : Prop := ∀ op, op ≠ .writeHeader → faults.error op = none

theorem not_reachesHeader (h : faults.error op ≠ none) (hop : op ≠ .writeHeader) :
    ¬ faults.ReachesHeader :=
  fun hr => h (hr op hop)

end Faults

namespace BpannIndex

variable {json : HeaderJson} {faults : Faults} {header : IndexHeader} {pages : List (Page F)}
  {skipEdges : SkipEdges} {dir dir' : IndexDir}

theorem keeps_header_replaceData (numDim : ℕ) (text : Option String) :
    Call.Keeps (fun d => d.header = text) (replaceData faults numDim pages skipEdges) := by
  have hwrite : ∀ {op} {put : List UInt8 → IndexDir → IndexDir} {content cut},
      (∀ c d, (put c d).header = d.header) →
        Call.Keeps (fun d => d.header = text) (faults.write op put content cut) :=
    fun hput => Faults.keeps_write fun c d hd => (hput c d).trans hd
  simp only [replaceData]
  apply Call.Keeps.bind
  · exact hwrite fun _ _ => rfl
  intro _
  apply Call.Keeps.bind
  · exact hwrite fun _ _ => rfl
  intro _
  apply Call.Keeps.bind
  · exact hwrite fun _ _ => rfl
  intro _
  apply Call.Keeps.bind
  · exact Faults.keeps_attempt (fun _ h => h) fun _ h => h
  intro _
  exact Faults.keeps_attempt (fun _ h => h) fun _ h => h

theorem returns_replaceData {numDim : ℕ} {u : Unit} :
    Call.Returns (replaceData faults numDim pages skipEdges) dir u dir' ↔
      (faults.error .createPagesTmp = none ∧ faults.error .writePagesTmp = none ∧
        faults.error .writeSkipTmp = none ∧ faults.error .renamePages = none ∧
          faults.error .renameSkip = none) ∧
      { dir with
        pages := some (writePagesIndex pages numDim)
        pagesTmp := none
        skipEdges := some (skipEdgesBytes skipEdges)
        skipTmp := none } = dir' := by
  simp [replaceData, and_assoc]

theorem replaceData_error {numDim : ℕ} {e : Failure}
    (h : replaceData faults numDim pages skipEdges dir = (.error e, dir')) :
    ¬ faults.ReachesHeader ∧ dir'.header = dir.header := by
  constructor
  · intro hr
    have hreturns : Call.Returns (replaceData faults numDim pages skipEdges) dir () _ :=
      returns_replaceData.mpr
        ⟨⟨hr _ (by decide), hr _ (by decide), hr _ (by decide), hr _ (by decide),
          hr _ (by decide)⟩, rfl⟩
    cases h.symm.trans hreturns
  · have hkeeps : (replaceData faults numDim pages skipEdges dir).2.header = dir.header :=
      keeps_header_replaceData numDim dir.header dir rfl
    rwa [h] at hkeeps

theorem writeHeader_error {e : Failure}
    (h : faults.write .writeHeader (fun text (d : IndexDir) => { d with header := some text })
      (json.toStringPretty header) (cutHeader json header) dir = (.error e, dir')) :
    dir'.header =
      (faults.left .writeHeader).elim dir.header fun n => some (cutHeader json header n) := by
  obtain ⟨-, rfl⟩ := Faults.attempt_error h
  cases faults.left .writeHeader <;> rfl

theorem returns_persistIndexFiles {new : BpannIndex F} {u : Unit} (hpages : dir.pages.isSome)
    (hskip : dir.skipEdges.isSome) :
    Call.Returns (persistIndexFiles json faults new.header new.pages new.skipEdges) dir u dir' ↔
      (∀ op, faults.error op = none) ∧ persistedDir json new = dir' := by
  simp only [persistIndexFiles, replaceFiles, Call.returns_bind, Call.returns_onError,
    Faults.returns_attempt, Faults.returns_write, returns_replaceData]
  constructor
  · rintro ⟨_, _, ⟨hdir, rfl⟩, _, _, hreadPages, _, _, hreadSkip, _, _, ⟨hdata, rfl⟩, hheader, rfl⟩
    obtain ⟨⟨hreadPages, rfl⟩, -⟩ := (Faults.returns_backup hpages).mp hreadPages
    obtain ⟨⟨hreadSkip, rfl⟩, -⟩ := (Faults.returns_backup hskip).mp hreadSkip
    obtain ⟨h₁, h₂, h₃, h₄, h₅⟩ := hdata
    constructor
    · rintro (_ | _ | _ | _ | _ | _ | _ | _ | _) <;> assumption
    · rfl
  · rintro ⟨hops, rfl⟩
    refine ⟨(), dir, ⟨hops _, rfl⟩, dir.pages, dir, ?_, dir.skipEdges, dir, ?_, (), _,
      ⟨⟨hops _, hops _, hops _, hops _, hops _⟩, rfl⟩, hops _, rfl⟩
    · exact (Faults.returns_backup hpages).mpr ⟨⟨hops _, rfl⟩, rfl⟩
    · exact (Faults.returns_backup hskip).mpr ⟨⟨hops _, rfl⟩, rfl⟩

theorem exists_error_persistIndexFiles (json : HeaderJson) (new : BpannIndex F) {op : FileOp}
    (hpages : dir.pages.isSome) (hskip : dir.skipEdges.isSome) (hop : faults.error op ≠ none) :
    ∃ e dir', persistIndexFiles json faults new.header new.pages new.skipEdges dir =
      (.error e, dir') := by
  rcases h : persistIndexFiles json faults new.header new.pages new.skipEdges dir with
    ⟨e | u, dir'⟩
  · exact ⟨e, dir', rfl⟩
  · exact absurd (((returns_persistIndexFiles hpages hskip).mp h).1 op) hop

/-- What a failing persist over old files leaves: the old pages and skip edges,
and the old header unless its write is what failed. -/
structure LeftBehind (json : HeaderJson) (faults : Faults) (header : IndexHeader)
    (dir dir' : IndexDir) : Prop where
  pages : dir'.pages = dir.pages
  skipEdges : dir'.skipEdges = dir.skipEdges
  header : ¬ faults.ReachesHeader ∧ dir'.header = dir.header ∨
    faults.ReachesHeader ∧ dir'.header =
      (faults.left .writeHeader).elim dir.header fun n => some (cutHeader json header n)

theorem leftBehind_rollBack {d : IndexDir} (hpages : dir.pages.isSome)
    (hskip : dir.skipEdges.isSome)
    (h : ¬ faults.ReachesHeader ∧ d.header = dir.header ∨ faults.ReachesHeader ∧
      d.header = (faults.left .writeHeader).elim dir.header fun n =>
        some (cutHeader json header n)) :
    LeftBehind json faults header dir (rollBack dir.pages dir.skipEdges d) := by
  obtain ⟨p, hp⟩ := Option.isSome_iff_exists.mp hpages
  obtain ⟨s, hs⟩ := Option.isSome_iff_exists.mp hskip
  constructor
  · simp [rollBack, hp]
  · simp [rollBack, hs]
  · exact h

theorem leftBehind_persistIndexFiles {e : Failure} (hpages : dir.pages.isSome)
    (hskip : dir.skipEdges.isSome)
    (h : persistIndexFiles json faults header pages skipEdges dir = (.error e, dir')) :
    LeftBehind json faults header dir dir' := by
  have early : ∀ {op}, faults.error op ≠ none → op ≠ .writeHeader →
      LeftBehind json faults header dir dir :=
    fun hop hne => ⟨rfl, rfl, .inl ⟨Faults.not_reachesHeader hop hne, rfl⟩⟩
  unfold persistIndexFiles at h
  obtain h | ⟨_, _, hdir, h⟩ := Call.bind_eq_error.mp h
  · obtain ⟨hop, rfl⟩ := Faults.attempt_error h
    exact early hop (by decide)
  obtain ⟨hdir, rfl⟩ := Faults.returns_attempt.mp hdir
  obtain h | ⟨_, _, hreadPages, h⟩ := Call.bind_eq_error.mp h
  · obtain ⟨hop, rfl⟩ := Faults.backup_error h
    exact early hop (by decide)
  obtain ⟨⟨hreadPages, rfl⟩, rfl⟩ := (Faults.returns_backup hpages).mp hreadPages
  obtain h | ⟨_, _, hreadSkip, h⟩ := Call.bind_eq_error.mp h
  · obtain ⟨hop, rfl⟩ := Faults.backup_error h
    exact early hop (by decide)
  obtain ⟨⟨hreadSkip, rfl⟩, rfl⟩ := (Faults.returns_backup hskip).mp hreadSkip
  obtain ⟨d, hfail, rfl⟩ := Call.onError_eq_error.mp h
  apply leftBehind_rollBack hpages hskip
  obtain hfail | ⟨_, d₁, hdata, hfail⟩ := Call.bind_eq_error.mp hfail
  · exact .inl (replaceData_error hfail)
  obtain ⟨⟨h₁, h₂, h₃, h₄, h₅⟩, rfl⟩ := returns_replaceData.mp hdata
  right
  constructor
  · rintro (_ | _ | _ | _ | _ | _ | _ | _ | _) hop <;> first | assumption | exact absurd rfl hop
  · have hheader := writeHeader_error hfail
    exact hheader

/-- The header reads as `old` after a persist of `header` failed: an operation before
its write fails, the write leaves it as it was, or what it leaves still reads so. -/
def HeaderSurvives (json : HeaderJson) (faults : Faults) (old header : IndexHeader) : Prop :=
  faults.ReachesHeader → ∀ n, faults.left .writeHeader = some n →
    json.fromStr (cutHeader json header n) = .ok old

theorem openDir_failed_persist_iff (json : HeaderJson) (order : SkipEdges → SkipEdges)
    (faults : Faults) (old new : BpannIndex F) (dir dir' : IndexDir) (e : Failure)
    (hold : Persisted json order dir old)
    (h : persistIndexFiles json faults new.header new.pages new.skipEdges dir =
      (.error e, dir')) :
    openDir json order dir' = (openDir json order dir : Outcome (BpannIndex F)) ↔
      HeaderSurvives json faults old.header new.header := by
  obtain ⟨⟨⟨text, htext, hheader⟩, bytes, hbytes, hpages⟩, hedges⟩ := openDir_eq_ok.mp hold.opens
  have hleft := leftBehind_persistIndexFiles (by simp [hbytes]) hold.skipEdges h
  have hopens : openDir json order dir' = .ok old ↔
      ∃ text, dir'.header = some text ∧ json.fromStr text = .ok old.header := by
    rw [openDir_eq_ok, hleft.pages, hleft.skipEdges]
    simp only [hbytes, hpages, hedges, Option.some.injEq, exists_eq_left', and_true]
  rw [hold.opens, hopens]
  obtain ⟨hr, hsame⟩ | ⟨hr, hcut⟩ := hleft.header
  · simp only [hsame, htext, hheader, Option.some.injEq, exists_eq_left', true_iff]
    intro hr'
    exact absurd hr' hr
  · cases hn : faults.left .writeHeader with
    | none => simp [HeaderSurvives, hn, hcut, htext, hheader]
    | some n => simp [HeaderSurvives, hn, hcut, hr]

/-- One operation fails, and cuts what it writes to nothing. -/
def oneFault (op : FileOp) : Faults where
  error o := if o = op then some "No space left on device (os error 28)" else none
  left _ := some 0

theorem exists_persisted_fourPages :
    ∃ old : BpannIndex (BitVec 32), Persisted (oneHeader fourPages.header) List.reverse
      (persistedDir (oneHeader fourPages.header) fourPages) old := by
  obtain ⟨old, hold, -⟩ := exists_openFiles_persist (oneHeader fourPages.header) List.reverse
    fourPages (fromStr_oneHeader _) List.reverse_perm (by decide) fits32_fourPages
    (by simp [fourPages, Page.Aligned]) (by simp [fourPages, Page.RangeOrdered])
  exact ⟨old, (openDir_persistedDir _ _ _).trans hold, rfl⟩

theorem openDir_failed_rename :
    ∃ (old : BpannIndex (BitVec 32)) (e : Failure) (dir' : IndexDir),
      persistIndexFiles (oneHeader fourPages.header) (oneFault .renameSkip) reversedRange.header
        reversedRange.pages reversedRange.skipEdges
          (persistedDir (oneHeader fourPages.header) fourPages) = (.error e, dir') ∧
      openDir (oneHeader fourPages.header) List.reverse dir' = .ok old := by
  obtain ⟨old, hold⟩ := exists_persisted_fourPages
  have hop : (oneFault .renameSkip).error .renameSkip ≠ none := by decide
  obtain ⟨e, dir', h⟩ := exists_error_persistIndexFiles (oneHeader fourPages.header) reversedRange
    rfl hold.skipEdges hop
  have hopen := (openDir_failed_persist_iff _ List.reverse _ old reversedRange _ _ _ hold h).mpr
    fun hr => absurd (hr .renameSkip (by decide)) hop
  exact ⟨old, e, dir', h, hopen.trans hold.opens⟩

theorem prettyHeader_ne_empty (h : IndexHeader) : prettyHeader h ≠ "" := by
  unfold prettyHeader
  exact fun heq => absurd (String.append_eq_empty_iff.mp heq).2 (by decide)

theorem fromStr_oneHeader_empty (h h' : IndexHeader) : (oneHeader h).fromStr "" ≠ .ok h' := by
  simp [oneHeader, (prettyHeader_ne_empty h).symm]

/-- A header whose write fails is cut and stays so. -/
theorem not_openDir_failed_persist :
    ¬ ∀ (json : HeaderJson) (order : SkipEdges → SkipEdges) (faults : Faults)
        (old new : BpannIndex (BitVec 32)) (dir dir' : IndexDir) (e : Failure),
      Persisted json order dir old →
      persistIndexFiles json faults new.header new.pages new.skipEdges dir = (.error e, dir') →
      openDir json order dir' = (openDir json order dir : Outcome (BpannIndex (BitVec 32))) := by
  intro h
  obtain ⟨old, hold⟩ := exists_persisted_fourPages
  have hop : (oneFault .writeHeader).error .writeHeader ≠ none := by decide
  obtain ⟨e, dir', hfail⟩ := exists_error_persistIndexFiles (oneHeader fourPages.header) fourPages
    rfl hold.skipEdges hop
  have hopen := h _ List.reverse (oneFault .writeHeader) old fourPages _ _ _ hold hfail
  rw [hold.opens] at hopen
  obtain ⟨⟨⟨text, htext, hheader⟩, -⟩, -⟩ := openDir_eq_ok.mp hopen
  obtain ⟨hr, -⟩ | ⟨-, hcut⟩ := (leftBehind_persistIndexFiles rfl hold.skipEdges hfail).header
  · apply hr
    rintro (_ | _ | _ | _ | _ | _ | _ | _ | _) hne <;> first | rfl | exact absurd rfl hne
  · have hempty : dir'.header = some "" := hcut
    rw [hempty, Option.some.injEq] at htext
    rw [← htext] at hheader
    exact fromStr_oneHeader_empty _ _ hheader

end BpannIndex

end Ennbo
