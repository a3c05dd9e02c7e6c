import Ennbo.Index.RoundTrip
import Ennbo.Index.Sync

/-! # Writing a reopened index again

The bytes of a reopened index are compared with the files it was read from. Pages
are written as before, but for a leaf with vectors and no ids. The edges are
written in the order of a map, which reading does not keep.
-/

namespace Ennbo

open Wire

variable {F : Type} [Zero F] [F32Bits F] {numDim : ℕ}

section Pages

theorem rowBytes_fitRow (v : List F) : rowBytes numDim (fitRow numDim v) = rowBytes numDim v := by
  unfold rowBytes
  rw [fitRow_of_length (length_fitRow numDim v)]

theorem flatMap_entryBytes_fitRow (numDim : ℕ) (ids : List ℕ) (vs : List (List F)) :
    (ids.zip (vs.map (fitRow numDim))).flatMap (entryBytes numDim) =
      (ids.zip vs).flatMap (entryBytes numDim) := by
  induction ids generalizing vs with
  | nil => simp
  | cons i ids ih =>
    cases vs with
    | nil => simp
    | cons v vs =>
      simp only [List.map_cons, List.zip_cons_cons, List.flatMap_cons, ih, entryBytes,
        rowBytes_fitRow]

omit [Zero F] [F32Bits F] in
theorem zip_take_left (ids : List ℕ) (vs : List (List F)) :
    (ids.take vs.length).zip vs = ids.zip vs := by
  induction ids generalizing vs with
  | nil => simp
  | cons i ids ih => cases vs <;> simp [ih]

omit [Zero F] [F32Bits F] in
theorem zip_take_right (ids : List ℕ) (vs : List (List F)) :
    ids.zip (vs.take ids.length) = ids.zip vs := by
  induction ids generalizing vs with
  | nil => simp
  | cons i ids ih => cases vs <;> simp [ih]

/-- A leaf with vectors but no row ids. -/
def Page.Hollow : Page F → Prop
  | leaf _ [] none (_ :: _) _ => True
  | _ => False

theorem Page.serialize_reload {p : Page F} (h : ¬ p.Hollow) :
    (p.reload numDim).serialize numDim = p.serialize numDim := by
  match p, h with
  | .internal _ centroids childPageIds, _ =>
    simp only [Page.reload, Page.serialize, List.length_map, flatMap_entryBytes_fitRow,
      zip_take_left]
  | .leaf _ _ (some (_, _)) _ _, _ =>
    simp only [Page.reload, Page.emptyRangeLeaf, Page.serialize, Option.getD_some,
      rowBytes_fitRow]
  | .leaf _ _ none [] _, _ =>
    simp only [Page.reload, Page.serialize, Option.getD_some, rowBytes_fitRow]
  | .leaf _ [] none (_ :: _) _, h => exact absurd trivial h
  | .leaf pageId (i :: ids) none (v :: vs) _, _ =>
    have hz := flatMap_entryBytes_fitRow numDim (i :: ids) ((v :: vs).take (i :: ids).length)
    rw [zip_take_right] at hz
    simp only [Page.reload, Page.serialize, List.take_succ_cons, List.map_cons,
      List.length_cons] at hz ⊢
    rw [hz]

theorem Page.frame_reload_ne {p : Page F} (h : p.Hollow) (rest rest' : List UInt8) :
    frame (p.serialize numDim) ++ rest ≠ frame ((p.reload numDim).serialize numDim) ++ rest' := by
  match p, h with
  | .leaf pageId [] none (v :: vs) c, _ =>
    intro he
    have hkind := congrArg (fun bytes => bytes[8]?) he
    simp [frame, Page.reload, Page.serialize, pageHeader, u32Bytes] at hkind

theorem frames_reload_iff {pages : List (Page F)} :
    (pages.map (Page.serialize numDim)).flatMap frame =
        ((pages.map (Page.reload numDim)).map (Page.serialize numDim)).flatMap frame ↔
      ∀ p ∈ pages, ¬ p.Hollow := by
  induction pages with
  | nil => simp
  | cons p pages ih =>
    simp only [List.map_cons, List.flatMap_cons, List.forall_mem_cons]
    constructor
    · intro h
      have hp : ¬ p.Hollow := fun hp => Page.frame_reload_ne hp _ _ h
      rw [Page.serialize_reload hp, List.append_cancel_left_eq] at h
      exact ⟨hp, ih.mp h⟩
    · rintro ⟨hp, hpages⟩
      rw [Page.serialize_reload hp, ih.mpr hpages]

end Pages

section Open

@[simp] theorem length_rowBytes (v : List F) : (rowBytes numDim v).length = numDim * 4 := by
  simp [rowBytes, f32Bytes, List.length_flatMap, length_fitRow]

theorem length_entries (entries : List (ℕ × List F)) :
    (entries.flatMap (entryBytes numDim)).length = entries.length * (4 + numDim * 4) := by
  simp [entryBytes, List.length_flatMap]

omit [Zero F] in
theorem takes_readEntry : Takes (readEntry numDim : Reader (ℕ × List F)) (4 + numDim * 4) := by
  have hf : Takes (readF32 : Reader F) (4 + 0) :=
    (takes_readU32 _).bind fun _ => takes_pure _
  have hv : Takes (readF32Vec numDim : Reader (List F)) (numDim * 4) := takes_readMany hf numDim
  have h := (takes_readU32 "truncated u32").bind fun id =>
    hv.bind fun v => takes_pure (id, v)
  exact h

theorem le_length_of_readMany {n : ℕ} {entries : List (ℕ × List F)}
    {out : List (ℕ × List F) × List UInt8}
    (h : readMany (readEntry numDim) n (entries.flatMap (entryBytes numDim)) = .ok out) :
    n ≤ entries.length := by
  have htake := takes_readMany takes_readEntry n _ out.1 out.2 h
  rw [length_entries] at htake
  exact Nat.le_of_mul_le_mul_right (by omega : n * (4 + numDim * 4) ≤ entries.length * _) (by omega)

theorem le_length_of_countedEntries {α : Type} {n : ℕ} (hn : n < 2 ^ 32)
    {entries : List (ℕ × List F)} {f : List (ℕ × List F) → α} {out : α × List UInt8}
    (h : (do
        let n ← readPageU32
        let entries ← readMany (readEntry numDim) n
        return f entries : Reader α)
      (u32Bytes n ++ entries.flatMap (entryBytes numDim)) = .ok out) : n ≤ entries.length := by
  rw [(decodes_readPageU32 hn).bind_append] at h
  obtain ⟨a, left⟩ := out
  obtain ⟨_, _, hread, -⟩ := Reader.bind_eq_ok.mp h
  exact le_length_of_readMany hread

/-- A page that is read back could be decoded. -/
theorem decodable_of_readPage {p : Page F} {out : Page F × List UInt8} (hd : numDim < 2 ^ 32)
    (hp : ∀ w ∈ p.words, w < 2 ^ 32) (h : readPage (p.serialize numDim) = .ok out) :
    p.Decodable := by
  match p, hp, h with
  | .internal pageId centroids childPageIds, hw, h =>
    simp only [Page.words, List.forall_mem_cons] at hw
    obtain ⟨hid, hn, -⟩ := hw
    unfold readPage Page.serialize at h
    rw [(decodes_parseHeader 0 hid hd).bind_append] at h
    have hlen := le_length_of_countedEntries hn (f := fun entries =>
      Page.internal pageId (entries.map Prod.snd) (entries.map Prod.fst)) h
    simpa [Page.Decodable] using hlen
  | .leaf pageId rowIds (some (start, stop)) vectors c, hw, h =>
    simp only [Page.words, List.forall_mem_cons] at hw
    obtain ⟨hid, hstart, hstop, -⟩ := hw
    unfold readPage Page.serialize at h
    rw [(decodes_parseHeader 3 hid hd).bind_append] at h
    change deserializeRangeLeaf pageId numDim _ = _ at h
    unfold deserializeRangeLeaf at h
    rw [(decodes_readPageU32 hstart).bind_append,
      (decodes_readPageU32 hstop).bind_append] at h
    change start ≤ stop
    by_contra hlt
    rw [if_pos (by omega)] at h
    simp [Reader.fail] at h
  | .leaf pageId rowIds none [] c, hw, h => trivial
  | .leaf pageId rowIds none (v :: vs) c, hw, h =>
    simp only [Page.words, List.forall_mem_cons] at hw
    obtain ⟨hid, hn, -⟩ := hw
    unfold readPage Page.serialize at h
    rw [(decodes_parseHeader 1 hid hd).bind_append] at h
    have hlen := le_length_of_countedEntries hn (f := fun entries =>
      Page.leaf pageId (entries.map Prod.fst) none (entries.map Prod.snd) none) h
    simpa [Page.Decodable] using hlen

/-- Pages that are read back could all be decoded. -/
theorem decodable_of_readMany {pages : List (Page F)} {rest : List UInt8}
    {out : List (Page F) × List UInt8} (hd : numDim < 2 ^ 32)
    (hp : ∀ p ∈ pages, ∀ w ∈ p.words, w < 2 ^ 32)
    (hsize : ∀ p ∈ pages, (p.serialize numDim).length < 2 ^ 32)
    (h : readMany readFramedPage pages.length
      ((pages.map (Page.serialize numDim)).flatMap frame ++ rest) = .ok out) :
    ∀ p ∈ pages, p.Decodable := by
  induction pages generalizing out with
  | nil => simp
  | cons p pages ih =>
    rw [List.forall_mem_cons] at hp hsize ⊢
    rw [List.length_cons, readMany, List.map_cons, List.flatMap_cons, List.append_assoc] at h
    obtain ⟨qs, left⟩ := out
    obtain ⟨q, mid, hq, h⟩ := Reader.bind_eq_ok.mp h
    obtain ⟨qs, mid', hqs, -⟩ := Reader.bind_eq_ok.mp h
    have hframe := decodes_readFrame EOF hsize.1
    have hpage : p.Decodable := by
      unfold readFramedPage at hq
      rw [hframe.bind_append] at hq
      rcases hdes : (readPage : Reader (Page F)) (p.serialize numDim) with e | out
      · simp [Page.deserialize, hdes, Except.map, Reader.fail] at hq
      · exact decodable_of_readPage hd hp.1 hdes
    rw [decodes_readFramedPage hd hp.1 hsize.1 hpage _] at hq
    obtain ⟨rfl, rfl⟩ := Prod.mk.inj (Except.ok.inj hq)
    exact ⟨hpage, ih hp.2 hsize.2 hqs⟩

theorem decodable_of_openFiles {json : HeaderJson} {order : SkipEdges → SkipEdges}
    {idx idx' : BpannIndex F} (hfits : idx.Fits32)
    (h : BpannIndex.openFiles json order (idx.persist json) = .ok idx') :
    ∀ p ∈ idx.pages, p.Decodable := by
  unfold BpannIndex.openFiles at h
  rw [Outcome.bind_eq_ok] at h
  obtain ⟨header, -, h⟩ := h
  rw [Outcome.bind_eq_ok] at h
  obtain ⟨pages, hpages, -⟩ := h
  have hread : readPagesIndex (writePagesIndex idx.pages idx.header.numDim) = .ok pages := by
    unfold BpannIndex.orInvalid at hpages
    split at hpages
    next heq =>
      cases hpages
      exact heq
    next => simp at hpages
  unfold readPagesIndex writePagesIndex at hread
  rw [(decodes_readU32 EOF hfits.pageCount).bind_append] at hread
  rcases hmany : readMany (readFramedPage : Reader (Page F)) idx.pages.length
    ((idx.pages.map (Page.serialize idx.header.numDim)).flatMap frame) with e | out
  · rw [hmany] at hread
    simp [Except.map] at hread
  · exact decodable_of_readMany hfits.numDim hfits.words hfits.size
      (by rw [List.append_nil]; exact hmany)

end Open

section Rewrite

namespace BpannIndex

variable {idx : BpannIndex F}

theorem skipEdgesBytes_swap_ne {e f : ℕ × List ℕ} {edges : SkipEdges} (he : e.1 < 2 ^ 32)
    (hf : f.1 < 2 ^ 32) (hne : e.1 ≠ f.1) :
    skipEdgesBytes (f :: e :: edges) ≠ skipEdgesBytes (e :: f :: edges) := by
  intro h
  simp only [skipEdgesBytes, List.length_cons, List.append_cancel_left_eq, List.flatMap_cons,
    edgeBytes, List.append_assoc] at h
  have hread := congrArg (readU32 "") h
  rw [decodes_readU32 "" hf, decodes_readU32 "" he] at hread
  exact hne (Prod.mk.inj (Except.ok.inj hread)).1.symm

theorem writePagesIndex_reload_iff (pages : List (Page F)) :
    writePagesIndex pages numDim = writePagesIndex (pages.map (Page.reload numDim)) numDim ↔
      ∀ p ∈ pages, ¬ p.Hollow := by
  unfold writePagesIndex
  rw [List.length_map, List.append_cancel_left_eq]
  exact frames_reload_iff

theorem onDiskIndexedRows_persist {json : HeaderJson}
    (hjson : json.fromStr (json.toStringPretty idx.header) = .ok idx.header) :
    onDiskIndexedRows json (persist json idx) = some idx.header.indexedRows := by
  simp [onDiskIndexedRows, persist, hjson, Except.toOption]

def Canonical (idx : BpannIndex F) : Prop :=
  idx.skipEdges.length ≤ 1 ∧ ∀ p ∈ idx.pages, ¬ p.Hollow

theorem onDiskIndexMatches_reopened (json : HeaderJson) (order : SkipEdges → SkipEdges) :
    onDiskIndexMatches (persist json idx) { idx.reload with skipEdges := order idx.skipEdges } ↔
      (∀ p ∈ idx.pages, ¬ p.Hollow) ∧
        skipEdgesBytes idx.skipEdges = skipEdgesBytes (order idx.skipEdges) := by
  unfold onDiskIndexMatches
  rw [Bool.and_eq_true, beq_iff_eq, beq_iff_eq]
  exact and_congr (writePagesIndex_reload_iff idx.pages) Iff.rfl

/-- The comparison of the bytes is the comparison of what they read back as. -/
theorem onDiskIndexMatches_persist_iff (json : HeaderJson) {stored : BpannIndex F}
    (hdim : stored.header.numDim = idx.header.numDim) (hfits : idx.Fits32) (hfits' : stored.Fits32)
    (hkeys : (idx.skipEdges.map Prod.fst).Nodup) (hkeys' : (stored.skipEdges.map Prod.fst).Nodup)
    (hdec : ∀ p ∈ idx.pages, p.Decodable) (hdec' : ∀ p ∈ stored.pages, p.Decodable)
    (hpages : ∀ p ∈ idx.pages, ¬ p.Hollow) (hpages' : ∀ p ∈ stored.pages, ¬ p.Hollow) :
    onDiskIndexMatches (persist json stored) idx ↔
      idx.reload.pages = stored.reload.pages ∧ idx.skipEdges = stored.skipEdges := by
  have hread := readPagesIndex_writePagesIndex hfits.numDim hfits.pageCount hfits.words
    hfits.size hdec
  have hread' := readPagesIndex_writePagesIndex hfits'.numDim hfits'.pageCount hfits'.words
    hfits'.size hdec'
  have hedges := readSkipEdges_skipEdgesBytes hfits.edgeCount hfits.edges hkeys
  have hedges' := readSkipEdges_skipEdgesBytes hfits'.edgeCount hfits'.edges hkeys'
  unfold onDiskIndexMatches
  rw [Bool.and_eq_true, beq_iff_eq, beq_iff_eq]
  constructor
  · rintro ⟨hp, he⟩
    change writePagesIndex stored.pages stored.header.numDim = _ at hp
    change skipEdgesBytes stored.skipEdges = _ at he
    rw [hp, hread] at hread'
    rw [he, hedges] at hedges'
    exact ⟨Except.ok.inj hread', hedges'⟩
  · rintro ⟨hp, he⟩
    have hw : writePagesIndex stored.pages stored.header.numDim =
        writePagesIndex stored.reload.pages stored.header.numDim :=
      (writePagesIndex_reload_iff stored.pages).mpr hpages'
    have hw' : writePagesIndex idx.pages idx.header.numDim =
        writePagesIndex idx.reload.pages idx.header.numDim :=
      (writePagesIndex_reload_iff idx.pages).mpr hpages
    refine ⟨?_, ?_⟩
    · change writePagesIndex stored.pages stored.header.numDim = _
      rw [hw, hw', hp, hdim]
    · rw [he]
      rfl

/-- The first two edges the other way round. -/
def swapEdges : SkipEdges → SkipEdges
  | e :: f :: edges => f :: e :: edges
  | edges => edges

omit [Zero F] [F32Bits F] in
theorem swapEdges_perm : ∀ edges : SkipEdges, (swapEdges edges).Perm edges
  | e :: f :: edges => .swap e f edges
  | [_] => .refl _
  | [] => .refl _

/-- A map of one edge has one order, and a second edge gives two. -/
theorem skipEdgesBytes_order_iff (hfits : idx.Fits32)
    (hkeys : (idx.skipEdges.map Prod.fst).Nodup) :
    (∀ order : SkipEdges → SkipEdges, (∀ edges, (order edges).Perm edges) →
        skipEdgesBytes idx.skipEdges = skipEdgesBytes (order idx.skipEdges)) ↔
      idx.skipEdges.length ≤ 1 := by
  have hedges := hfits.edges
  generalize idx.skipEdges = edges at hkeys hedges
  constructor
  · intro h
    match edges, hkeys, hedges, h swapEdges swapEdges_perm with
    | [], _, _, _ => simp
    | [_], _, _, _ => simp
    | e :: f :: edges, hkeys, hedges, hswap =>
      simp only [List.map_cons, List.nodup_cons, List.mem_cons, not_or] at hkeys
      simp only [List.forall_mem_cons] at hedges
      exact absurd hswap.symm (skipEdgesBytes_swap_ne hedges.1.1 hedges.2.1.1 hkeys.1.1)
  · intro hlen order horder
    have hperm := horder edges
    match edges, hlen with
    | [], _ => rw [hperm.eq_nil]
    | [e], _ => rw [List.perm_singleton.mp hperm]

/-- A reopened index agrees with its files in every order of its edges, and is not written
again for its rows, just when it is canonical. -/
theorem reopened_upToDate_iff {D : Type} (json : HeaderJson) (idx : BpannIndex F) (nrows : ℕ)
    (hjson : json.fromStr (json.toStringPretty idx.header) = .ok idx.header)
    (hkeys : (idx.skipEdges.map Prod.fst).Nodup) (hfits : idx.Fits32)
    (hrows : idx.header.indexedRows = nrows)
    (hopen : ∃ (order : SkipEdges → SkipEdges) (idx' : BpannIndex F),
      openFiles json order (persist json idx) = .ok idx') :
    (∀ order : SkipEdges → SkipEdges, (∀ edges, (order edges).Perm edges) →
      ∀ idx' : BpannIndex F, openFiles json order (persist json idx) = .ok idx' →
        onDiskIndexMatches (persist json idx) idx' ∧
          IncrementalIndex.needsDiskRewrite
            ({ indices := [idx'], indexedRows := nrows } : IncrementalIndex D F)
            (onDiskIndexedRows json (persist json idx)) (onDiskIndexMatches (persist json idx))
            false nrows = false) ↔
      idx.Canonical := by
  obtain ⟨_, _, hopen⟩ := hopen
  have hdec := decodable_of_openFiles hfits hopen
  have hread : ∀ order : SkipEdges → SkipEdges, openFiles json order (persist json idx) =
      .ok { idx.reload with skipEdges := order idx.skipEdges } := fun order =>
    openFiles_persist hjson hfits hkeys hdec
  have hrewrite : ∀ idx' : BpannIndex F, onDiskIndexMatches (persist json idx) idx' →
      IncrementalIndex.needsDiskRewrite
        ({ indices := [idx'], indexedRows := nrows } : IncrementalIndex D F)
        (onDiskIndexedRows json (persist json idx)) (onDiskIndexMatches (persist json idx))
        false nrows = false := by
    intro idx' hmatch
    simp [IncrementalIndex.needsDiskRewrite, onDiskIndexedRows_persist hjson, hrows, hmatch]
  constructor
  · intro h
    have hmatch := fun order horder =>
      (onDiskIndexMatches_reopened json order).mp (h order horder _ (hread order)).1
    constructor
    · exact (skipEdgesBytes_order_iff hfits hkeys).mp fun order horder => (hmatch order horder).2
    · exact (hmatch id fun _ => .refl _).1
  · rintro ⟨hlen, hpages⟩ order horder idx' hidx'
    rw [hread order] at hidx'
    obtain rfl := Except.ok.inj hidx'
    have hedges := (skipEdgesBytes_order_iff hfits hkeys).mpr hlen order horder
    have hmatch := (onDiskIndexMatches_reopened json order).mpr ⟨hpages, hedges⟩
    exact ⟨hmatch, hrewrite _ hmatch⟩

def oneEdge : BpannIndex (BitVec 32) := { fourPages with skipEdges := [(1, [2, 3])] }

theorem decodable_fourPages : ∀ p ∈ fourPages.pages, p.Decodable := by
  simp [fourPages, Page.Decodable]

theorem fits32_oneEdge : oneEdge.Fits32 where
  numDim := by decide
  pageCount := by decide
  words := by decide
  size := by decide
  edgeCount := by decide
  edges := by simp [oneEdge, EdgeFits32]

theorem canonical_oneEdge : oneEdge.Canonical :=
  ⟨by decide, by simp [oneEdge, fourPages, Page.Hollow]⟩

theorem oneEdge_upToDate :
    oneEdge.Canonical ∧ ∀ order : SkipEdges → SkipEdges, (∀ edges, (order edges).Perm edges) →
      ∀ idx' : BpannIndex (BitVec 32),
        openFiles (oneHeader oneEdge.header) order
          (persist (oneHeader oneEdge.header) oneEdge) = .ok idx' →
        onDiskIndexMatches (persist (oneHeader oneEdge.header) oneEdge) idx' ∧
          IncrementalIndex.needsDiskRewrite
            ({ indices := [idx'], indexedRows := 5 } : IncrementalIndex ℚ (BitVec 32))
            (onDiskIndexedRows (oneHeader oneEdge.header)
              (persist (oneHeader oneEdge.header) oneEdge))
            (onDiskIndexMatches (persist (oneHeader oneEdge.header) oneEdge)) false 5 = false :=
  ⟨canonical_oneEdge, (reopened_upToDate_iff (oneHeader oneEdge.header) oneEdge 5
    (fromStr_oneHeader _) (by decide) fits32_oneEdge rfl
    ⟨id, _, openFiles_persist (fromStr_oneHeader _) fits32_oneEdge (by decide)
      decodable_fourPages⟩).mpr canonical_oneEdge⟩

/-- Two edges in another order do not agree with the file they were read from. -/
theorem fourPages_not_upToDate :
    ∃ order : SkipEdges → SkipEdges, (∀ edges, (order edges).Perm edges) ∧
      ∃ idx' : BpannIndex (BitVec 32),
        openFiles (oneHeader fourPages.header) order
          (persist (oneHeader fourPages.header) fourPages) = .ok idx' ∧
        onDiskIndexMatches (persist (oneHeader fourPages.header) fourPages) idx' = false ∧
        IncrementalIndex.needsDiskRewrite
          ({ indices := [idx'], indexedRows := 5 } : IncrementalIndex ℚ (BitVec 32))
          (onDiskIndexedRows (oneHeader fourPages.header)
            (persist (oneHeader fourPages.header) fourPages))
          (onDiskIndexMatches (persist (oneHeader fourPages.header) fourPages)) false 5 = true := by
  have hmatch : onDiskIndexMatches (persist (oneHeader fourPages.header) fourPages)
      { fourPages.reload with skipEdges := swapEdges fourPages.skipEdges } = false := by
    rw [Bool.eq_false_iff, Ne, onDiskIndexMatches_reopened]
    rintro ⟨-, hedges⟩
    exact absurd hedges (by decide)
  refine ⟨swapEdges, swapEdges_perm, _, openFiles_persist (fromStr_oneHeader _) fits32_fourPages
    (by decide) decodable_fourPages, hmatch, ?_⟩
  rw [onDiskIndexedRows_persist (fromStr_oneHeader _)]
  simpa [IncrementalIndex.needsDiskRewrite] using Or.inr hmatch

end BpannIndex

end Rewrite

end Ennbo
