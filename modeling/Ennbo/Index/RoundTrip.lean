import Ennbo.Index.Codec

/-! # Reading a persisted index back

An index whose numbers fit the `u32` fields of the format is read back as it was
written, up to what `Page.reload` says.
-/

namespace Ennbo

open Wire

variable {F : Type} [Zero F] [F32Bits F]

namespace Page

/-- The numbers of a page that are written as `u32`. -/
def words : Page F → List ℕ
  | internal pageId centroids childPageIds => pageId :: centroids.length :: childPageIds
  | leaf pageId rowIds none _ _ => pageId :: rowIds.length :: rowIds
  | leaf pageId rowIds (some (start, stop)) _ _ => pageId :: start :: stop :: rowIds

/-- Enough ids or vectors for the number that is written, and a range in order. -/
def Decodable : Page F → Prop
  | internal _ centroids childPageIds => centroids.length ≤ childPageIds.length
  | leaf _ _ (some (start, stop)) _ _ => start ≤ stop
  | leaf _ _ none [] _ => True
  | leaf _ rowIds none (v :: vs) _ => rowIds.length ≤ (v :: vs).length

end Page

/-- The numbers of a skip edge fit `u32`. -/
def EdgeFits32 (e : ℕ × List ℕ) : Prop :=
  e.1 < 2 ^ 32 ∧ e.2.length < 2 ^ 32 ∧ ∀ t ∈ e.2, t < 2 ^ 32

/-- The numbers, the counts and the page sizes of an index fit the `u32` fields. -/
structure BpannIndex.Fits32 (idx : BpannIndex F) : Prop where
  numDim : idx.header.numDim < 2 ^ 32
  pageCount : idx.pages.length < 2 ^ 32
  words : ∀ p ∈ idx.pages, ∀ w ∈ p.words, w < 2 ^ 32
  size : ∀ p ∈ idx.pages, (p.serialize idx.header.numDim).length < 2 ^ 32
  edgeCount : idx.skipEdges.length < 2 ^ 32
  edges : ∀ e ∈ idx.skipEdges, EdgeFits32 e

section Fields

omit [Zero F] [F32Bits F] in
theorem decodes_readPageU32 {n : ℕ} (h : n < 2 ^ 32) : Decodes readPageU32 (u32Bytes n) n :=
  decodes_readU32 _ h

theorem decodes_readF32Vec (numDim : ℕ) (v : List F) :
    Decodes (readF32Vec numDim) (rowBytes numDim v) (fitRow numDim v) := by
  have h : Decodes (readMany readF32 (fitRow numDim v).length)
      ((fitRow numDim v).flatMap f32Bytes) ((fitRow numDim v).map id) := by
    apply decodes_readMany
    intro x _
    have hx := (decodes_readU32 "truncated f32" (F32Bits.toBits_lt x)).map
      (F32Bits.ofBits : ℕ → F)
    rwa [F32Bits.ofBits_toBits] at hx
  rwa [length_fitRow, List.map_id] at h

theorem decodes_readEntry (numDim : ℕ) {e : ℕ × List F} (h : e.1 < 2 ^ 32) :
    Decodes (readEntry numDim) (entryBytes numDim e) (e.1, fitRow numDim e.2) :=
  (decodes_readU32 _ h).bind ((decodes_readF32Vec numDim e.2).map _)

theorem decodes_entries (numDim : ℕ) {entries : List (ℕ × List F)}
    (h : ∀ e ∈ entries, e.1 < 2 ^ 32) :
    Decodes (readMany (readEntry numDim) entries.length)
      (entries.flatMap (entryBytes numDim))
      (entries.map fun e => (e.1, fitRow numDim e.2)) :=
  decodes_readMany fun e he => decodes_readEntry numDim (h e he)

omit [Zero F] [F32Bits F] in
@[simp] theorem length_pageHeader (kind : UInt8) (pageId numDim : ℕ) :
    (pageHeader kind pageId numDim).length = 13 := rfl

omit [Zero F] [F32Bits F] in
theorem decodes_parseHeader (kind : UInt8) {pageId numDim : ℕ} (hp : pageId < 2 ^ 32)
    (hd : numDim < 2 ^ 32) :
    Decodes parseHeader (pageHeader kind pageId numDim) (kind, pageId, numDim) := by
  intro rest
  have hlen : ¬ (pageHeader kind pageId numDim ++ rest).length < 13 := by simp
  rw [parseHeader, if_neg hlen]
  refine (decodes_readU32 _ (by decide : PAGE_MAGIC < 2 ^ 32)).bind ?_ rest
  rw [if_neg (by simp)]
  exact (decodes_readByte _ kind).bind ((decodes_readU32 _ hp).bind ((decodes_readU32 _ hd).map _))

end Fields

section Pages

variable {numDim : ℕ}

omit [Zero F] [F32Bits F] in
theorem map_fst_zip_take {ids : List ℕ} {vs : List (List F)} :
    (ids.zip vs).map Prod.fst = ids.take vs.length := by
  induction ids generalizing vs with
  | nil => simp
  | cons i ids ih => cases vs <;> simp [ih]

omit [Zero F] [F32Bits F] in
theorem map_snd_zip_take {ids : List ℕ} {vs : List (List F)} :
    (ids.zip vs).map Prod.snd = vs.take ids.length := by
  induction ids generalizing vs with
  | nil => simp
  | cons i ids ih => cases vs <;> simp [ih]

/-- The ids and the vectors of a counted list of entries. -/
theorem decodes_countedEntries {α : Type} {ids : List ℕ} {vs : List (List F)} {n : ℕ}
    (hn : n < 2 ^ 32) (hids : ∀ i ∈ ids, i < 2 ^ 32) (hlen : (ids.zip vs).length = n)
    (f : List ℕ → List (List F) → α) :
    Decodes
      (do
        let n ← readPageU32
        let entries ← readMany (readEntry numDim) n
        return f (entries.map Prod.fst) (entries.map Prod.snd))
      (u32Bytes n ++ (ids.zip vs).flatMap (entryBytes numDim))
      (f (ids.take vs.length) ((vs.take ids.length).map (fitRow numDim))) := by
  have he := decodes_entries numDim fun e (he : e ∈ ids.zip vs) => hids e.1 (List.of_mem_zip he).1
  rw [hlen] at he
  have hfst : ids.take vs.length =
      ((ids.zip vs).map fun e => (e.1, fitRow numDim e.2)).map Prod.fst := by
    rw [← map_fst_zip_take, List.map_map]
    rfl
  have hsnd : (vs.take ids.length).map (fitRow numDim) =
      ((ids.zip vs).map fun e => (e.1, fitRow numDim e.2)).map Prod.snd := by
    rw [← map_snd_zip_take, List.map_map, List.map_map]
    rfl
  rw [hfst, hsnd]
  apply (decodes_readU32 "truncated u32" hn).bind
  exact Decodes.map he fun entries => f (entries.map Prod.fst) (entries.map Prod.snd)

theorem decodes_deserializeInternal {pageId : ℕ} {cs : List (List F)} {ids : List ℕ}
    (hn : cs.length < 2 ^ 32) (hids : ∀ i ∈ ids, i < 2 ^ 32) (hlen : cs.length ≤ ids.length) :
    Decodes (deserializeInternal pageId numDim)
      (u32Bytes cs.length ++ (ids.zip cs).flatMap (entryBytes numDim))
      ((Page.internal pageId cs ids).reload numDim) := by
  have hzip : (ids.zip cs).length = cs.length := by simpa using hlen
  have h : Decodes (deserializeInternal pageId numDim) _ _ :=
    decodes_countedEntries hn hids hzip fun rows vs => Page.internal pageId vs rows
  rwa [List.take_of_length_le hlen] at h

theorem decodes_deserializeLeaf {pageId : ℕ} {rowIds : List ℕ} {v : List F} {vs : List (List F)}
    {c : Option (List F)} (hn : rowIds.length < 2 ^ 32) (hids : ∀ i ∈ rowIds, i < 2 ^ 32)
    (hlen : rowIds.length ≤ (v :: vs).length) :
    Decodes (deserializeLeaf pageId numDim)
      (u32Bytes rowIds.length ++ (rowIds.zip (v :: vs)).flatMap (entryBytes numDim))
      ((Page.leaf pageId rowIds none (v :: vs) c).reload numDim) := by
  have hzip : (rowIds.zip (v :: vs)).length = rowIds.length := by simpa using hlen
  have h : Decodes (deserializeLeaf pageId numDim) _ _ :=
    decodes_countedEntries hn hids hzip fun rows vs => Page.leaf pageId rows none vs none
  rwa [List.take_of_length_le hlen] at h

theorem decodes_deserializeRowIdLeaf {pageId : ℕ} {rowIds : List ℕ} {c : Option (List F)}
    (hn : rowIds.length < 2 ^ 32) (hids : ∀ i ∈ rowIds, i < 2 ^ 32) :
    Decodes (deserializeRowIdLeaf pageId numDim)
      (u32Bytes rowIds.length ++ (rowIds.flatMap u32Bytes ++ rowBytes numDim (c.getD [])))
      ((Page.leaf pageId rowIds none [] c).reload numDim) := by
  have hr : Decodes (readMany readPageU32 rowIds.length) (rowIds.flatMap u32Bytes)
      (rowIds.map id) := decodes_readMany fun i hi => decodes_readU32 _ (hids i hi)
  rw [List.map_id] at hr
  exact (decodes_readU32 _ hn).bind (hr.bind (Decodes.map (decodes_readF32Vec numDim _) _))

theorem decodes_deserializeRangeLeaf {pageId start stop : ℕ} {rowIds : List ℕ}
    {vs : List (List F)} {c : Option (List F)} (hstart : start < 2 ^ 32) (hstop : stop < 2 ^ 32)
    (hle : start ≤ stop) :
    Decodes (deserializeRangeLeaf pageId numDim)
      (u32Bytes start ++ (u32Bytes stop ++ rowBytes numDim (c.getD [])))
      ((Page.leaf pageId rowIds (some (start, stop)) vs c).reload numDim) := by
  apply (decodes_readU32 _ hstart).bind
  apply (decodes_readU32 _ hstop).bind
  rw [if_neg (by omega)]
  exact Decodes.map (decodes_readF32Vec numDim _) _

theorem decodes_readPage {p : Page F} (hd : numDim < 2 ^ 32) (hp : ∀ w ∈ p.words, w < 2 ^ 32)
    (hdec : p.Decodable) : Decodes readPage (p.serialize numDim) (p.reload numDim) := by
  match p, hp, hdec with
  | .internal pageId centroids childPageIds, hw, hdec =>
    simp only [Page.words, List.forall_mem_cons] at hw
    obtain ⟨hid, hn, hids⟩ := hw
    exact (decodes_parseHeader 0 hid hd).bind (decodes_deserializeInternal hn hids hdec)
  | .leaf pageId rowIds (some (start, stop)) vectors c, hw, hdec =>
    simp only [Page.words, List.forall_mem_cons] at hw
    obtain ⟨hid, hstart, hstop, hids⟩ := hw
    exact (decodes_parseHeader 3 hid hd).bind (decodes_deserializeRangeLeaf hstart hstop hdec)
  | .leaf pageId rowIds none [] c, hw, hdec =>
    simp only [Page.words, List.forall_mem_cons] at hw
    obtain ⟨hid, hn, hids⟩ := hw
    exact (decodes_parseHeader 2 hid hd).bind (decodes_deserializeRowIdLeaf hn hids)
  | .leaf pageId rowIds none (v :: vs) c, hw, hdec =>
    simp only [Page.words, List.forall_mem_cons] at hw
    obtain ⟨hid, hn, hids⟩ := hw
    exact (decodes_parseHeader 1 hid hd).bind (decodes_deserializeLeaf hn hids hdec)

theorem decodes_readFramedPage {p : Page F} (hd : numDim < 2 ^ 32)
    (hp : ∀ w ∈ p.words, w < 2 ^ 32) (hsize : (p.serialize numDim).length < 2 ^ 32)
    (hdec : p.Decodable) :
    Decodes readFramedPage (frame (p.serialize numDim)) (p.reload numDim) := by
  have hpage : Page.deserialize (p.serialize numDim) = .ok (p.reload numDim) := by
    have h := decodes_readPage hd hp hdec []
    rw [List.append_nil] at h
    rw [Page.deserialize, h]
    rfl
  intro rest
  rw [readFramedPage, Reader.bind_eq_ok]
  refine ⟨_, rest, decodes_readFrame EOF hsize rest, ?_⟩
  rw [hpage]
  rfl

theorem readPagesIndex_writePagesIndex {pages : List (Page F)} (hd : numDim < 2 ^ 32)
    (hcount : pages.length < 2 ^ 32) (hp : ∀ p ∈ pages, ∀ w ∈ p.words, w < 2 ^ 32)
    (hsize : ∀ p ∈ pages, (p.serialize numDim).length < 2 ^ 32)
    (hdec : ∀ p ∈ pages, p.Decodable) :
    readPagesIndex (writePagesIndex pages numDim) = .ok (pages.map (Page.reload numDim)) := by
  have hpages : Decodes (readMany readFramedPage pages.length)
      (pages.flatMap fun p => frame (p.serialize numDim)) (pages.map (Page.reload numDim)) :=
    decodes_readMany fun p h => decodes_readFramedPage hd (hp p h) (hsize p h) (hdec p h)
  have h := (decodes_readU32 EOF hcount).bind hpages []
  rw [List.append_nil] at h
  rw [readPagesIndex, writePagesIndex, List.flatMap_map, h]
  rfl

end Pages

section Edges

omit [Zero F] [F32Bits F]

theorem readTos_flatMap {tos : List ℕ} (h : ∀ t ∈ tos, t < 2 ^ 32) (rest : List UInt8) :
    readTos tos.length (tos.flatMap u32Bytes ++ rest) = (tos, rest) := by
  induction tos with
  | nil => simp [readTos]
  | cons t tos ih =>
    rw [List.forall_mem_cons] at h
    simp only [List.flatMap_cons, u32Bytes, List.cons_append, List.nil_append, List.length_cons,
      readTos, u32OfBytes_u32Bytes h.1]
    rw [ih h.2]

theorem readEdges_flatMap {edges : SkipEdges}
    (h : ∀ e ∈ edges, EdgeFits32 e)
    (out : SkipEdges) :
    readEdges edges.length (edges.flatMap edgeBytes) out =
      edges.foldl (fun out e => out.insert e.1 e.2) out := by
  induction edges generalizing out with
  | nil => simp [readEdges]
  | cons e edges ih =>
    rw [List.forall_mem_cons] at h
    obtain ⟨⟨hfrom, hlen, htos⟩, hrest⟩ := h
    simp only [List.flatMap_cons, edgeBytes, u32Bytes, List.cons_append, List.nil_append,
      List.length_cons, readEdges, u32OfBytes_u32Bytes hfrom,
      u32OfBytes_u32Bytes hlen, List.foldl_cons]
    rw [← ih hrest]
    rw [readTos_flatMap htos]

theorem foldl_insert_of_nodup {edges out : SkipEdges} (h : ((out ++ edges).map Prod.fst).Nodup) :
    edges.foldl (fun out e => out.insert e.1 e.2) out = out ++ edges := by
  induction edges generalizing out with
  | nil => simp
  | cons e edges ih =>
    have hkeep : out.filter (fun o => o.1 != e.1) = out := by
      apply List.filter_eq_self.mpr
      intro o ho
      rw [List.map_append, List.nodup_append] at h
      simpa using h.2.2 o.1 (List.mem_map_of_mem ho) e.1 (by simp)
    rw [List.foldl_cons, SkipEdges.insert, hkeep, ih (by simpa using h)]
    simp

theorem readSkipEdges_skipEdgesBytes {edges : SkipEdges} (hcount : edges.length < 2 ^ 32)
    (h : ∀ e ∈ edges, EdgeFits32 e)
    (hkeys : (edges.map Prod.fst).Nodup) : readSkipEdges (skipEdgesBytes edges) = edges := by
  have hread : readSkipEdges (skipEdgesBytes edges) =
      readEdges edges.length (edges.flatMap edgeBytes) [] := by
    simp only [skipEdgesBytes, u32Bytes, List.cons_append, List.nil_append, readSkipEdges,
      u32OfBytes_u32Bytes hcount]
  rw [hread, readEdges_flatMap h, foldl_insert_of_nodup (by simpa using hkeys), List.nil_append]

end Edges

section Files

namespace BpannIndex

variable {json : HeaderJson} {order : SkipEdges → SkipEdges} {idx : BpannIndex F}

theorem openFiles_persist (hjson : json.fromStr (json.toStringPretty idx.header) = .ok idx.header)
    (hfits : idx.Fits32) (hkeys : (idx.skipEdges.map Prod.fst).Nodup)
    (hdec : ∀ p ∈ idx.pages, p.Decodable) :
    openFiles json order (persist json idx) =
      .ok { idx.reload with skipEdges := order idx.skipEdges } := by
  have hpages := readPagesIndex_writePagesIndex hfits.numDim hfits.pageCount hfits.words
    hfits.size hdec
  have hedges := readSkipEdges_skipEdgesBytes hfits.edgeCount hfits.edges hkeys
  simp only [openFiles, persist, hjson, hpages, hedges, orInvalid]
  rfl

end BpannIndex

end Files

section Stored

/-- Vectors have the row width, a leaf has as many vectors as ids or none. -/
def Page.Aligned (numDim : ℕ) : Page F → Prop
  | internal _ centroids childPageIds =>
    (∀ c ∈ centroids, c.length = numDim) ∧ centroids.length = childPageIds.length
  | leaf _ rowIds _ vectors storedCentroid =>
    (∀ v ∈ vectors, v.length = numDim) ∧ (∀ c ∈ storedCentroid, c.length = numDim) ∧
      (vectors = [] ∨ vectors.length = rowIds.length)

/-- A range of rows does not end before it starts. -/
def Page.RangeOrdered : Page F → Prop
  | leaf _ _ (some (start, stop)) _ _ => start ≤ stop
  | _ => True

/-- A range leaf keeps its range and its centroid. Another leaf with vectors loses its
centroid; where no centroid is there for a leaf without vectors, it gets the zero centroid. -/
def Page.stored (numDim : ℕ) : Page F → Page F
  | internal pageId centroids childPageIds => internal pageId centroids childPageIds
  | leaf pageId _ (some (start, stop)) _ c =>
    leaf pageId [] (some (start, stop)) [] (some (c.getD (List.replicate numDim 0)))
  | leaf pageId rowIds none [] c =>
    leaf pageId rowIds none [] (some (c.getD (List.replicate numDim 0)))
  | leaf pageId rowIds none (v :: vs) _ => leaf pageId rowIds none (v :: vs) none

variable {numDim : ℕ}

omit [Zero F] [F32Bits F] in
theorem Page.Aligned.decodable {p : Page F} (h : p.Aligned numDim) (hr : p.RangeOrdered) :
    p.Decodable := by
  match p, h, hr with
  | .internal _ _ _, ⟨_, hlen⟩, _ => exact hlen.le
  | .leaf _ _ (some (_, _)) _ _, _, hle => exact hle
  | .leaf _ _ none [] _, _, _ => trivial
  | .leaf _ _ none (_ :: _) _, ⟨_, _, hlen⟩, _ => exact (hlen.resolve_left (by simp)).ge

omit [F32Bits F] in
theorem fitRow_getD {c : Option (List F)} (h : ∀ v ∈ c, v.length = numDim) :
    fitRow numDim (c.getD []) = c.getD (List.replicate numDim 0) := by
  cases c with
  | none => simp [fitRow, List.map_const']
  | some v => exact fitRow_of_length (h v rfl)

omit [F32Bits F] in
theorem Page.Aligned.reload_eq {p : Page F} (h : p.Aligned numDim) :
    p.reload numDim = p.stored numDim := by
  match p, h with
  | .internal _ centroids childPageIds, ⟨hwidth, hlen⟩ =>
    rw [Page.reload, map_fitRow_of_length hwidth, hlen, List.take_length]
    rfl
  | .leaf _ _ (some (_, _)) _ c, ⟨_, hc, _⟩ =>
    rw [Page.reload, fitRow_getD hc]
    rfl
  | .leaf _ _ none [] c, ⟨_, hc, _⟩ =>
    rw [Page.reload, fitRow_getD hc]
    rfl
  | .leaf _ rowIds none (v :: vs) _, ⟨hwidth, _, hlen⟩ =>
    have hlen' : (v :: vs).length = rowIds.length := hlen.resolve_left (by simp)
    rw [Page.reload, ← hlen', List.take_length, map_fitRow_of_length hwidth]
    rfl

/-- The map does not depend on the order of its entries. -/
theorem SkipEdges.get_of_perm {edges edges' : SkipEdges} (h : edges'.Perm edges)
    (hkeys : (edges.map Prod.fst).Nodup) (id : ℕ) : edges'.get id = edges.get id := by
  induction h with
  | nil => rfl
  | cons e _ ih =>
    obtain ⟨from', tos⟩ := e
    rw [List.map_cons, List.nodup_cons] at hkeys
    simp only [get, List.lookup_cons] at ih ⊢
    rw [ih hkeys.2]
  | swap e f edges =>
    obtain ⟨from₁, tos₁⟩ := e
    obtain ⟨from₂, tos₂⟩ := f
    have hne : from₁ ≠ from₂ := by
      rintro rfl
      simp at hkeys
    simp only [get, List.lookup_cons]
    by_cases he : id = from₁
    · have hf : (id == from₂) = false := by simpa [he] using hne
      rw [hf]
    · have hf : (id == from₁) = false := by simpa using he
      rw [hf]
  | trans h₁ h₂ ih₁ ih₂ =>
    exact (ih₁ ((h₂.map Prod.fst).nodup_iff.mpr hkeys)).trans (ih₂ hkeys)

namespace BpannIndex

/-- What an index and its reopened form have in common. -/
structure ReopensAs (idx idx' : BpannIndex F) : Prop where
  header : idx'.header = idx.header
  pages : idx'.pages = idx.pages.map (Page.stored idx.header.numDim)
  edges : idx'.skipEdges.Perm idx.skipEdges
  edge : ∀ id, idx'.skipEdges.get id = idx.skipEdges.get id
  leafRowIds : idx'.leafRowIds = idx.leafRowIds

theorem exists_openFiles_persist (json : HeaderJson) (order : SkipEdges → SkipEdges)
    (idx : BpannIndex F) (hjson : json.fromStr (json.toStringPretty idx.header) = .ok idx.header)
    (horder : ∀ edges, (order edges).Perm edges) (hkeys : (idx.skipEdges.map Prod.fst).Nodup)
    (hfits : idx.Fits32) (halign : ∀ p ∈ idx.pages, p.Aligned idx.header.numDim)
    (hrange : ∀ p ∈ idx.pages, p.RangeOrdered) :
    ∃ idx', openFiles json order (persist json idx) = .ok idx' ∧ idx.ReopensAs idx' := by
  have hdec : ∀ p ∈ idx.pages, p.Decodable := fun p hp => (halign p hp).decodable (hrange p hp)
  refine ⟨_, openFiles_persist hjson hfits hkeys hdec, ?_⟩
  constructor
  · rfl
  · exact List.map_congr_left fun p hp => (halign p hp).reload_eq
  · exact horder _
  · exact SkipEdges.get_of_perm (horder _) hkeys
  · unfold leafRowIds
    exact congrArg (fun rows => (rows.insertionSort (· ≤ ·)).destutter (· ≠ ·))
      (leafRows_reload idx)

/-- The header as it is printed. -/
def prettyHeader (h : IndexHeader) : String :=
  "\x7b\n  \"num_dim\": " ++ toString h.numDim ++ ",\n  \"indexed_rows\": " ++
    toString h.indexedRows ++ ",\n  \"root_page_id\": " ++ toString h.rootPageId ++
    ",\n  \"leaf_capacity\": " ++ toString h.leafCapacity ++ ",\n  \"skip_neighbors\": " ++
    toString h.skipNeighbors ++ "\n\x7d"

/-- The text format on one header. -/
def oneHeader (h : IndexHeader) : HeaderJson where
  toStringPretty := prettyHeader
  fromStr text := if text = prettyHeader h then .ok h else .error "expected value"

theorem fromStr_oneHeader (h : IndexHeader) :
    (oneHeader h).fromStr ((oneHeader h).toStringPretty h) = .ok h := by
  simp [oneHeader]

/-- One page of each kind and two edges. -/
def fourPages : BpannIndex (BitVec 32) where
  header :=
    { numDim := 1, indexedRows := 5, rootPageId := 0, leafCapacity := 2, skipNeighbors := 1 }
  pages :=
    [.internal 0 [[7], [8], [9]] [1, 2, 3], .leaf 1 [0, 1] none [[5], [6]] (some [4]),
      .leaf 2 [2] none [] none, .leaf 3 [] (some (3, 5)) [] (some [1])]
  skipEdges := [(1, [2, 3]), (2, [1])]

theorem fits32_fourPages : fourPages.Fits32 where
  numDim := by decide
  pageCount := by decide
  words := by decide
  size := by decide
  edgeCount := by decide
  edges := by simp [fourPages, EdgeFits32]

theorem exists_openFiles_fourPages :
    ∃ idx', openFiles (oneHeader fourPages.header) List.reverse
      (persist (oneHeader fourPages.header) fourPages) = .ok idx' ∧ fourPages.ReopensAs idx' :=
  exists_openFiles_persist (oneHeader fourPages.header) List.reverse fourPages
    (fromStr_oneHeader _) List.reverse_perm (by decide) fits32_fourPages
    (by simp [fourPages, Page.Aligned]) (by simp [fourPages, Page.RangeOrdered])

def reversedRange : BpannIndex (BitVec 32) :=
  { fourPages with pages := [.leaf 0 [] (some (1, 0)) [] none], skipEdges := [] }

theorem not_exists_openFiles_reversedRange :
    ¬ ∀ (json : HeaderJson) (order : SkipEdges → SkipEdges) (idx : BpannIndex (BitVec 32)),
      json.fromStr (json.toStringPretty idx.header) = .ok idx.header →
      (∀ edges, (order edges).Perm edges) → (idx.skipEdges.map Prod.fst).Nodup → idx.Fits32 →
      (∀ p ∈ idx.pages, p.Aligned idx.header.numDim) →
      ∃ idx', openFiles json order (persist json idx) = .ok idx' ∧ idx.ReopensAs idx' := by
  intro h
  have hfits : reversedRange.Fits32 :=
    { numDim := by decide
      pageCount := by decide
      words := by decide
      size := by decide
      edgeCount := by decide
      edges := by simp [reversedRange] }
  obtain ⟨idx', hopen, -⟩ := h (oneHeader reversedRange.header) id reversedRange
    (fromStr_oneHeader _) (fun _ => .refl _) (by decide) hfits (by simp [reversedRange, Page.Aligned])
  have herr : (openFiles (oneHeader reversedRange.header) id
      (persist (oneHeader reversedRange.header) reversedRange) :
        Outcome (BpannIndex (BitVec 32))) =
      .error (.error (.invalidParameter "range leaf start 1 > end 0")) := by
    rfl
  rw [herr] at hopen
  simp at hopen

end BpannIndex

end Stored

end Ennbo
