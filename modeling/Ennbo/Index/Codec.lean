import Ennbo.Index.Reload
import Ennbo.Wire.Reader

/-! # The byte format of an index

An index is three files: the header as text, the pages and the skip edges as
bytes. Pages have four layouts and stand behind their length. The text format of
the header belongs to another crate and is a parameter.
-/

namespace Ennbo

open Wire

/-- The bit pattern of a single-precision float. -/
class F32Bits (F : Type) where
  toBits : F → ℕ
  ofBits : ℕ → F
  toBits_lt : ∀ x, toBits x < 2 ^ 32
  ofBits_toBits : ∀ x, ofBits (toBits x) = x

/-- Floats given by their bits. -/
instance : F32Bits (BitVec 32) where
  toBits := BitVec.toNat
  ofBits := BitVec.ofNat 32
  toBits_lt x := x.isLt
  ofBits_toBits x := BitVec.ofNat_toNat 32 x

def PAGE_MAGIC : ℕ := 0x4250414E

variable {F : Type} [Zero F] [F32Bits F]

section Write

def f32Bytes (x : F) : List UInt8 := u32Bytes (F32Bits.toBits x)

/-- A vector as `num_dim` floats, cut or padded with zeros. -/
def rowBytes (numDim : ℕ) (v : List F) : List UInt8 := (fitRow numDim v).flatMap f32Bytes

def entryBytes (numDim : ℕ) (e : ℕ × List F) : List UInt8 := u32Bytes e.1 ++ rowBytes numDim e.2

def pageHeader (kind : UInt8) (pageId numDim : ℕ) : List UInt8 :=
  u32Bytes PAGE_MAGIC ++ ([kind] ++ (u32Bytes pageId ++ u32Bytes numDim))

def Page.serialize (numDim : ℕ) : Page F → List UInt8
  | internal pageId centroids childPageIds =>
    pageHeader 0 pageId numDim ++
      (u32Bytes centroids.length ++ (childPageIds.zip centroids).flatMap (entryBytes numDim))
  | leaf pageId _ (some (start, stop)) _ storedCentroid =>
    pageHeader 3 pageId numDim ++
      (u32Bytes start ++ (u32Bytes stop ++ rowBytes numDim (storedCentroid.getD [])))
  | leaf pageId rowIds none [] storedCentroid =>
    pageHeader 2 pageId numDim ++
      (u32Bytes rowIds.length ++
        (rowIds.flatMap u32Bytes ++ rowBytes numDim (storedCentroid.getD [])))
  | leaf pageId rowIds none (v :: vs) _ =>
    pageHeader 1 pageId numDim ++
      (u32Bytes rowIds.length ++ (rowIds.zip (v :: vs)).flatMap (entryBytes numDim))

def writePagesIndex (pages : List (Page F)) (numDim : ℕ) : List UInt8 :=
  u32Bytes pages.length ++ (pages.map (Page.serialize numDim)).flatMap frame

omit [Zero F] [F32Bits F]

def edgeBytes (edge : ℕ × List ℕ) : List UInt8 :=
  u32Bytes edge.1 ++ (u32Bytes edge.2.length ++ edge.2.flatMap u32Bytes)

def skipEdgesBytes (edges : SkipEdges) : List UInt8 :=
  u32Bytes edges.length ++ edges.flatMap edgeBytes

end Write

section Read

/-- The kind, the page id and the dimension at the front of a page. -/
def parseHeader : Reader (UInt8 × ℕ × ℕ) := fun data =>
  if data.length < 13 then .error "page too short"
  else
    (do
      let magic ← readU32 "page too short"
      if magic ≠ PAGE_MAGIC then Reader.fail "bad page magic"
      else
        let kind ← readByte "page too short"
        let pageId ← readU32 "page too short"
        let numDim ← readU32 "page too short"
        return (kind, pageId, numDim) : Reader _) data

def readPageU32 : Reader ℕ := readU32 "truncated u32"

def readF32 : Reader F := do
  let bits ← readU32 "truncated f32"
  return F32Bits.ofBits bits

def readF32Vec (numDim : ℕ) : Reader (List F) := readMany readF32 numDim

/-- An id followed by a vector. -/
def readEntry (numDim : ℕ) : Reader (ℕ × List F) := do
  let id ← readPageU32
  let v ← readF32Vec numDim
  return (id, v)

def deserializeInternal (pageId numDim : ℕ) : Reader (Page F) := do
  let n ← readPageU32
  let entries ← readMany (readEntry numDim) n
  return .internal pageId (entries.map Prod.snd) (entries.map Prod.fst)

def deserializeLeaf (pageId numDim : ℕ) : Reader (Page F) := do
  let n ← readPageU32
  let entries ← readMany (readEntry numDim) n
  return .leaf pageId (entries.map Prod.fst) none (entries.map Prod.snd) none

def deserializeRowIdLeaf (pageId numDim : ℕ) : Reader (Page F) := do
  let n ← readPageU32
  let rowIds ← readMany readPageU32 n
  let centroid ← readF32Vec numDim
  return .leaf pageId rowIds none [] (some centroid)

def deserializeRangeLeaf (pageId numDim : ℕ) : Reader (Page F) := do
  let start ← readPageU32
  let stop ← readPageU32
  if stop < start then Reader.fail s!"range leaf start {start} > end {stop}"
  else
    let centroid ← readF32Vec numDim
    return .emptyRangeLeaf pageId start stop centroid

def deserializeBody (kind : UInt8) (pageId numDim : ℕ) : Reader (Page F) :=
  if kind = 0 then deserializeInternal pageId numDim
  else if kind = 1 then deserializeLeaf pageId numDim
  else if kind = 2 then deserializeRowIdLeaf pageId numDim
  else if kind = 3 then deserializeRangeLeaf pageId numDim
  else Reader.fail s!"unknown page kind {kind.toNat}"

def readPage : Reader (Page F) := do
  let h ← parseHeader
  deserializeBody h.1 h.2.1 h.2.2

def Page.deserialize (data : List UInt8) : Except String (Page F) := (readPage data).map Prod.fst

/-- The text of the error that `read_exact` reports at the end of a file. -/
def EOF : String := "failed to fill whole buffer"

def readFramedPage : Reader (Page F) := do
  let data ← readFrame EOF
  match Page.deserialize data with
  | .ok page => return page
  | .error e => Reader.fail e

def readPagesIndex (data : List UInt8) : Except String (List (Page F)) :=
  ((do
    let n ← readU32 EOF
    readMany readFramedPage n : Reader _) data).map Prod.fst

/-- The targets of one edge, as many as the data still holds. -/
def readTos : ℕ → List UInt8 → List ℕ × List UInt8
  | m + 1, b₀ :: b₁ :: b₂ :: b₃ :: rest =>
    let (tos, rest) := readTos m rest
    (u32OfBytes b₀ b₁ b₂ b₃ :: tos, rest)
  | _, data => ([], data)

/-- The loop over the edges; it stops without an error when the data is short. -/
def readEdges : ℕ → List UInt8 → SkipEdges → SkipEdges
  | n + 1, b₀ :: b₁ :: b₂ :: b₃ :: c₀ :: c₁ :: c₂ :: c₃ :: rest, out =>
    let (tos, rest) := readTos (u32OfBytes c₀ c₁ c₂ c₃) rest
    readEdges n rest (out.insert (u32OfBytes b₀ b₁ b₂ b₃) tos)
  | _, _, out => out

def readSkipEdges : List UInt8 → SkipEdges
  | b₀ :: b₁ :: b₂ :: b₃ :: rest => readEdges (u32OfBytes b₀ b₁ b₂ b₃) rest []
  | _ => []

end Read

section Files

/-- The files of an index directory. -/
structure IndexFiles where
  header : String
  pages : List UInt8
  skipEdges : List UInt8

/-- The text form of the header. -/
structure HeaderJson where
  toStringPretty : IndexHeader → String
  fromStr : String → Except String IndexHeader

namespace BpannIndex

/-- The files that `persist` writes. -/
def persist (json : HeaderJson) (idx : BpannIndex F) : IndexFiles where
  header := json.toStringPretty idx.header
  pages := writePagesIndex idx.pages idx.header.numDim
  skipEdges := skipEdgesBytes idx.skipEdges

/-- Report an error text of a reader as the crate's error. -/
def orInvalid {α : Type} : Except String α → Outcome α
  | .ok a => .ok a
  | .error e => .error (.error (.invalidParameter e))

/-- `BpannIndex::open`; `order` is the iteration order of the map that was read. -/
def openFiles (json : HeaderJson) (order : SkipEdges → SkipEdges) (files : IndexFiles) :
    Outcome (BpannIndex F) := do
  let header ← orInvalid (json.fromStr files.header)
  let pages ← orInvalid (readPagesIndex files.pages)
  return { header := header, pages := pages, skipEdges := order (readSkipEdges files.skipEdges) }

def onDiskIndexedRows (json : HeaderJson) (files : IndexFiles) : Option ℕ :=
  (json.fromStr files.header).toOption.map IndexHeader.indexedRows

/-- `on_disk_index_matches` on the bytes of the files. -/
def onDiskIndexMatches (files : IndexFiles) (idx : BpannIndex F) : Bool :=
  files.pages == writePagesIndex idx.pages idx.header.numDim &&
    files.skipEdges == skipEdgesBytes idx.skipEdges

end BpannIndex

end Files

end Ennbo
