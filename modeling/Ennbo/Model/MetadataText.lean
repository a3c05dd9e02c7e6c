import Ennbo.Model.Bounds
import Ennbo.Wire.Text

/-! # The text of the metadata

The metadata of a work directory is one line of JSON. The backend writes it and
reads single fields by searching for their names; the model layer splices the
output bounds in and scans them back. The texts that the two writers leave are
those of the records in the typed work directory.
-/

namespace Ennbo

open Wire

/-- The text form of `f64`. A finite number is printed without letters, white
space and the punctuation of JSON, and is parsed back. -/
class F64Text (D : Type) [Floating D] [Analysis D] where
  parse : List Char → Option D
  parse_display : ∀ v : D, isFinite v → parse (display v).toList = some v
  display_ne : ∀ v : D, isFinite v → (display v).toList ≠ []
  display_plain : ∀ v : D, isFinite v → ∀ c ∈ (display v).toList,
    c.isAlpha = false ∧ isWhitespace c = false ∧ c ∉ ['[', ']', '{', '}', ',', ':', '"']

namespace MetadataText

section Fields

def fieldMarker (field : List Char) : List Char := '"' :: (field ++ ['"', ':'])

def FORMAT_VERSION : ℕ := 1

def boolText (b : Bool) : List Char := if b then "true".toList else "false".toList

/-- The fields of the format string of `bpann_write_metadata`. -/
def metadataParts (numObs numDim numMetrics : ℕ) (scaleX : Bool) (indexBackend : String)
    (indexedRows : ℕ) : List (List Char) :=
  [fieldMarker "format_version".toList ++ Nat.toDigits 10 FORMAT_VERSION,
    fieldMarker "num_obs".toList ++ Nat.toDigits 10 numObs,
    fieldMarker "num_dim".toList ++ Nat.toDigits 10 numDim,
    fieldMarker "num_metrics".toList ++ Nat.toDigits 10 numMetrics,
    fieldMarker "scale_x".toList ++ boolText scaleX,
    fieldMarker "index_backend".toList ++ '"' :: (indexBackend.toList ++ ['"']),
    fieldMarker "indexed_rows".toList ++ Nat.toDigits 10 indexedRows]

/-- The fields with the brace before them. -/
def metadataFields (numObs numDim numMetrics : ℕ) (scaleX : Bool) (indexBackend : String)
    (indexedRows : ℕ) : List Char :=
  '{' :: List.intercalate [',']
    (metadataParts numObs numDim numMetrics scaleX indexBackend indexedRows)

def bpannWriteMetadata (numObs numDim numMetrics : ℕ) (scaleX : Bool) (indexedRows : ℕ) :
    List Char :=
  metadataFields numObs numDim numMetrics scaleX INDEX_BACKEND indexedRows ++ ['}']

def parseJsonUsizeField (text field : List Char) : Option ℕ := do
  let (_, tail) ← splitOnce (fieldMarker field) text
  parseDigits 64 (leadingDigits tail)

def bpannParseJsonStringField (text field : List Char) : Option (List Char) := do
  let (_, tail) ← splitOnce (fieldMarker field ++ ['"']) text
  let (value, _) ← splitOnce ['"'] tail
  return value

/-- `text.contains("\"scale_x\":true")` -/
def readScaleX (text : List Char) : Bool :=
  (splitOnce "\"scale_x\":true".toList text).isSome

end Fields

section Bounds

variable {D : Type} [Floating D] [Analysis D]

/-- `value` in `bounds_json`. -/
def boundText (v : D) : List Char := if isFinite v then (display v).toList else "null".toList

/-- `format!("[{},{}]", value(row[0]), value(row[1]))` -/
def rowJson : List D → Outcome (List Char)
  | a :: b :: _ => return '[' :: (boundText a ++ (',' :: (boundText b ++ [']'])))
  | _ => throw .panic

def boundsJson (bounds : Array2 D) : Outcome (List Char) := do
  let rows ← bounds.rows.mapM rowJson
  return '[' :: (List.intercalate [','] rows ++ [']'])

def Y_BOUNDS : List Char := fieldMarker "y_bounds".toList

/-- The text behind the bracket that closes the first one. -/
def arrayEnd : ℕ → List Char → Option (List Char)
  | _, [] => none
  | depth, c :: cs =>
    if c = '[' then arrayEnd (depth + 1) cs
    else if c = ']' then if depth - 1 = 0 then some cs else arrayEnd (depth - 1) cs
    else arrayEnd depth cs

def malformed {α : Type} (message : String) : Outcome α :=
  throw (.error (.invalidParameter message))

/-- Put a field in the place of the bounds, or behind the last field. -/
def spliceField (field text : List Char) : Outcome (List Char) :=
  match splitOnce Y_BOUNDS text with
  | some (before, after) =>
    match (Y_BOUNDS ++ after).dropWhile (· ≠ '[') with
    | [] => malformed "malformed y_bounds metadata"
    | array =>
      match arrayEnd 0 array with
      | none => malformed "malformed y_bounds metadata"
      | some rest => return before ++ field ++ rest
  | none =>
    match rsplitOnce '}' text with
    | none => malformed "malformed metadata.json"
    | some (before, after) =>
      let comma := if ['{'] <:+ trimEnd before then [] else [',']
      return before ++ comma ++ field ++ '}' :: after

/-- The updated text of `persist_bounds_metadata`. -/
def spliceBounds (bounds : Array2 D) (text : List Char) : Outcome (List Char) := do
  let json ← boundsJson bounds
  spliceField (Y_BOUNDS ++ json) text

/-- `persist_bounds_metadata` on the file, which may not be there. -/
def persistBoundsMetadata (bounds : Array2 D) : Option (List Char) → Outcome (Option (List Char))
  | none => return none
  | some text => some <$> spliceBounds bounds text

def flush (tokens : List (List Char)) (token : List Char) : List (List Char) × List Char :=
  if trim token = [] then (tokens, token) else (tokens ++ [trim token], [])

/-- The loop of `load_bounds_metadata` over the characters. -/
def scanTokens : List Char → ℕ → List Char → List (List Char) → List (List Char)
  | [], _, _, tokens => tokens
  | c :: cs, depth, token, tokens =>
    if c = '[' then scanTokens cs (depth + 1) token tokens
    else if c = ']' then
      let (tokens, token) := flush tokens token
      if depth - 1 = 0 then tokens else scanTokens cs (depth - 1) token tokens
    else if c = ',' then
      let (tokens, token) := flush tokens token
      scanTokens cs depth token tokens
    else if isWhitespace c then scanTokens cs depth token tokens
    else scanTokens cs depth (token ++ [c]) tokens

variable [F64Text D]

/-- One bound from its token; `null` is the infinity of its column. -/
def parseBound (infinite : D) (token : List Char) : Outcome D :=
  if token = "null".toList then return infinite
  else Outcome.ofOption (.error (.invalidParameter "invalid y_bounds metadata"))
    (F64Text.parse token)

/-- The rows of the bounds from two tokens each. -/
def parseRow (tokens : List (List Char)) (i : ℕ) : Outcome (D × D) := do
  let a ← parseBound negInfinity (tokens.getD (2 * i) [])
  let b ← parseBound infinity (tokens.getD (2 * i + 1) [])
  return (a, b)

omit [Floating D] [Analysis D] [F64Text D] in
theorem length_of_mem_pairs (pairs : List (D × D)) :
    ∀ row ∈ pairs.map fun p => [p.1, p.2], row.length = 2 :=
  List.forall_mem_map.mpr fun _ _ => rfl

/-- A matrix with two columns. -/
def ofPairs (pairs : List (D × D)) : Array2 D where
  ncols := 2
  rows := pairs.map fun p => [p.1, p.2]
  width := length_of_mem_pairs pairs

def loadBounds (text : List Char) (metrics : ℕ) : Outcome (Option (Array2 D)) :=
  match splitOnce Y_BOUNDS text with
  | none => return none
  | some (_, after) =>
    match (Y_BOUNDS ++ after).dropWhile (· ≠ '[') with
    | [] => malformed "malformed y_bounds metadata"
    | array =>
      let tokens := scanTokens array 0 [] []
      if tokens.length ≠ metrics * 2 then malformed "persisted y_bounds shape mismatch"
      else do
        let pairs ← (List.range metrics).mapM (parseRow tokens)
        YBounds.validateBounds (ofPairs pairs) metrics
        return some (ofPairs pairs)

def loadBoundsMetadata : Option (List Char) → ℕ → Outcome (Option (Array2 D))
  | none, _ => return none
  | some text, metrics => loadBounds text metrics

end Bounds

section Scan

variable {D : Type} [Floating D] [Analysis D] {w a b : List Char}

/-- A text that is one token: not empty, and nothing in it ends a token. -/
structure IsToken (w : List Char) : Prop where
  ne_nil : w ≠ []
  plain : ∀ c ∈ w, isWhitespace c = false ∧ c ∉ ['[', ']', ',']

theorem isToken_null : IsToken "null".toList where
  ne_nil := by decide
  plain := by
    have hlist : "null".toList = ['n', 'u', 'l', 'l'] := rfl
    intro c hc
    rw [hlist] at hc
    simp only [List.mem_cons, List.not_mem_nil, or_false] at hc
    rcases hc with rfl | rfl | rfl | rfl
    · exact ⟨rfl, by simp⟩
    · exact ⟨rfl, by simp⟩
    · exact ⟨rfl, by simp⟩
    · exact ⟨rfl, by simp⟩

theorem isToken_boundText [F64Text D] (v : D) : IsToken (boundText v) := by
  unfold boundText
  by_cases hv : isFinite v = true
  · rw [if_pos hv]
    constructor
    · exact F64Text.display_ne v hv
    · intro c hc
      obtain ⟨-, hspace, hc⟩ := F64Text.display_plain v hv c hc
      simp only [List.mem_cons, List.not_mem_nil, or_false, not_or] at hc ⊢
      exact ⟨hspace, hc.1, hc.2.1, hc.2.2.2.2.1⟩
  · rw [if_neg hv]
    exact isToken_null

def rowText (p : D × D) : List Char :=
  '[' :: (boundText p.1 ++ (',' :: (boundText p.2 ++ [']'])))

def boundsText (pairs : List (D × D)) : List Char :=
  '[' :: (List.intercalate [','] (pairs.map rowText) ++ [']'])

def boundTokens (pairs : List (D × D)) : List (List Char) :=
  pairs.flatMap fun p => [boundText p.1, boundText p.2]

/-- What stands between the outer brackets: the brackets in it match, and its tokens are `ts`. -/
structure IsBody (w : List Char) (ts : List (List Char)) : Prop where
  closed : ∀ rest, arrayEnd 1 (w ++ rest) = arrayEnd 1 rest
  tokens : ∀ rest tokens, scanTokens (w ++ rest) 1 [] tokens = scanTokens rest 1 [] (tokens ++ ts)

theorem isBody_nil : IsBody [] [] where
  closed _ := rfl
  tokens := by simp

theorem IsBody.append {v : List Char} {ts us : List (List Char)} (hv : IsBody v ts)
    (hw : IsBody w us) : IsBody (v ++ w) (ts ++ us) where
  closed rest := by rw [List.append_assoc, hv.closed, hw.closed]
  tokens rest tokens := by rw [List.append_assoc, hv.tokens, hw.tokens, List.append_assoc]

theorem isBody_comma : IsBody [','] [] where
  closed _ := rfl
  tokens rest tokens := by simp [scanTokens, flush, trim, trimStart, trimEnd]

theorem IsToken.arrayEnd_append (hw : IsToken w) (depth : ℕ) (rest : List Char) :
    arrayEnd depth (w ++ rest) = arrayEnd depth rest := by
  have hplain := hw.plain
  clear hw
  induction w with
  | nil => rfl
  | cons c w ih =>
    have hc := (hplain c List.mem_cons_self).2
    simp only [List.mem_cons, List.not_mem_nil, or_false, not_or] at hc
    rw [List.cons_append, arrayEnd, if_neg hc.1, if_neg hc.2.1,
      ih fun d hd => hplain d (List.mem_cons_of_mem c hd)]

theorem IsToken.scanTokens_append (hw : IsToken w) (depth : ℕ) (token : List Char)
    (tokens : List (List Char)) (rest : List Char) :
    scanTokens (w ++ rest) depth token tokens = scanTokens rest depth (token ++ w) tokens := by
  have hplain := hw.plain
  clear hw
  induction w generalizing token with
  | nil => simp
  | cons c w ih =>
    obtain ⟨hspace, hc⟩ := hplain c List.mem_cons_self
    simp only [List.mem_cons, List.not_mem_nil, or_false, not_or] at hc
    simp only [List.cons_append, scanTokens, hc.1, hc.2.1, hc.2.2, hspace, if_false,
      Bool.false_eq_true]
    rw [ih (token ++ [c]) fun d hd => hplain d (List.mem_cons_of_mem c hd), List.append_assoc,
      List.singleton_append]

theorem IsToken.flush_eq (hw : IsToken w) (tokens : List (List Char)) :
    flush tokens w = (tokens ++ [w], []) := by
  rw [flush, trim_of_forall fun c hc => (hw.plain c hc).1, if_neg hw.ne_nil]

theorem isBody_row (ha : IsToken a) (hb : IsToken b) :
    IsBody ('[' :: (a ++ (',' :: (b ++ [']'])))) [a, b] where
  closed rest := by
    simp only [List.cons_append, List.append_assoc, List.nil_append, arrayEnd]
    simp [ha.arrayEnd_append, hb.arrayEnd_append, arrayEnd]
  tokens rest tokens := by
    simp only [List.cons_append, List.append_assoc, List.nil_append, scanTokens]
    simp [ha.scanTokens_append, hb.scanTokens_append, ha.flush_eq, hb.flush_eq, scanTokens]

variable [F64Text D]

theorem isBody_rows (pairs : List (D × D)) :
    IsBody (List.intercalate [','] (pairs.map rowText)) (boundTokens pairs) :=
  intercalate_rel isBody_nil IsBody.append isBody_comma pairs fun p _ =>
    isBody_row (isToken_boundText p.1) (isToken_boundText p.2)

theorem arrayEnd_boundsText (pairs : List (D × D)) (rest : List Char) :
    arrayEnd 0 (boundsText pairs ++ rest) = some rest := by
  simp only [boundsText, List.cons_append, List.append_assoc, arrayEnd, if_true]
  rw [(isBody_rows pairs).closed]
  simp [arrayEnd]

theorem scanTokens_boundsText (pairs : List (D × D)) (rest : List Char) :
    scanTokens (boundsText pairs ++ rest) 0 [] [] = boundTokens pairs := by
  simp only [boundsText, List.cons_append, List.append_assoc, scanTokens, if_true]
  rw [(isBody_rows pairs).tokens]
  simp [scanTokens, flush, trim, trimStart, trimEnd]

end Scan

section Splice

variable {D : Type} [Floating D] [Analysis D]

def pairsOf (bounds : Array2 D) : List (D × D) :=
  bounds.rows.map fun row => (row.getD 0 0, row.getD 1 0)

theorem rowJson_eq_ok {row : List D} {text : List Char} :
    rowJson row = .ok text ↔ 2 ≤ row.length ∧ rowText (row.getD 0 0, row.getD 1 0) = text := by
  match row with
  | [] => simp [rowJson]
  | [a] => simp [rowJson]
  | a :: b :: row => simp [rowJson, rowText]

/-- Bounds are printed when each row has two entries. -/
theorem boundsJson_eq_ok {bounds : Array2 D} {json : List Char} :
    boundsJson bounds = .ok json ↔
      (∀ row ∈ bounds.rows, 2 ≤ row.length) ∧ boundsText (pairsOf bounds) = json := by
  have hrows : ∀ {texts}, bounds.rows.mapM rowJson = .ok texts ↔
      (∀ row ∈ bounds.rows, 2 ≤ row.length) ∧ (pairsOf bounds).map rowText = texts := by
    intro texts
    rw [mapM_ok_iff, pairsOf, List.map_map]
    induction bounds.rows generalizing texts with
    | nil => simp [eq_comm]
    | cons row rows ih =>
      cases texts with
      | nil => simp
      | cons text texts =>
        rw [List.forall₂_cons, ih, rowJson_eq_ok, List.forall_mem_cons, List.map_cons,
          List.cons.injEq]
        exact and_and_and_comm
  simp only [boundsJson, Outcome.bind_eq_ok, Outcome.pure_eq_ok, hrows]
  constructor
  · rintro ⟨_, ⟨hwide, rfl⟩, rfl⟩
    exact ⟨hwide, rfl⟩
  · rintro ⟨hwide, rfl⟩
    exact ⟨_, ⟨hwide, rfl⟩, rfl⟩

/-- What stands before the closing brace when no bounds are there: no marker of
them, and a digit at the end. -/
structure IsHead (head : List Char) : Prop where
  noMarker : 'y' ∉ head
  last : ∃ front d, head = front ++ [d] ∧ d.isDigit = true

def boundedText (head : List Char) (pairs : List (D × D)) : List Char :=
  head ++ ',' :: (Y_BOUNDS ++ (boundsText pairs ++ ['}']))

variable {head : List Char} {bounds : Array2 D}

omit [Floating D] [Analysis D] in
theorem splitOnce_bare (hhead : IsHead head) : splitOnce Y_BOUNDS (head ++ ['}']) = none := by
  rw [splitOnce_eq_none_iff]
  apply not_infix_of_notMem (c := 'y')
  · decide
  · simp [hhead.noMarker]

omit [Floating D] [Analysis D] in
theorem Y_BOUNDS_eq : Y_BOUNDS = ['"'] ++ 'y' :: "_bounds\":".toList := by decide

omit [Floating D] in
theorem splitOnce_boundedText (hhead : IsHead head) (pairs : List (D × D)) :
    splitOnce Y_BOUNDS (boundedText head pairs) =
      some (head ++ [','], boundsText pairs ++ ['}']) := by
  have hbefore : 'y' ∉ head ++ [','] := by simp [hhead.noMarker]
  have h := splitOnce_of_notMem 'y' ['"'] "_bounds\":".toList (by decide) hbefore
    (boundsText pairs ++ ['}'])
  rw [← Y_BOUNDS_eq] at h
  simpa [boundedText] using h

omit [Floating D] in
theorem dropWhile_boundsText (pairs : List (D × D)) (rest : List Char) :
    (Y_BOUNDS ++ (boundsText pairs ++ rest)).dropWhile (· ≠ '[') = boundsText pairs ++ rest := by
  simp [Y_BOUNDS, fieldMarker, boundsText]

theorem trimEnd_head (hhead : IsHead head) : ¬ ['{'] <:+ trimEnd head := by
  obtain ⟨front, d, rfl, hd⟩ := hhead.last
  rw [trimEnd_append_singleton (isWhitespace_of_isDigit hd)]
  intro hbrace
  rw [List.singleton_suffix_append_singleton_iff] at hbrace
  subst hbrace
  exact absurd hd (by decide)

omit [Floating D] [Analysis D] in
theorem spliceField_bare (hhead : IsHead head) (field : List Char) :
    spliceField field (head ++ ['}']) = .ok (head ++ ',' :: (field ++ ['}'])) := by
  simp only [spliceField, splitOnce_bare hhead, rsplitOnce_append_singleton,
    if_neg (trimEnd_head hhead), List.append_assoc, List.singleton_append]
  rfl

variable [F64Text D]

theorem spliceField_boundedText (hhead : IsHead head) (pairs : List (D × D)) (field : List Char) :
    spliceField field (boundedText head pairs) = .ok (head ++ ',' :: (field ++ ['}'])) := by
  simp only [spliceField, splitOnce_boundedText hhead, dropWhile_boundsText]
  simp [arrayEnd_boundsText, pure, Except.pure]

def HasHead (D : Type) [Analysis D] (head text : List Char) : Prop :=
  text = head ++ ['}'] ∨ ∃ pairs : List (D × D), text = boundedText head pairs

variable {text text' : List Char}

theorem HasHead.spliceField_eq (hhead : IsHead head) (htext : HasHead D head text)
    (field : List Char) : spliceField field text = .ok (head ++ ',' :: (field ++ ['}'])) := by
  obtain rfl | ⟨pairs, rfl⟩ := htext
  · exact spliceField_bare hhead field
  · exact spliceField_boundedText hhead pairs field

theorem HasHead.spliceBounds_eq_ok (hhead : IsHead head) (htext : HasHead D head text) :
    spliceBounds bounds text = .ok text' ↔
      (∀ row ∈ bounds.rows, 2 ≤ row.length) ∧ boundedText head (pairsOf bounds) = text' := by
  simp only [spliceBounds, Outcome.bind_eq_ok, boundsJson_eq_ok, htext.spliceField_eq hhead]
  constructor
  · rintro ⟨_, ⟨hwide, rfl⟩, htext'⟩
    refine ⟨hwide, ?_⟩
    simpa [boundedText] using htext'
  · rintro ⟨hwide, rfl⟩
    exact ⟨_, ⟨hwide, rfl⟩, by simp [boundedText]⟩

theorem HasHead.spliceBounds_congr (hhead : IsHead head) (h : HasHead D head text)
    (h' : HasHead D head text') (bounds : Array2 D) :
    spliceBounds bounds text' = spliceBounds bounds text := by
  simp only [spliceBounds, h.spliceField_eq hhead, h'.spliceField_eq hhead]

end Splice

section Load

variable {D : Type} [Floating D] [Analysis D] [F64Text D] {head : List Char} {bounds : Array2 D}

theorem parseBound_boundText (infinite v : D) :
    parseBound infinite (boundText v) = .ok (if isFinite v then v else infinite) := by
  by_cases hv : isFinite v = true
  · have hnull : (display v).toList ≠ "null".toList := by
      intro heq
      have hplain := F64Text.display_plain v hv 'n' (by rw [heq]; decide)
      exact absurd hplain.1 (by decide)
    simp only [parseBound, boundText, hv, if_true, if_neg hnull, F64Text.parse_display v hv]
    rfl
  · simp only [parseBound, boundText, hv]
    rfl

omit [Floating D] [F64Text D] in
theorem length_boundTokens (pairs : List (D × D)) :
    (boundTokens pairs).length = pairs.length * 2 := by
  simp [boundTokens, List.length_flatMap]

omit [Floating D] [F64Text D] in
theorem boundTokens_getD {pairs : List (D × D)} {i : ℕ} (hi : i < pairs.length) :
    (boundTokens pairs).getD (2 * i) [] = boundText pairs[i].1 ∧
      (boundTokens pairs).getD (2 * i + 1) [] = boundText pairs[i].2 := by
  induction pairs generalizing i with
  | nil => cases hi
  | cons p pairs ih =>
    cases i with
    | zero => exact ⟨rfl, rfl⟩
    | succ i => exact ih (Nat.lt_of_succ_lt_succ hi)

/-- What is read where `p` was printed. -/
def readPair (p : D × D) : D × D :=
  (YBounds.readEntry 0 p.1, YBounds.readEntry 1 p.2)

theorem mapM_parseRow (pairs : List (D × D)) :
    (List.range pairs.length).mapM (parseRow (boundTokens pairs)) = .ok (pairs.map readPair) := by
  rw [mapM_ok_iff, List.forall₂_iff_get]
  constructor
  · simp
  · intro i h₁ h₂
    have hi : i < pairs.length := by simpa using h₁
    obtain ⟨ha, hb⟩ := boundTokens_getD hi
    simp only [List.get_eq_getElem, List.getElem_range, List.getElem_map, parseRow,
      Outcome.bind_eq_ok, Outcome.pure_eq_ok]
    rw [ha, hb, parseBound_boundText, parseBound_boundText]
    exact ⟨_, rfl, _, rfl, rfl⟩

omit [F64Text D] in
theorem ofPairs_readPair (hcols : bounds.ncols = 2) :
    ofPairs ((pairsOf bounds).map readPair) = YBounds.readBound bounds := by
  have hrow : ∀ row ∈ bounds.rows,
      [YBounds.readEntry 0 (row.getD 0 0), YBounds.readEntry 1 (row.getD 1 0)] =
        row.mapIdx YBounds.readEntry := by
    intro row hmem
    obtain ⟨a, b, rfl⟩ := List.length_eq_two.mp ((bounds.width row hmem).trans hcols)
    rfl
  apply Array2.eq_of_rows
  · exact hcols.symm
  · simp only [ofPairs, pairsOf, YBounds.readBound, Array2.mapCols, List.map_map]
    exact List.map_congr_left hrow

theorem loadBounds_boundedText (hhead : IsHead head) (hcols : bounds.ncols = 2) (metrics : ℕ) :
    loadBounds (boundedText head (pairsOf bounds)) metrics =
      if bounds.nrows ≠ metrics then malformed "persisted y_bounds shape mismatch"
      else do
        YBounds.validateBounds (YBounds.readBound bounds) metrics
        return some (YBounds.readBound bounds) := by
  have hlen : (boundTokens (pairsOf bounds)).length = bounds.nrows * 2 := by
    rw [length_boundTokens, pairsOf, List.length_map]
    rfl
  simp only [loadBounds, splitOnce_boundedText hhead, dropWhile_boundsText]
  by_cases hn : bounds.nrows = metrics
  · subst hn
    have hpairs : (List.range bounds.nrows).mapM (parseRow (boundTokens (pairsOf bounds))) =
        .ok ((pairsOf bounds).map readPair) := by
      have h := mapM_parseRow (pairsOf bounds)
      rwa [pairsOf, List.length_map] at h
    simp [scanTokens_boundsText, hlen, hpairs, ← ofPairs_readPair hcols, Bind.bind, Except.bind]
  · simp [scanTokens_boundsText, hlen, hn]

end Load

end MetadataText

end Ennbo
