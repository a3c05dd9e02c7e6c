import Ennbo.Model.MetadataText

/-! # Bounds beside the other fields

Persisting bounds keeps what the readers of the other fields find, and loading
gives the bounds back. The text of a metadata record goes through the same steps
as the record.
-/

namespace Ennbo

open Wire

namespace MetadataText

section Read

variable {n d m r : ℕ} {s : Bool} {c : Char} {before rest : List Char}

theorem splitOnce_parts {x : Char} {front : List Char} (back value : List Char)
    {done : List (List Char)} (hfront : x ∉ front) (hx : x ∉ ['{', ',']) (hdone : ∀ q ∈ done, x ∉ q)
    (todo : List (List Char)) (rest : List Char) :
    ∃ before after, (todo = [] ∧ after = [] ∨ todo ≠ [] ∧ ∃ more, after = ',' :: more) ∧
      splitOnce (front ++ x :: back)
        ('{' :: List.intercalate [','] (done ++ (front ++ x :: back ++ value) :: todo) ++ rest) =
          some (before, value ++ (after ++ rest)) := by
  obtain ⟨before, after, htext, hbefore, hafter⟩ :=
    exists_intercalate_append ',' (front ++ x :: back ++ value) todo done
  simp only [List.mem_cons, List.not_mem_nil, or_false, not_or] at hx
  have hmem : x ∉ '{' :: before := by
    rw [List.mem_cons, not_or]
    refine ⟨hx.1, fun h => ?_⟩
    obtain rfl | ⟨q, hq, hxq⟩ := hbefore x h
    · exact hx.2 rfl
    · exact hdone q hq hxq
  refine ⟨'{' :: before, after, hafter, ?_⟩
  rw [← splitOnce_of_notMem x front back hfront hmem, htext]
  simp

/-- A number is read from its part, whatever ends the text. -/
theorem parseJsonUsizeField_parts {field : List Char} {done : List (List Char)} {x : Char}
    {front back : List Char} (hmarker : fieldMarker field = front ++ x :: back)
    (hfront : x ∉ front) (hx : x ∉ ['{', ',']) (hdone : ∀ q ∈ done, x ∉ q) (k : ℕ)
    (todo : List (List Char)) (hc : c ∈ ['}', ',']) (rest : List Char) :
    parseJsonUsizeField ('{' :: List.intercalate [',']
      (done ++ (fieldMarker field ++ Nat.toDigits 10 k) :: todo) ++ c :: rest) field =
        parseDigits 64 (Nat.toDigits 10 k) := by
  obtain ⟨before, after, hafter, hsplit⟩ :=
    splitOnce_parts back (Nat.toDigits 10 k) hfront hx hdone todo (c :: rest)
  rw [← hmarker] at hsplit
  rw [parseJsonUsizeField, hsplit]
  have hend : ∃ e more, after ++ c :: rest = e :: more ∧ e ∈ ['}', ','] := by
    obtain ⟨-, rfl⟩ | ⟨-, more, rfl⟩ := hafter
    · exact ⟨c, rest, rfl, hc⟩
    · exact ⟨',', _, rfl, by decide⟩
  obtain ⟨e, more, he, hmem⟩ := hend
  have hplain : e.isDigit = false ∧ isWhitespace e = false := by
    simp only [List.mem_cons, List.not_mem_nil, or_false] at hmem
    obtain rfl | rfl := hmem <;> decide
  rw [he]
  exact congrArg (parseDigits 64) ((leadingDigits_append hplain.1 hplain.2).trans
    (leadingDigits_of_forall fun _ => isDigit_of_mem_toDigits))

/-- What the readers of the metadata find in a text. -/
structure FieldValues where
  numObs : Option ℕ
  numDim : Option ℕ
  numMetrics : Option ℕ
  indexedRows : Option ℕ
  indexBackend : Option (List Char)
  scaleX : Bool

def readFields (text : List Char) : FieldValues where
  numObs := parseJsonUsizeField text "num_obs".toList
  numDim := parseJsonUsizeField text "num_dim".toList
  numMetrics := parseJsonUsizeField text "num_metrics".toList
  indexedRows := parseJsonUsizeField text "indexed_rows".toList
  indexBackend := bpannParseJsonStringField text "index_backend".toList
  scaleX := readScaleX text

/-- A field is found at its place when some letter of its name stands in no field before it. -/
theorem usizeField_read {i k : ℕ} {field front back : List Char} {x : Char}
    (hpart : (metadataParts n d m s INDEX_BACKEND r)[i]? =
      some (fieldMarker field ++ Nat.toDigits 10 k))
    (hmarker : fieldMarker field = front ++ x :: back) (hfront : x ∉ front) (hx : x ∉ ['{', ','])
    (hdone : ∀ q ∈ (metadataParts n d m s INDEX_BACKEND r).take i, x ∉ q) (hc : c ∈ ['}', ','])
    (rest : List Char) :
    parseJsonUsizeField (metadataFields n d m s INDEX_BACKEND r ++ c :: rest) field =
      parseDigits 64 (Nat.toDigits 10 k) := by
  obtain ⟨hi, hpart⟩ := List.getElem?_eq_some_iff.mp hpart
  have hparts : metadataParts n d m s INDEX_BACKEND r =
      (metadataParts n d m s INDEX_BACKEND r).take i ++
        (fieldMarker field ++ Nat.toDigits 10 k) ::
          (metadataParts n d m s INDEX_BACKEND r).drop (i + 1) := by
    rw [← hpart, ← List.drop_eq_getElem_cons hi, List.take_append_drop]
  rw [metadataFields, hparts]
  exact parseJsonUsizeField_parts hmarker hfront hx hdone k _ hc rest

theorem indexBackend_read (rest : List Char) :
    bpannParseJsonStringField (metadataFields n d m s INDEX_BACKEND r ++ rest)
      "index_backend".toList = some INDEX_BACKEND.toList := by
  have hdone : ∀ q ∈ (metadataParts n d m s INDEX_BACKEND r).take 5, 'k' ∉ q := by
    cases s <;> simp [metadataParts, fieldMarker, FORMAT_VERSION, boolText, notMem_toDigits]
  have hfront : 'k' ∉ "\"index_bac".toList := by decide
  obtain ⟨before, after, -, hsplit⟩ := splitOnce_parts "end\":\"".toList
    (INDEX_BACKEND.toList ++ ['"']) hfront (by decide) hdone
      ((metadataParts n d m s INDEX_BACKEND r).drop 6) rest
  have htail : splitOnce (fieldMarker "index_backend".toList ++ ['"'])
      (metadataFields n d m s INDEX_BACKEND r ++ rest) =
        some (before, INDEX_BACKEND.toList ++ (['"'] ++ (after ++ rest))) := by
    rw [← List.append_assoc]
    exact hsplit
  have hvalue := splitOnce_of_notMem '"' [] [] (by decide)
    (show '"' ∉ INDEX_BACKEND.toList by decide) (after ++ rest)
  simp only [bpannParseJsonStringField, htail, Option.bind_eq_bind, Option.bind_some]
  rw [List.nil_append] at hvalue
  rw [hvalue]
  rfl

/-- The flag is found only where it was printed. -/
theorem readScaleX_eq (hc : c ∈ ['}', ',']) {rest : List Char} (hrest : 'x' ∉ rest) :
    readScaleX (metadataFields n d m s INDEX_BACKEND r ++ c :: rest) = s := by
  have hne : "\"scale_x\":true".toList ≠ [] := by decide
  have hcomma : ',' ∉ "\"scale_x\":true".toList := by decide
  have hc' : c ∉ "\"scale_x\":true".toList ∧ c ≠ 'x' := by
    simp only [List.mem_cons, List.not_mem_nil, or_false] at hc
    obtain rfl | rfl := hc <;> decide
  have hbehind : ¬ "\"scale_x\":true".toList <:+: c :: rest := by
    apply not_infix_of_notMem (c := 'x')
    · decide
    · rw [List.mem_cons, not_or]
      exact ⟨hc'.2.symm, hrest⟩
  have hx : ∀ {part : List Char}, 'x' ∉ part → ¬ "\"scale_x\":true".toList <:+: part :=
    fun h => not_infix_of_notMem (by decide) h
  have ht : ∀ {part : List Char}, 't' ∉ part → ¬ "\"scale_x\":true".toList <:+: part :=
    fun h => not_infix_of_notMem (by decide) h
  rw [Bool.eq_iff_iff, readScaleX, isSome_splitOnce, infix_append_cons_iff hc'.1,
    or_iff_left hbehind, metadataFields, List.infix_cons_iff,
    or_iff_right (by simp), infix_intercalate_iff hne hcomma]
  constructor
  · rintro ⟨part, hpart, h⟩
    simp only [metadataParts, List.mem_cons, List.not_mem_nil, or_false] at hpart
    rcases hpart with rfl | rfl | rfl | rfl | rfl | rfl | rfl
    · exact absurd h (hx (by decide))
    · exact absurd h (hx (by simp [fieldMarker, notMem_toDigits]))
    · exact absurd h (hx (by simp [fieldMarker, notMem_toDigits]))
    · exact absurd h (hx (by simp [fieldMarker, notMem_toDigits]))
    · cases s
      · exact absurd h (ht (by decide))
      · rfl
    · exact absurd h (ht (by decide))
    · exact absurd h (ht (by simp [fieldMarker, notMem_toDigits]))
  · rintro rfl
    exact ⟨fieldMarker "scale_x".toList ++ boolText true, by simp [metadataParts],
      List.infix_refl _⟩

theorem readFields_metadataFields (hc : c ∈ ['}', ',']) {rest : List Char} (hrest : 'x' ∉ rest) :
    readFields (metadataFields n d m s INDEX_BACKEND r ++ c :: rest) =
      { numObs := parseDigits 64 (Nat.toDigits 10 n)
        numDim := parseDigits 64 (Nat.toDigits 10 d)
        numMetrics := parseDigits 64 (Nat.toDigits 10 m)
        indexedRows := parseDigits 64 (Nat.toDigits 10 r)
        indexBackend := some INDEX_BACKEND.toList
        scaleX := s } := by
  have hobs := usizeField_read (n := n) (d := d) (m := m) (s := s) (r := r) (i := 1) (x := 'b') rfl
    (show fieldMarker "num_obs".toList = "\"num_o".toList ++ 'b' :: "s\":".toList from rfl)
    (by decide) (by decide) (by simp [metadataParts, fieldMarker, FORMAT_VERSION, notMem_toDigits])
    hc rest
  have hdim := usizeField_read (n := n) (d := d) (m := m) (s := s) (r := r) (i := 2) (x := 'd') rfl
    (show fieldMarker "num_dim".toList = "\"num_".toList ++ 'd' :: "im\":".toList from rfl)
    (by decide) (by decide) (by simp [metadataParts, fieldMarker, FORMAT_VERSION, notMem_toDigits])
    hc rest
  have hmetrics := usizeField_read (n := n) (d := d) (m := m) (s := s) (r := r) (i := 3) (x := 'c')
    rfl (show fieldMarker "num_metrics".toList =
      "\"num_metri".toList ++ 'c' :: "s\":".toList from rfl)
    (by decide) (by decide) (by simp [metadataParts, fieldMarker, FORMAT_VERSION, notMem_toDigits])
    hc rest
  have hrows := usizeField_read (n := n) (d := d) (m := m) (s := s) (r := r) (i := 6) (x := 'w')
    rfl (show fieldMarker "indexed_rows".toList =
      "\"indexed_ro".toList ++ 'w' :: "s\":".toList from rfl)
    (by decide) (by decide)
    (by cases s <;> simp [metadataParts, fieldMarker, FORMAT_VERSION, INDEX_BACKEND, boolText,
      notMem_toDigits]) hc rest
  rw [readFields, hobs, hdim, hmetrics, hrows, indexBackend_read, readScaleX_eq hc hrest]

theorem readFields_bpannWriteMetadata (hn : n < 2 ^ 64) (hd : d < 2 ^ 64) (hm : m < 2 ^ 64)
    (hr : r < 2 ^ 64) :
    readFields (bpannWriteMetadata n d m s r) =
      { numObs := some n
        numDim := some d
        numMetrics := some m
        indexedRows := some r
        indexBackend := some INDEX_BACKEND.toList
        scaleX := s } := by
  rw [bpannWriteMetadata, readFields_metadataFields (by decide) (by decide),
    parseDigits_toDigits hn, parseDigits_toDigits hd, parseDigits_toDigits hm,
    parseDigits_toDigits hr]

theorem isHead_metadataFields : IsHead (metadataFields n d m s INDEX_BACKEND r) where
  noMarker := by
    have hparts : ∀ part ∈ metadataParts n d m s INDEX_BACKEND r, 'y' ∉ part := by
      cases s <;>
        simp [metadataParts, fieldMarker, FORMAT_VERSION, INDEX_BACKEND, boolText, notMem_toDigits]
    rw [metadataFields, List.mem_cons, not_or]
    refine ⟨by decide, fun h => ?_⟩
    obtain h | ⟨part, hpart, h⟩ := mem_intercalate h
    · exact absurd h (by decide)
    · exact hparts part hpart h
  last := by
    obtain ⟨before, after, htext, -, ⟨-, rfl⟩ | ⟨hnil, -⟩⟩ := exists_intercalate_append ','
      (fieldMarker "indexed_rows".toList ++ Nat.toDigits 10 r) []
        ((metadataParts n d m s INDEX_BACKEND r).take 6)
    · have hdigits : Nat.toDigits 10 r ≠ [] := Nat.toDigits_ne_nil
      refine ⟨
        '{' :: (before ++ (fieldMarker "indexed_rows".toList ++ (Nat.toDigits 10 r).dropLast)),
        (Nat.toDigits 10 r).getLast hdigits, ?_, isDigit_of_mem_toDigits (List.getLast_mem hdigits)⟩
      calc metadataFields n d m s INDEX_BACKEND r
          = '{' :: (before ++ (fieldMarker "indexed_rows".toList ++ Nat.toDigits 10 r ++ [])) :=
            congrArg ('{' :: ·) htext
        _ = _ := by
            conv_lhs => rw [← List.dropLast_append_getLast hdigits]
            simp
    · exact absurd rfl hnil

end Read

section Rationals

/-- A whole number from its digits. -/
def parseInt : List Char → ℤ
  | '-' :: digits => -(Nat.ofDigitChars 10 digits 0 : ℤ)
  | digits => (Nat.ofDigitChars 10 digits 0 : ℤ)

/-- A whole number or a fraction. -/
def parseRat (text : List Char) : Option ℚ :=
  match splitOnce ['/'] text with
  | none => some (parseInt text)
  | some (num, den) => some ((parseInt num : ℚ) / (Nat.ofDigitChars 10 den 0 : ℚ))

theorem toList_repr_int (a : ℤ) :
    a.repr.toList =
      if a < 0 then '-' :: Nat.toDigits 10 a.natAbs else Nat.toDigits 10 a.natAbs := by
  cases a with
  | ofNat n => simp [Int.repr]
  | negSucc n => simp [Int.repr]

theorem parseInt_repr (a : ℤ) : parseInt a.repr.toList = a := by
  have hplain : ∀ n,
      parseInt (Nat.toDigits 10 n) = (Nat.ofDigitChars 10 (Nat.toDigits 10 n) 0 : ℤ) := by
    intro n
    unfold parseInt
    split
    next digits heq =>
      have hmem : '-' ∈ Nat.toDigits 10 n := by simp [heq]
      exact absurd hmem (notMem_toDigits (by decide) n)
    next => rfl
  rw [toList_repr_int]
  split
  next h =>
    rw [parseInt, Nat.ofDigitChars_ten_toDigits]
    omega
  next h =>
    rw [hplain, Nat.ofDigitChars_ten_toDigits]
    omega

theorem toList_toString_rat (q : ℚ) :
    (toString q).toList =
      if q.den = 1 then q.num.repr.toList
      else q.num.repr.toList ++ '/' :: Nat.toDigits 10 q.den := by
  change (if q.den = 1 then toString q.num else toString q.num ++ "/" ++ toString q.den).toList = _
  split <;> simp [String.toList_append]

theorem slash_notMem_repr (a : ℤ) : '/' ∉ a.repr.toList := by
  rw [toList_repr_int]
  split <;> simp [notMem_toDigits]

theorem parseRat_toString (q : ℚ) : parseRat (toString q).toList = some q := by
  have hslash := slash_notMem_repr q.num
  rw [toList_toString_rat]
  split
  next hden =>
    have hnone : splitOnce ['/'] q.num.repr.toList = none := by
      rw [splitOnce_eq_none_iff]
      exact not_infix_of_notMem (List.mem_singleton_self '/') hslash
    rw [parseRat, hnone, parseInt_repr]
    exact congrArg some (Rat.coe_int_num_of_den_eq_one hden)
  next =>
    have hsplit := splitOnce_of_notMem '/' [] [] List.not_mem_nil hslash (Nat.toDigits 10 q.den)
    simp only [List.nil_append, List.cons_append] at hsplit
    simp only [parseRat, hsplit, parseInt_repr, Nat.ofDigitChars_ten_toDigits, Rat.num_div_den]

theorem mem_toString_rat {q : ℚ} {c : Char} (h : c ∈ (toString q).toList) :
    c.isDigit = true ∨ c = '-' ∨ c = '/' := by
  have hint : c ∈ q.num.repr.toList → c.isDigit = true ∨ c = '-' := by
    rw [toList_repr_int]
    split
    · rw [List.mem_cons]
      exact fun hc => hc.symm.imp_left isDigit_of_mem_toDigits
    · exact fun hc => .inl (isDigit_of_mem_toDigits hc)
  rw [toList_toString_rat] at h
  split at h
  · exact (hint h).imp_right .inl
  · rw [List.mem_append, List.mem_cons] at h
    rcases h with h | rfl | h
    · exact (hint h).imp_right .inl
    · exact .inr (.inr rfl)
    · exact .inl (isDigit_of_mem_toDigits h)

theorem isAlpha_of_isDigit {c : Char} (h : c.isDigit = true) : c.isAlpha = false := by
  have hle : c.toNat ≤ 57 := (Char.isDigit_iff_toNat.mp h).2
  have hupper : ¬ ('A'.val ≤ c.val ∧ c.val ≤ 'Z'.val) := by
    rintro ⟨hlo, -⟩
    have hge : 65 ≤ c.toNat := UInt32.le_iff_toNat_le.mp hlo
    omega
  have hlower : ¬ 'a'.val ≤ c.val := by
    intro hlo
    have hge : 97 ≤ c.toNat := UInt32.le_iff_toNat_le.mp hlo
    omega
  exact Bool.or_eq_false_iff.mpr
    ⟨decide_eq_false hupper, Bool.and_eq_false_iff.mpr (.inl (decide_eq_false hlower))⟩

theorem plain_of_isDigit {c : Char} (h : c.isDigit = true ∨ c = '-' ∨ c = '/') :
    c.isAlpha = false ∧ isWhitespace c = false ∧ c ∉ ['[', ']', '{', '}', ',', ':', '"'] := by
  rcases h with h | rfl | rfl
  · refine ⟨isAlpha_of_isDigit h, isWhitespace_of_isDigit h, ?_⟩
    intro hmem
    simp only [List.mem_cons, List.not_mem_nil, or_false] at hmem
    rcases hmem with rfl | rfl | rfl | rfl | rfl | rfl | rfl <;> exact absurd h (by decide)
  · decide
  · decide

theorem toList_toString_rat_ne_nil (q : ℚ) : (toString q).toList ≠ [] := by
  have hint : q.num.repr.toList ≠ [] := by
    rw [toList_repr_int]
    split <;> simp [Nat.toDigits_ne_nil]
  rw [toList_toString_rat]
  split <;> simp [hint]

instance : F64Text ℚ where
  parse := parseRat
  parse_display v _ := parseRat_toString v
  display_ne v _ := toList_toString_rat_ne_nil v
  display_plain _ _ _ hc := plain_of_isDigit (mem_toString_rat hc)

end Rationals

section RoundTrip

variable {D : Type} [Floating D] [Analysis D] [F64Text D]

/-- The texts that the writers of the metadata leave. -/
inductive Written (D : Type) [Floating D] [Analysis D] : List Char → Prop where
  | write (numObs numDim numMetrics : ℕ) (scaleX : Bool) (indexedRows : ℕ) :
    Written D (bpannWriteMetadata numObs numDim numMetrics scaleX indexedRows)
  | persist {text text' : List Char} (bounds : Array2 D) (h : Written D text)
    (hok : spliceBounds bounds text = .ok text') : Written D text'

theorem Written.exists_head {text : List Char} (h : Written D text) :
    ∃ n d m s r, HasHead D (metadataFields n d m s INDEX_BACKEND r) text := by
  induction h with
  | write n d m s r => exact ⟨n, d, m, s, r, .inl rfl⟩
  | persist bounds _ hok ih =>
    obtain ⟨n, d, m, s, r, htext⟩ := ih
    obtain ⟨-, rfl⟩ := (htext.spliceBounds_eq_ok isHead_metadataFields).mp hok
    exact ⟨n, d, m, s, r, .inr ⟨_, rfl⟩⟩

omit [F64Text D] in
/-- Infinite bounds that pass the check are the infinities. -/
theorem readBound_eq_self {bounds : Array2 D} {metrics : ℕ}
    (hneg : ∀ v : D, BpannBackend.eqB v negInfinity = true → v = negInfinity)
    (hpos : ∀ v : D, BpannBackend.eqB v infinity = true → v = infinity)
    (h : YBounds.validateBounds bounds metrics = .ok ()) : YBounds.readBound bounds = bounds := by
  obtain ⟨rfl, hcols, hvalid⟩ := YBounds.validateBounds_eq_ok.mp h
  have hrow : ∀ j (hj : j < bounds.rows.length),
      bounds.rows[j].mapIdx YBounds.readEntry = bounds.rows[j] := by
    intro j hj
    obtain ⟨a, b, hab⟩ :=
      List.length_eq_two.mp ((bounds.width _ (List.getElem_mem hj)).trans hcols)
    obtain ⟨-, -, ha, hb⟩ := YBounds.entries_of_boundsError (hvalid j hj)
    simp only [YBounds.lower, YBounds.upper, List.getD_eq_getElem _ _ hj, hab] at ha hb
    have hlower : YBounds.readEntry 0 a = a := by
      rw [YBounds.readEntry, ite_eq_left_iff, Bool.not_eq_true]
      exact fun hfin => (hneg a (ha hfin)).symm
    have hupper : YBounds.readEntry 1 b = b := by
      rw [YBounds.readEntry, ite_eq_left_iff, Bool.not_eq_true]
      exact fun hfin => (hpos b (hb hfin)).symm
    rw [hab, List.mapIdx_cons, List.mapIdx_cons, List.mapIdx_nil, hlower, hupper]
  have hrows : (YBounds.readBound bounds).rows = bounds.rows := by
    apply List.ext_getElem
    · simp [YBounds.readBound, Array2.mapCols]
    · intro j h₁ h₂
      simpa [YBounds.readBound, Array2.mapCols] using hrow j h₂
  exact Array2.eq_of_rows rfl hrows

/-- No letters but those of `null` stand in the printed bounds. -/
theorem isAlpha_of_mem_boundsText {pairs : List (D × D)} {c : Char}
    (h : c ∈ boundsText pairs) (hc : c.isAlpha = true) : c ∈ "null".toList := by
  have hbound : ∀ v : D, c ∈ boundText v → c ∈ "null".toList := by
    intro v hv
    unfold boundText at hv
    split at hv
    next hfin => simp [(F64Text.display_plain v hfin c hv).1] at hc
    next => exact hv
  have hsep : c ∉ ['[', ']', ','] := by
    intro hmem
    simp only [List.mem_cons, List.not_mem_nil, or_false] at hmem
    obtain rfl | rfl | rfl := hmem <;> exact absurd hc (by decide)
  simp only [List.mem_cons, List.not_mem_nil, or_false, not_or] at hsep
  simp only [boundsText, List.mem_cons, List.mem_append, List.not_mem_nil, or_false] at h
  obtain h | h | h := h
  · exact absurd h hsep.1
  · obtain h | ⟨row, hrow, h⟩ := mem_intercalate h
    · exact absurd h hsep.2.2
    · obtain ⟨p, -, rfl⟩ := List.mem_map.mp hrow
      simp only [rowText, List.mem_cons, List.mem_append, List.not_mem_nil, or_false, hsep,
        false_or] at h
      exact h.elim (hbound p.1) (hbound p.2)
  · exact absurd h hsep.2.1

theorem existsUnique_marker {head : List Char} (hhead : IsHead head) (pairs : List (D × D)) :
    ∃! before, before ++ Y_BOUNDS <+: boundedText head pairs := by
  have hy : 'y' ∉ boundsText pairs := fun h => absurd (isAlpha_of_mem_boundsText h rfl) (by decide)
  refine ⟨head ++ [','], ⟨boundsText pairs ++ ['}'], by simp [boundedText]⟩, ?_⟩
  rintro before ⟨rest, hrest⟩
  have hu : 'y' ∉ head ++ [','] ++ ['"'] := by simp [hhead.noMarker]
  have hv : 'y' ∉ "_bounds\":".toList ++ (boundsText pairs ++ ['}']) := by simp [hy]
  have htext : head ++ [','] ++ ['"'] ++
      'y' :: ("_bounds\":".toList ++ (boundsText pairs ++ ['}'])) =
      before ++ ['"'] ++ 'y' :: ("_bounds\":".toList ++ rest) := by
    simpa [boundedText, Y_BOUNDS_eq] using hrest.symm
  exact (List.append_cancel_right (append_inj_of_notMem hu hv htext)).symm

theorem readFields_boundedText (n d m r : ℕ) (s : Bool) (pairs : List (D × D)) :
    readFields (boundedText (metadataFields n d m s INDEX_BACKEND r) pairs) =
      readFields (metadataFields n d m s INDEX_BACKEND r ++ ['}']) := by
  have hx : 'x' ∉ Y_BOUNDS ++ (boundsText pairs ++ ['}']) := by
    have hbounds : 'x' ∉ boundsText pairs :=
      fun h => absurd (isAlpha_of_mem_boundsText h rfl) (by decide)
    simp [Y_BOUNDS_eq, hbounds]
  rw [boundedText, readFields_metadataFields (by decide) hx,
    readFields_metadataFields (by decide) (by decide)]

theorem persist_load_roundTrip
    (hneg : ∀ v : D, BpannBackend.eqB v negInfinity = true → v = negInfinity)
    (hpos : ∀ v : D, BpannBackend.eqB v infinity = true → v = infinity)
    (text : List Char) (htext : Written D text) (bounds : Array2 D) (metrics : ℕ)
    (hvalid : YBounds.validateBounds bounds metrics = .ok ()) :
    ∃ text', persistBoundsMetadata bounds (some text) = .ok (some text') ∧
      loadBoundsMetadata (some text') metrics = .ok (some bounds) ∧
      (∃! before, before ++ Y_BOUNDS <+: text') ∧
      (∀ bounds' : Array2 D, persistBoundsMetadata bounds' (some text') =
        persistBoundsMetadata bounds' (some text)) ∧
      readFields text' = readFields text := by
  obtain ⟨n, d, m, s, r, hshape⟩ := htext.exists_head
  obtain ⟨hn, hcols, -⟩ := YBounds.validateBounds_eq_ok.mp hvalid
  have hwide : ∀ row ∈ bounds.rows, 2 ≤ row.length :=
    fun row hrow => ((bounds.width row hrow).trans hcols).ge
  have hhead := isHead_metadataFields (n := n) (d := d) (m := m) (s := s) (r := r)
  have hsplice : spliceBounds bounds text = .ok _ :=
    (hshape.spliceBounds_eq_ok hhead).mpr ⟨hwide, rfl⟩
  refine ⟨_, ?_, ?_, existsUnique_marker hhead (pairsOf bounds), ?_, ?_⟩
  · rw [persistBoundsMetadata, hsplice]
    rfl
  · rw [loadBoundsMetadata, loadBounds_boundedText hhead hcols, readBound_eq_self hneg hpos hvalid,
      if_neg (not_not.mpr hn), hvalid]
    rfl
  · intro bounds'
    have hbounded : HasHead D (metadataFields n d m s INDEX_BACKEND r)
        (boundedText (metadataFields n d m s INDEX_BACKEND r) (pairsOf bounds)) := .inr ⟨_, rfl⟩
    simp only [persistBoundsMetadata, hshape.spliceBounds_congr hhead hbounded]
  · obtain rfl | ⟨pairs, rfl⟩ := hshape
    · exact readFields_boundedText n d m r s _
    · rw [readFields_boundedText, readFields_boundedText]

def halfOpenBounds : Array2 ℚ := ⟨2, [[negInfinity, 1], [2, infinity]], by decide⟩

theorem persist_load_halfOpenBounds :
    ∃ text', persistBoundsMetadata halfOpenBounds (some (bpannWriteMetadata 5 3 2 false 4)) =
        .ok (some text') ∧
      loadBoundsMetadata (some text') 2 = .ok (some halfOpenBounds) ∧
      (∃! before, before ++ Y_BOUNDS <+: text') ∧
      (∀ bounds' : Array2 ℚ, persistBoundsMetadata bounds' (some text') =
        persistBoundsMetadata bounds' (some (bpannWriteMetadata 5 3 2 false 4))) ∧
      readFields text' = readFields (bpannWriteMetadata 5 3 2 false 4) := by
  have heq : ∀ v w : ℚ, BpannBackend.eqB v w = true → v = w := by
    intro v w h
    simpa [BpannBackend.eqB, ExactArith.partialCmp_eq] using h
  exact persist_load_roundTrip (fun v => heq v _) (fun v => heq v _) _ (.write 5 3 2 false 4)
    halfOpenBounds 2 (by decide +kernel)

end RoundTrip

section Typed

variable {D F : Type} [Floating D] [Analysis D]

/-- The text of a metadata record. -/
def metadataText (md : Metadata D) : List Char :=
  let head := metadataFields md.numObs md.numDim md.numMetrics md.scaleX md.indexBackend
    md.indexedRows
  match md.yBounds with
  | none => head ++ ['}']
  | some bounds => boundedText head (pairsOf bounds)

theorem metadataText_writeMetadata (dir : WorkDir D F) (n d m r : ℕ) (s : Bool) :
    (dir.writeMetadata n d m s r).metadata.map metadataText = some (bpannWriteMetadata n d m s r) :=
  rfl

omit [Floating D] [Analysis D] in
theorem isHead_of_backend {md : Metadata D} (h : md.indexBackend = INDEX_BACKEND) :
    IsHead (metadataFields md.numObs md.numDim md.numMetrics md.scaleX md.indexBackend
      md.indexedRows) :=
  h ▸ isHead_metadataFields

variable [F64Text D]

theorem persistBoundsMetadata_text {dir : WorkDir D F} {bounds : Array2 D}
    (hcols : bounds.ncols = 2)
    (hbackend : ∀ md, dir.metadata = some md → md.indexBackend = INDEX_BACKEND) :
    persistBoundsMetadata bounds (dir.metadata.map metadataText) =
      .ok ((YBounds.persistBoundsMetadata bounds dir).metadata.map metadataText) := by
  cases hmd : dir.metadata with
  | none => simp [YBounds.persistBoundsMetadata, hmd, persistBoundsMetadata, pure, Except.pure]
  | some md =>
    have hhead := isHead_of_backend (hbackend md hmd)
    have hshape : HasHead D (metadataFields md.numObs md.numDim md.numMetrics md.scaleX
        md.indexBackend md.indexedRows) (metadataText md) := by
      unfold metadataText
      cases md.yBounds with
      | none => exact .inl rfl
      | some stored => exact .inr ⟨_, rfl⟩
    have hsplice := (hshape.spliceBounds_eq_ok hhead).mpr
      ⟨fun row hrow => ((bounds.width row hrow).trans hcols).ge, rfl⟩
    simp only [YBounds.persistBoundsMetadata, hmd, Option.map_some, persistBoundsMetadata, hsplice]
    rfl

theorem loadBoundsMetadata_text {dir : WorkDir D F} {metrics : ℕ}
    (hcols : ∀ md stored, dir.metadata = some md → md.yBounds = some stored → stored.ncols = 2)
    (hbackend : ∀ md, dir.metadata = some md → md.indexBackend = INDEX_BACKEND) :
    loadBoundsMetadata (dir.metadata.map metadataText) metrics =
      YBounds.loadBoundsMetadata dir metrics := by
  cases hmd : dir.metadata with
  | none => simp only [YBounds.loadBoundsMetadata, hmd, Option.map_none, loadBoundsMetadata]
  | some md =>
    have hhead := isHead_of_backend (hbackend md hmd)
    simp only [YBounds.loadBoundsMetadata, hmd, Option.map_some, loadBoundsMetadata, metadataText]
    cases hb : md.yBounds with
    | none => simp only [loadBounds, splitOnce_bare hhead]
    | some stored =>
      simp only [loadBounds_boundedText hhead (hcols md stored hmd hb), hcols md stored hmd hb]
      by_cases hn : stored.nrows = metrics
      · simp [hn]
      · simp [hn, malformed]

end Typed

end MetadataText

end Ennbo
