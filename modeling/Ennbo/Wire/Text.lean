import Mathlib.Algebra.Ring.Nat
import Mathlib.Data.List.DropRight
import Mathlib.Data.List.Infix

/-! # Searching in text

A text is split at the first place where a pattern stands, or at the last place
of a character. A pattern with a character that the text before it lacks is
found where it was put.
-/

namespace Ennbo.Wire

section Split

variable {α : Type} [DecidableEq α] {needle xs ys before after : List α}

/-- What stands before and behind the first occurrence of a pattern. -/
def splitOnce (needle : List α) : List α → Option (List α × List α)
  | [] => if needle <+: [] then some ([], []) else none
  | x :: xs =>
    if needle <+: x :: xs then some ([], (x :: xs).drop needle.length)
    else (splitOnce needle xs).map fun s => (x :: s.1, s.2)

theorem splitOnce_of_front (h : needle <+: xs) :
    splitOnce needle xs = some ([], xs.drop needle.length) := by
  cases xs with
  | nil => simp [splitOnce, h]
  | cons x xs => simp [splitOnce, h]

theorem splitOnce_cons {x : α} (h : ¬ needle <+: x :: xs) :
    splitOnce needle (x :: xs) = (splitOnce needle xs).map fun s => (x :: s.1, s.2) := by
  simp [splitOnce, h]

theorem splitOnce_eq_none_iff : splitOnce needle xs = none ↔ ¬ needle <:+: xs := by
  induction xs with
  | nil => simp [splitOnce]
  | cons x xs ih =>
    by_cases hp : needle <+: x :: xs
    · rw [splitOnce_of_front hp]
      simp [hp.isInfix]
    · rw [splitOnce_cons hp, Option.map_eq_none_iff, ih, List.infix_cons_iff]
      simp [hp]

theorem isSome_splitOnce : (splitOnce needle xs).isSome ↔ needle <:+: xs := by
  rw [← not_iff_not, ← splitOnce_eq_none_iff, Option.not_isSome_iff_eq_none]

/-- A pattern whose `c` stands nowhere before is found first where it stands. -/
theorem splitOnce_of_notMem (c : α) (front back : List α) (hfront : c ∉ front)
    (hbefore : c ∉ before) (after : List α) :
    splitOnce (front ++ c :: back) (before ++ (front ++ c :: back ++ after)) =
      some (before, after) := by
  induction before with
  | nil =>
    rw [List.nil_append, splitOnce_of_front (List.prefix_append _ _), List.drop_left]
  | cons x before ih =>
    have hp : ¬ front ++ c :: back <+:
        x :: before ++ (front ++ c :: back ++ after) := by
      intro hp
      have hc : (x :: before ++ (front ++ c :: back ++ after))[front.length]? = some c := by
        obtain ⟨rest, hrest⟩ := hp
        rw [← hrest]
        simp
      have hmem : c ∈ x :: before ++ front := by
        rw [List.append_assoc, ← List.append_assoc,
          List.getElem?_append_left (by simp only [List.length_append, List.length_cons]; omega)]
          at hc
        exact List.mem_of_getElem? hc
      exact (List.mem_append.mp hmem).elim hbefore hfront
    rw [List.cons_append] at hp ⊢
    rw [splitOnce_cons hp, ih fun h => hbefore (List.mem_cons_of_mem x h)]
    rfl

omit [DecidableEq α]

theorem infix_append_cons_iff {y : α} (hy : y ∉ needle) :
    needle <:+: xs ++ y :: ys ↔ needle <:+: xs ∨ needle <:+: y :: ys := by
  rw [List.infix_append_iff]
  constructor
  · rintro (h | h | ⟨left, right, rfl, hleft, hright⟩)
    · exact .inl h
    · exact .inr h
    · cases right with
      | nil => simpa using .inl hleft.isInfix
      | cons r right =>
        rw [List.cons_prefix_cons] at hright
        simp [hright.1] at hy
  · rintro (h | h)
    · exact .inl h
    · exact .inr (.inl h)

theorem not_infix_of_notMem {c : α} (hc : c ∈ needle) (hxs : c ∉ xs) : ¬ needle <:+: xs :=
  fun h => hxs (h.subset hc)

theorem append_inj_of_notMem {c : α} {u u' v v' : List α} (hu : c ∉ u) (hv : c ∉ v)
    (h : u ++ c :: v = u' ++ c :: v') : u = u' := by
  rcases List.append_eq_append_iff.mp h with ⟨w, rfl, hw⟩ | ⟨w, rfl, hw⟩
  · cases w with
    | nil => simp
    | cons d w =>
      obtain ⟨-, rfl⟩ := List.cons.inj hw
      simp at hv
  · cases w with
    | nil => simp
    | cons d w =>
      obtain ⟨rfl, -⟩ := List.cons.inj hw
      simp at hu

end Split

section Last

variable {α : Type} [DecidableEq α]

/-- What stands before and behind the last occurrence of an element. -/
def rsplitOnce (c : α) : List α → Option (List α × List α)
  | [] => none
  | x :: xs =>
    match rsplitOnce c xs with
    | some (before, after) => some (x :: before, after)
    | none => if x = c then some ([], xs) else none

theorem rsplitOnce_append_singleton (c : α) (xs : List α) :
    rsplitOnce c (xs ++ [c]) = some (xs, []) := by
  induction xs with
  | nil => simp [rsplitOnce]
  | cons x xs ih => simp [rsplitOnce, ih]

end Last

theorem intercalate_rel {α β γ : Type} {R : List α → List β → Prop} {sep : List α}
    {f : γ → List α} {g : γ → List β} (hnil : R [] [])
    (happend : ∀ {v w ts us}, R v ts → R w us → R (v ++ w) (ts ++ us)) (hsep : R sep []) :
    ∀ cs : List γ, (∀ c ∈ cs, R (f c) (g c)) →
      R (List.intercalate sep (cs.map f)) (cs.flatMap g)
  | [], _ => hnil
  | [c], h => by simpa using h c List.mem_cons_self
  | c :: d :: cs, h => by
    have hrest := intercalate_rel hnil happend hsep (d :: cs) fun e he =>
      h e (List.mem_cons_of_mem c he)
    have hhead := happend (h c List.mem_cons_self) (happend hsep hrest)
    simpa [List.intercalate, List.intersperse] using hhead

theorem intercalate_cons_cons {α : Type} (c : α) (part next : List α) (parts : List (List α)) :
    List.intercalate [c] (part :: next :: parts) =
      part ++ c :: List.intercalate [c] (next :: parts) := by
  simp [List.intercalate, List.intersperse]

theorem infix_intercalate_iff {α : Type} {needle : List α} {c : α} (hne : needle ≠ [])
    (hc : c ∉ needle) :
    ∀ parts : List (List α),
      needle <:+: List.intercalate [c] parts ↔ ∃ part ∈ parts, needle <:+: part
  | [] => by simp [List.intercalate, hne]
  | [part] => by simp
  | part :: next :: parts => by
    have hcons : needle <:+: c :: List.intercalate [c] (next :: parts) ↔
        needle <:+: List.intercalate [c] (next :: parts) := by
      rw [List.infix_cons_iff, or_iff_right]
      intro hprefix
      cases needle with
      | nil => exact hne rfl
      | cons d needle => simp [(List.cons_prefix_cons.mp hprefix).1] at hc
    rw [intercalate_cons_cons, infix_append_cons_iff hc, hcons,
      infix_intercalate_iff hne hc (next :: parts)]
    simp

theorem mem_intercalate {α : Type} {c x : α} :
    ∀ {parts : List (List α)}, x ∈ List.intercalate [c] parts → x = c ∨ ∃ part ∈ parts, x ∈ part
  | [], h => by simp at h
  | [part], h => .inr ⟨part, List.mem_cons_self, by simpa using h⟩
  | part :: next :: parts, h => by
    rw [intercalate_cons_cons, List.mem_append, List.mem_cons] at h
    rcases h with h | rfl | h
    · exact .inr ⟨part, List.mem_cons_self, h⟩
    · exact .inl rfl
    · exact (mem_intercalate h).imp_right fun ⟨q, hq, hxq⟩ => ⟨q, List.mem_cons_of_mem _ hq, hxq⟩

/-- One part of a joined list, with what stands before and behind it. -/
theorem exists_intercalate_append {α : Type} (c : α) (part : List α) (todo : List (List α)) :
    ∀ done : List (List α), ∃ before after,
      List.intercalate [c] (done ++ part :: todo) = before ++ (part ++ after) ∧
        (∀ x ∈ before, x = c ∨ ∃ q ∈ done, x ∈ q) ∧
          (todo = [] ∧ after = [] ∨ todo ≠ [] ∧ ∃ rest, after = c :: rest)
  | [] => by
    cases todo with
    | nil => exact ⟨[], [], by simp, by simp, .inl ⟨rfl, rfl⟩⟩
    | cons next todo =>
      refine ⟨[], c :: List.intercalate [c] (next :: todo), ?_, by simp, .inr ⟨by simp, _, rfl⟩⟩
      exact intercalate_cons_cons c part next todo
  | first :: done => by
    obtain ⟨before, after, htext, hbefore, hafter⟩ := exists_intercalate_append c part todo done
    refine ⟨first ++ c :: before, after, ?_, ?_, hafter⟩
    · have hcons : List.intercalate [c] (first :: (done ++ part :: todo)) =
          first ++ c :: List.intercalate [c] (done ++ part :: todo) := by
        cases done <;> exact intercalate_cons_cons _ _ _ _
      rw [List.cons_append, hcons, htext]
      simp
    · intro x hx
      rw [List.mem_append, List.mem_cons] at hx
      rcases hx with hx | rfl | hx
      · exact .inr ⟨first, List.mem_cons_self, hx⟩
      · exact .inl rfl
      · exact (hbefore x hx).imp_right fun ⟨q, hq, hxq⟩ => ⟨q, List.mem_cons_of_mem _ hq, hxq⟩

section Words

/-- The characters that Unicode counts as white space. -/
def isWhitespace (c : Char) : Bool :=
  let n := c.toNat
  (9 ≤ n && n ≤ 13) || n == 0x20 || n == 0x85 || n == 0xA0 || n == 0x1680 ||
    (0x2000 ≤ n && n ≤ 0x200A) || n == 0x2028 || n == 0x2029 || n == 0x202F || n == 0x205F ||
    n == 0x3000

def trimStart (text : List Char) : List Char := text.dropWhile isWhitespace

def trimEnd (text : List Char) : List Char := text.rdropWhile isWhitespace

def trim (text : List Char) : List Char := trimEnd (trimStart text)

variable {text rest : List Char}

theorem trim_of_forall (h : ∀ c ∈ text, isWhitespace c = false) : trim text = text := by
  have hstart : trimStart text = text := by
    cases text with
    | nil => rfl
    | cons c text => exact List.dropWhile_cons_of_neg (by simp [h c List.mem_cons_self])
  rw [trim, hstart, trimEnd, List.rdropWhile_eq_self_iff]
  intro hne
  simp [h _ (List.getLast_mem hne)]

theorem trimEnd_append_singleton {c : Char} (h : isWhitespace c = false) :
    trimEnd (text ++ [c]) = text ++ [c] :=
  List.rdropWhile_concat_neg isWhitespace text c (by simp [h])

def leadingDigits (text : List Char) : List Char := (trimStart text).takeWhile Char.isDigit

theorem takeWhile_append_cons {p : Char → Bool} {c : Char} (hc : p c = false) :
    (text ++ c :: rest).takeWhile p = text.takeWhile p := by
  induction text with
  | nil => simp [hc]
  | cons d text ih =>
    rw [List.cons_append, List.takeWhile_cons, List.takeWhile_cons, ih]

theorem leadingDigits_append {c : Char} (hdigit : c.isDigit = false)
    (hspace : isWhitespace c = false) :
    leadingDigits (text ++ c :: rest) = leadingDigits text := by
  induction text with
  | nil => simp [leadingDigits, trimStart, hdigit, hspace]
  | cons d text ih =>
    unfold leadingDigits trimStart at *
    by_cases hd : isWhitespace d = true
    · simpa [hd] using ih
    · rw [List.cons_append, List.dropWhile_cons_of_neg hd, List.dropWhile_cons_of_neg hd,
        ← List.cons_append, takeWhile_append_cons hdigit]

theorem isWhitespace_of_isDigit {c : Char} (h : c.isDigit = true) : isWhitespace c = false := by
  obtain ⟨h₁, h₂⟩ : 48 ≤ c.toNat ∧ c.toNat ≤ 57 := Char.isDigit_iff_toNat.mp h
  simp only [isWhitespace, Bool.or_eq_false_iff, Bool.and_eq_false_iff, decide_eq_false_iff_not,
    beq_eq_false_iff_ne]
  omega

theorem leadingDigits_of_forall (h : ∀ c ∈ text, c.isDigit = true) : leadingDigits text = text := by
  cases text with
  | nil => rfl
  | cons c text =>
    have hc := isWhitespace_of_isDigit (h c List.mem_cons_self)
    rw [leadingDigits, trimStart, List.dropWhile_cons_of_neg (by simp [hc]),
      List.takeWhile_eq_self_iff]
    exact h

theorem isDigit_of_mem_toDigits {c : Char} {n : ℕ} (h : c ∈ Nat.toDigits 10 n) :
    c.isDigit = true :=
  Nat.isDigit_of_mem_toDigits (by decide) (by decide) h

theorem notMem_toDigits {c : Char} (h : c.isDigit = false) (n : ℕ) : c ∉ Nat.toDigits 10 n :=
  fun hc => by simp [isDigit_of_mem_toDigits hc] at h

/-- `parse` to an unsigned number of `bits` bits, on digits. -/
def parseDigits (bits : ℕ) (digits : List Char) : Option ℕ :=
  if digits = [] ∨ 2 ^ bits ≤ Nat.ofDigitChars 10 digits 0 then none
  else some (Nat.ofDigitChars 10 digits 0)

theorem parseDigits_toDigits {bits n : ℕ} (h : n < 2 ^ bits) :
    parseDigits bits (Nat.toDigits 10 n) = some n := by
  simp [parseDigits, Nat.ofDigitChars_ten_toDigits, Nat.toDigits_ne_nil, h]

end Words

end Ennbo.Wire
