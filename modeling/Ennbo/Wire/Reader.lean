import Mathlib.Data.List.TakeDrop
import Mathlib.Data.UInt
import Mathlib.Tactic.Ring

/-! # Reading bytes back

A reader takes a value off the front of a list of bytes. It decodes some bytes
when it returns their value whatever follows them. Readers of fields compose to
readers of records, counted lists and framed blocks.
-/

namespace Ennbo.Wire

variable {α β : Type}

/-- A reader returns a value and the bytes it has not read, or an error. -/
def Reader (α : Type) : Type := List UInt8 → Except String (α × List UInt8)

namespace Reader

instance : Monad Reader where
  pure a := fun data => .ok (a, data)
  bind x f := fun data =>
    match x data with
    | .ok (a, rest) => f a rest
    | .error e => .error e

def fail (message : String) : Reader α := fun _ => .error message

end Reader

/-- The reader returns `a` for these bytes and leaves what follows them. -/
def Decodes (read : Reader α) (bytes : List UInt8) (a : α) : Prop :=
  ∀ rest, read (bytes ++ rest) = .ok (a, rest)

/-- Whenever the reader returns, it has read `n` bytes. -/
def Takes (read : Reader α) (n : ℕ) : Prop :=
  ∀ data a rest, read data = .ok (a, rest) → rest.length + n = data.length

section Rules

theorem Reader.bind_eq_ok {x : Reader α} {f : α → Reader β} {data rest : List UInt8} {b : β} :
    (x >>= f) data = .ok (b, rest) ↔ ∃ a mid, x data = .ok (a, mid) ∧ f a mid = .ok (b, rest) := by
  simp only [bind]
  rcases x data with e | ⟨a, mid⟩
  · simp
  · constructor
    · intro h
      exact ⟨a, mid, rfl, h⟩
    · rintro ⟨_, _, ⟨⟩, h⟩
      exact h

theorem decodes_pure (a : α) : Decodes (pure a) [] a := fun _ => rfl

theorem Decodes.bind_append {x : Reader α} {f : α → Reader β} {bs cs : List UInt8} {a : α}
    (h : Decodes x bs a) : (x >>= f) (bs ++ cs) = f a cs := by
  simp only [Bind.bind, h cs]

theorem Decodes.bind {x : Reader α} {f : α → Reader β} {bs cs : List UInt8} {a : α} {b : β}
    (hx : Decodes x bs a) (hf : Decodes (f a) cs b) : Decodes (x >>= f) (bs ++ cs) b := by
  intro rest
  rw [List.append_assoc, Reader.bind_eq_ok]
  exact ⟨a, _, hx _, hf rest⟩

theorem Decodes.map {x : Reader α} {bs : List UInt8} {a : α} (h : Decodes x bs a) (f : α → β) :
    Decodes (do let a ← x; return f a) bs (f a) := by
  intro rest
  rw [Reader.bind_eq_ok]
  exact ⟨a, rest, h rest, rfl⟩

theorem takes_pure (a : α) : Takes (pure a) 0 := by
  intro data b rest h
  cases h
  rfl

theorem Takes.bind {x : Reader α} {f : α → Reader β} {m n : ℕ} (hx : Takes x m)
    (hf : ∀ a, Takes (f a) n) : Takes (x >>= f) (m + n) := by
  intro data b rest h
  obtain ⟨a, mid, h₁, h₂⟩ := Reader.bind_eq_ok.mp h
  have := hx _ _ _ h₁
  have := hf a _ _ _ h₂
  omega

end Rules

section Many

/-- Read `n` values one after another. -/
def readMany (item : Reader α) : ℕ → Reader (List α)
  | 0 => pure []
  | n + 1 => do
    let a ← item
    let as ← readMany item n
    return a :: as

theorem decodes_readMany {item : Reader α} {encode : β → List UInt8} {value : β → α}
    {bs : List β} (h : ∀ b ∈ bs, Decodes item (encode b) (value b)) :
    Decodes (readMany item bs.length) (bs.flatMap encode) (bs.map value) := by
  induction bs with
  | nil => exact decodes_pure []
  | cons b bs ih =>
    rw [List.length_cons, readMany, List.flatMap_cons, List.map_cons]
    apply (h b List.mem_cons_self).bind
    exact (ih fun c hc => h c (List.mem_cons_of_mem _ hc)).map _

theorem takes_readMany {item : Reader α} {k : ℕ} (h : Takes item k) (n : ℕ) :
    Takes (readMany item n) (n * k) := by
  induction n with
  | zero => rw [Nat.zero_mul]; exact takes_pure []
  | succ n ih =>
    have hn : (n + 1) * k = k + (n * k + 0) := by ring
    rw [hn, readMany]
    exact h.bind fun a => ih.bind fun as => takes_pure _

end Many

section Words

/-- `n.to_le_bytes()` for a `u32`; larger numbers wrap as `n as u32` does. -/
def u32Bytes (n : ℕ) : List UInt8 :=
  [.ofNat n, .ofNat (n / 256), .ofNat (n / 65536), .ofNat (n / 16777216)]

/-- `u32::from_le_bytes`. -/
def u32OfBytes (b₀ b₁ b₂ b₃ : UInt8) : ℕ :=
  b₀.toNat + 256 * b₁.toNat + 65536 * b₂.toNat + 16777216 * b₃.toNat

@[simp] theorem length_u32Bytes (n : ℕ) : (u32Bytes n).length = 4 := rfl

theorem u32OfBytes_u32Bytes {n : ℕ} (h : n < 2 ^ 32) :
    u32OfBytes (.ofNat n) (.ofNat (n / 256)) (.ofNat (n / 65536)) (.ofNat (n / 16777216)) = n := by
  simp only [u32OfBytes, UInt8.toNat_ofNat']
  omega

/-- Read a little-endian `u32`. -/
def readU32 (truncated : String) : Reader ℕ
  | b₀ :: b₁ :: b₂ :: b₃ :: rest => .ok (u32OfBytes b₀ b₁ b₂ b₃, rest)
  | _ => .error truncated

theorem decodes_readU32 (truncated : String) {n : ℕ} (h : n < 2 ^ 32) :
    Decodes (readU32 truncated) (u32Bytes n) n := by
  intro rest
  rw [u32Bytes]
  simp only [List.cons_append, List.nil_append, readU32, u32OfBytes_u32Bytes h]

theorem takes_readU32 (truncated : String) : Takes (readU32 truncated) 4 := by
  intro data n rest h
  rw [readU32.eq_def] at h
  split at h
  · cases h
    rfl
  · simp at h

/-- Read one byte. -/
def readByte (truncated : String) : Reader UInt8
  | b :: rest => .ok (b, rest)
  | [] => .error truncated

theorem decodes_readByte (truncated : String) (b : UInt8) :
    Decodes (readByte truncated) [b] b := fun _ => rfl

end Words

section Frames

def frame (bytes : List UInt8) : List UInt8 := u32Bytes bytes.length ++ bytes

/-- Read a block of `n` bytes. -/
def readBlock (truncated : String) (n : ℕ) : Reader (List UInt8) := fun data =>
  if n ≤ data.length then .ok (data.take n, data.drop n) else .error truncated

def readFrame (truncated : String) : Reader (List UInt8) := do
  let n ← readU32 truncated
  readBlock truncated n

theorem decodes_readBlock (truncated : String) (bytes : List UInt8) :
    Decodes (readBlock truncated bytes.length) bytes bytes := by
  intro rest
  simp [readBlock]

theorem decodes_readFrame (truncated : String) {bytes : List UInt8} (h : bytes.length < 2 ^ 32) :
    Decodes (readFrame truncated) (frame bytes) bytes :=
  (decodes_readU32 truncated h).bind (decodes_readBlock truncated bytes)

end Frames

end Ennbo.Wire
