/-
UTF-8 decoding that never fails: a byte sequence that is not well formed becomes replacement
characters, one for each longest beginning of a character that cannot be continued.

The decoder is a machine that takes one byte at a time. Between characters it has nothing pending, so
bytes below 128 stand for themselves wherever a character may begin.
-/
import Mathlib.Data.List.Basic

set_option autoImplicit false

namespace PlmCore.Lib

/-- A character that has begun: the bytes it still needs, the bounds of the next one, and the code
point so far. -/
structure Utf8Pending where
  needed : Nat
  lower : Nat
  upper : Nat
  codePoint : Nat
  deriving DecidableEq

/-- U+FFFD. -/
def replacementChar : Char := Char.ofNat 0xFFFD

/-- What the first byte of a longer character announces. -/
def leadByte (b : Nat) : Option Utf8Pending :=
  if 0xC2 ≤ b ∧ b ≤ 0xDF then some ⟨1, 0x80, 0xBF, b - 0xC0⟩
  else if 0xE0 ≤ b ∧ b ≤ 0xEF then
    some ⟨2, if b = 0xE0 then 0xA0 else 0x80, if b = 0xED then 0x9F else 0xBF, b - 0xE0⟩
  else if 0xF0 ≤ b ∧ b ≤ 0xF4 then
    some ⟨3, if b = 0xF0 then 0x90 else 0x80, if b = 0xF4 then 0x8F else 0xBF, b - 0xF0⟩
  else none

/-- A byte where a character begins. -/
def firstByte (b : UInt8) : List Char × Option Utf8Pending :=
  if b.toNat < 0x80 then ([Char.ofNat b.toNat], none)
  else match leadByte b.toNat with
    | none => ([replacementChar], none)
    | some pending => ([], some pending)

/-- One byte. A byte that cannot continue the pending character begins the next one. -/
def decodeByte : Option Utf8Pending → UInt8 → List Char × Option Utf8Pending
  | none, b => firstByte b
  | some pending, b =>
    if pending.lower ≤ b.toNat ∧ b.toNat ≤ pending.upper then
      let codePoint := pending.codePoint * 64 + (b.toNat - 0x80)
      if pending.needed = 1 then ([Char.ofNat codePoint], none)
      else ([], some ⟨pending.needed - 1, 0x80, 0xBF, codePoint⟩)
    else (replacementChar :: (firstByte b).1, (firstByte b).2)

/-- The rest of the bytes. -/
def decodeFrom : Option Utf8Pending → List UInt8 → List Char
  | none, [] => []
  | some _, [] => [replacementChar]
  | pending, b :: bs => (decodeByte pending b).1 ++ decodeFrom (decodeByte pending b).2 bs

/-- The text of a byte sequence. -/
def decodeUtf8 (bs : List UInt8) : List Char := decodeFrom none bs

/-- The characters of bytes below 128. -/
def asciiText (bs : List UInt8) : List Char := bs.map fun b => Char.ofNat b.toNat

/-- The bytes of a text of characters below 128. -/
def asciiBytes (s : String) : List UInt8 := s.toList.map fun c => UInt8.ofNat c.toNat

/-- **Bytes below 128 stand for themselves** at the beginning of a text. -/
theorem decodeUtf8_ascii_append {bs : List UInt8} (hbs : ∀ b ∈ bs, b.toNat < 0x80) (rest : List UInt8) :
    decodeUtf8 (bs ++ rest) = asciiText bs ++ decodeUtf8 rest := by
  induction bs with
  | nil => rfl
  | cons b bs ih =>
    have hb : b.toNat < 0x80 := hbs b List.mem_cons_self
    have hrest := ih fun c hc => hbs c (List.mem_cons_of_mem _ hc)
    rw [decodeUtf8] at hrest ⊢
    rw [List.cons_append, decodeFrom, decodeByte, firstByte, if_pos hb, hrest]
    rfl

theorem decodeUtf8_ascii {bs : List UInt8} (hbs : ∀ b ∈ bs, b.toNat < 0x80) :
    decodeUtf8 bs = asciiText bs := by
  have h := decodeUtf8_ascii_append hbs []
  rw [List.append_nil] at h
  rw [h, decodeUtf8, decodeFrom, List.append_nil]

example : decodeUtf8 [0x41, 0xC3, 0xA9, 0xE2, 0x82, 0x42] = ['A', 'é', replacementChar, 'B'] := by
  decide

end PlmCore.Lib
