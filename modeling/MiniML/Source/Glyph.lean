/-
  MiniML/Source/Glyph.lean
  ========================
  **Source text as glyphs** — a source is a sequence of bytes, read as UTF-8.  A
  byte that begins no well-formed character is a glyph of its own: it counts as
  one byte and reads as the replacement character U+FFFD.  Positions in a source
  are byte offsets, so every glyph knows its width.
-/

namespace MiniML

/-- A unit of source text: a well-formed character, or a byte that is no part of
    one. -/
inductive Glyph where
  | char (c : Char)
  | stray (byte : UInt8)
deriving DecidableEq, Repr

namespace Glyph

/-- The character that a glyph reads as. -/
def toChar : Glyph → Char
  | .char c => c
  | .stray _ => Char.ofNat 0xFFFD

def width : Glyph → Nat
  | .char c => c.utf8Size
  | .stray _ => 1

theorem width_pos (g : Glyph) : 0 < g.width := by
  cases g with
  | char c => exact Char.utf8Size_pos c
  | stray b => exact Nat.one_pos

end Glyph

/-- The number of bytes of a sequence of glyphs. -/
def Glyph.widths (gs : List Glyph) : Nat := gs.foldr (fun g n => g.width + n) 0

def Glyph.text (gs : List Glyph) : String := String.ofList (gs.map Glyph.toChar)

/-! ### Decoding bytes -/

namespace Utf8

/-- The character with this code point, if there is one and it is at least
    `least`: a longer encoding than necessary is not well formed. -/
def scalar? (least n : Nat) : Option Char :=
  if least ≤ n ∧ n.isValidChar then some (Char.ofNat n) else none

/-- The six bits that a continuation byte carries. -/
def continuation? (b : UInt8) : Option Nat :=
  if 0x80 ≤ b.toNat ∧ b.toNat < 0xC0 then some (b.toNat - 0x80) else none

/-- The character that begins with the byte `b` and goes on with the bytes of
    `rest`. -/
def charAt? (b : UInt8) (rest : List UInt8) : Option Char :=
  let n := b.toNat
  if n < 0x80 then scalar? 0 n
  else if n < 0xC0 then none
  else if n < 0xE0 then
    match rest with
    | b₁ :: _ => do
      let c₁ ← continuation? b₁
      scalar? 0x80 ((n - 0xC0) * 0x40 + c₁)
    | _ => none
  else if n < 0xF0 then
    match rest with
    | b₁ :: b₂ :: _ => do
      let c₁ ← continuation? b₁
      let c₂ ← continuation? b₂
      scalar? 0x800 (((n - 0xE0) * 0x40 + c₁) * 0x40 + c₂)
    | _ => none
  else if n < 0xF8 then
    match rest with
    | b₁ :: b₂ :: b₃ :: _ => do
      let c₁ ← continuation? b₁
      let c₂ ← continuation? b₂
      let c₃ ← continuation? b₃
      scalar? 0x10000 ((((n - 0xF0) * 0x40 + c₁) * 0x40 + c₂) * 0x40 + c₃)
    | _ => none
  else none

/-- The glyphs of a byte sequence whose first `skip` bytes belong to a glyph that
    was read before. -/
def decodeFrom : Nat → List UInt8 → List Glyph
  | _, [] => []
  | skip + 1, _ :: rest => decodeFrom skip rest
  | 0, b :: rest =>
    match charAt? b rest with
    -- the bytes behind the first one are passed over
    | some c => .char c :: decodeFrom (c.utf8Size - 1) rest
    | none => .stray b :: decodeFrom 0 rest

def decode (bytes : List UInt8) : List Glyph := decodeFrom 0 bytes

end Utf8

def Glyph.ofString (s : String) : List Glyph := s.toList.map .char

end MiniML
