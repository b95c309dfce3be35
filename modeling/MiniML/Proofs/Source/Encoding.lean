/-
  MiniML/Proofs/Source/Encoding.lean
  ==================================
  **Glyphs and their bytes** — a glyph stands for the bytes it was read from, and for no
  others: the bytes of the glyphs of a source are the source (`encode_decode`).  The
  converse fails for glyphs at large, as stray bytes next to each other may make a
  character.  It holds for a character in front of anything (`decode_char`).
-/
import MiniML.Proofs.Source.Decoding

namespace MiniML

/-- The bytes of a glyph. -/
def Glyph.bytes : Glyph → List UInt8
  | .char c => String.utf8EncodeChar c
  | .stray b => [b]

@[simp] theorem Glyph.length_bytes (g : Glyph) : g.bytes.length = g.width := by
  cases g with
  | char c => exact String.length_utf8EncodeChar c
  | stray b => rfl

namespace Utf8

/-- The bytes of a sequence of glyphs. -/
def encode (gs : List Glyph) : List UInt8 := gs.flatMap Glyph.bytes

@[simp] theorem encode_cons (g : Glyph) (gs : List Glyph) :
    encode (g :: gs) = g.bytes ++ encode gs := List.flatMap_cons

@[simp] theorem encode_append (gs gs' : List Glyph) :
    encode (gs ++ gs') = encode gs ++ encode gs' := List.flatMap_append

@[simp] theorem length_encode (gs : List Glyph) : (encode gs).length = Glyph.widths gs := by
  induction gs with
  | nil => rfl
  | cons g gs ih => rw [encode_cons, List.length_append, Glyph.length_bytes, ih, Glyph.widths_cons]

/-! ### A character and its bytes -/

theorem scalar?_of_le {least : Nat} {c : Char} (h : least ≤ c.toNat) :
    scalar? least c.toNat = some c := by
  rw [scalar?, if_pos ⟨h, c.valid⟩, Char.ofNat_toNat]

/-- A byte that carries the six bits `n` in the middle of a character. -/
theorem continuation?_ofNat {n : Nat} (h : n < 0x40) :
    continuation? (UInt8.ofNat (n + 0x80)) = some n := by
  have hbyte : (UInt8.ofNat (n + 0x80)).toNat = n + 0x80 := by
    rw [UInt8.toNat_ofNat']
    omega
  rw [continuation?, hbyte, if_pos (by omega), Nat.add_sub_cancel]

/-- A character is read from its bytes, whatever follows. -/
theorem charAt?_of_bytes {c : Char} {b : UInt8} {more : List UInt8}
    (h : String.utf8EncodeChar c = b :: more) (rest : List UInt8) :
    charAt? b (more ++ rest) = some c := by
  have hc : c.val.toNat = c.toNat := rfl
  have hmax : c.toNat < 0x110000 := by
    rcases c.valid with h | ⟨-, h⟩ <;> omega
  have hbyte : ∀ n < 0x100, (UInt8.ofNat n).toNat = n := by
    intro n hn
    rw [UInt8.toNat_ofNat']
    omega
  -- one case for each length: the bits that the bytes carry add up to the character
  simp only [String.utf8EncodeChar, hc] at h
  split at h
  · obtain ⟨rfl, rfl⟩ := List.cons.inj h
    simp only [charAt?, hbyte c.toNat (by omega)]
    rw [if_pos (by omega), scalar?_of_le (Nat.zero_le _)]
  split at h
  · obtain ⟨rfl, rfl⟩ := List.cons.inj h
    have hsum : (c.toNat / 64 % 32 + 192 - 0xC0) * 0x40 + c.toNat % 64 = c.toNat := by omega
    simp only [charAt?, hbyte (c.toNat / 64 % 32 + 192) (by omega), List.cons_append,
      continuation?_ofNat (Nat.mod_lt c.toNat (by decide : 0 < 64)), Option.bind_eq_bind,
      Option.bind_some, hsum]
    rw [if_neg (by omega), if_neg (by omega), if_pos (by omega)]
    exact scalar?_of_le (by omega)
  split at h
  · obtain ⟨rfl, rfl⟩ := List.cons.inj h
    have hsum : ((c.toNat / 4096 % 16 + 224 - 0xE0) * 0x40 + c.toNat / 64 % 64) * 0x40 +
        c.toNat % 64 = c.toNat := by omega
    simp only [charAt?, hbyte (c.toNat / 4096 % 16 + 224) (by omega), List.cons_append,
      continuation?_ofNat (Nat.mod_lt c.toNat (by decide : 0 < 64)),
      continuation?_ofNat (Nat.mod_lt (c.toNat / 64) (by decide : 0 < 64)), Option.bind_eq_bind,
      Option.bind_some, hsum]
    rw [if_neg (by omega), if_neg (by omega), if_neg (by omega), if_pos (by omega)]
    exact scalar?_of_le (by omega)
  · obtain ⟨rfl, rfl⟩ := List.cons.inj h
    have hsum : (((c.toNat / 262144 % 8 + 240 - 0xF0) * 0x40 + c.toNat / 4096 % 64) * 0x40 +
        c.toNat / 64 % 64) * 0x40 + c.toNat % 64 = c.toNat := by omega
    simp only [charAt?, hbyte (c.toNat / 262144 % 8 + 240) (by omega), List.cons_append,
      continuation?_ofNat (Nat.mod_lt c.toNat (by decide : 0 < 64)),
      continuation?_ofNat (Nat.mod_lt (c.toNat / 64) (by decide : 0 < 64)),
      continuation?_ofNat (Nat.mod_lt (c.toNat / 4096) (by decide : 0 < 64)), Option.bind_eq_bind,
      Option.bind_some, hsum]
    rw [if_neg (by omega), if_neg (by omega), if_neg (by omega), if_neg (by omega),
      if_pos (by omega)]
    exact scalar?_of_le (by omega)

/-- A byte of ASCII is a character. -/
theorem charAt?_of_ascii {b : UInt8} (hb : b.toNat < 0x80) (rest : List UInt8) :
    charAt? b rest = some (Char.ofNat b.toNat) := by
  simp only [charAt?]
  rw [if_pos hb, scalar?, if_pos ⟨Nat.zero_le _, .inl (by omega)⟩]

theorem utf8EncodeChar_eq_cons (c : Char) :
    ∃ b more, String.utf8EncodeChar c = b :: more ∧ more.length = c.utf8Size - 1 := by
  have hlength := String.length_utf8EncodeChar c
  have hpos := Char.utf8Size_pos c
  cases hbytes : String.utf8EncodeChar c with
  | nil =>
    rw [hbytes, List.length_nil] at hlength
    omega
  | cons b more =>
    rw [hbytes, List.length_cons] at hlength
    exact ⟨b, more, rfl, by omega⟩

/-! ### All of them -/

theorem decodeFrom_length (more rest : List UInt8) :
    decodeFrom more.length (more ++ rest) = decodeFrom 0 rest := by
  induction more with
  | nil => rfl
  | cons b more ih => exact ih

/-- A character at the front of a source is its first glyph. -/
theorem decode_char (c : Char) (rest : List UInt8) :
    decode (String.utf8EncodeChar c ++ rest) = .char c :: decode rest := by
  obtain ⟨b, more, hbytes, hlength⟩ := utf8EncodeChar_eq_cons c
  rw [hbytes, decode, List.cons_append, decodeFrom, charAt?_of_bytes hbytes]
  simp only [← hlength, decodeFrom_length]
  rfl

/-- What stands before a character is decoded on its own. -/
theorem decode_append_char (bytes : List UInt8) (c : Char) (rest : List UInt8) :
    decode (bytes ++ (String.utf8EncodeChar c ++ rest)) =
      decode bytes ++ decode (String.utf8EncodeChar c ++ rest) := by
  obtain ⟨b, more, hbytes, -⟩ := utf8EncodeChar_eq_cons c
  have hfirst : continuation? b = none := by
    have hchar := charAt?_of_bytes hbytes rest
    rw [continuation?, if_neg]
    rintro ⟨hlow, hhigh⟩
    simp only [charAt?] at hchar
    rw [if_neg (by omega), if_pos hhigh] at hchar
    cases hchar
  rw [hbytes, List.cons_append]
  exact decode_append hfirst bytes (more ++ rest)

theorem encode_decodeFrom (skip : Nat) (bytes : List UInt8) :
    encode (decodeFrom skip bytes) = bytes.drop skip := by
  induction bytes generalizing skip with
  | nil => cases skip <;> rfl
  | cons b rest ih =>
    cases skip with
    | succ skip => exact ih skip
    | zero =>
      rw [decodeFrom]
      cases hc : charAt? b rest with
      | none =>
        simp only [encode_cons, Glyph.bytes, ih]
        rfl
      | some c =>
        obtain ⟨more, tail, rfl, hbytes⟩ := bytes_of_charAt? hc
        obtain ⟨b', more', hbytes', hlength⟩ := utf8EncodeChar_eq_cons c
        obtain ⟨rfl, rfl⟩ := List.cons.inj (hbytes.symm.trans hbytes')
        simp only [encode_cons, Glyph.bytes, ih, hbytes, ← hlength, List.drop_left]
        rfl

/-- Decoding loses nothing. -/
theorem encode_decode (bytes : List UInt8) : encode (decode bytes) = bytes :=
  encode_decodeFrom 0 bytes

/-- The glyphs are as wide as the bytes are many. -/
theorem widths_decode (bytes : List UInt8) : Glyph.widths (decode bytes) = bytes.length := by
  rw [← length_encode, encode_decode]

theorem le_of_stray_mem_decodeFrom {skip : Nat} {bytes : List UInt8} {b : UInt8}
    (h : .stray b ∈ decodeFrom skip bytes) : 0x80 ≤ b.toNat := by
  induction bytes generalizing skip with
  | nil => cases skip <;> exact absurd h List.not_mem_nil
  | cons b' rest ih =>
    cases skip with
    | succ skip => exact ih h
    | zero =>
      rw [decodeFrom] at h
      cases hc : charAt? b' rest with
      | some c =>
        rw [hc] at h
        rcases List.mem_cons.mp h with h | h
        · cases h
        · exact ih h
      | none =>
        rw [hc] at h
        rcases List.mem_cons.mp h with h | h
        · cases h
          by_contra hlt
          rw [charAt?_of_ascii (by omega)] at hc
          cases hc
        · exact ih h

end Utf8

end MiniML
