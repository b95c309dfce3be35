/-
  MiniML/Proofs/Source/Decoding.lean
  ==================================
  **Bytes and their glyphs** — a character is read from the bytes that encode it
  (`bytes_of_charAt?`), and decoding looks no further than a byte that continues no
  character: what stands before such a byte is decoded on its own (`decode_append`).
-/
import Mathlib
import MiniML.Source.Glyph

namespace MiniML

@[simp] theorem Glyph.widths_cons (g : Glyph) (gs : List Glyph) :
    Glyph.widths (g :: gs) = g.width + Glyph.widths gs := rfl

namespace Utf8

/-! ### One character -/

theorem scalar?_some {least n : Nat} {c : Char} (h : scalar? least n = some c) : c.toNat = n := by
  rw [scalar?] at h
  split at h
  · rename_i hvalid
    obtain rfl := Option.some.inj h
    simp [Char.ofNat, Char.ofNatAux, Char.toNat, hvalid.2]
  · cases h

theorem continuation?_lt {b : UInt8} {n : Nat} (h : continuation? b = some n) : n < 0x40 := by
  rw [continuation?] at h
  split at h
  · obtain rfl := Option.some.inj h
    omega
  · cases h

theorem eq_ofNat_of_continuation? {b : UInt8} {n : Nat} (h : continuation? b = some n) :
    b = UInt8.ofNat (n + 0x80) := by
  rw [continuation?] at h
  split at h
  · obtain rfl := Option.some.inj h
    rw [Nat.sub_add_cancel (by omega), UInt8.ofNat_toNat]
  · cases h

/-- A character that is read from bytes has these bytes. -/
theorem bytes_of_charAt? {b : UInt8} {rest : List UInt8} {c : Char}
    (h : charAt? b rest = some c) :
    ∃ more tail, rest = more ++ tail ∧ String.utf8EncodeChar c = b :: more := by
  have hc : c.val.toNat = c.toNat := rfl
  have hmin : ∀ {least n}, scalar? least n = some c → c.toNat = n ∧ least ≤ c.toNat := by
    intro least n hn
    have heq := scalar?_some hn
    rw [scalar?] at hn
    split at hn
    · omega
    · cases hn
  have hbyte : ∀ n, n = b.toNat → UInt8.ofNat n = b := by
    rintro n rfl
    exact UInt8.ofNat_toNat
  -- the first byte tells the length; that no shorter encoding would do is what
  -- `scalar?` has checked, and it selects the same case of `utf8EncodeChar`
  simp only [charAt?] at h
  simp only [String.utf8EncodeChar, hc]
  split at h
  · obtain ⟨hn, -⟩ := hmin h
    refine ⟨[], rest, rfl, ?_⟩
    rw [if_pos (by omega), hbyte _ hn]
  split at h
  · cases h
  split at h
  · rcases rest with _ | ⟨b₁, rest⟩
    · cases h
    · obtain ⟨c₁, h₁, h⟩ := Option.bind_eq_some_iff.mp h
      obtain ⟨hn, hleast⟩ := hmin h
      have hc₁ := continuation?_lt h₁
      refine ⟨[b₁], rest, rfl, ?_⟩
      rw [if_neg (by omega), if_pos (by omega), hbyte _ (by omega), eq_ofNat_of_continuation? h₁,
        show c.toNat % 64 = c₁ by omega]
  split at h
  · rcases rest with _ | ⟨b₁, _ | ⟨b₂, rest⟩⟩
    · cases h
    · cases h
    · obtain ⟨c₁, h₁, h⟩ := Option.bind_eq_some_iff.mp h
      obtain ⟨c₂, h₂, h⟩ := Option.bind_eq_some_iff.mp h
      obtain ⟨hn, hleast⟩ := hmin h
      have hc₁ := continuation?_lt h₁
      have hc₂ := continuation?_lt h₂
      refine ⟨[b₁, b₂], rest, rfl, ?_⟩
      rw [if_neg (by omega), if_neg (by omega), if_pos (by omega), hbyte _ (by omega),
        eq_ofNat_of_continuation? h₁, eq_ofNat_of_continuation? h₂,
        show c.toNat / 64 % 64 = c₁ by omega, show c.toNat % 64 = c₂ by omega]
  split at h
  · rcases rest with _ | ⟨b₁, _ | ⟨b₂, _ | ⟨b₃, rest⟩⟩⟩
    · cases h
    · cases h
    · cases h
    · obtain ⟨c₁, h₁, h⟩ := Option.bind_eq_some_iff.mp h
      obtain ⟨c₂, h₂, h⟩ := Option.bind_eq_some_iff.mp h
      obtain ⟨c₃, h₃, h⟩ := Option.bind_eq_some_iff.mp h
      obtain ⟨hn, hleast⟩ := hmin h
      have hc₁ := continuation?_lt h₁
      have hc₂ := continuation?_lt h₂
      have hc₃ := continuation?_lt h₃
      refine ⟨[b₁, b₂, b₃], rest, rfl, ?_⟩
      rw [if_neg (by omega), if_neg (by omega), if_neg (by omega), hbyte _ (by omega),
        eq_ofNat_of_continuation? h₁, eq_ofNat_of_continuation? h₂, eq_ofNat_of_continuation? h₃,
        show c.toNat / 4096 % 64 = c₁ by omega, show c.toNat / 64 % 64 = c₂ by omega,
        show c.toNat % 64 = c₃ by omega]
  · cases h

/-- A character takes its bytes from what is there. -/
theorem utf8Size_le_of_charAt {b : UInt8} {rest : List UInt8} {c : Char}
    (h : charAt? b rest = some c) : c.utf8Size - 1 ≤ rest.length := by
  obtain ⟨more, tail, rfl, hbytes⟩ := bytes_of_charAt? h
  have hlength := String.length_utf8EncodeChar c
  rw [hbytes, List.length_cons] at hlength
  rw [List.length_append]
  omega

/-- A byte that continues no character ends the one before it. -/
theorem charAt?_append {stop : UInt8} (hstop : continuation? stop = none) (b : UInt8)
    (rest tail : List UInt8) : charAt? b (rest ++ stop :: tail) = charAt? b rest := by
  simp only [charAt?]
  match rest with
  | [] => rcases tail with _ | ⟨b₂, _ | ⟨b₃, tail⟩⟩ <;> simp [hstop]
  | [b₁] => rcases tail with _ | ⟨b₃, tail⟩ <;> simp [hstop]
  | [b₁, b₂] => simp [hstop]
  | b₁ :: b₂ :: b₃ :: rest => simp

/-! ### All of them -/

theorem decodeFrom_append {stop : UInt8} (hstop : continuation? stop = none) {skip : Nat}
    (bytes tail : List UInt8) (hskip : skip ≤ bytes.length) :
    decodeFrom skip (bytes ++ stop :: tail) =
      decodeFrom skip bytes ++ decodeFrom 0 (stop :: tail) := by
  induction bytes generalizing skip with
  | nil =>
    obtain rfl := Nat.le_zero.mp hskip
    rfl
  | cons b rest ih =>
    cases skip with
    | succ skip => exact ih (Nat.le_of_succ_le_succ hskip)
    | zero =>
      rw [List.cons_append, decodeFrom, decodeFrom, charAt?_append hstop]
      cases hc : charAt? b rest with
      | some c => exact congrArg _ (ih (utf8Size_le_of_charAt hc))
      | none => exact congrArg _ (ih (Nat.zero_le _))

/-- What stands before a byte that continues no character is decoded on its own. -/
theorem decode_append {stop : UInt8} (hstop : continuation? stop = none) (bytes tail : List UInt8) :
    decode (bytes ++ stop :: tail) = decode bytes ++ decode (stop :: tail) :=
  decodeFrom_append hstop bytes tail (Nat.zero_le _)

end Utf8

end MiniML
