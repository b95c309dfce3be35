/-
  MiniML/Proofs/Source/Tiling.lean
  ================================
  **Nothing of a source is lost** — a source that scans consists of its tokens, letter by
  letter and each at its offset, and of white space and comments between them (`Tiles`).
  A source that does not scan is of this kind up to the first character that can begin
  neither a token nor layout (`accounted`).

  All of this is said of bytes: offsets count bytes, and a comment may contain bytes that
  are no text.
-/
import MiniML.Proofs.Source.Items

namespace MiniML

open Utf8

/-! ### Layout -/

/-- White space and comments, each comment with the line break that ends it. -/
inductive Layout : List UInt8 → Prop where
  | nil : Layout []
  | space {c : Char} {rest : List UInt8} (h : Text.isSpace c = true) (hrest : Layout rest) :
      Layout (String.utf8EncodeChar c ++ rest)
  | comment {body rest : List UInt8} (hbody : 0x0A ∉ body) (hrest : Layout rest) :
      Layout (0x23 :: (body ++ 0x0A :: rest))

theorem Layout.append {gap gap' : List UInt8} (h : Layout gap) (h' : Layout gap') :
    Layout (gap ++ gap') := by
  induction h with
  | nil => exact h'
  | space hc hrest ih =>
    rw [List.append_assoc]
    exact .space hc ih
  | comment hbody hrest ih =>
    rw [List.cons_append, List.append_assoc, List.cons_append]
    exact .comment hbody ih

/-- A comment that the end of the source ends, or nothing. -/
def LastComment (last : List UInt8) : Prop :=
  last = [] ∨ ∃ body, last = 0x23 :: body ∧ 0x0A ∉ body

/-! ### Line breaks among bytes -/

/-- No character but the line break has the byte of the line break in it. -/
theorem newline_not_mem_utf8EncodeChar {c : Char} (hc : c ≠ '\n') :
    0x0A ∉ String.utf8EncodeChar c := by
  have hval : c.val.toNat = c.toNat := rfl
  have hmax : c.toNat < 0x110000 := by
    rcases c.valid with h | ⟨-, h⟩ <;> omega
  have hbyte : ∀ n < 0x100, n ≠ 0x0A → (0x0A : UInt8) ≠ UInt8.ofNat n := by
    intro n hn hne heq
    have hnat := congrArg UInt8.toNat heq
    rw [UInt8.toNat_ofNat'] at hnat
    change 0x0A = n % 256 at hnat
    omega
  have hascii : c.toNat ≠ 0x0A := by
    intro h
    exact hc (by rw [← Char.ofNat_toNat c, h])
  simp only [String.utf8EncodeChar, hval]
  intro hmem
  split at hmem
  · exact hbyte _ (by omega) hascii (List.mem_singleton.mp hmem)
  split at hmem
  · simp only [List.mem_cons, List.not_mem_nil, or_false] at hmem
    rcases hmem with h | h <;> exact hbyte _ (by omega) (by omega) h
  split at hmem
  · simp only [List.mem_cons, List.not_mem_nil, or_false] at hmem
    rcases hmem with h | h | h <;> exact hbyte _ (by omega) (by omega) h
  · simp only [List.mem_cons, List.not_mem_nil, or_false] at hmem
    rcases hmem with h | h | h | h <;> exact hbyte _ (by omega) (by omega) h

/-- Stray bytes that are none of ASCII, as in every source that was decoded. -/
def Glyph.Wide (gs : List Glyph) : Prop := ∀ b, .stray b ∈ gs → 0x80 ≤ b.toNat

theorem wide_decode (src : List UInt8) : Glyph.Wide (decode src) :=
  fun _ h => le_of_stray_mem_decodeFrom h

theorem newline_not_mem_encode {gs : List Glyph} (hwide : Glyph.Wide gs) (h : .char '\n' ∉ gs) :
    0x0A ∉ encode gs := by
  intro hmem
  obtain ⟨g, hg, hmem⟩ := List.mem_flatMap.mp hmem
  cases g with
  | char c =>
    refine newline_not_mem_utf8EncodeChar ?_ hmem
    rintro rfl
    exact h hg
  | stray b =>
    obtain rfl := List.mem_singleton.mp hmem
    exact absurd (hwide _ hg) (by decide)

/-! ### Tokens and the layout between them -/

/-- The bytes, of which the first stands at offset `o`, consist of the tokens, each
    written out at its offset, and of layout before, between and behind them. -/
inductive Tiles : Nat → List UInt8 → List Lexeme → Prop where
  | gap {o : Nat} {gap : List UInt8} (h : Layout gap) : Tiles o gap []
  | token {o : Nat} {gap rest : List UInt8} {token : Token} {cs : List Char} {ts : List Lexeme}
      (hgap : Layout gap) (hcs : token.Written cs)
      (hrest : Tiles (o + gap.length + Glyph.widths (cs.map .char)) rest ts) :
      Tiles o (gap ++ (encode (cs.map .char) ++ rest)) (⟨token, o + gap.length⟩ :: ts)

/-- Layout in front is a part of the first gap. -/
theorem Tiles.behind {o : Nat} {gap bytes : List UInt8} {ts : List Lexeme} (hgap : Layout gap)
    (h : Tiles (o + gap.length) bytes ts) : Tiles o (gap ++ bytes) ts := by
  cases h with
  | gap h => exact .gap (hgap.append h)
  | @token _ gap' rest token cs ts hgap' hcs hrest =>
    have hlength : o + gap.length + gap'.length = o + (gap ++ gap').length := by
      rw [List.length_append, Nat.add_assoc]
    rw [hlength] at hrest ⊢
    rw [← List.append_assoc]
    exact .token (hgap.append hgap') hcs hrest

theorem Token.Written.widths_pos {token : Token} {cs : List Char} (h : token.Written cs) :
    0 < Glyph.widths (cs.map .char) := by
  cases cs with
  | nil => exact absurd rfl h.ne_nil
  | cons c cs => exact Nat.add_pos_left (Glyph.width_pos _) _

theorem Tiles.le_offset {o : Nat} {bytes : List UInt8} {ts : List Lexeme} (h : Tiles o bytes ts) :
    ∀ l ∈ ts, o ≤ l.offset := by
  induction h with
  | gap => exact fun l hl => absurd hl List.not_mem_nil
  | token hgap hcs hrest ih =>
    intro l hl
    rcases List.mem_cons.mp hl with rfl | hl
    · exact Nat.le_add_right _ _
    · have hle := ih l hl
      omega

/-- The tokens and behind them the end of the input, as a token that stands at `stop`. -/
def withEnd (stop : Nat) (ts : List Lexeme) : List Lexeme := ts ++ [⟨.eof, stop⟩]

/-- Offsets increase up to the end of the bytes, and to any place behind it. -/
theorem Tiles.increasing {o stop : Nat} {bytes : List UInt8} {ts : List Lexeme}
    (h : Tiles o bytes ts) (hstop : o + bytes.length ≤ stop) :
    ((withEnd stop ts).map Lexeme.offset).Pairwise (· < ·) := by
  induction h with
  | gap => exact List.pairwise_singleton _ _
  | @token o gap rest token cs ts hgap hcs hrest ih =>
    have hpos := hcs.widths_pos
    simp only [List.length_append, length_encode] at hstop
    refine List.Pairwise.cons ?_ (ih (by omega))
    rw [List.forall_mem_map]
    intro l hl
    rcases List.mem_append.mp hl with hl | hl
    · have hle := hrest.le_offset l hl
      change o + gap.length < l.offset
      omega
    · obtain rfl := List.mem_singleton.mp hl
      change o + gap.length < stop
      omega

/-- A token stands at its offset. -/
theorem Tiles.written {o : Nat} {bytes : List UInt8} {ts : List Lexeme} (h : Tiles o bytes ts) :
    ∀ l ∈ ts, ∃ cs before after, l.token.Written cs ∧
      bytes = before ++ (encode (cs.map .char) ++ after) ∧ l.offset = o + before.length := by
  induction h with
  | gap => exact fun l hl => absurd hl List.not_mem_nil
  | @token o gap rest token cs ts hgap hcs hrest ih =>
    intro l hl
    rcases List.mem_cons.mp hl with rfl | hl
    · exact ⟨cs, gap, rest, hcs, rfl, rfl⟩
    · obtain ⟨cs', before, after, hcs', rfl, hoffset⟩ := ih l hl
      refine ⟨cs', gap ++ (encode (cs.map .char) ++ before), after, hcs', by simp, ?_⟩
      simp only [hoffset, List.length_append, length_encode]
      omega

theorem Tiles.ne_eof {o : Nat} {bytes : List UInt8} {ts : List Lexeme} (h : Tiles o bytes ts) :
    ∀ l ∈ ts, l.token ≠ .eof := by
  intro l hl
  obtain ⟨cs, before, after, hcs, -⟩ := h.written l hl
  exact hcs.ne_eof

/-! ### Scanned sources -/

namespace Scan

/-- What the result of a scan says about the source: it is tokens and layout, to the end
    or up to a glyph at which no item begins. -/
def Accounted (o : Nat) (gs : List Glyph) : Except ParseError (List Lexeme) → Prop
  | .ok ts => ∃ covered last, encode gs = covered ++ last ∧ Tiles o covered ts ∧ LastComment last
  | .error e => ∃ pre g rest ts, gs = pre ++ g :: rest ∧ e.offset = o + Glyph.widths pre ∧
      Tiles o (encode pre) ts ∧ lexeme g.toChar rest = .error e.fault

theorem widths_append (gs gs' : List Glyph) :
    Glyph.widths (gs ++ gs') = Glyph.widths gs + Glyph.widths gs' := by
  rw [← length_encode, encode_append, List.length_append, length_encode, length_encode]

theorem Accounted.behind {o : Nat} {pre gs : List Glyph} {r : Except ParseError (List Lexeme)}
    (hpre : Layout (encode pre)) (h : Accounted (o + Glyph.widths pre) gs r) :
    Accounted o (pre ++ gs) r := by
  rw [← length_encode] at h
  cases r with
  | ok ts =>
    obtain ⟨covered, last, hgs, htiles, hlast⟩ := h
    refine ⟨encode pre ++ covered, last, ?_, htiles.behind hpre, hlast⟩
    rw [encode_append, hgs, List.append_assoc]
  | error e =>
    obtain ⟨pre', g, rest, ts, rfl, hoffset, htiles, hfault⟩ := h
    refine ⟨pre ++ pre', g, rest, ts, by rw [List.append_assoc], ?_, ?_, hfault⟩
    · rw [hoffset, widths_append, length_encode, Nat.add_assoc]
    · rw [encode_append]
      exact htiles.behind hpre

theorem Accounted.token {o : Nat} {cs : List Char} {gs : List Glyph} {token : Token}
    {r : Except ParseError (List Lexeme)} (hcs : token.Written cs)
    (h : Accounted (o + Glyph.widths (cs.map .char)) gs r) :
    Accounted o (cs.map .char ++ gs) (r.map (⟨token, o⟩ :: ·)) := by
  have htiles : ∀ {bytes ts}, Tiles (o + Glyph.widths (cs.map .char)) bytes ts →
      Tiles o (encode (cs.map .char) ++ bytes) (⟨token, o⟩ :: ts) :=
    fun hrest => .token (o := o) .nil hcs hrest
  cases r with
  | ok ts =>
    obtain ⟨covered, last, hgs, hcovered, hlast⟩ := h
    refine ⟨_, last, ?_, htiles hcovered, hlast⟩
    rw [encode_append, hgs, List.append_assoc]
  | error e =>
    obtain ⟨pre, g, rest, ts, rfl, hoffset, hpre, hfault⟩ := h
    refine ⟨cs.map .char ++ pre, g, rest, ⟨token, o⟩ :: ts, by rw [List.append_assoc], ?_, ?_,
      hfault⟩
    · rw [hoffset, widths_append, Nat.add_assoc]
    · rw [encode_append]
      exact htiles hpre

/-- A scan accounts for all of its source. -/
theorem Scanned.accounted {o : Nat} {gs : List Glyph} {r : Except ParseError (List Lexeme)}
    (h : Scanned o gs r) (hwide : Glyph.Wide gs) : Accounted o gs r := by
  induction h with
  | nil => exact ⟨[], [], rfl, .gap .nil, .inl rfl⟩
  | @space o g rest r hspace _ ih =>
    have hchar := sound_isSpace.char hspace
    have hlayout : Layout (encode [g]) := by
      rw [hchar]
      exact .space hspace .nil
    exact @Accounted.behind o [g] rest r hlayout (ih fun b hb => hwide b (.tail _ hb))
  -- a comment that the end of the source closes is not layout: nothing may follow it
  | @lastComment o body hbody =>
    refine ⟨[], encode (.char '#' :: body), rfl, .gap .nil, .inr ⟨encode body, rfl, ?_⟩⟩
    exact newline_not_mem_encode (fun b hb => hwide b (.tail _ hb)) hbody
  | @comment o body rest r hbody _ ih =>
    have hlayout : Layout (encode (.char '#' :: (body ++ [.char '\n']))) := by
      rw [encode_cons, encode_append]
      refine .comment (newline_not_mem_encode (fun b hb => hwide b ?_) hbody) .nil
      exact .tail _ (List.mem_append_left _ hb)
    have hrest := ih fun b hb => hwide b (.tail _ (List.mem_append_right _ (.tail _ hb)))
    have hwidths : o + Glyph.widths (.char '#' :: (body ++ [.char '\n'])) =
        o + 1 + Glyph.widths body + 1 := by
      rw [Glyph.widths_cons, widths_append]
      change o + (1 + (Glyph.widths body + 1)) = _
      omega
    rw [← hwidths] at hrest
    have haccounted := Accounted.behind hlayout hrest
    rwa [List.cons_append, List.append_assoc] at haccounted
  | @token o c pre rest token r hwritten _ ih =>
    have hrest := ih fun b hb => hwide b (.tail _ (List.mem_append_right _ hb))
    rw [Nat.add_assoc] at hrest
    exact Accounted.token hwritten hrest
  | @fault o g rest fault hfault => exact ⟨[], g, rest, [], rfl, rfl, .gap .nil, hfault⟩

/-- **A scan accounts for every byte of its source.** -/
theorem accounted (src : List UInt8) : Accounted 0 (decode src) (scan (decode src)) :=
  (scanned 0 (decode src)).accounted (wide_decode src)

end Scan

end MiniML
