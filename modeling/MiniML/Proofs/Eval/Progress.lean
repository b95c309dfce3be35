/-
  MiniML/Proofs/Eval/Progress.lean
  ================================
  **Where reduction may end** — a closed term that has a type and does not step is a
  value of the shape that its type asks for, or one of its evaluated parts is
  *blocked*: it takes the head or the tail of `nil`, or it looks into a `fix` that
  does not unfold.  No operation is ever applied to a value of the wrong type.

  A `fix` counts as a value of every type, since only an application to which it is
  the function unfolds it, and only if it is a `fix` of an abstraction.
-/
import MiniML.Proofs.Eval.Preservation

namespace MiniML

/-! ### Blocked terms -/

/-- A term and the parts of it that evaluation comes to: none below an abstraction,
    in the body of a `let`, or in a branch. -/
def Term.evaluated : Term → List Term
  | .var x => [.var x]
  | .abs x b => [.abs x b]
  | .app f a => .app f a :: (f.evaluated ++ a.evaluated)
  | .letIn x v b => .letIn x v b :: v.evaluated
  | .int n => [.int n]
  | .nil => [.nil]
  | .cons h t => .cons h t :: (h.evaluated ++ t.evaluated)
  | .head l => .head l :: l.evaluated
  | .tail l => .tail l :: l.evaluated
  | .add l r => .add l r :: (l.evaluated ++ r.evaluated)
  | .sub l r => .sub l r :: (l.evaluated ++ r.evaluated)
  | .ifZero c t e => .ifZero c t e :: c.evaluated
  | .ifEmpty c t e => .ifEmpty c t e :: c.evaluated
  | .fix f => .fix f :: f.evaluated
  | .unit => [.unit]
  | .mkRef e => .mkRef e :: e.evaluated
  | .deref e => .deref e :: e.evaluated
  | .assign r v => .assign r v :: (r.evaluated ++ v.evaluated)
  | .region id => [.region id]

/-- An operation that no rule covers although its operands may have the right types:
    it takes `nil` apart, or the operand that it looks into is a `fix`.  A `fix` of an
    abstraction is not in the way of an application. -/
def Term.isBlocked : Term → Bool
  | .head .nil | .tail .nil => true
  | .app (.fix (.abs _ _)) _ => false
  | .app (.fix _) _ | .head (.fix _) | .tail (.fix _) => true
  | .add (.fix _) _ | .add _ (.fix _) | .sub (.fix _) _ | .sub _ (.fix _) => true
  | .ifZero (.fix _) _ _ | .ifEmpty (.fix _) _ _ => true
  | .deref (.fix _) | .assign (.fix _) _ => true
  | _ => false

/-- An evaluated part of the term is blocked. -/
def Term.Blocked (t : Term) : Prop := ∃ u ∈ t.evaluated, u.isBlocked = true

theorem Term.mem_evaluated_self (t : Term) : t ∈ t.evaluated := by
  cases t <;> simp [evaluated]

theorem Term.Blocked.self {t : Term} (h : t.isBlocked = true) : t.Blocked :=
  ⟨t, t.mem_evaluated_self, h⟩

/-- What blocks a part in evaluated position blocks the whole. -/
theorem Term.Blocked.fill (K : Frame) {t : Term} (h : t.Blocked) : (K.fill t).Blocked := by
  obtain ⟨u, hu, hb⟩ := h
  refine ⟨u, ?_, hb⟩
  cases K <;> simp [Frame.fill, evaluated, hu]

/-! ### The shapes of values -/

/-- Whether a term has the shape that values of a type have.  A type variable is the
    type of no value but a `fix`. -/
@[grind =] def Term.hasShape (s : Store) (T : Ty) (v : Term) : Bool :=
  (v matches .fix _) || match T with
    | .int => (v matches .int _)
    | .list _ => (v matches .nil | .cons _ _)
    | .unit => (v matches .unit)
    | .arrow _ _ => (v matches .abs _ _)
    | .ref _ => match v with
      | .region id => (s.get? id).isSome
      | _ => false
    | .var _ | .all _ _ => false

section

variable {Ψ : StoreTyping} {s : Store} {v : Term} {T : Ty}

/-- **Canonical forms.**  A closed value has the shape of its type. -/
theorem Closed.hasShape (hs : s.Typed Ψ) (h : Closed Ψ v fun _ : Unit => T)
    (hv : v.isValue = true) : v.hasShape s T = true := by
  cases v with
  | var x => exact absurd (h ()) id
  | abs x b =>
    obtain ⟨dom, cod, rfl, -⟩ := h ()
    rfl
  | int n =>
    obtain rfl := h ()
    rfl
  | nil =>
    obtain ⟨elem, rfl, -⟩ := h ()
    rfl
  | cons a l =>
    obtain ⟨elem, heq, -⟩ := h
    obtain rfl : T = .list (elem ()) := heq ()
    rfl
  | fix f => rfl
  | unit =>
    obtain rfl := h ()
    rfl
  | region id =>
    obtain ⟨c, rfl, hc⟩ := h ()
    obtain ⟨w, hw, -⟩ := hs.content hc
    simp [Term.hasShape, hw]
  | app | letIn | head | tail | add | sub | ifZero | ifEmpty | mkRef | deref | assign =>
    exact absurd hv Bool.false_ne_true

theorem Term.isFix_or_abs {dom cod : Ty} (h : v.hasShape s (.arrow dom cod) = true) :
    (∃ f, v = .fix f) ∨ ∃ x b, v = .abs x b := by
  cases v <;> simp [hasShape] at h ⊢

theorem Term.isFix_or_int (h : v.hasShape s .int = true) :
    (∃ f, v = .fix f) ∨ ∃ n, v = .int n := by
  cases v <;> simp [hasShape] at h ⊢

/-- Arithmetic that no rule covers has a `fix` for an operand, the right one only
    behind a literal. -/
theorem Term.isFix_of_arith {op : Int64 → Int64 → Int64} {w : Term}
    (hv : v.hasShape s .int = true) (hw : w.hasShape s .int = true)
    (h : Rule.arith? op v w = none) :
    (∃ f, v = .fix f) ∨ ∃ n f, v = .int n ∧ w = .fix f := by
  obtain ⟨f, rfl⟩ | ⟨m, rfl⟩ := isFix_or_int hv
  · exact .inl ⟨f, rfl⟩
  · obtain ⟨f, rfl⟩ | ⟨n, rfl⟩ := isFix_or_int hw
    · exact .inr ⟨m, f, rfl, rfl⟩
    · cases h

theorem Term.isFix_or_list {elem : Ty} (h : v.hasShape s (.list elem) = true) :
    (∃ f, v = .fix f) ∨ v = .nil ∨ ∃ a l, v = .cons a l := by
  cases v <;> simp [hasShape] at h ⊢

theorem Term.isFix_or_region {c : Ty} (h : v.hasShape s (.ref c) = true) :
    (∃ f, v = .fix f) ∨ ∃ id w, v = .region id ∧ s.get? id = some w := by
  cases v with
  | region id =>
    obtain ⟨w, hw⟩ := Option.isSome_iff_exists.mp h
    exact .inr ⟨id, w, rfl, hw⟩
  | _ => simp [hasShape] at h ⊢

end

/-! ### Progress -/

/-- **Progress.**  A closed term that has a type and does not step is a value or is
    blocked. -/
theorem Closed.progress {Ψ : StoreTyping} {s : Store} (hs : s.Typed Ψ) {t : Term} {T : Ty}
    (h : Closed Ψ t fun _ : Unit => T) (hstep : MiniML.step s t = none) :
    t.isValue = true ∨ t.Blocked := by
  -- no part in evaluated position steps either, so by induction it is blocked, or it
  -- is a value; then its shape says that a rule applies or that the form is blocked
  induction t generalizing T with
  | var | abs | int | nil | unit | region => exact .inl rfl
  | app f a ihf _ =>
    right
    obtain ⟨-, happ⟩ := h
    obtain ⟨dom, hf, -⟩ := happ ()
    rw [MiniML.step] at hstep
    split at hstep
    · cases hstep
    rename_i hbeta
    obtain hfv | hfb := ihf hf (step_part_eq_none hstep).1
    · obtain ⟨g, rfl⟩ | ⟨x, b, rfl⟩ := Term.isFix_or_abs (Closed.hasShape hs hf hfv)
      · refine .self ?_
        cases g <;> first | rfl | cases hbeta
      · cases hbeta
    · exact hfb.fill (.func a)
  | letIn x v b ihv _ =>
    right
    obtain ⟨S, hne, -, -, hv, -⟩ := h
    obtain ⟨σ, hσ⟩ := hne ()
    rw [MiniML.step] at hstep
    obtain ⟨hvstep, hrest⟩ := step_part_eq_none hstep
    obtain hval | hvb := ihv (Closed.at hv ⟨((), σ), hσ⟩) hvstep
    · rw [if_pos hval] at hrest
      cases hrest
    · exact hvb.fill (.value x b)
  | cons a l iha ihl =>
    obtain ⟨elem, -, ha, hl⟩ := h
    rw [MiniML.step] at hstep
    obtain ⟨hastep, hrest⟩ := step_part_eq_none hstep
    obtain hav | hab := iha (T := elem ()) ha hastep
    · obtain hlv | hlb := ihl hl (Option.map_eq_none_iff.mp hrest)
      · exact .inl (by simp [Term.isValue, hav, hlv])
      · exact .inr (hlb.fill (.consTail a))
    · exact .inr (hab.fill (.consHead l))
  | head l ih =>
    right
    have hl : Closed Ψ l fun _ => .list T := h
    rw [MiniML.step] at hstep
    obtain ⟨hlstep, hrest⟩ := step_part_eq_none hstep
    obtain hlv | hlb := ih hl hlstep
    · obtain ⟨g, rfl⟩ | rfl | ⟨a, l, rfl⟩ := Term.isFix_or_list (Closed.hasShape hs hl hlv)
      · exact .self rfl
      · exact .self rfl
      · cases hrest
    · exact hlb.fill .head
  | tail l ih =>
    right
    obtain ⟨⟨elem, helem⟩, hl⟩ := h
    obtain rfl : T = .list (elem ()) := helem ()
    rw [MiniML.step] at hstep
    obtain ⟨hlstep, hrest⟩ := step_part_eq_none hstep
    obtain hlv | hlb := ih hl hlstep
    · obtain ⟨g, rfl⟩ | rfl | ⟨a, l, rfl⟩ := Term.isFix_or_list (Closed.hasShape hs hl hlv)
      · exact .self rfl
      · exact .self rfl
      · cases hrest
    · exact hlb.fill .tail
  | add l r ihl ihr =>
    right
    obtain ⟨-, hl, hr⟩ := h
    rw [MiniML.step] at hstep
    obtain ⟨hlstep, hrest⟩ := step_part_eq_none hstep
    obtain ⟨hrstep, hrest⟩ := step_part_eq_none hrest
    obtain hlv | hlb := ihl hl hlstep
    · obtain hrv | hrb := ihr hr hrstep
      · obtain ⟨g, rfl⟩ | ⟨m, g, rfl, rfl⟩ := Term.isFix_of_arith (Closed.hasShape hs hl hlv)
          (Closed.hasShape hs hr hrv) (Option.map_eq_none_iff.mp hrest)
        · exact .self rfl
        · exact .self rfl
      · exact hrb.fill (.addRight l)
    · exact hlb.fill (.addLeft r)
  | sub l r ihl ihr =>
    right
    obtain ⟨-, hl, hr⟩ := h
    rw [MiniML.step] at hstep
    obtain ⟨hlstep, hrest⟩ := step_part_eq_none hstep
    obtain ⟨hrstep, hrest⟩ := step_part_eq_none hrest
    obtain hlv | hlb := ihl hl hlstep
    · obtain hrv | hrb := ihr hr hrstep
      · obtain ⟨g, rfl⟩ | ⟨m, g, rfl, rfl⟩ := Term.isFix_of_arith (Closed.hasShape hs hl hlv)
          (Closed.hasShape hs hr hrv) (Option.map_eq_none_iff.mp hrest)
        · exact .self rfl
        · exact .self rfl
      · exact hrb.fill (.subRight l)
    · exact hlb.fill (.subLeft r)
  | ifZero c t e ihc _ _ =>
    right
    obtain ⟨hc, -, -⟩ := h
    rw [MiniML.step] at hstep
    obtain ⟨hcstep, hrest⟩ := step_part_eq_none hstep
    obtain hcv | hcb := ihc hc hcstep
    · obtain ⟨g, rfl⟩ | ⟨n, rfl⟩ := Term.isFix_or_int (Closed.hasShape hs hc hcv)
      · exact .self rfl
      · cases hrest
    · exact hcb.fill (.ifZero t e)
  | ifEmpty c t e ihc _ _ =>
    right
    obtain ⟨⟨elem, hc⟩, -, -⟩ := h
    have hc : Closed Ψ c fun _ => .list (elem ()) := hc
    rw [MiniML.step] at hstep
    obtain ⟨hcstep, hrest⟩ := step_part_eq_none hstep
    obtain hcv | hcb := ihc hc hcstep
    · obtain ⟨g, rfl⟩ | rfl | ⟨a, l, rfl⟩ := Term.isFix_or_list (Closed.hasShape hs hc hcv)
      · exact .self rfl
      · cases hrest
      · cases hrest
    · exact hcb.fill (.ifEmpty t e)
  | fix f ih =>
    rw [MiniML.step] at hstep
    obtain hfv | hfb := ih (T := .arrow T T) h (Option.map_eq_none_iff.mp hstep)
    · exact .inl hfv
    · exact .inr (hfb.fill .fix)
  | mkRef e ih =>
    right
    obtain ⟨-, content, -, he⟩ := h
    rw [MiniML.step] at hstep
    obtain ⟨hestep, hrest⟩ := step_part_eq_none hstep
    obtain hev | heb := ih (T := content ()) he hestep
    · rw [Rule.mkRef?, if_pos hev] at hrest
      cases hrest
    · exact heb.fill .mkRef
  | deref e ih =>
    right
    have he : Closed Ψ e fun _ => .ref T := h
    rw [MiniML.step] at hstep
    obtain ⟨hestep, hrest⟩ := step_part_eq_none hstep
    obtain hev | heb := ih he hestep
    · obtain ⟨g, rfl⟩ | ⟨id, w, rfl, hw⟩ := Term.isFix_or_region (Closed.hasShape hs he hev)
      · exact .self rfl
      · cases hw.symm.trans (Option.map_eq_none_iff.mp hrest)
    · exact heb.fill .deref
  | assign r v ihr ihv =>
    right
    obtain ⟨-, content, hr, hv⟩ := h
    have hr : Closed Ψ r fun _ => .ref (content ()) := hr
    rw [MiniML.step] at hstep
    obtain ⟨hrstep, hrest⟩ := step_part_eq_none hstep
    obtain ⟨hvstep, hrest⟩ := step_part_eq_none hrest
    obtain hrv | hrb := ihr hr hrstep
    · obtain hvv | hvb := ihv (T := content ()) hv hvstep
      · obtain ⟨g, rfl⟩ | ⟨id, w, rfl, -⟩ := Term.isFix_or_region (Closed.hasShape hs hr hrv)
        · exact .self rfl
        · rw [Rule.assign?, if_pos hvv] at hrest
          cases hrest
      · exact hvb.fill (.assignValue r)
    · exact hrb.fill (.assignRef v)

end MiniML
