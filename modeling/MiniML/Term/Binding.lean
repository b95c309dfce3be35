/-
  MiniML/Term/Binding.lean
  ========================
  **Binding** — `abs` binds its name in its body, `letIn` binds its name in its
  body but not in its value.  Everything that depends on this is here:

    * `freeVars`, the names that occur free;
    * `subst`, substitution that renames nothing, so it is capture-free only
      when no name bound in the term is free in the replacement;
    * `alphaConvert`, which gives every binder a fresh name, so that the
      condition above holds of the result;
    * `alphaEq`, equality up to the names of binders.
-/
import MiniML.Term.Basic

namespace MiniML.Term

/-! ### Free variables -/

def freeVars : Term → NameSet
  | .var x => {x}
  | .abs x b => b.freeVars.erase x
  | .app f a => f.freeVars ∪ a.freeVars
  | .letIn x v b => v.freeVars ∪ b.freeVars.erase x
  | .int _ | .nil | .unit | .region _ => ∅
  | .cons h t => h.freeVars ∪ t.freeVars
  | .head l | .tail l => l.freeVars
  | .add l r | .sub l r => l.freeVars ∪ r.freeVars
  | .ifZero c t e | .ifEmpty c t e => c.freeVars ∪ t.freeVars ∪ e.freeVars
  | .fix f => f.freeVars
  | .mkRef e | .deref e => e.freeVars
  | .assign r v => r.freeVars ∪ v.freeVars

/-! ### Substitution -/

/-- Replaces the free occurrences of `x` by `r`.  Binders keep their names, so a
    binder of a name that is free in `r` captures it. -/
def subst (x : String) (r : Term) : Term → Term
  | .var y => if y = x then r else .var y
  | .abs y b => if y = x then .abs y b else .abs y (subst x r b)
  | .app f a => .app (subst x r f) (subst x r a)
  -- the value of a `letIn` is outside the scope of its name
  | .letIn y v b => .letIn y (subst x r v) (if y = x then b else subst x r b)
  | .int n => .int n
  | .nil => .nil
  | .cons h t => .cons (subst x r h) (subst x r t)
  | .head l => .head (subst x r l)
  | .tail l => .tail (subst x r l)
  | .add a b => .add (subst x r a) (subst x r b)
  | .sub a b => .sub (subst x r a) (subst x r b)
  | .ifZero c t e => .ifZero (subst x r c) (subst x r t) (subst x r e)
  | .ifEmpty c t e => .ifEmpty (subst x r c) (subst x r t) (subst x r e)
  | .fix f => .fix (subst x r f)
  | .unit => .unit
  | .mkRef e => .mkRef (subst x r e)
  | .deref e => .deref (subst x r e)
  | .assign a v => .assign (subst x r a) (subst x r v)
  | .region i => .region i

/-! ### Alpha conversion -/

/-- Gives every binder the next name of the supply, outermost first and left to
    right; a `letIn` takes its name before its value is converted.  Occurrences
    follow their binder, and names bound outside the term follow `ρ`. -/
def alphaConvert (ρ : Renaming) : Term → NameSupply → Term × NameSupply
  | .var x, s => (.var ((ρ[x]?).getD x), s)
  | .abs x b, s =>
    let y := s.fresh
    let b' := b.alphaConvert (ρ.insert x y.1) y.2
    (.abs y.1 b'.1, b'.2)
  | .letIn x v b, s =>
    let y := s.fresh
    -- the value is outside the scope of `x`, but its binders come after it
    let v' := v.alphaConvert ρ y.2
    let b' := b.alphaConvert (ρ.insert x y.1) v'.2
    (.letIn y.1 v'.1 b'.1, b'.2)
  | .app f a, s =>
    let f' := f.alphaConvert ρ s
    let a' := a.alphaConvert ρ f'.2
    (.app f'.1 a'.1, a'.2)
  | .int n, s => (.int n, s)
  | .nil, s => (.nil, s)
  | .cons h t, s =>
    let h' := h.alphaConvert ρ s
    let t' := t.alphaConvert ρ h'.2
    (.cons h'.1 t'.1, t'.2)
  | .head l, s =>
    let l' := l.alphaConvert ρ s
    (.head l'.1, l'.2)
  | .tail l, s =>
    let l' := l.alphaConvert ρ s
    (.tail l'.1, l'.2)
  | .add l r, s =>
    let l' := l.alphaConvert ρ s
    let r' := r.alphaConvert ρ l'.2
    (.add l'.1 r'.1, r'.2)
  | .sub l r, s =>
    let l' := l.alphaConvert ρ s
    let r' := r.alphaConvert ρ l'.2
    (.sub l'.1 r'.1, r'.2)
  | .ifZero c t e, s =>
    let c' := c.alphaConvert ρ s
    let t' := t.alphaConvert ρ c'.2
    let e' := e.alphaConvert ρ t'.2
    (.ifZero c'.1 t'.1 e'.1, e'.2)
  | .ifEmpty c t e, s =>
    let c' := c.alphaConvert ρ s
    let t' := t.alphaConvert ρ c'.2
    let e' := e.alphaConvert ρ t'.2
    (.ifEmpty c'.1 t'.1 e'.1, e'.2)
  | .fix f, s =>
    let f' := f.alphaConvert ρ s
    (.fix f'.1, f'.2)
  | .unit, s => (.unit, s)
  | .mkRef e, s =>
    let e' := e.alphaConvert ρ s
    (.mkRef e'.1, e'.2)
  | .deref e, s =>
    let e' := e.alphaConvert ρ s
    (.deref e'.1, e'.2)
  | .assign r v, s =>
    let r' := r.alphaConvert ρ s
    let v' := v.alphaConvert ρ r'.2
    (.assign r'.1 v'.1, v'.2)
  | .region i, s => (.region i, s)

@[simp] theorem size_alphaConvert (t : Term) (ρ : Renaming) (s : NameSupply) :
    (t.alphaConvert ρ s).1.size = t.size := by
  induction t generalizing ρ s <;> simp_all [alphaConvert, size]

/-! ### Alpha equality -/

/-- The binders around a position: each name in scope with the depth at which its
    nearest binder stands. -/
abbrev Scope := Std.ExtTreeMap String Nat

/-- Two variables agree when both are bound at the same depth, or both are free and
    have the same name. -/
def sameVar (l r : Scope) (x y : String) : Bool :=
  match l[x]?, r[y]? with
  | some i, some j => i == j
  | none, none => x == y
  -- bound on one side and free on the other
  | _, _ => false

/-- Equality up to bound names, below `depth` binders that are in scope as `l` on
    the left and as `r` on the right. -/
def alphaEqIn (l r : Scope) (depth : Nat) : Term → Term → Bool
  | .var x, t =>
    match t with
    | .var y => sameVar l r x y
    | _ => false
  | .abs x b, t =>
    match t with
    | .abs y c => alphaEqIn (l.insert x depth) (r.insert y depth) (depth + 1) b c
    | _ => false
  | .app f a, t =>
    match t with
    | .app g b => alphaEqIn l r depth f g && alphaEqIn l r depth a b
    | _ => false
  | .letIn x v b, t =>
    match t with
    | .letIn y w c =>
      alphaEqIn l r depth v w &&
        alphaEqIn (l.insert x depth) (r.insert y depth) (depth + 1) b c
    | _ => false
  | .int m, t =>
    match t with
    | .int n => m == n
    | _ => false
  | .nil, t =>
    match t with
    | .nil => true
    | _ => false
  | .cons h u, t =>
    match t with
    | .cons k v => alphaEqIn l r depth h k && alphaEqIn l r depth u v
    | _ => false
  | .head a, t =>
    match t with
    | .head b => alphaEqIn l r depth a b
    | _ => false
  | .tail a, t =>
    match t with
    | .tail b => alphaEqIn l r depth a b
    | _ => false
  | .add a b, t =>
    match t with
    | .add c d => alphaEqIn l r depth a c && alphaEqIn l r depth b d
    | _ => false
  | .sub a b, t =>
    match t with
    | .sub c d => alphaEqIn l r depth a c && alphaEqIn l r depth b d
    | _ => false
  | .ifZero a b c, t =>
    match t with
    | .ifZero d e f =>
      alphaEqIn l r depth a d && alphaEqIn l r depth b e && alphaEqIn l r depth c f
    | _ => false
  | .ifEmpty a b c, t =>
    match t with
    | .ifEmpty d e f =>
      alphaEqIn l r depth a d && alphaEqIn l r depth b e && alphaEqIn l r depth c f
    | _ => false
  | .fix f, t =>
    match t with
    | .fix g => alphaEqIn l r depth f g
    | _ => false
  | .unit, t =>
    match t with
    | .unit => true
    | _ => false
  | .mkRef a, t =>
    match t with
    | .mkRef b => alphaEqIn l r depth a b
    | _ => false
  | .deref a, t =>
    match t with
    | .deref b => alphaEqIn l r depth a b
    | _ => false
  | .assign a b, t =>
    match t with
    | .assign c d => alphaEqIn l r depth a c && alphaEqIn l r depth b d
    | _ => false
  | .region i, t =>
    match t with
    | .region j => i == j
    | _ => false

/-- Equality up to the names of binders. -/
def alphaEq (a b : Term) : Bool := alphaEqIn ∅ ∅ 0 a b

end MiniML.Term
