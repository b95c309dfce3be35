/-
  MiniML/Proofs/Term/Levels.lean
  ==============================
  **Alpha equality compares nameless forms** — the test walks through two terms at once
  and keeps, for either side, the depth at which each name in scope was bound.  Read on
  one side only, these depths are a nameless form of the term: a bound variable is
  replaced by the *level* of its binder, which is the number of binders around that
  binder (`Term.levels`).

  The test holds exactly if the two forms are equal (`alphaEqIn_iff_levelsIn`, for every
  two scopes), so it is an equivalence, which its definition does not show.  Levels are
  counted from the outside and the indices of `Term.nameless` from the inside; both forms
  say the same.
-/
import MiniML.Proofs.Term.Canonical

namespace MiniML.Term

/-! ### Levels -/

/-- The nameless form of a term below `depth` binders in which a bound variable is the
    level of its binder; `σ` says what the names from outside stand for. -/
def levelsIn (σ : String → Nameless.Var) (depth : Nat) : Term → Nameless
  | .var x => .var (σ x)
  | .abs x b => .abs (b.levelsIn (Function.update σ x (.bound depth)) (depth + 1))
  | .app f a => .app (f.levelsIn σ depth) (a.levelsIn σ depth)
  | .letIn x v b =>
    .letIn (v.levelsIn σ depth) (b.levelsIn (Function.update σ x (.bound depth)) (depth + 1))
  | .int n => .int n
  | .nil => .nil
  | .cons h t => .cons (h.levelsIn σ depth) (t.levelsIn σ depth)
  | .head l => .head (l.levelsIn σ depth)
  | .tail l => .tail (l.levelsIn σ depth)
  | .add l r => .add (l.levelsIn σ depth) (r.levelsIn σ depth)
  | .sub l r => .sub (l.levelsIn σ depth) (r.levelsIn σ depth)
  | .ifZero c t e => .ifZero (c.levelsIn σ depth) (t.levelsIn σ depth) (e.levelsIn σ depth)
  | .ifEmpty c t e => .ifEmpty (c.levelsIn σ depth) (t.levelsIn σ depth) (e.levelsIn σ depth)
  | .fix f => .fix (f.levelsIn σ depth)
  | .unit => .unit
  | .mkRef e => .mkRef (e.levelsIn σ depth)
  | .deref e => .deref (e.levelsIn σ depth)
  | .assign r v => .assign (r.levelsIn σ depth) (v.levelsIn σ depth)
  | .region i => .region i

/-- The nameless form of a term in which a bound variable is the level of its binder and
    a free variable keeps its name. -/
def levels (t : Term) : Nameless := t.levelsIn .free 0

/-! ### Scopes -/

/-- What a name stands for in a scope. -/
def Scope.place (l : Scope) (x : String) : Nameless.Var :=
  match l[x]? with
  | some depth => .bound depth
  | none => .free x

theorem Scope.place_empty : Scope.place ∅ = .free := by
  funext x
  rw [place, Std.ExtTreeMap.getElem?_empty]

theorem Scope.place_insert (l : Scope) (x : String) (depth : Nat) :
    Scope.place (l.insert x depth) = Function.update l.place x (.bound depth) := by
  funext y
  by_cases hyx : y = x
  · rw [hyx, Function.update_self, place, Std.ExtTreeMap.getElem?_insert_self]
  · rw [Function.update_of_ne hyx, place, place, Std.ExtTreeMap.getElem?_insert]
    simp [Ne.symm hyx]

/-- A name that is bound on one side only never agrees with the name on the other side. -/
theorem sameVar_iff_place (l r : Scope) (x y : String) :
    sameVar l r x y = true ↔ l.place x = r.place y := by
  rw [sameVar, Scope.place, Scope.place]
  cases l[x]? <;> cases r[y]? <;> simp

/-! ### The test -/

/-- **Alpha equality is equality of nameless forms**, below any two scopes and at any depth:
    the depths are compared only with each other. -/
theorem alphaEqIn_iff_levelsIn (l r : Scope) (depth : Nat) (a b : Term) :
    alphaEqIn l r depth a b = true ↔ a.levelsIn l.place depth = b.levelsIn r.place depth := by
  induction a generalizing l r depth b with
  | var x =>
    cases b with
    | var y => simp only [alphaEqIn, levelsIn, Nameless.var.injEq, sameVar_iff_place]
    | _ => simp [alphaEqIn, levelsIn]
  | abs x a ih =>
    cases b with
    | abs y b =>
      simp only [alphaEqIn, levelsIn, Nameless.abs.injEq, ih, Scope.place_insert]
    | _ => simp [alphaEqIn, levelsIn]
  | letIn x v a ihv ih =>
    cases b with
    | letIn y w b =>
      simp only [alphaEqIn, levelsIn, Nameless.letIn.injEq, Bool.and_eq_true, ihv, ih,
        Scope.place_insert]
    | _ => simp [alphaEqIn, levelsIn]
  | int | nil | unit | region => cases b <;> simp [alphaEqIn, levelsIn]
  | head a ih | tail a ih | fix a ih | mkRef a ih | deref a ih =>
    cases b <;> simp [alphaEqIn, levelsIn, ih]
  | app a a' ih ih' | cons a a' ih ih' | add a a' ih ih' | sub a a' ih ih' | assign a a' ih ih' =>
    cases b <;> simp [alphaEqIn, levelsIn, ih, ih']
  | ifZero a a' a'' ih ih' ih'' | ifEmpty a a' a'' ih ih' ih'' =>
    cases b <;> simp [alphaEqIn, levelsIn, ih, ih', ih'', and_assoc]

theorem alphaEq_iff_levels {a b : Term} : a.alphaEq b = true ↔ a.levels = b.levels := by
  rw [alphaEq, alphaEqIn_iff_levelsIn, Scope.place_empty]
  rfl

/-- Levels and indices identify the same terms. -/
theorem levels_eq_iff {a b : Term} : a.levels = b.levels ↔ a.nameless = b.nameless :=
  alphaEq_iff_levels.symm.trans alphaEq_iff

theorem alphaEq_equivalence : Equivalence fun a b : Term => a.alphaEq b = true where
  refl _ := alphaEq_iff_levels.mpr rfl
  symm := alphaEq_symm
  trans hab hbc :=
    alphaEq_iff_levels.mpr ((alphaEq_iff_levels.mp hab).trans (alphaEq_iff_levels.mp hbc))

/-! ### What alpha-equal terms share -/

theorem size_eq_of_alphaEq {a b : Term} (h : a.alphaEq b = true) : a.size = b.size := by
  have hconv := alphaConvert_eq_of_alphaEq h (.forBinders "" 0)
  rw [← size_alphaConvert a ∅ (.forBinders "" 0), hconv, size_alphaConvert]

theorem isValue_eq_of_alphaEq {a b : Term} (h : a.alphaEq b = true) : a.isValue = b.isValue := by
  have hconv := alphaConvert_eq_of_alphaEq h (.forBinders "" 0)
  rw [← isValue_alphaConvert a ∅ (.forBinders "" 0), hconv, isValue_alphaConvert]

/-- **Alpha equality is equality of nameless terms.**  Two terms are alpha-equal exactly if
    they have the same form once bound variables are levels of binders, or, which comes to
    the same, indices.  So alpha equality is an equivalence, equal terms are alpha-equal,
    and alpha-equal terms have the same free variables and the same size, and both are
    values or neither is. -/
theorem alphaEq_is_nameless_equality :
    (∀ a b : Term, a.alphaEq b = true ↔ a.levels = b.levels) ∧
      (∀ a b : Term, a.levels = b.levels ↔ a.nameless = b.nameless) ∧
      (Equivalence fun a b : Term => a.alphaEq b = true) ∧
      (∀ a b : Term, a = b → a.alphaEq b = true) ∧
      ∀ a b : Term, a.alphaEq b = true →
        a.freeVars = b.freeVars ∧ a.size = b.size ∧ a.isValue = b.isValue := by
  refine ⟨fun a b => alphaEq_iff_levels, fun a b => levels_eq_iff, alphaEq_equivalence, ?_, ?_⟩
  · rintro a b rfl
    exact alphaEq_equivalence.refl a
  · intro a b h
    exact ⟨freeVars_eq_of_alphaEq h, size_eq_of_alphaEq h, isValue_eq_of_alphaEq h⟩

/-- Both sides shadow a name, each in a different place; a name that is bound on one side and
    free on the other is told apart in both directions. -/
theorem alphaEq_is_nameless_equality_shadowed :
    let a : Term := .abs "x" (.letIn "x" (.var "x") (.cons (.var "x") (.var "z")))
    let b : Term := .abs "y" (.letIn "x" (.var "y") (.cons (.var "x") (.var "z")))
    (a.alphaEq b = true ∧ b.alphaEq a = true ∧ b.alphaEq b = true ∧
        a.freeVars = b.freeVars ∧ a.size = b.size) ∧
      (abs "x" (.var "y")).alphaEq (abs "y" (.var "y")) = false ∧
      (abs "y" (.var "y")).alphaEq (abs "x" (.var "y")) = false := by
  intro a b
  obtain ⟨hlevels, -, hequiv, hrefl, hshare⟩ := alphaEq_is_nameless_equality
  have hab : a.alphaEq b = true := (hlevels a b).mpr (by simp [a, b, levels, levelsIn])
  have hne : (abs "x" (.var "y")).levels ≠ (abs "y" (.var "y")).levels := by
    simp [levels, levelsIn]
  obtain ⟨hfree, hsize, -⟩ := hshare a b hab
  refine ⟨⟨hab, hequiv.symm hab, hrefl b b rfl, hfree, hsize⟩, ?_, ?_⟩
  · exact Bool.eq_false_iff.mpr fun h => hne ((hlevels _ _).mp h)
  · exact Bool.eq_false_iff.mpr fun h => hne ((hlevels _ _).mp h).symm

end MiniML.Term
