/-
  MiniML/Proofs/Term/Canonical.lean
  =================================
  **Alpha conversion is a canonical form** — terms that differ in the names of
  binders only are converted to one and the same term, so they also run alike; and
  terms that are converted to the same term differ in the names of binders only, if
  the supply issues none of their free names.

  `Term.Alike` compares two terms below two lists of binders without counting depths.
  Whatever is read off a name by the binder that it points to (`Corresponds`) is the
  same on both sides; for conversion this is the new name of the binder.
-/
import Mathlib
import MiniML.Eval.Run
import MiniML.Proofs.Term.Renaming

namespace MiniML

/-! ### Names that point to the same place -/

theorem resolve_cons_eq_iff {Γ Δ : List String} {x y u z : String} :
    resolve (x :: Γ) u = resolve (y :: Δ) z ↔
      (u = x ∧ z = y) ∨ (u ≠ x ∧ z ≠ y ∧ resolve Γ u = resolve Δ z) := by
  rw [resolve, resolve]
  by_cases hu : u = x <;> by_cases hz : z = y
  · simp [hu, hz]
  · cases h : resolve Δ z <;> simp [hu, hz]
  · cases h : resolve Γ u <;> simp [hu, hz]
  · cases h : resolve Γ u <;> cases h' : resolve Δ z <;> simp [hu, hz]

/-- Names that point to the same place below the listed binders are read alike. -/
def Corresponds {α : Type} (Γ Δ : List String) (f g : String → α) : Prop :=
  ∀ x y, resolve Γ x = resolve Δ y → f x = g y

theorem Corresponds.refl {α : Type} (f : String → α) : Corresponds [] [] f f := by
  intro x y h
  rw [resolve, resolve, Nameless.Var.free.injEq] at h
  rw [h]

theorem Corresponds.cons {α : Type} {Γ Δ : List String} {f g : String → α}
    (h : Corresponds Γ Δ f g) (x y : String) (c : α) :
    Corresponds (x :: Γ) (y :: Δ) (Function.update f x c) (Function.update g y c) := by
  intro u z huz
  obtain ⟨rfl, rfl⟩ | ⟨hu, hz, huz⟩ := resolve_cons_eq_iff.mp huz
  · rw [Function.update_self, Function.update_self]
  · rw [Function.update_of_ne hu, Function.update_of_ne hz, h u z huz]

theorem Corresponds.map {α β : Type} {Γ Δ : List String} {f g : String → α}
    (h : Corresponds Γ Δ f g) (k : α → β) :
    Corresponds Γ Δ (fun x => k (f x)) fun x => k (g x) :=
  fun x y hxy => congrArg k (h x y hxy)

namespace Term

/-- The terms are equal up to the names of binders, below the listed binders. -/
inductive Alike : List String → List String → Term → Term → Prop where
  | var {Γ Δ : List String} {x y : String} (h : resolve Γ x = resolve Δ y) :
      Alike Γ Δ (.var x) (.var y)
  | abs {Γ Δ : List String} {x y : String} {b b' : Term} (hb : Alike (x :: Γ) (y :: Δ) b b') :
      Alike Γ Δ (.abs x b) (.abs y b')
  | app {Γ Δ : List String} {f f' a a' : Term} (hf : Alike Γ Δ f f') (ha : Alike Γ Δ a a') :
      Alike Γ Δ (.app f a) (.app f' a')
  | letIn {Γ Δ : List String} {x y : String} {v v' b b' : Term} (hv : Alike Γ Δ v v')
      (hb : Alike (x :: Γ) (y :: Δ) b b') : Alike Γ Δ (.letIn x v b) (.letIn y v' b')
  | int {Γ Δ : List String} (n : Int64) : Alike Γ Δ (.int n) (.int n)
  | nil {Γ Δ : List String} : Alike Γ Δ .nil .nil
  | cons {Γ Δ : List String} {h h' t t' : Term} (hh : Alike Γ Δ h h') (ht : Alike Γ Δ t t') :
      Alike Γ Δ (.cons h t) (.cons h' t')
  | head {Γ Δ : List String} {l l' : Term} (hl : Alike Γ Δ l l') : Alike Γ Δ (.head l) (.head l')
  | tail {Γ Δ : List String} {l l' : Term} (hl : Alike Γ Δ l l') : Alike Γ Δ (.tail l) (.tail l')
  | add {Γ Δ : List String} {l l' r r' : Term} (hl : Alike Γ Δ l l') (hr : Alike Γ Δ r r') :
      Alike Γ Δ (.add l r) (.add l' r')
  | sub {Γ Δ : List String} {l l' r r' : Term} (hl : Alike Γ Δ l l') (hr : Alike Γ Δ r r') :
      Alike Γ Δ (.sub l r) (.sub l' r')
  | ifZero {Γ Δ : List String} {c c' t t' e e' : Term} (hc : Alike Γ Δ c c')
      (ht : Alike Γ Δ t t') (he : Alike Γ Δ e e') : Alike Γ Δ (.ifZero c t e) (.ifZero c' t' e')
  | ifEmpty {Γ Δ : List String} {c c' t t' e e' : Term} (hc : Alike Γ Δ c c')
      (ht : Alike Γ Δ t t') (he : Alike Γ Δ e e') : Alike Γ Δ (.ifEmpty c t e) (.ifEmpty c' t' e')
  | fix {Γ Δ : List String} {f f' : Term} (hf : Alike Γ Δ f f') : Alike Γ Δ (.fix f) (.fix f')
  | unit {Γ Δ : List String} : Alike Γ Δ .unit .unit
  | mkRef {Γ Δ : List String} {e e' : Term} (he : Alike Γ Δ e e') :
      Alike Γ Δ (.mkRef e) (.mkRef e')
  | deref {Γ Δ : List String} {e e' : Term} (he : Alike Γ Δ e e') :
      Alike Γ Δ (.deref e) (.deref e')
  | assign {Γ Δ : List String} {r r' v v' : Term} (hr : Alike Γ Δ r r') (hv : Alike Γ Δ v v') :
      Alike Γ Δ (.assign r v) (.assign r' v')
  | region {Γ Δ : List String} (i : Int64) : Alike Γ Δ (.region i) (.region i)

theorem alike_of_namelessIn {Γ Δ : List String} {a b : Term}
    (h : a.namelessIn Γ = b.namelessIn Δ) : Alike Γ Δ a b := by
  -- equal nameless terms have one constructor, so each case leaves one case of `b`
  induction a generalizing Γ Δ b with
  | var x =>
    cases b with
    | var y => exact .var (Nameless.var.inj h)
    | _ => cases h
  | abs x a ih =>
    cases b with
    | abs y b => exact .abs (ih (Nameless.abs.inj h))
    | _ => cases h
  | letIn x v a ihv ih =>
    cases b with
    | letIn y w b =>
      obtain ⟨hv, hb⟩ := Nameless.letIn.inj h
      exact .letIn (ihv hv) (ih hb)
    | _ => cases h
  | int n =>
    cases b with
    | int m => exact Nameless.int.inj h ▸ .int n
    | _ => cases h
  | region i =>
    cases b with
    | region j => exact Nameless.region.inj h ▸ .region i
    | _ => cases h
  | nil =>
    cases b with
    | nil => exact .nil
    | _ => cases h
  | unit =>
    cases b with
    | unit => exact .unit
    | _ => cases h
  | head a ih | tail a ih | fix a ih | mkRef a ih | deref a ih =>
    cases b <;> simp only [namelessIn, reduceCtorEq, Nameless.head.injEq, Nameless.tail.injEq,
      Nameless.fix.injEq, Nameless.mkRef.injEq, Nameless.deref.injEq] at h
    constructor
    exact ih h
  | app a a' ih ih' | cons a a' ih ih' | add a a' ih ih' | sub a a' ih ih' | assign a a' ih ih' =>
    cases b <;> simp only [namelessIn, reduceCtorEq, Nameless.app.injEq, Nameless.cons.injEq,
      Nameless.add.injEq, Nameless.sub.injEq, Nameless.assign.injEq] at h
    constructor
    · exact ih h.1
    · exact ih' h.2
  | ifZero a a' a'' ih ih' ih'' | ifEmpty a a' a'' ih ih' ih'' =>
    cases b <;> simp only [namelessIn, reduceCtorEq, Nameless.ifZero.injEq,
      Nameless.ifEmpty.injEq] at h
    constructor
    · exact ih h.1
    · exact ih' h.2.1
    · exact ih'' h.2.2

theorem alike_of_alphaEq {a b : Term} (h : a.alphaEq b = true) : Alike [] [] a b :=
  alike_of_namelessIn (alphaEq_iff.mp h)

theorem alphaEq_symm {a b : Term} (h : a.alphaEq b = true) : b.alphaEq a = true :=
  alphaEq_iff.mpr (alphaEq_iff.mp h).symm

/-! ### The conversion of alike terms -/

theorem getD_insert (ρ : Renaming) (x c : String) :
    (fun y => ((ρ.insert x c)[y]?).getD y) = Function.update (fun y => (ρ[y]?).getD y) x c := by
  funext y
  by_cases hyx : y = x
  · rw [hyx, Function.update_self, Std.ExtTreeMap.getElem?_insert_self, Option.getD_some]
  · rw [Function.update_of_ne hyx, getD_insert_of_ne hyx]

theorem corresponds_insert {Γ Δ : List String} {ρ ρ' : Renaming}
    (h : Corresponds Γ Δ (fun z => (ρ[z]?).getD z) fun z => (ρ'[z]?).getD z) (x y c : String) :
    Corresponds (x :: Γ) (y :: Δ) (fun z => ((ρ.insert x c)[z]?).getD z)
      fun z => ((ρ'.insert y c)[z]?).getD z := by
  rw [getD_insert, getD_insert]
  exact h.cons x y c

/-- Terms that are alike are converted to one term if names that point to the same place
    receive one name. -/
theorem Alike.alphaConvert_eq {Γ Δ : List String} {a b : Term} (h : Alike Γ Δ a b)
    {ρ ρ' : Renaming} (hρ : Corresponds Γ Δ (fun x => (ρ[x]?).getD x) fun x => (ρ'[x]?).getD x)
    (s : NameSupply) : a.alphaConvert ρ s = b.alphaConvert ρ' s := by
  induction h generalizing ρ ρ' s with
  | @var Γ Δ x y hxy =>
    have hname : (ρ[x]?).getD x = (ρ'[y]?).getD y := hρ x y hxy
    rw [alphaConvert, alphaConvert, hname]
  | int | nil | unit | region => rfl
  | @abs Γ Δ x y b b' _ ih =>
    simp only [alphaConvert, ih (corresponds_insert hρ x y s.fresh.1)]
  | @letIn Γ Δ x y v v' b b' _ _ ihv ihb =>
    simp only [alphaConvert, ihv hρ, ihb (corresponds_insert hρ x y s.fresh.1)]
  | head _ ih | tail _ ih | fix _ ih | mkRef _ ih | deref _ ih =>
    simp only [alphaConvert, ih hρ]
  | app _ _ ih ih' | cons _ _ ih ih' | add _ _ ih ih' | sub _ _ ih ih' | assign _ _ ih ih' =>
    simp only [alphaConvert, ih hρ, ih' hρ]
  | ifZero _ _ _ ih ih' ih'' | ifEmpty _ _ _ ih ih' ih'' =>
    simp only [alphaConvert, ih hρ, ih' hρ, ih'' hρ]

theorem alphaConvert_eq_of_alphaEq {a b : Term} (h : a.alphaEq b = true) (s : NameSupply) :
    a.alphaConvert ∅ s = b.alphaConvert ∅ s :=
  (alike_of_alphaEq h).alphaConvert_eq (Corresponds.refl _) s

theorem mem_freeVars_of_alphaEq {a b : Term} (h : a.alphaEq b = true) {x : String}
    (hx : x ∈ a.freeVars) : x ∈ b.freeVars := by
  -- the names of this supply are longer than `x`
  have hlong : ∀ n : Int64, ((∅ : Renaming)[x]?).getD x ≠ (x ++ "_") ++ decimal n := by
    intro n heq
    have hlength := congrArg String.length heq
    have hone : "_".length = 1 := rfl
    rw [Std.ExtTreeMap.getElem?_empty, Option.getD_none, String.length_append,
      String.length_append, hone] at hlength
    omega
  have hmem := mem_freeVars_alphaConvert (s := ⟨x ++ "_", 0⟩) hx hlong
  rw [alphaConvert_eq_of_alphaEq h] at hmem
  obtain ⟨y, hy, hxy⟩ := exists_of_mem_freeVars_alphaConvert hmem
  simp only [Std.ExtTreeMap.getElem?_empty, Option.getD_none] at hxy
  exact hxy ▸ hy

theorem freeVars_eq_of_alphaEq {a b : Term} (h : a.alphaEq b = true) : a.freeVars = b.freeVars :=
  Std.ExtTreeSet.ext_mem fun _ =>
    ⟨mem_freeVars_of_alphaEq h, mem_freeVars_of_alphaEq (alphaEq_symm h)⟩

/-! ### Terms with one conversion -/

theorem binders_alphaConvert (t : Term) (ρ : Renaming) (s : NameSupply) :
    (t.alphaConvert ρ s).1.binders = t.binders := by
  induction t generalizing ρ s with
  | var | int | nil | unit | region => rfl
  | abs x b ih | head b ih | tail b ih | fix b ih | mkRef b ih | deref b ih =>
    simp only [alphaConvert, binders, ih]
  | letIn x a b ih ih' | app a b ih ih' | cons a b ih ih' | add a b ih ih' | sub a b ih ih'
  | assign a b ih ih' => simp only [alphaConvert, binders, ih, ih']
  | ifZero a b c ih ih' ih'' | ifEmpty a b c ih ih' ih'' =>
    simp only [alphaConvert, binders, ih, ih', ih'']

theorem nameless_alphaConvert_of_not_issued {t : Term} {s : NameSupply} (ht : t.binders ≤ 2 ^ 64)
    (h : ∀ x ∈ t.freeVars, ¬ s.Issued (t.alphaConvert ∅ s).2 x) :
    (t.alphaConvert ∅ s).1.nameless = t.nameless := by
  refine nameless_alphaConvert ht fun x hx n hn hn' heq => h x hx ⟨n, hn, ?_, heq⟩
  rw [count_alphaConvert]
  exact hn'

theorem alphaEq_of_alphaConvert_eq {a b : Term} {s : NameSupply} (hsize : a.binders ≤ 2 ^ 64)
    (ha : ∀ x ∈ a.freeVars, ¬ s.Issued (a.alphaConvert ∅ s).2 x)
    (hb : ∀ x ∈ b.freeVars, ¬ s.Issued (b.alphaConvert ∅ s).2 x)
    (h : (a.alphaConvert ∅ s).1 = (b.alphaConvert ∅ s).1) : a.alphaEq b = true := by
  have hbinders : b.binders = a.binders := by
    rw [← binders_alphaConvert b ∅ s, ← h, binders_alphaConvert]
  rw [alphaEq_iff, ← nameless_alphaConvert_of_not_issued hsize ha, h]
  exact nameless_alphaConvert_of_not_issued (hbinders ▸ hsize) hb

end Term

/-! ### Evaluation -/

theorem evalWith_eq_of_alphaEq {σ : Type} {a b : Term} (h : a.alphaEq b = true)
    (observe : σ → Nat → Config → σ) (init : σ) (s : Store) (maxSteps : Int64) :
    evalWith observe init a s maxSteps = evalWith observe init b s maxSteps := by
  rw [evalWith, evalWith, Run.start, Run.start, Term.alphaConvert_eq_of_alphaEq h]

/-- **Alpha conversion computes a canonical form.**  Alpha-equal terms have one
    conversion, which draws the same names, and one evaluation.  Terms with one
    conversion are alpha-equal if no name that the conversion issues is free in them and
    it does not run out of names, of which there are `2 ^ 64`. -/
theorem Term.alphaConvert_canonical (a b : Term) :
    (a.alphaEq b = true → ∀ s, a.alphaConvert ∅ s = b.alphaConvert ∅ s) ∧
      (a.binders ≤ 2 ^ 64 → ∀ s : NameSupply,
        (∀ x ∈ a.freeVars, ¬ s.Issued (a.alphaConvert ∅ s).2 x) →
        (∀ x ∈ b.freeVars, ¬ s.Issued (b.alphaConvert ∅ s).2 x) →
        (a.alphaConvert ∅ s).1 = (b.alphaConvert ∅ s).1 → a.alphaEq b = true) ∧
      (a.alphaEq b = true → ∀ store maxSteps, eval a store maxSteps = eval b store maxSteps) := by
  refine ⟨alphaConvert_eq_of_alphaEq, fun hsize s => alphaEq_of_alphaConvert_eq hsize, ?_⟩
  intro h store maxSteps
  rw [eval, eval, evalWith_eq_of_alphaEq h]

/-- A value outside the scope of its `let`, and a binder that hides the other one. -/
theorem Term.alphaConvert_canonical_let :
    (letIn "x" (var "x") (abs "x" (var "x"))).alphaConvert ∅ (.forBinders "" 0) =
        (letIn "y" (var "x") (abs "z" (var "z"))).alphaConvert ∅ (.forBinders "" 0) ∧
      (letIn "x" (var "x") (abs "x" (var "x"))).alphaEq (letIn "y" (var "x") (abs "z" (var "z"))) =
        true ∧
      eval (letIn "x" (var "x") (abs "x" (var "x"))) .empty 10 =
        eval (letIn "y" (var "x") (abs "z" (var "z"))) .empty 10 := by
  obtain ⟨hconv, hback, heval⟩ := alphaConvert_canonical
    (letIn "x" (var "x") (abs "x" (var "x"))) (letIn "y" (var "x") (abs "z" (var "z")))
  have hspare : ∀ s', s'.count = 2 → ¬ (NameSupply.forBinders "" 0).Issued s' "x" := by
    rintro s' hcount ⟨n, hn, hn', h⟩
    have hzero : (NameSupply.forBinders "" 0).count = 0 := rfl
    obtain rfl | rfl : n = 0 ∨ n = 1 := by omega
    · exact absurd h (by decide)
    · exact absurd h (by decide)
  have heq := hback (by decide) (.forBinders "" 0) ?_ ?_ (by cbv)
  · exact ⟨hconv heq _, heq, heval heq _ _⟩
  · intro x hx
    obtain rfl : "x" = x := by simpa [freeVars] using hx
    exact hspare _ (by cbv)
  · intro x hx
    obtain rfl : "x" = x := by simpa [freeVars] using hx
    exact hspare _ (by cbv)

end MiniML
