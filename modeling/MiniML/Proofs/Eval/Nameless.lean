/-
  MiniML/Proofs/Eval/Nameless.lean
  ================================
  **Reduction never captures** — the rules of reduction on nameless terms, where
  substitution cannot capture, serve as a reference.  A run of the named machine,
  read without names, is the run of the reference machine.

  Substitution on named terms renames nothing, and after a few steps binders are no
  longer distinct: arguments, fixpoints and contents of the store are copied.  What
  every step keeps is weaker than that.  There is a set of names that holds all
  free variables of the term and of the store and none of their binders
  (`Config.Apart`), and what is substituted is never taken from below a binder, so its
  free variables are in that set.
-/
import Mathlib
import MiniML.Proofs.Eval.Runs
import MiniML.Proofs.Term.Renaming

namespace MiniML

namespace Nameless

/-! ### The reference machine -/

def isValue : Nameless → Bool
  | .var _ | .abs _ | .int _ | .nil | .unit | .region _ => true
  | .cons h t => h.isValue && t.isValue
  | .fix f => f.isValue
  | .app _ _ | .letIn _ _ | .head _ | .tail _ | .add _ _ | .sub _ _ => false
  | .ifZero _ _ _ | .ifEmpty _ _ _ | .mkRef _ | .deref _ | .assign _ _ => false

/-- Contents of regions, and the id of the next region. -/
@[ext] structure Store where
  cells : Std.ExtTreeMap Int64 Nameless := ∅
  next : Int64 := 0
deriving DecidableEq

def Store.set (s : Store) (id : Int64) (t : Nameless) : Store :=
  ⟨s.cells.insert id t, if s.next ≤ id then id + 1 else s.next⟩

structure Config where
  term : Nameless
  store : Store
deriving DecidableEq

def Config.within (c : Config) (f : Nameless → Nameless) : Config := ⟨f c.term, c.store⟩

namespace Rule

/-- Application: the binder is taken away and stands for the argument. -/
def beta? : Nameless → Nameless → Option Nameless
  | .abs b, a => some (b.instantiate a)
  | .fix (.abs b), a => some (.app (b.instantiate (.fix (.abs b))) a)
  | _, _ => none

def head? : Nameless → Option Nameless
  | .cons h _ => some h
  | _ => none

def tail? : Nameless → Option Nameless
  | .cons _ t => some t
  | _ => none

def arith? (op : Int64 → Int64 → Int64) : Nameless → Nameless → Option Nameless
  | .int m, .int n => some (.int (op m n))
  | _, _ => none

def ifZero? : Nameless → Nameless → Nameless → Option Nameless
  | .int n, t, e => some (if n = 0 then t else e)
  | _, _, _ => none

def ifEmpty? : Nameless → Nameless → Nameless → Option Nameless
  | .nil, t, _ => some t
  | .cons _ _, _, e => some e
  | _, _, _ => none

def mkRef? (s : Store) (e : Nameless) : Option Config :=
  if e.isValue then some ⟨.region s.next, s.set s.next e⟩ else none

def deref? (s : Store) : Nameless → Option Nameless
  | .region i => s.cells[i]?
  | _ => none

def assign? (s : Store) : Nameless → Nameless → Option Config
  | .region i, v => if v.isValue then some ⟨.unit, s.set i v⟩ else none
  | _, _ => none

end Rule

/-- One reduction step of a nameless term against a store. -/
def step (s : Store) : Nameless → Option Config
  | .var _ | .abs _ | .int _ | .nil | .unit | .region _ => none
  | .app f a =>
    match Rule.beta? f a with
    | some t => some ⟨t, s⟩
    | none =>
      match step s f with
      | some c => some (c.within (.app · a))
      | none => (step s a).map (·.within (.app f ·))
  | .letIn v b =>
    match step s v with
    | some c => some (c.within (.letIn · b))
    | none => if v.isValue then some ⟨b.instantiate v, s⟩ else none
  | .cons h t =>
    match step s h with
    | some c => some (c.within (.cons · t))
    | none => (step s t).map (·.within (.cons h ·))
  | .head l =>
    match step s l with
    | some c => some (c.within .head)
    | none => (Rule.head? l).map (⟨·, s⟩)
  | .tail l =>
    match step s l with
    | some c => some (c.within .tail)
    | none => (Rule.tail? l).map (⟨·, s⟩)
  | .add l r =>
    match step s l with
    | some c => some (c.within (.add · r))
    | none =>
      match step s r with
      | some c => some (c.within (.add l ·))
      | none => (Rule.arith? (· + ·) l r).map (⟨·, s⟩)
  | .sub l r =>
    match step s l with
    | some c => some (c.within (.sub · r))
    | none =>
      match step s r with
      | some c => some (c.within (.sub l ·))
      | none => (Rule.arith? (· - ·) l r).map (⟨·, s⟩)
  | .ifZero c t e =>
    match step s c with
    | some d => some (d.within (.ifZero · t e))
    | none => (Rule.ifZero? c t e).map (⟨·, s⟩)
  | .ifEmpty c t e =>
    match step s c with
    | some d => some (d.within (.ifEmpty · t e))
    | none => (Rule.ifEmpty? c t e).map (⟨·, s⟩)
  | .fix f => (step s f).map (·.within .fix)
  | .mkRef e =>
    match step s e with
    | some c => some (c.within .mkRef)
    | none => Rule.mkRef? s e
  | .deref e =>
    match step s e with
    | some c => some (c.within .deref)
    | none => (Rule.deref? s e).map (⟨·, s⟩)
  | .assign r v =>
    match step s r with
    | some c => some (c.within (.assign · v))
    | none =>
      match step s v with
      | some c => some (c.within (.assign r ·))
      | none => Rule.assign? s r v

def Config.step? (c : Config) : Option Config := step c.store c.term

/-- A form that steps wherever its part does, and then in the same way. -/
def Forwards (f : Nameless → Nameless) : Prop :=
  ∀ ⦃s : Store⦄ ⦃t : Nameless⦄ ⦃c : Config⦄, step s t = some c → step s (f t) = some (c.within f)

theorem Forwards.comp {f g : Nameless → Nameless} (hf : Forwards f) (hg : Forwards g) :
    Forwards (f ∘ g) := by
  intro s t c h
  exact hf (hg h)

theorem Forwards.after {f : Nameless → Nameless} (hf : Forwards f) {k : Nat} {t : Nameless}
    {s : Store} {c : Config} (h : MiniML.after Config.step? k ⟨t, s⟩ = some c) :
    MiniML.after Config.step? k ⟨f t, s⟩ = some (c.within f) := by
  induction k generalizing t s with
  | zero =>
    cases h
    rfl
  | succ k ih =>
    obtain ⟨d, hd, hrest⟩ := Option.bind_eq_some_iff.mp h
    have hstep : Config.step? ⟨f t, s⟩ = some (d.within f) := hf hd
    rw [MiniML.after, hstep]
    exact ih hrest

end Nameless

/-! ### Configurations without names -/

/-- The store with the contents of its regions in nameless form. -/
def Store.nameless (s : Store) : Nameless.Store :=
  ⟨s.cells.map fun _ t => t.nameless, s.next⟩

def Config.nameless (c : Config) : Nameless.Config := ⟨c.term.nameless, c.store.nameless⟩

theorem Store.nameless_set (s : Store) (id : Int64) (t : Term) :
    (s.set id t).nameless = s.nameless.set id t.nameless := by
  refine Nameless.Store.ext (Std.ExtTreeMap.ext_getElem? fun {k} => ?_) rfl
  simp only [nameless, set, Nameless.Store.set, Std.ExtTreeMap.getElem?_map,
    Std.ExtTreeMap.getElem?_insert]
  split <;> rfl

theorem Store.getElem?_nameless (s : Store) (id : Int64) :
    s.nameless.cells[id]? = (s.get? id).map Term.nameless := by
  simp [nameless, get?]

theorem Term.isValue_nameless (t : Term) : t.nameless.isValue = t.isValue := by
  have h : ∀ Γ, (t.namelessIn Γ).isValue = t.isValue := by
    intro Γ
    induction t with
    | cons a b iha ihb => simp only [namelessIn, Nameless.isValue, isValue, iha, ihb]
    | fix f ih => simp only [namelessIn, Nameless.isValue, isValue, ih]
    | _ => rfl
  exact h []

/-! ### Free names and binders apart -/

/-- All free variables are in a set of names, and no binder is. -/
structure Term.Apart (F : String → Prop) (t : Term) : Prop where
  free : ∀ x ∈ t.freeVars, F x
  bound : ∀ x ∈ t.boundNames, ¬ F x

/-- All contents of the store are apart. -/
def Store.Apart (F : String → Prop) (s : Store) : Prop :=
  ∀ {id : Int64} {t : Term}, s.get? id = some t → t.Apart F

/-- A configuration in which no free variable has the name of a binder. -/
structure Config.Apart (F : String → Prop) (c : Config) : Prop where
  term : c.term.Apart F
  store : c.store.Apart F

section Apart

variable {F : String → Prop}

theorem Term.Apart.part {t u : Term} (h : t.Apart F) (hfree : ∀ x ∈ u.freeVars, x ∈ t.freeVars)
    (hbound : ∀ x ∈ u.boundNames, x ∈ t.boundNames) : u.Apart F :=
  ⟨fun x hx => h.free x (hfree x hx), fun x hx => h.bound x (hbound x hx)⟩

theorem Term.Apart.of_fill {K : Frame} {t : Term} (h : (K.fill t).Apart F) : t.Apart F := by
  refine h.part (fun x hx => ?_) fun x hx => ?_
  · cases K <;> simp [Frame.fill, freeVars, hx]
  · cases K <;> simp [Frame.fill, boundNames, hx]

theorem Term.Apart.refill {K : Frame} {t u : Term} (h : (K.fill t).Apart F) (hu : u.Apart F) :
    (K.fill u).Apart F := by
  obtain ⟨hfree, hbound⟩ := h
  obtain ⟨hufree, hubound⟩ := hu
  refine ⟨fun x hx => ?_, fun x hx => ?_⟩
  · cases K <;> simp only [Frame.fill, freeVars, Std.ExtTreeSet.mem_union_iff] at hx hfree ⊢ <;>
      grind
  · cases K <;> simp only [Frame.fill, boundNames, List.mem_append, List.mem_cons] at hx hbound ⊢ <;>
      grind

theorem Term.Apart.subst {x : String} {a b : Term} (hfree : ∀ y ∈ b.freeVars, y ≠ x → F y)
    (hbound : ∀ y ∈ b.boundNames, ¬ F y) (ha : a.Apart F) : (Term.subst x a b).Apart F := by
  refine ⟨fun y hy => ?_, fun y hy => ?_⟩
  · obtain ⟨hb, hne⟩ | ⟨hmem, -⟩ := mem_freeVars_subst hy
    · exact hfree y hb hne
    · exact ha.free y hmem
  · exact (mem_boundNames_subst hy).elim (hbound y) (ha.bound y)

theorem Term.Apart.abs_body {x : String} {b : Term} (h : (Term.abs x b).Apart F) :
    (∀ y ∈ b.freeVars, y ≠ x → F y) ∧ ∀ y ∈ b.boundNames, ¬ F y :=
  ⟨fun y hy hne => h.free y (mem_freeVars_abs.mpr ⟨hne, hy⟩),
    fun y hy => h.bound y (List.mem_cons_of_mem x hy)⟩

theorem Term.Apart.letIn_body {x : String} {v b : Term} (h : (Term.letIn x v b).Apart F) :
    (∀ y ∈ b.freeVars, y ≠ x → F y) ∧ ∀ y ∈ b.boundNames, ¬ F y :=
  ⟨fun y hy hne => h.free y (mem_freeVars_letIn.mpr (.inr ⟨hne, hy⟩)),
    fun y hy => h.bound y (by simp [boundNames, hy])⟩

theorem Store.Apart.set {s : Store} (hs : s.Apart F) (id : Int64) {t : Term} (ht : t.Apart F) :
    (s.set id t).Apart F :=
  forall_set hs ht

theorem Contracts.apart {s : Store} {t : Term} {c : Config} (h : Contracts s t c) (ht : t.Apart F)
    (hs : s.Apart F) : c.Apart F := by
  cases h with
  | beta x b a =>
    have hbody := (ht.of_fill (K := .func a)).abs_body
    exact ⟨.subst hbody.1 hbody.2 (ht.of_fill (K := .arg (.abs x b))), hs⟩
  | unfold f b a =>
    have hfix : (Term.fix (.abs f b)).Apart F := ht.of_fill (K := .func a)
    have hbody := (hfix.of_fill (K := .fix)).abs_body
    exact ⟨ht.refill (K := .func a) (.subst hbody.1 hbody.2 hfix), hs⟩
  | @letIn x v b hv =>
    have hbody := ht.letIn_body
    exact ⟨.subst hbody.1 hbody.2 (ht.of_fill (K := .value x b)), hs⟩
  | ifZero n t e =>
    refine ⟨?_, hs⟩
    dsimp only
    split <;> exact ht.part (by simp +contextual [Term.freeVars]) (by simp +contextual [Term.boundNames])
  | head | tail | add | sub | ifNil | ifCons =>
    exact ⟨ht.part (by simp +contextual [Term.freeVars]) (by simp +contextual [Term.boundNames]), hs⟩
  | mkRef hv =>
    exact ⟨⟨by simp [Term.freeVars], by simp [Term.boundNames]⟩,
      hs.set s.next (ht.of_fill (K := .mkRef))⟩
  | deref hi => exact ⟨hs hi, hs⟩
  | assign i hv =>
    exact ⟨⟨by simp [Term.freeVars], by simp [Term.boundNames]⟩,
      hs.set i (ht.of_fill (K := .assignValue (.region i)))⟩

theorem Reduces.apart {s : Store} {t : Term} {c : Config} (h : Reduces s t c) (ht : t.Apart F)
    (hs : s.Apart F) : c.Apart F := by
  induction h with
  | contract h => exact h.apart ht hs
  | inside K _ ih =>
    have hin := ih ht.of_fill
    exact ⟨ht.refill hin.term, hin.store⟩

/-- **A step keeps free names and binders apart.** -/
theorem Config.Apart.step {c c' : Config} (hc : c.Apart F) (h : c.step? = some c') : c'.Apart F :=
  (Reduces.of_step h).apart hc.term hc.store

end Apart

/-! ### Simulation -/

section Rules

variable {F : String → Prop} (s : Store)

theorem Rule.beta?_nameless {f a : Term} (h : (Term.app f a).Apart F) :
    Nameless.Rule.beta? f.nameless a.nameless = (Rule.beta? f a).map Term.nameless := by
  have ha : a.Apart F := h.of_fill (K := .arg f)
  have hf : f.Apart F := h.of_fill (K := .func a)
  cases f with
  | abs x b =>
    have hcapture : ∀ y ∈ a.freeVars, y ∉ b.boundNames :=
      fun y hy hb => hf.abs_body.2 y hb (ha.free y hy)
    exact congrArg some (Term.nameless_subst hcapture).symm
  | fix g =>
    cases g with
    | abs x b =>
      have hcapture : ∀ y ∈ (Term.fix (.abs x b)).freeVars, y ∉ b.boundNames :=
        fun y hy hb => (hf.of_fill (K := .fix)).abs_body.2 y hb (hf.free y hy)
      exact congrArg (fun u => some (Nameless.app u a.nameless)) (Term.nameless_subst hcapture).symm
    | _ => rfl
  | _ => rfl

theorem Rule.head?_nameless (l : Term) :
    Nameless.Rule.head? l.nameless = (Rule.head? l).map Term.nameless := by
  cases l <;> rfl

theorem Rule.tail?_nameless (l : Term) :
    Nameless.Rule.tail? l.nameless = (Rule.tail? l).map Term.nameless := by
  cases l <;> rfl

theorem Rule.arith?_nameless (op : Int64 → Int64 → Int64) (l r : Term) :
    Nameless.Rule.arith? op l.nameless r.nameless = (Rule.arith? op l r).map Term.nameless := by
  cases l <;> cases r <;> rfl

theorem Rule.ifZero?_nameless (c t e : Term) :
    Nameless.Rule.ifZero? c.nameless t.nameless e.nameless =
      (Rule.ifZero? c t e).map Term.nameless := by
  cases c with
  | int n =>
    have hbranch : (if n = 0 then t.nameless else e.nameless) =
        (if n = 0 then t else e).nameless := by split <;> rfl
    exact congrArg some hbranch
  | _ => rfl

theorem Rule.ifEmpty?_nameless (c t e : Term) :
    Nameless.Rule.ifEmpty? c.nameless t.nameless e.nameless =
      (Rule.ifEmpty? c t e).map Term.nameless := by
  cases c <;> rfl

theorem Rule.mkRef?_nameless (e : Term) :
    Nameless.Rule.mkRef? s.nameless e.nameless = (Rule.mkRef? s e).map Config.nameless := by
  rw [Nameless.Rule.mkRef?, Rule.mkRef?, Term.isValue_nameless]
  split
  · rw [Option.map_some, Config.nameless, Store.alloc, Store.nameless_set]
    rfl
  · rfl

theorem Rule.deref?_nameless (r : Term) :
    Nameless.Rule.deref? s.nameless r.nameless = (Rule.deref? s r).map Term.nameless := by
  cases r with
  | region i => exact s.getElem?_nameless i
  | _ => rfl

theorem Rule.assign?_nameless (r v : Term) :
    Nameless.Rule.assign? s.nameless r.nameless v.nameless =
      (Rule.assign? s r v).map Config.nameless := by
  cases r with
  | region i =>
    rw [Rule.assign?]
    change (if v.nameless.isValue then some _ else none) = _
    rw [Term.isValue_nameless, ← Store.nameless_set]
    split <;> rfl
  | _ => rfl

end Rules

/-- **A step, read without names, is a step of the reference machine.** -/
theorem Term.Apart.step_nameless {F : String → Prop} {t : Term} (h : t.Apart F) (s : Store) :
    Nameless.step s.nameless t.nameless = (step s t).map Config.nameless := by
  -- both machines try the same positions in the same order; only where a binder is taken
  -- away does it matter that the term is apart
  induction t with
  | var | abs | int | nil | unit | region => rfl
  | app f a ihf iha =>
    change Nameless.step _ (.app f.nameless a.nameless) = _
    rw [Nameless.step, step, Rule.beta?_nameless h, ihf (h.of_fill (K := .func a)),
      iha (h.of_fill (K := .arg f))]
    cases Rule.beta? f a with
    | some t => rfl
    | none =>
      cases step s f with
      | some c => rfl
      | none => cases step s a <;> rfl
  | letIn x v b ihv _ =>
    change Nameless.step _ (.letIn v.nameless (b.namelessIn [x])) = _
    have hv : v.Apart F := h.of_fill (K := .value x b)
    have hcapture : ∀ y ∈ v.freeVars, y ∉ b.boundNames :=
      fun y hy hb => h.letIn_body.2 y hb (hv.free y hy)
    rw [Nameless.step, step, ihv hv, v.isValue_nameless, ← nameless_subst hcapture]
    cases step s v with
    | some c => rfl
    | none => cases v.isValue <;> rfl
  | cons a l iha ihl =>
    change Nameless.step _ (.cons a.nameless l.nameless) = _
    rw [Nameless.step, step, iha (h.of_fill (K := .consHead l)), ihl (h.of_fill (K := .consTail a))]
    cases step s a with
    | some c => rfl
    | none => cases step s l <;> rfl
  | head l ih =>
    change Nameless.step _ (.head l.nameless) = _
    rw [Nameless.step, step, ih (h.of_fill (K := .head)), Rule.head?_nameless]
    cases step s l with
    | some c => rfl
    | none => cases Rule.head? l <;> rfl
  | tail l ih =>
    change Nameless.step _ (.tail l.nameless) = _
    rw [Nameless.step, step, ih (h.of_fill (K := .tail)), Rule.tail?_nameless]
    cases step s l with
    | some c => rfl
    | none => cases Rule.tail? l <;> rfl
  | add l r ihl ihr =>
    change Nameless.step _ (.add l.nameless r.nameless) = _
    rw [Nameless.step, step, ihl (h.of_fill (K := .addLeft r)), ihr (h.of_fill (K := .addRight l)),
      Rule.arith?_nameless]
    cases step s l with
    | some c => rfl
    | none =>
      cases step s r with
      | some c => rfl
      | none => cases Rule.arith? (· + ·) l r <;> rfl
  | sub l r ihl ihr =>
    change Nameless.step _ (.sub l.nameless r.nameless) = _
    rw [Nameless.step, step, ihl (h.of_fill (K := .subLeft r)), ihr (h.of_fill (K := .subRight l)),
      Rule.arith?_nameless]
    cases step s l with
    | some c => rfl
    | none =>
      cases step s r with
      | some c => rfl
      | none => cases Rule.arith? (· - ·) l r <;> rfl
  | ifZero c t e ihc _ _ =>
    change Nameless.step _ (.ifZero c.nameless t.nameless e.nameless) = _
    rw [Nameless.step, step, ihc (h.of_fill (K := .ifZero t e)), Rule.ifZero?_nameless]
    cases step s c with
    | some d => rfl
    | none => cases Rule.ifZero? c t e <;> rfl
  | ifEmpty c t e ihc _ _ =>
    change Nameless.step _ (.ifEmpty c.nameless t.nameless e.nameless) = _
    rw [Nameless.step, step, ihc (h.of_fill (K := .ifEmpty t e)), Rule.ifEmpty?_nameless]
    cases step s c with
    | some d => rfl
    | none => cases Rule.ifEmpty? c t e <;> rfl
  | fix f ih =>
    change Nameless.step _ (.fix f.nameless) = _
    rw [Nameless.step, step, ih (h.of_fill (K := .fix))]
    cases step s f <;> rfl
  | mkRef e ih =>
    change Nameless.step _ (.mkRef e.nameless) = _
    rw [Nameless.step, step, ih (h.of_fill (K := .mkRef)), Rule.mkRef?_nameless]
    cases step s e <;> rfl
  | deref e ih =>
    change Nameless.step _ (.deref e.nameless) = _
    rw [Nameless.step, step, ih (h.of_fill (K := .deref)), Rule.deref?_nameless]
    cases step s e with
    | some c => rfl
    | none => cases Rule.deref? s e <;> rfl
  | assign r v ihr ihv =>
    change Nameless.step _ (.assign r.nameless v.nameless) = _
    rw [Nameless.step, step, ihr (h.of_fill (K := .assignRef v)),
      ihv (h.of_fill (K := .assignValue r)), Rule.assign?_nameless]
    cases step s r with
    | some c => rfl
    | none => cases step s v <;> rfl

theorem Config.Apart.step?_nameless {F : String → Prop} {c : Config} (h : c.Apart F) :
    c.nameless.step? = c.step?.map Config.nameless :=
  h.term.step_nameless c.store

/-- **Any number of steps, read without names, are steps of the reference machine.** -/
theorem Config.Apart.after_nameless {F : String → Prop} {c : Config} (h : c.Apart F) (n : Nat) :
    after Nameless.Config.step? n c.nameless = (after Config.step? n c).map Config.nameless := by
  induction n generalizing c with
  | zero => rfl
  | succ n ih =>
    rw [after, after, h.step?_nameless]
    cases hc : c.step? with
    | none => rfl
    | some c' => exact ih (h.step hc)

theorem Config.Apart.after {F : String → Prop} {c d : Config} (hc : c.Apart F) {n : Nat}
    (h : after Config.step? n c = some d) : d.Apart F := by
  induction n generalizing c with
  | zero =>
    cases h
    exact hc
  | succ n ih =>
    obtain ⟨c', hc', h⟩ := Option.bind_eq_some_iff.mp h
    exact ih (hc.step hc') h

/-! ### Runs -/

/-- The configurations that an evaluation goes through, the first one included. -/
def configurations (t : Term) (s : Store) (maxSteps : Int64) : List Config :=
  Run.start t s :: (evalTraced t s maxSteps).2.map Prod.snd

/-- Once the binders of a term are renamed, they are apart from everything that is free
    in it and in the store. -/
theorem Config.apart_start {t : Term} {s : Store} {F : String → Prop} (hfree : ∀ x ∈ t.freeVars, F x)
    (hF : ∀ (x : String) (n : Int), F x → x ≠ "_v" ++ toString n) (hs : s.Apart F) :
    (Run.start t s).Apart F := by
  refine ⟨⟨fun x hx => ?_, fun x hx hFx => ?_⟩, hs⟩
  · obtain ⟨y, hy, hxy⟩ := Term.exists_of_mem_freeVars_alphaConvert hx
    have hget : ((∅ : Renaming)[y]?).getD y = y := by simp
    rw [hxy, hget]
    exact hfree y hy
  · obtain ⟨n, -, -, rfl⟩ := Term.issued_of_mem_boundNames_alphaConvert hx
    exact hF _ (Int64.ofInt n).toInt hFx rfl

theorem Config.nameless_start {t : Term} (s : Store) (ht : t.binders ≤ 2 ^ 64)
    (hfree : ∀ x ∈ t.freeVars, ∀ n : Int, x ≠ "_v" ++ toString n) :
    (Run.start t s).nameless = ⟨t.nameless, s.nameless⟩ := by
  have hterm : (Run.start t s).term.nameless = t.nameless :=
    Term.nameless_alphaConvert ht fun x hx n _ _ => hfree x hx (Int64.ofInt n).toInt
  rw [nameless, hterm]
  rfl

/-- **Reduction never captures.**  Take a term and a store in which no free variable has
    a name that evaluation gives to binders, and let the contents of the store bind no
    name that is free in the term or in one of them.  Then the configurations that an
    evaluation goes through, read without names, are those of the reference machine one
    by one, and at the end both machines step or neither does.  The term has no more
    binders than there are 64-bit words to number them. -/
theorem eval_nameless {t : Term} {s : Store} (ht : t.binders ≤ 2 ^ 64)
    (hfree : ∀ x ∈ t.freeVars, ∀ n : Int, x ≠ "_v" ++ toString n)
    (hcell : ∀ {i : Int64} {u : Term}, s.get? i = some u →
      ∀ x ∈ u.freeVars, ∀ n : Int, x ≠ "_v" ++ toString n)
    (hbound : ∀ {i : Int64} {u : Term}, s.get? i = some u → ∀ x ∈ u.boundNames,
      x ∉ t.freeVars ∧ ∀ {j : Int64} {v : Term}, s.get? j = some v → x ∉ v.freeVars)
    (maxSteps : Int64) :
    let r := eval t s maxSteps
    let cs := configurations t s maxSteps
    cs.length = r.steps + 1 ∧ cs.getLast? = some r.final ∧
      (∀ (k : Nat) (c : Config), cs[k]? = some c →
        after Nameless.Config.step? k ⟨t.nameless, s.nameless⟩ = some c.nameless) ∧
      r.final.nameless.step? = r.final.step?.map Config.nameless := by
  intro r cs
  -- the invariant of the run: these names stay free, and no binder has one of them
  let F : String → Prop := fun x =>
    x ∈ t.freeVars ∨ ∃ (i : Int64) (u : Term), s.get? i = some u ∧ x ∈ u.freeVars
  have hstart : (Run.start t s).Apart F := by
    refine Config.apart_start (fun x hx => .inl hx) ?_ fun {i u} hu => ⟨fun x hx => ?_, ?_⟩
    · rintro x n (hx | ⟨i, u, hu, hx⟩)
      · exact hfree x hx n
      · exact hcell hu x hx n
    · exact .inr ⟨i, u, hu, hx⟩
    · rintro x hx (hmem | ⟨j, v, hv, hmem⟩)
      · exact (hbound hu x hx).1 hmem
      · exact (hbound hu x hx).2 hv hmem
  obtain ⟨ds, hseen, hsteps, hlast, hafter⟩ :=
    Run.loop_visits (stepBound maxSteps) 0 (Run.start t s) []
  have hr : r = (evalWith (fun seen n c => (n, c) :: seen) [] t s maxSteps).1 :=
    Run.loop_fst ..
  have hcs : cs = Run.start t s :: ds := congrArg (Run.start t s :: ·) hseen
  have hrefer : ∀ (k : Nat) (c : Config), cs[k]? = some c →
      after Config.step? k (Run.start t s) = some c := fun k c hk => hafter (hcs ▸ hk)
  have hapart : r.final.Apart F := hstart.after (Run.after_loop ..)
  refine ⟨?_, ?_, fun k c hk => ?_, hapart.step?_nameless⟩
  · rw [hcs, hr, List.length_cons]
    exact congrArg (· + 1) ((Nat.zero_add _).symm.trans hsteps.symm)
  · rw [hcs, hr]
    exact hlast
  · rw [← Config.nameless_start s ht hfree, hstart.after_nameless k, hrefer k c hk]
    rfl

/-- The argument `y` of `λx. λy. x` is not captured; the store holds `λz. z`. -/
theorem eval_nameless_const :
    let t : Term := .app (.abs "x" (.abs "y" (.var "x"))) (.var "y")
    let s : Store := Store.empty.set 0 (.abs "z" (.var "z"))
    ∃ c, (configurations t s 10)[1]? = some c ∧ c.nameless.term = .abs (.var (.free "y")) ∧
      after Nameless.Config.step? 1 ⟨t.nameless, s.nameless⟩ = some c.nameless := by
  intro t s
  have hy : ∀ x ∈ t.freeVars, x = "y" := by
    intro x hx
    obtain ⟨h, -, h'⟩ | h : ("x" ≠ x ∧ "y" ≠ x ∧ "x" = x) ∨ "y" = x := by
      simpa [t, Term.freeVars] using hx
    · exact absurd h' h
    · exact h.symm
  have hget : ∀ {i : Int64} {u : Term}, s.get? i = some u → u = .abs "z" (.var "z") := by
    intro i u hu
    rw [Store.get?_set] at hu
    split at hu
    · exact (Option.some.inj hu).symm
    · exact absurd hu (by simp [Store.get?, Store.empty])
  -- the binder has been renamed, so that `y` stays free below it
  have hconfig : (configurations t s 10)[1]? = some ⟨.abs "_v1" (.var "y"), s⟩ := by cbv
  refine ⟨_, hconfig, rfl, ?_⟩
  refine (eval_nameless (t := t) (s := s) (by decide) (fun x hx n => ?_) (fun hu x hx => ?_)
    (fun hu x hx => ?_) 10).2.2.1 1 _ hconfig
  · rw [hy x hx]
    intro h
    exact absurd (congrArg (fun x => x.toList.head?) h) (by simp)
  · rw [hget hu] at hx
    exact absurd hx (by simp [Term.freeVars])
  · rw [hget hu] at hx
    obtain rfl : x = "z" := by simpa [Term.boundNames] using hx
    refine ⟨fun h => absurd (hy "z" h) (by decide), fun hv h => ?_⟩
    rw [hget hv] at h
    exact absurd h (by simp [Term.freeVars])

end MiniML
