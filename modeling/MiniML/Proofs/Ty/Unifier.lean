/-
  MiniML/Proofs/Ty/Unifier.lean
  =============================
  **Unification computes most general unifiers** — a run on a list of pairs
  answers with a substitution whose solutions are exactly the solutions of the
  given substitution that make every pair equal, or with a fault that shows that
  there are none; only a spent budget says nothing (`Answers`).

  A *solution* of a substitution is a function on variables that satisfies its
  bindings as equations (`Subst.Respects`).  Stating the result through solutions
  gives both halves at once: the answer unifies, since resolving is one of its
  own solutions, and it is most general, since every other unifier is a solution.
-/
import MiniML.Proofs.Ty.Acyclic
import MiniML.Ty.Unify

namespace MiniML.Unify

open Subst

/-- `f` makes every pair equal. -/
def Solves (f : String → Ty) (pairs : List (Ty × Ty)) : Prop :=
  ∀ p ∈ pairs, p.1.bind f = p.2.bind f

/-- All variables of the pairs have the property `P`. -/
def NamesIn (P : String → Prop) (pairs : List (Ty × Ty)) : Prop :=
  ∀ p ∈ pairs, (∀ x ∈ p.1.freeVars, P x) ∧ ∀ x ∈ p.2.freeVars, P x

/-- All pairs consist of monotypes. -/
def MonoPairs (pairs : List (Ty × Ty)) : Prop := ∀ p ∈ pairs, p.1.Mono ∧ p.2.Mono

/-- `s'` extends `s` by what the pairs force, and by nothing else. -/
structure Extends (s : Subst) (pairs : List (Ty × Ty)) (s' : Subst) : Prop where
  regular : s'.Regular
  keeps : ∀ {x : String} {t : Ty}, s[x]? = some t → s'[x]? = some t
  within : ∀ {P : String → Prop}, s.Within P → NamesIn P pairs → s'.Within P
  respects_iff : ∀ f, Respects f s' ↔ Respects f s ∧ Solves f pairs

/-- What a run on the pairs may end with. -/
def Answers (s : Subst) (pairs : List (Ty × Ty)) : Except UnifyFault Subst → Prop
  | .ok s' => Extends s pairs s'
  | .error .timeout => True
  | .error (.mismatch _ _) | .error (.occurs _ _) => ∀ f, Respects f s → ¬ Solves f pairs

/-! ### Equal demands -/

theorem solves_nil (f : String → Ty) : Solves f [] := fun _ h => absurd h (by simp)

theorem solves_cons {f : String → Ty} {p : Ty × Ty} {pairs : List (Ty × Ty)} :
    Solves f (p :: pairs) ↔ p.1.bind f = p.2.bind f ∧ Solves f pairs := by
  simp [Solves]

theorem namesIn_cons {P : String → Prop} {p : Ty × Ty} {pairs : List (Ty × Ty)} :
    NamesIn P (p :: pairs) ↔
      ((∀ x ∈ p.1.freeVars, P x) ∧ ∀ x ∈ p.2.freeVars, P x) ∧ NamesIn P pairs := by
  simp [NamesIn]

theorem monoPairs_cons {p : Ty × Ty} {pairs : List (Ty × Ty)} :
    MonoPairs (p :: pairs) ↔ (p.1.Mono ∧ p.2.Mono) ∧ MonoPairs pairs := by
  simp [MonoPairs]

/-- Pairs that demand the same of every solution, with the same names, have the
    same answers. -/
theorem Answers.congr {s : Subst} {pairs pairs' : List (Ty × Ty)}
    {r : Except UnifyFault Subst} (h : Answers s pairs r)
    (hsolves : ∀ f, Respects f s → (Solves f pairs ↔ Solves f pairs'))
    (hnames : ∀ {P : String → Prop}, s.Within P → NamesIn P pairs' → NamesIn P pairs) :
    Answers s pairs' r := by
  match r, h with
  | .ok s', h =>
    refine ⟨h.regular, h.keeps, fun hP hn => h.within hP (hnames hP hn), fun f => ?_⟩
    rw [h.respects_iff f]
    exact and_congr_right (hsolves f)
  | .error .timeout, _ => exact trivial
  | .error (.mismatch _ _), h => exact fun f hf hp => h f hf ((hsolves f hf).mpr hp)
  | .error (.occurs _ _), h => exact fun f hf hp => h f hf ((hsolves f hf).mpr hp)

/-- One pair after the other. -/
theorem Extends.answers_cons {s s' : Subst} {p : Ty × Ty} {pairs : List (Ty × Ty)}
    {r : Except UnifyFault Subst} (hs : Extends s [p] s') (h : Answers s' pairs r) :
    Answers s (p :: pairs) r := by
  have hboth : ∀ f, Respects f s' ∧ Solves f pairs ↔ Respects f s ∧ Solves f (p :: pairs) := by
    intro f
    rw [hs.respects_iff f, solves_cons, solves_cons]
    simp only [solves_nil, and_true, and_assoc]
  match r, h with
  | .ok s'', h =>
    refine ⟨h.regular, fun hx => h.keeps (hs.keeps hx), fun hP hn => ?_, fun f => ?_⟩
    · obtain ⟨hp, hn⟩ := namesIn_cons.mp hn
      exact h.within (hs.within hP (namesIn_cons.mpr ⟨hp, fun _ h => absurd h (by simp)⟩)) hn
    · rw [h.respects_iff f, hboth f]
  | .error .timeout, _ => exact trivial
  | .error (.mismatch _ _), h =>
    intro f hf hp
    obtain ⟨hf', hp'⟩ := (hboth f).mpr ⟨hf, hp⟩
    exact h f hf' hp'
  | .error (.occurs _ _), h =>
    intro f hf hp
    obtain ⟨hf', hp'⟩ := (hboth f).mpr ⟨hf, hp⟩
    exact h f hf' hp'

/-- A fault of the first pair is a fault of all. -/
theorem Answers.error_cons {s : Subst} {p : Ty × Ty} {pairs : List (Ty × Ty)}
    {fault : UnifyFault} (h : Answers s [p] (.error fault)) :
    Answers s (p :: pairs) (.error fault) := by
  have hfirst : ∀ f, Solves f (p :: pairs) → Solves f [p] := fun f hf =>
    solves_cons.mpr ⟨(solves_cons.mp hf).1, solves_nil f⟩
  cases fault with
  | timeout => exact trivial
  | mismatch => exact fun f hf hp => h f hf (hfirst f hp)
  | occurs => exact fun f hf hp => h f hf (hfirst f hp)

/-- A pair may be resolved before it is visited. -/
theorem Answers.of_apply {s : Subst} (hs : s.Regular) {a b : Ty} {pairs : List (Ty × Ty)}
    (ha : a.Mono) (hb : b.Mono) {r : Except UnifyFault Subst}
    (h : Answers s ((s.apply a, s.apply b) :: pairs) r) : Answers s ((a, b) :: pairs) r := by
  refine h.congr (fun f hf => ?_) (fun {P} hP hn => ?_)
  · rw [solves_cons, solves_cons, hs.bind_apply_of_respects hf ha,
      hs.bind_apply_of_respects hf hb]
  · rw [namesIn_cons] at hn ⊢
    exact ⟨⟨hs.mem_apply hP ha hn.1.1, hs.mem_apply hP hb hn.1.2⟩, hn.2⟩

/-! ### Single pairs -/

/-- The variables of a type are unbound. -/
def Resolved (s : Subst) (t : Ty) : Prop := ∀ x ∈ t.freeVars, s[x]? = none

theorem resolved_apply {s : Subst} (hs : s.Regular) {t : Ty} (ht : t.Mono) :
    Resolved s (s.apply t) := by
  intro y hy
  rw [apply_eq_bind s ht] at hy
  obtain ⟨x, -, hy⟩ := (Ty.mem_freeVars_bind ht).mp hy
  exact hs.not_bound_of_mem_resolve x y hy

theorem Extends.refl {s : Subst} (hs : s.Regular) {a b : Ty}
    (h : ∀ f : String → Ty, a.bind f = b.bind f) : Extends s [(a, b)] s where
  regular := hs
  keeps hx := hx
  within hP _ := hP
  respects_iff f := by simp [Solves, h f]

/-- Binding a variable answers the pair of the variable and the type. -/
theorem bind_answers {s : Subst} (hs : s.Regular) {x : String} {t : Ty} (ht : t.Mono)
    (hx : s[x]? = none) (hr : Resolved s t) (hne : t ≠ .var x) :
    Answers s [(.var x, t)] (bind x t s) := by
  rw [bind]
  split
  · rename_i hocc
    intro f _ hf
    refine Ty.bind_ne_of_mem_freeVars (f := f) ht ((Ty.occurs_iff x t).mp hocc) hne ?_
    exact (solves_cons.mp hf).1
  · rename_i hocc
    have hnot : x ∉ t.freeVars := fun h => hocc ((Ty.occurs_iff x t).mpr h)
    refine ⟨hs.insert ht hnot hr, fun {y u} hy => ?_, fun hP hn => ?_, fun f => ?_⟩
    · have hxy : x ≠ y := by
        rintro rfl
        rw [hx] at hy
        exact absurd hy (by simp)
      simpa [Std.ExtTreeMap.getElem?_insert, hxy] using hy
    · obtain ⟨⟨hx, ht⟩, -⟩ := namesIn_cons.mp hn
      exact hP.insert (hx x (by simp)) ht
    · rw [respects_insert_iff hx, solves_cons]
      simp only [solves_nil, and_true]
      rfl

/-- A pair and the pair the other way round have the same answers. -/
theorem Answers.swap {s : Subst} {a b : Ty} {r : Except UnifyFault Subst}
    (h : Answers s [(a, b)] r) : Answers s [(b, a)] r := by
  refine h.congr (fun f _ => ?_) (fun {P} _ hn => ?_)
  · simp only [solves_cons, eq_comm]
  · rw [namesIn_cons] at hn ⊢
    exact ⟨⟨hn.1.2, hn.1.1⟩, hn.2⟩

/-- A pair without parts to visit is answered by `settle`. -/
theorem settle_answers {s : Subst} (hs : s.Regular) {a b : Ty} (ha : a.Mono) (hb : b.Mono)
    (hra : Resolved s a) (hrb : Resolved s b)
    (harrow : ∀ a₁ a₂ b₁ b₂, a = .arrow a₁ a₂ → b ≠ .arrow b₁ b₂)
    (hlist : ∀ a₁ b₁, a = .list a₁ → b ≠ .list b₁)
    (href : ∀ a₁ b₁, a = .ref a₁ → b ≠ .ref b₁) : Answers s [(a, b)] (settle s a b) := by
  fun_cases settle s a b with
  | case1 x => exact Extends.refl hs fun _ => rfl
  | case2 x y hxy =>
    exact bind_answers hs hb (hra x (by simp)) hrb fun h => hxy (Ty.var.inj h).symm
  | case3 x b hb' =>
    exact bind_answers hs hb (hra x (by simp)) hrb fun h => hb' x h
  | case4 a y ha' =>
    exact (bind_answers hs ha (hrb y (by simp)) hra fun h => ha' y h).swap
  | case5 => exact Extends.refl hs fun _ => rfl
  | case6 => exact Extends.refl hs fun _ => rfl
  | case7 a b _ hva hvb hint hunit =>
    -- two forms that differ at the top stay different under every function
    intro f _ hf
    have heq : a.bind f = b.bind f := (solves_cons.mp hf).1
    cases a with
    | var x => exact hva x rfl
    | all v t => exact ha.elim
    | arrow a₁ a₂ =>
      cases b with
      | var y => exact hvb y rfl
      | arrow b₁ b₂ => exact harrow _ _ _ _ rfl rfl
      | _ => simp [Ty.bind] at heq
    | list a₁ =>
      cases b with
      | var y => exact hvb y rfl
      | list b₁ => exact hlist _ _ rfl rfl
      | _ => simp [Ty.bind] at heq
    | ref a₁ =>
      cases b with
      | var y => exact hvb y rfl
      | ref b₁ => exact href _ _ rfl rfl
      | _ => simp [Ty.bind] at heq
    | int =>
      cases b with
      | var y => exact hvb y rfl
      | int => exact hint rfl rfl
      | _ => simp [Ty.bind] at heq
    | unit =>
      cases b with
      | var y => exact hvb y rfl
      | unit => exact hunit rfl rfl
      | _ => simp [Ty.bind] at heq

/-! ### Runs -/

/-- A visit to a resolved pair and the pending pairs answers all of them. -/
theorem visit_answers (fuel : Nat) {a b : Ty} {pending : List (Ty × Ty)} {s : Subst}
    (hs : s.Regular) (ha : a.Mono) (hb : b.Mono) (hra : Resolved s a) (hrb : Resolved s b)
    (hp : MonoPairs pending) : Answers s ((a, b) :: pending) (visit fuel a b pending s) := by
  fun_induction visit fuel a b pending s with
  | case1 => exact trivial
  -- two arrows stand for the pairs of their parts
  | case2 fuel a b c d pending s ih =>
    have hra' : Resolved s a := fun x hx => hra x (by simp [hx])
    have hrc : Resolved s c := fun x hx => hrb x (by simp [hx])
    refine (ih hs ha.1 hb.1 hra' hrc (monoPairs_cons.mpr ⟨⟨ha.2, hb.2⟩, hp⟩)).congr
      (fun f _ => ?_) (fun {P} _ hn => ?_)
    · simp only [solves_cons, Ty.bind, Ty.arrow.injEq, and_assoc]
    · simp only [namesIn_cons, Ty.mem_freeVars_arrow, or_imp, forall_and] at hn ⊢
      exact ⟨⟨hn.1.1.1, hn.1.2.1⟩, ⟨hn.1.1.2, hn.1.2.2⟩, hn.2⟩
  | case3 fuel a b pending s ih =>
    have ha' : a.Mono := ha
    have hb' : b.Mono := hb
    refine ((ih hs (hs.mono_apply ha') (hs.mono_apply hb') (resolved_apply hs ha')
      (resolved_apply hs hb') hp).of_apply hs ha' hb').congr (fun f _ => ?_) (fun _ hn => ?_)
    · simp only [solves_cons, Ty.bind, Ty.list.injEq]
    · rw [namesIn_cons] at hn ⊢
      exact hn
  | case4 fuel a b pending s ih =>
    have ha' : a.Mono := ha
    have hb' : b.Mono := hb
    refine ((ih hs (hs.mono_apply ha') (hs.mono_apply hb') (resolved_apply hs ha')
      (resolved_apply hs hb') hp).of_apply hs ha' hb').congr (fun f _ => ?_) (fun _ hn => ?_)
    · simp only [solves_cons, Ty.bind, Ty.ref.injEq]
    · rw [namesIn_cons] at hn ⊢
      exact hn
  | case5 fuel a b pending s harrow hlist href fault hsettle =>
    have h := settle_answers hs ha hb hra hrb harrow hlist href
    rw [hsettle] at h
    exact h.error_cons
  | case6 fuel a b s harrow hlist href s' hsettle =>
    have h := settle_answers hs ha hb hra hrb harrow hlist href
    rw [hsettle] at h
    exact h
  -- the pair is settled; the next one is resolved with what that has bound
  | case7 fuel a b s harrow hlist href s' hsettle c d rest ih =>
    have h := settle_answers hs ha hb hra hrb harrow hlist href
    rw [hsettle] at h
    obtain ⟨⟨hc, hd⟩, hrest⟩ := monoPairs_cons.mp hp
    have hs' : s'.Regular := h.regular
    exact h.answers_cons ((ih hs' (hs'.mono_apply hc) (hs'.mono_apply hd)
      (resolved_apply hs' hc) (resolved_apply hs' hd) hrest).of_apply hs' hc hd)

end MiniML.Unify

namespace MiniML

open Subst Unify

/-- **Unification answers its pair.** -/
theorem unify_answers (fuel : Nat) {a b : Ty} {s : Subst} (hs : s.Regular) (ha : a.Mono)
    (hb : b.Mono) : Answers s [(a, b)] (unify fuel a b s) :=
  (visit_answers fuel hs (hs.mono_apply ha) (hs.mono_apply hb) (resolved_apply hs ha)
    (resolved_apply hs hb) fun _ h => absurd h (by simp)).of_apply hs ha hb

/-- **Unification decides whether two monotypes can be made equal**, and if they can it
    finds the most general way.  A run that succeeds keeps what was bound, stays
    acyclic, makes the types equal, and forces nothing that is not forced by every
    solution; a run that fails, its budget apart, shows that there is no solution. -/
theorem unify_decides (fuel : Nat) {a b : Ty} {s : Subst} (hs : s.Regular) (ha : a.Mono)
    (hb : b.Mono) :
    (∀ s', unify fuel a b s = .ok s' →
      s'.Acyclic ∧ (∀ (x : String) (t : Ty), s[x]? = some t → s'[x]? = some t) ∧
        s'.apply a = s'.apply b ∧
        ∀ R : String → Ty, Respects R s → a.bind R = b.bind R → Respects R s') ∧
    ∀ fault, unify fuel a b s = .error fault → fault ≠ .timeout →
      ¬ ∃ R : String → Ty, Respects R s ∧ a.bind R = b.bind R := by
  have hans := unify_answers fuel hs ha hb
  have hpair : ∀ R : String → Ty, Solves R [(a, b)] ↔ a.bind R = b.bind R := by
    intro R
    rw [solves_cons]
    simp only [solves_nil, and_true]
  constructor
  · intro s' hrun
    rw [hrun] at hans
    have hext : Extends s [(a, b)] s' := hans
    refine ⟨hext.regular.acyclic, fun x t hx => hext.keeps hx, ?_, fun R hR heq => ?_⟩
    · -- resolving is one of the solutions
      have hresolve := ((hext.respects_iff _).mp hext.regular.respects_resolve).2
      rw [apply_eq_bind s' ha, apply_eq_bind s' hb]
      exact (hpair _).mp hresolve
    · exact (hext.respects_iff R).mpr ⟨hR, (hpair R).mpr heq⟩
  · rintro fault hrun hfault ⟨R, hR, heq⟩
    rw [hrun] at hans
    cases fault with
    | timeout => exact hfault rfl
    | mismatch => exact hans R hR ((hpair R).mpr heq)
    | occurs => exact hans R hR ((hpair R).mpr heq)

/-- With `T2 ↦ Int`, `T0 → T1` and `[T2] → T0` become equal in one way only; `T0 → T0` and
    `T1 → [T1]` never do. -/
theorem unify_decides_shared :
    let s : Subst := (∅ : Subst).insert "T2" .int
    let a : Ty := .arrow (.var "T0") (.var "T1")
    let b : Ty := .arrow (.list (.var "T2")) (.var "T0")
    (∃ s', unify 10 a b s = .ok s' ∧ s'.Acyclic ∧ s'.apply a = s'.apply b ∧
      ∀ R : String → Ty, R "T2" = .int → R "T0" = .list (R "T2") → R "T1" = R "T0" →
        Respects R s') ∧
    ¬ ∃ R : String → Ty, R "T2" = .int ∧ R "T0" = R "T1" ∧ R "T0" = .list (R "T1") := by
  intro s a b
  have hs : s.Regular := regular_empty.insert (t := .int) trivial (by simp) (by simp)
  have hR : ∀ R : String → Ty, R "T2" = .int → Respects R s := fun R h2 =>
    (respects_insert_iff (by simp)).mpr ⟨respects_empty R, h2⟩
  constructor
  · have hok : (unify 10 a b s).isOk = true := by cbv
    cases hrun : unify 10 a b s with
    | error fault =>
      rw [hrun] at hok
      cases hok
    | ok s' =>
      obtain ⟨hacyclic, -, heq, hgeneral⟩ := (unify_decides 10 hs
        (show a.Mono from ⟨trivial, trivial⟩) (show b.Mono from ⟨trivial, trivial⟩)).1 s' hrun
      refine ⟨s', rfl, hacyclic, heq, fun R h2 h0 h1 => hgeneral R (hR R h2) ?_⟩
      simp only [a, b, Ty.bind, h0, h1]
  · rintro ⟨R, h2, h0, h1⟩
    have hrun : unify 10 (.arrow (.var "T0") (.var "T0")) (.arrow (.var "T1") (.list (.var "T1"))) s =
        .error (.occurs "T1" (.list (.var "T1"))) := by cbv
    refine (unify_decides 10 hs (a := .arrow (.var "T0") (.var "T0"))
      (b := .arrow (.var "T1") (.list (.var "T1"))) ⟨trivial, trivial⟩ ⟨trivial, trivial⟩).2 _ hrun
      (by simp) ⟨R, hR R h2, ?_⟩
    simp only [Ty.bind]
    rw [← h1, h0]

end MiniML
