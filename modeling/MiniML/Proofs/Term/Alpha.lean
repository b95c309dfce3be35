/-
  MiniML/Proofs/Term/Alpha.lean
  =============================
  **Renaming binders keeps types** — alpha conversion gives every binder a fresh
  name.  A typing survives it because the names that are in scope, after renaming,
  are never issued again (`Renames`), so a new binder shadows nothing.
-/
import MiniML.Proofs.Name.Fresh
import MiniML.Proofs.Typing.Uniform

namespace MiniML

/-- The number of binders of a term. -/
def Term.binders : Term → Nat
  | .var _ | .int _ | .nil | .unit | .region _ => 0
  | .abs _ b => b.binders + 1
  | .letIn _ v b => v.binders + b.binders + 1
  | .app f a => f.binders + a.binders
  | .cons h t => h.binders + t.binders
  | .head l | .tail l => l.binders
  | .add l r | .sub l r => l.binders + r.binders
  | .ifZero c t e | .ifEmpty c t e => c.binders + t.binders + e.binders
  | .fix f => f.binders
  | .mkRef e | .deref e => e.binders
  | .assign r v => r.binders + v.binders

/-- Alpha conversion draws one name for each binder. -/
theorem Term.count_alphaConvert (t : Term) (ρ : Renaming) (s : NameSupply) :
    (t.alphaConvert ρ s).2.count = s.count + t.binders := by
  induction t generalizing ρ s with
  | var | int | nil | unit | region => simp [alphaConvert, binders]
  | abs x b ih => simp only [alphaConvert, binders, ih, NameSupply.count_fresh]; omega
  | letIn x v b ihv ihb =>
    simp only [alphaConvert, binders, ihb, ihv, NameSupply.count_fresh]
    omega
  | head l ih | tail l ih | fix f ih | mkRef e ih | deref e ih =>
    simp only [alphaConvert, binders, ih]
  | app f a ihf iha | cons f a ihf iha | add f a ihf iha | sub f a ihf iha
  | assign f a ihf iha =>
    simp only [alphaConvert, binders, iha, ihf]
    omega
  | ifZero c t e ihc iht ihe | ifEmpty c t e ihc iht ihe =>
    simp only [alphaConvert, binders, ihe, iht, ihc]
    omega

theorem Term.stem_alphaConvert (t : Term) (ρ : Renaming) (s : NameSupply) :
    (t.alphaConvert ρ s).2.stem = s.stem := by
  induction t generalizing ρ s with
  | var | int | nil | unit | region => rfl
  | abs x b ih => simp only [alphaConvert, ih, NameSupply.stem_fresh]
  | letIn x v b ihv ihb => simp only [alphaConvert, ihb, ihv, NameSupply.stem_fresh]
  | head l ih | tail l ih | fix f ih | mkRef e ih | deref e ih => simp only [alphaConvert, ih]
  | app f a ihf iha | cons f a ihf iha | add f a ihf iha | sub f a ihf iha
  | assign f a ihf iha => simp only [alphaConvert, iha, ihf]
  | ifZero c t e ihc iht ihe | ifEmpty c t e ihc iht ihe =>
    simp only [alphaConvert, ihe, iht, ihc]

theorem Term.before_alphaConvert (t : Term) (ρ : Renaming) (s : NameSupply) :
    s.Before (t.alphaConvert ρ s).2 :=
  ⟨t.stem_alphaConvert ρ s, by rw [t.count_alphaConvert ρ s]; omega⟩

/-! ### Scopes under a renaming -/

/-- Every variable in scope may be used under its new name as it was under its old
    one, and no name that the supply will issue is among the new names. -/
def Renames (ρ : Renaming) (s : NameSupply) (limit : Int) (Γ Γ' : Uses) : Prop :=
  ∀ x σ, Γ x σ → Γ' ((ρ[x]?).getD x) σ ∧ s.Spares limit ((ρ[x]?).getD x)

theorem Renames.later {ρ : Renaming} {s s' : NameSupply} {limit : Int} {Γ Γ' : Uses}
    (h : Renames ρ s limit Γ Γ') (hs : s.Before s') : Renames ρ s' limit Γ Γ' :=
  fun x σ hx => ⟨(h x σ hx).1, (h x σ hx).2.later hs⟩

/-- A binder under its new name. -/
theorem Renames.insert {ρ : Renaming} {s : NameSupply} {limit : Int} {Γ Γ' : Uses}
    (h : Renames ρ s limit Γ Γ') (hpos : 0 ≤ s.count) (hlimit : limit ≤ 2 ^ 63)
    (hl : s.fresh.2.count ≤ limit) (x : String) (S : Ty → Prop) :
    Renames (ρ.insert x s.fresh.1) s.fresh.2 limit (Function.update Γ x S)
      (Function.update Γ' s.fresh.1 S) := by
  intro y σ hy
  by_cases hyx : y = x
  · subst hyx
    rw [Function.update_self] at hy
    rw [Std.ExtTreeMap.getElem?_insert_self, Option.getD_some, Function.update_self]
    exact ⟨hy, NameSupply.spares_fresh hpos hlimit⟩
  · rw [Function.update_of_ne hyx] at hy
    obtain ⟨hmem, hspare⟩ := h y σ hy
    have hget : (ρ.insert x s.fresh.1)[y]? = ρ[y]? := by
      rw [Std.ExtTreeMap.getElem?_insert]
      simp [Ne.symm hyx]
    rw [hget, Function.update_of_ne (hspare.ne_fresh hl)]
    exact ⟨hmem, hspare.later (NameSupply.before_fresh s)⟩

/-- **Alpha conversion keeps types.** -/
theorem Uniform.alphaConvert {Ψ : StoreTyping} {t : Term} {limit : Int} (hlimit : limit ≤ 2 ^ 63)
    {ρ : Renaming} {s : NameSupply} (hpos : 0 ≤ s.count) (hl : s.count + t.binders ≤ limit)
    {ι : Type} {Γ Γ' : ι → Uses} {τ : ι → Ty} (h : Uniform False Ψ t Γ τ)
    (hΓ : ∀ i, Renames ρ s limit (Γ i) (Γ' i)) :
    Uniform False Ψ (t.alphaConvert ρ s).1 Γ' τ := by
  induction t generalizing ρ s ι with
  | var x => exact fun i => (hΓ i x (τ i) (h i)).1
  | abs x b ih =>
    rw [Term.binders] at hl
    intro i
    obtain ⟨dom, cod, heq, hdom, hb⟩ := h i
    have hfresh : s.fresh.2.count = s.count + 1 := rfl
    refine ⟨dom, cod, heq, hdom, ih (by omega) (by omega) hb fun _ => ?_⟩
    exact (hΓ i).insert hpos hlimit (by omega) x (· = dom)
  | app f a ihf iha =>
    rw [Term.binders] at hl
    refine ⟨h.1, fun i => ?_⟩
    obtain ⟨dom, hf, ha⟩ := h.2 i
    -- the argument is converted with the names that the function has left
    have hcount := f.count_alphaConvert ρ s
    exact ⟨dom, ihf hpos (by omega) hf fun _ => hΓ i,
      iha (by omega) (by omega) ha fun _ => (hΓ i).later (f.before_alphaConvert ρ s)⟩
  -- the name of the `let` is drawn first, then those of the value, then those of the body
  | letIn x v b ihv ihb =>
    rw [Term.binders] at hl
    obtain ⟨S, hne, hmono, -, hv, hb⟩ := h
    have hfresh : s.fresh.2.count = s.count + 1 := rfl
    have hcount := v.count_alphaConvert ρ s.fresh.2
    refine ⟨S, hne, hmono, False.elim, ?_, ?_⟩
    · exact ihv (by omega) (by omega) hv fun p =>
        (hΓ p.1.1).later (NameSupply.before_fresh s)
    · refine ihb (by omega) (by omega) hb fun i => ?_
      exact ((hΓ i).insert hpos hlimit (by omega) x (S i)).later (v.before_alphaConvert ρ s.fresh.2)
  | int | unit | nil | region => exact h
  | cons a l iha ihl =>
    rw [Term.binders] at hl
    obtain ⟨elem, heq, ha, hl'⟩ := h
    have hcount := a.count_alphaConvert ρ s
    exact ⟨elem, heq, iha hpos (by omega) ha hΓ,
      ihl (by omega) (by omega) hl' fun i => (hΓ i).later (a.before_alphaConvert ρ s)⟩
  | head l ih => exact ih hpos hl (τ := fun i => .list (τ i)) h hΓ
  | fix f ih => exact ih hpos hl (τ := fun i => .arrow (τ i) (τ i)) h hΓ
  | deref e ih => exact ih hpos hl (τ := fun i => .ref (τ i)) h hΓ
  | tail l ih => exact ⟨h.1, ih hpos hl h.2 hΓ⟩
  | add l r ihl ihr | sub l r ihl ihr =>
    rw [Term.binders] at hl
    have hcount := l.count_alphaConvert ρ s
    exact ⟨h.1, ihl hpos (by omega) h.2.1 hΓ,
      ihr (by omega) (by omega) h.2.2 fun i => (hΓ i).later (l.before_alphaConvert ρ s)⟩
  | ifZero c t e ihc iht ihe =>
    rw [Term.binders] at hl
    obtain ⟨hc, ht, he⟩ := h
    have hcount := c.count_alphaConvert ρ s
    have hcount' := t.count_alphaConvert ρ (c.alphaConvert ρ s).2
    have hΓ₁ := fun i => (hΓ i).later (c.before_alphaConvert ρ s)
    exact ⟨ihc hpos (by omega) hc hΓ, iht (by omega) (by omega) ht hΓ₁,
      ihe (by omega) (by omega) he fun i => (hΓ₁ i).later (t.before_alphaConvert ρ _)⟩
  | ifEmpty c t e ihc iht ihe =>
    rw [Term.binders] at hl
    obtain ⟨⟨elem, hc⟩, ht, he⟩ := h
    have hcount := c.count_alphaConvert ρ s
    have hcount' := t.count_alphaConvert ρ (c.alphaConvert ρ s).2
    have hΓ₁ := fun i => (hΓ i).later (c.before_alphaConvert ρ s)
    exact ⟨⟨elem, ihc hpos (by omega) hc hΓ⟩, iht (by omega) (by omega) ht hΓ₁,
      ihe (by omega) (by omega) he fun i => (hΓ₁ i).later (t.before_alphaConvert ρ _)⟩
  | mkRef e ih =>
    obtain ⟨hconst, content, heq, he⟩ := h
    exact ⟨hconst, content, heq, ih hpos hl he hΓ⟩
  | assign r v ihr ihv =>
    rw [Term.binders] at hl
    obtain ⟨heq, content, hr, hv⟩ := h
    have hcount := r.count_alphaConvert ρ s
    exact ⟨heq, content, ihr hpos (by omega) hr hΓ,
      ihv (by omega) (by omega) hv fun i => (hΓ i).later (r.before_alphaConvert ρ s)⟩

end MiniML
