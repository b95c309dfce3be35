/-
  MiniML/Proofs/Typing/Declarative.lean
  =====================================
  **Declarative typing** — the rules that say which types a term has, without
  saying how to find them.  It is the system of Hindley and Milner for the forms
  of the calculus: a variable is used at any instance of its scheme, `let`
  generalises the type of its value over all variables that are not free in the
  environment, and does so exactly when the value is not expansive.  An address
  has the type of a reference to anything.

  The one fact about the rules that everything else needs is that typing is stable
  under replacing type variables (`HasType.subst`).  Its `let` case is where names
  matter: the generalised variables are renamed away from whatever the
  replacement brings in.
-/
import Mathlib.Algebra.Order.BigOperators.Group.List
import Mathlib.Algebra.Order.Group.Nat
import MiniML.Proofs.Ty.Scheme
import MiniML.Term.Basic

namespace MiniML

/-- The declarative typing rules. -/
inductive HasType : TypeEnv → Term → Ty → Prop where
  | var {env : TypeEnv} {x : String} {σ τ : Ty} :
      env[x]? = some σ → σ.HasInstance .var τ → HasType env (.var x) τ
  | abs {env : TypeEnv} {x : String} {body : Term} {dom cod : Ty} :
      dom.Mono → HasType (env.insert x dom) body cod → HasType env (.abs x body) (.arrow dom cod)
  | app {env : TypeEnv} {f a : Term} {dom cod : Ty} :
      HasType env f (.arrow dom cod) → HasType env a dom → HasType env (.app f a) cod
  | letPoly {env : TypeEnv} {x : String} {value body : Term} {τ σ ρ : Ty} :
      value.isExpansive = false → HasType env value τ →
      Ty.Generalizes env.freeTypeVars τ σ → HasType (env.insert x σ) body ρ →
      HasType env (.letIn x value body) ρ
  | letMono {env : TypeEnv} {x : String} {value body : Term} {τ ρ : Ty} :
      value.isExpansive = true → HasType env value τ → HasType (env.insert x τ) body ρ →
      HasType env (.letIn x value body) ρ
  | int {env : TypeEnv} {n : Int64} : HasType env (.int n) .int
  | nil {env : TypeEnv} {elem : Ty} : elem.Mono → HasType env .nil (.list elem)
  | cons {env : TypeEnv} {h t : Term} {elem : Ty} :
      HasType env h elem → HasType env t (.list elem) → HasType env (.cons h t) (.list elem)
  | head {env : TypeEnv} {l : Term} {elem : Ty} :
      HasType env l (.list elem) → HasType env (.head l) elem
  | tail {env : TypeEnv} {l : Term} {elem : Ty} :
      HasType env l (.list elem) → HasType env (.tail l) (.list elem)
  | add {env : TypeEnv} {l r : Term} :
      HasType env l .int → HasType env r .int → HasType env (.add l r) .int
  | sub {env : TypeEnv} {l r : Term} :
      HasType env l .int → HasType env r .int → HasType env (.sub l r) .int
  | ifZero {env : TypeEnv} {c t e : Term} {τ : Ty} :
      HasType env c .int → HasType env t τ → HasType env e τ → HasType env (.ifZero c t e) τ
  | ifEmpty {env : TypeEnv} {c t e : Term} {elem τ : Ty} :
      HasType env c (.list elem) → HasType env t τ → HasType env e τ →
      HasType env (.ifEmpty c t e) τ
  | fix {env : TypeEnv} {f : Term} {τ : Ty} :
      HasType env f (.arrow τ τ) → HasType env (.fix f) τ
  | unit {env : TypeEnv} : HasType env .unit .unit
  | mkRef {env : TypeEnv} {e : Term} {content : Ty} :
      HasType env e content → HasType env (.mkRef e) (.ref content)
  | deref {env : TypeEnv} {e : Term} {content : Ty} :
      HasType env e (.ref content) → HasType env (.deref e) content
  | assign {env : TypeEnv} {r v : Term} {content : Ty} :
      HasType env r (.ref content) → HasType env v content → HasType env (.assign r v) .unit
  | region {env : TypeEnv} {id : Int64} {content : Ty} :
      content.Mono → HasType env (.region id) (.ref content)

/-- The types of terms are monotypes. -/
theorem HasType.mono {env : TypeEnv} {t : Term} {τ : Ty} (h : HasType env t τ) : τ.Mono := by
  induction h with
  | var _ hi => exact hi.mono
  | abs hdom _ ih => exact ⟨hdom, ih⟩
  | app _ _ ihf _ => exact ihf.2
  | letPoly _ _ _ _ _ ih => exact ih
  | letMono _ _ _ _ ih => exact ih
  | int | add | sub | unit | assign => exact trivial
  | nil h | region h => exact h
  | cons _ _ _ ih | tail _ ih => exact ih
  | head _ ih | deref _ ih => exact ih
  | ifZero _ _ _ _ ih _ => exact ih
  | ifEmpty _ _ _ _ ih _ => exact ih
  | fix _ ih => exact ih.1
  | mkRef _ ih => exact ih

/-! ### Replacing type variables -/

/-- A type that `bind` makes a monotype was one before. -/
theorem Ty.mono_of_mono_bind {f : String → Ty} {t : Ty} (h : (t.bind f).Mono) : t.Mono := by
  induction t with
  | arrow a b iha ihb => exact ⟨iha h.1, ihb h.2⟩
  | list e ih => exact ih h
  | ref c ih => exact ih h
  | all v b => exact h.elim
  | var | int | unit => exact trivial

theorem Ty.HasInstance.bind {σ τ : Ty} {f θ : String → Ty} (h : σ.HasInstance f τ)
    (hθ : ∀ v, (θ v).Mono) : σ.HasInstance (fun v => (f v).bind θ) (τ.bind θ) := by
  obtain ⟨hτ, χ, hχ, rfl⟩ := h
  refine ⟨hτ.bind hθ, fun v => (χ v).bind θ, fun v hv => congrArg (Ty.bind θ) (hχ v hv), ?_⟩
  exact (Ty.bind_bind (Ty.mono_of_mono_bind hτ)).symm

/-- Infinitely many names are left outside a finite list. -/
theorem exists_renaming (avoid : List String) :
    ∃ β : String → String, Function.Injective β ∧ ∀ v, β v ∉ avoid := by
  let pad := String.ofList (List.replicate ((avoid.map String.length).sum + 1) 'a')
  refine ⟨fun v => pad ++ v, fun v w h => (String.append_right_inj pad).mp h, ?_⟩
  intro v hv
  have hle := List.single_le_sum (fun _ _ => Nat.zero_le _) _ (List.mem_map_of_mem (f := String.length) hv)
  simp only [pad, String.length_append, String.length_ofList, List.length_replicate] at hle
  omega

/-- Every instance that the environment has when its type variables stand for what
    `θ` gives them is an instance of `env'`. -/
def Covers (θ : String → Ty) (env env' : TypeEnv) : Prop :=
  ∀ ⦃x : String⦄ ⦃ρ : Ty⦄, env.instances θ x ρ → env'.instances .var x ρ

theorem Covers.insert {θ : String → Ty} {env env' : TypeEnv} (h : Covers θ env env')
    {σ σ' : Ty} (hσ : ∀ ρ, σ.HasInstance θ ρ → σ'.HasInstance .var ρ) (x : String) :
    Covers θ (env.insert x σ) (env'.insert x σ') := by
  intro y ρ hy
  rw [TypeEnv.instances_insert] at hy ⊢
  by_cases hyx : y = x
  · subst hyx
    rw [Function.update_self] at hy ⊢
    exact hσ ρ hy
  · rw [Function.update_of_ne hyx] at hy ⊢
    exact h hy

theorem Covers.insert_mono {θ : String → Ty} {env env' : TypeEnv} (h : Covers θ env env')
    (hθ : ∀ v, (θ v).Mono) {τ : Ty} (hτ : τ.Mono) (x : String) :
    Covers θ (env.insert x τ) (env'.insert x (τ.bind θ)) := by
  refine h.insert (fun ρ hρ => ?_) x
  rw [Ty.hasInstance_iff_of_mono hτ] at hρ
  rw [Ty.hasInstance_iff_of_mono (hτ.bind hθ), Ty.bind_var]
  exact hρ

open Classical in
/-- Generalising after a replacement that renames the generalised variables apart
    loses no instance. -/
theorem Ty.Generalizes.hasInstance_rename {fixed fixed' : NameSet} {τ σ σ' ρ : Ty}
    {θ : String → Ty} {β : String → String} (h : Generalizes fixed τ σ) (hτ : τ.Mono)
    (hθ : ∀ v, (θ v).Mono) (hβ : Function.Injective β) (hfixed : ∀ v, β v ∉ fixed')
    (hrange : ∀ v, ∀ u ∈ τ.freeVars, β v ∉ (θ u).freeVars)
    (h' : Generalizes fixed' (τ.bind fun v => if v ∈ fixed then θ v else .var (β v)) σ')
    (hρ : σ.HasInstance θ ρ) : σ'.HasInstance .var ρ := by
  obtain ⟨hmono, χ, hχ, rfl⟩ := (h.hasInstance_iff hτ).mp hρ
  have hτ' : (τ.bind fun v => if v ∈ fixed then θ v else .var (β v)).Mono := by
    refine hτ.bind fun v => ?_
    split
    · exact hθ v
    · exact trivial
  -- `ψ` undoes the renaming and then moves the variables as `χ` does
  let ψ (u : String) : Ty := if hu : ∃ v, β v = u then χ hu.choose else .var u
  have hψβ : ∀ v, ψ (β v) = χ v := by
    intro v
    have hu : ∃ w, β w = β v := ⟨v, rfl⟩
    simp only [ψ, dif_pos hu, hβ hu.choose_spec]
  refine (h'.hasInstance_iff hτ').mpr ⟨hmono, ψ, ?_, ?_⟩
  · intro u _ hu
    refine dif_neg ?_
    rintro ⟨v, rfl⟩
    exact hfixed v hu
  · rw [Ty.bind_bind hτ]
    refine Ty.bind_congr fun v hv => ?_
    by_cases hvf : v ∈ fixed
    · rw [if_pos hvf, hχ v hv hvf]
      refine Ty.bind_eq_self fun u hu => dif_neg ?_
      rintro ⟨w, rfl⟩
      exact hrange w v hv hu
    · rw [if_neg hvf]
      exact hψβ v

end MiniML
