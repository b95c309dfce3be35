/-
  MiniML/Proofs/Typing/Context.lean
  =================================
  **Reused contexts** — a context serves one request after the other.  Its next query
  starts with a reset if there was a query since the last one, so it answers like a new
  context; but what instantiation draws before the first query is not taken back, not
  even by a reset that is asked for.  From then on the query names its type variables
  from a later number, and nothing else about it changes (`reused_answers`).

  Names carry their number as a 64-bit word, and inference sees no more of its supply
  than that (`Infer.modular_typing`).  So a context whose names have gone round all words
  answers like a new one as well.
-/
import Mathlib
import MiniML.Proofs.Typing.Hygiene
import MiniML.Proofs.Typing.Runs
import MiniML.Typing.Context

namespace MiniML

theorem Infer.grows_typing (fuel : Nat) (env : TypeEnv) (t : Term) :
    Grows (typing fuel env t) := by
  intro s
  rcases h : typing fuel env t s with ⟨e | r, s'⟩
  · exact (before_seeds _ s).trans (before_of_infer (run_typing_error h))
  · obtain ⟨τ, hrun, -, -⟩ := run_typing_ok h
    exact (before_seeds _ s).trans (before_of_infer hrun)

/-! ### Words -/

namespace Infer

/-- The computation depends on the stem and the word of its supply only, and so does what
    it leaves of them. -/
def Modular {α : Type} (m : InferM α) : Prop :=
  ∀ ⦃s s' : NameSupply⦄, s.SameWord s' → (m s).1 = (m s').1 ∧ (m s).2.SameWord (m s').2

theorem Modular.runs {α : Type} {m : InferM α} (hm : Modular m) {s s' : NameSupply}
    (h : s.SameWord s') :
    ∃ r s₁ s₁', m s = (r, s₁) ∧ m s' = (r, s₁') ∧ s₁.SameWord s₁' := by
  obtain ⟨hresult, hsupply⟩ := hm h
  exact ⟨(m s).1, (m s).2, (m s').2, rfl, Prod.ext hresult.symm rfl, hsupply⟩

theorem Modular.bind {α β : Type} {m : InferM α} {f : α → InferM β} (hm : Modular m)
    (hf : ∀ a, Modular (f a)) : Modular (m >>= f) := by
  intro s s' h
  obtain ⟨r, s₁, s₁', hrun, hrun', hsupply⟩ := hm.runs h
  rw [run_bind, run_bind, hrun, hrun']
  cases r with
  | error e => exact ⟨rfl, hsupply⟩
  | ok a => exact hf a hsupply

theorem compositional_modular : Compositional Modular where
  pure _ _ _ h := ⟨rfl, h⟩
  throw _ _ _ h := ⟨rfl, h⟩
  bind := Modular.bind
  fresh s s' h := by
    obtain ⟨hname, hsupply⟩ := h.fresh
    exact ⟨by rw [run_fresh, run_fresh, hname], hsupply⟩
  instantiate σ s s' h := by
    obtain ⟨hnames, hsupply⟩ := h.freshMany σ.splitAll.1.length
    exact ⟨by simp only [instantiate, Ty.instantiate, hnames], hsupply⟩

theorem seeds_sameWord (names : List String) {s s' : NameSupply} (h : s.SameWord s') :
    (seeds names s).1 = (seeds names s').1 ∧ (seeds names s).2.SameWord (seeds names s').2 := by
  induction names generalizing s s' with
  | nil => exact ⟨rfl, h⟩
  | cons x names ih =>
    obtain ⟨hname, hsupply⟩ := h.fresh
    obtain ⟨hseeds, hlast⟩ := ih hsupply
    simp only [seeds, hname, hseeds, true_and]
    exact hlast

/-- **A typing sees the word of its supply only.** -/
theorem modular_typing (fuel : Nat) (env : TypeEnv) (t : Term) : Modular (typing fuel env t) := by
  intro s s' h
  obtain ⟨hseeds, hsupply⟩ := seeds_sameWord t.freeVars.toList h
  obtain ⟨r, s₁, s₁', hrun, hrun', hlast⟩ := (compositional_modular.infer fuel t
    ((seeds t.freeVars.toList s).1.merge env)).runs hsupply
  simp only [typing, ExceptT.run, ← hseeds, hrun, hrun']
  cases r with
  | error e => exact ⟨rfl, hlast⟩
  | ok p => exact ⟨rfl, hlast⟩

end Infer

namespace InferContext

/-! ### Queries -/

@[simp] theorem fuel_reset (ctx : InferContext) : ctx.reset.fuel = ctx.fuel := by
  rw [reset]
  split <;> rfl

@[simp] theorem stem_reset (ctx : InferContext) : ctx.reset.supply.stem = ctx.supply.stem := by
  rw [reset]
  split <;> rfl

/-- A query is a typing with the context's budget and the supply that a reset leaves. -/
theorem query_fst (ctx : InferContext) (env : TypeEnv) (t : Term) :
    (ctx.query env t).1 = (Infer.typing (unifyBudget ctx.fuel) env t ctx.reset.supply).1 := by
  simp only [query, ExceptT.run, fuel_reset]
  rcases Infer.typing (unifyBudget ctx.fuel) env t ctx.reset.supply with ⟨e | r, s⟩ <;> rfl

/-- It uses the context, and leaves the budget and the stem. -/
theorem query_snd (ctx : InferContext) (env : TypeEnv) (t : Term) :
    (ctx.query env t).2.used = true ∧ (ctx.query env t).2.fuel = ctx.fuel ∧
      (ctx.query env t).2.supply.stem = ctx.supply.stem := by
  have hgrows := Infer.grows_typing (unifyBudget ctx.fuel) env t ctx.reset.supply
  simp only [query, ExceptT.run, fuel_reset]
  rcases hrun : Infer.typing (unifyBudget ctx.fuel) env t ctx.reset.supply with ⟨e | r, s⟩
  all_goals
    rw [hrun] at hgrows
    exact ⟨rfl, rfl, hgrows.stem.trans ctx.stem_reset⟩

end InferContext

/-- The context draws type variables, and has drawn none unless its next query starts
    with a reset. -/
structure InferContext.Rested (ctx : InferContext) (fuel : Int64) : Prop where
  fuel : ctx.fuel = fuel
  stem : ctx.supply.stem = "T"
  count : ctx.used = false → ctx.supply.count = 0

namespace InferContext

variable {ctx : InferContext} {fuel : Int64}

theorem rested_new (fuel : Int64) : Rested { fuel } fuel := ⟨rfl, rfl, fun _ => rfl⟩

theorem Rested.reset_supply (h : ctx.Rested fuel) : ctx.reset.supply = .forTypes "" 0 := by
  have hstem := h.stem
  have hcount := h.count
  obtain ⟨⟨stem, count⟩, _, _, used⟩ := ctx
  obtain rfl : stem = "T" := hstem
  cases used with
  | false =>
    obtain rfl : count = 0 := hcount rfl
    rfl
  | true => rfl

/-- **A query is answered as by a new context**, and so is the next one. -/
theorem Rested.query (h : ctx.Rested fuel) (env : TypeEnv) (t : Term) :
    (ctx.query env t).1 = inferType (unifyBudget fuel) env t ∧
      (ctx.query env t).2.Rested fuel := by
  obtain ⟨hused, hfuel, hstem⟩ := ctx.query_snd env t
  refine ⟨?_, hfuel.trans h.fuel, hstem.trans h.stem, fun hunused => ?_⟩
  · rw [query_fst, h.reset_supply, h.fuel]
    rfl
  · rw [hused] at hunused
    cases hunused

/-! ### Requests -/

/-- What a context is asked to do. -/
inductive Request where
  | infer (term : Option Term) (env : TypeEnv)
  | instantiate (scheme : Ty)
  | unify (left right : Ty) (subst : Subst)
  | setFuel (fuel : Int64)
  | reset

/-- The context after a request. -/
def serve (ctx : InferContext) : Request → InferContext
  | .infer t env => (ctx.infer t env).2
  | .instantiate σ => (ctx.instantiate σ).2
  | .unify _ _ _ => ctx
  | .setFuel fuel => ctx.setFuel fuel
  | .reset => ctx.reset

/-- A new context after these requests. -/
def serveAll (history : List Request) : InferContext := history.foldl serve {}

/-- What a request makes of the number of names that the next query will not take back;
    there is no such number (`none`) while that query would start with a reset. -/
def Request.keep : Option Nat → Request → Option Nat
  | _, .infer (some _) _ => none
  | some n, .instantiate σ => some (n + σ.splitAll.1.length)
  | none, .reset => some 0
  | kept, _ => kept

/-- The number of names that instantiation has drawn and the next query does not take
    back. -/
def lead (history : List Request) : Nat := (history.foldl Request.keep (some 0)).getD 0

/-- A query takes back what was drawn before it; a reset before the first query does not. -/
example :
    let draw : Request := .instantiate (.all "a" (.var "a"))
    lead [draw, .infer (some .nil) ∅, draw] = 0 ∧
      lead [.infer (some .nil) ∅, .reset, draw, draw] = 2 ∧ lead [draw, .reset] = 1 := by
  decide

/-- The context draws type variables, and was left with so many names that its next query
    keeps, or with none if that query starts with a reset. -/
structure LeftWith (ctx : InferContext) (kept : Option Nat) : Prop where
  stem : ctx.supply.stem = "T"
  used : ctx.used = kept.isNone
  count : ∀ n, kept = some n → ctx.supply.count = n

theorem leftWith_new : LeftWith {} (some 0) :=
  ⟨rfl, rfl, fun _ h => by cases h; rfl⟩

theorem LeftWith.serve {kept : Option Nat} (h : ctx.LeftWith kept) (q : Request) :
    (ctx.serve q).LeftWith (q.keep kept) := by
  cases q with
  | infer t env =>
    cases t with
    | none => cases kept <;> exact h
    | some t =>
      obtain ⟨hused, -, hstem⟩ := ctx.query_snd env t
      exact ⟨hstem.trans h.stem, hused, fun _ hn => nomatch hn⟩
  | instantiate σ =>
    have hs := NameSupply.before_freshMany ctx.supply σ.splitAll.1.length
    have hcount := NameSupply.count_freshMany ctx.supply σ.splitAll.1.length
    cases kept with
    | none => exact ⟨hs.stem.trans h.stem, h.used, fun _ hn => nomatch hn⟩
    | some n =>
      refine ⟨hs.stem.trans h.stem, h.used, fun m hm => hcount.trans ?_⟩
      cases hm
      rw [h.count n rfl, Int.natCast_add]
  | unify | setFuel => cases kept <;> exact ⟨h.stem, h.used, h.count⟩
  | reset =>
    have hused := h.used
    cases kept with
    | none =>
      rw [InferContext.serve, InferContext.reset, if_pos (by simpa using hused)]
      exact ⟨h.stem, rfl, fun _ hn => by cases hn; rfl⟩
    | some n =>
      rw [InferContext.serve, InferContext.reset, if_neg (by simp [hused])]
      exact h

theorem leftWith_serveAll (history : List Request) :
    (serveAll history).LeftWith (history.foldl Request.keep (some 0)) := by
  suffices ∀ (ctx : InferContext) (kept : Option Nat), ctx.LeftWith kept →
      (history.foldl InferContext.serve ctx).LeftWith (history.foldl Request.keep kept) from
    this {} (some 0) leftWith_new
  induction history with
  | nil => exact fun _ _ h => h
  | cons q rest ih => exact fun ctx kept h => ih _ _ (h.serve q)

/-- The next query draws its names from where the requests have left the supply. -/
theorem reset_serveAll (history : List Request) :
    (serveAll history).reset.supply = ⟨"T", lead history⟩ := by
  have h := leftWith_serveAll history
  have hstem := h.stem
  have hused := h.used
  have hcount := h.count
  rw [lead, reset]
  generalize serveAll history = ctx at hstem hused hcount ⊢
  obtain ⟨⟨stem, count⟩, _, _, used⟩ := ctx
  obtain rfl : stem = "T" := hstem
  obtain rfl : used = _ := hused
  cases hkept : history.foldl Request.keep (some 0) with
  | none => rfl
  | some n =>
    obtain rfl : count = n := hcount n hkept
    rfl

/-! ### Answers -/

/-- A new context with this budget, whose names start from this number. -/
def startAt (fuel first : Int64) : InferContext where
  supply := .forTypes "" first
  fuel := fuel

theorem infer_fst (ctx : InferContext) (t : Term) (env : TypeEnv) :
    (ctx.infer (some t) env).1 = (ctx.query env t).1.mapError .typeError := rfl

/-- Contexts that draw their next names with the same word answer alike. -/
theorem infer_congr {ctx ctx' : InferContext} (hfuel : ctx.fuel = ctx'.fuel)
    (hsupply : ctx.reset.supply.SameWord ctx'.reset.supply) (t : Term) (env : TypeEnv) :
    (ctx.infer (some t) env).1 = (ctx'.infer (some t) env).1 := by
  rw [infer_fst, infer_fst, query_fst, query_fst, hfuel,
    (Infer.modular_typing _ env t hsupply).1]

/-- The type of `nil` shows the first name that a query draws. -/
theorem infer_nil (ctx : InferContext) :
    (ctx.infer (some .nil) ∅).1.map Typing.type = .ok (.list (.var ctx.reset.supply.fresh.1)) := by
  have hseeds : Infer.seeds Term.nil.freeVars.toList ctx.reset.supply = (∅, ctx.reset.supply) := rfl
  have hrun : ∀ env : TypeEnv, MiniML.infer (unifyBudget ctx.fuel) env .nil ctx.reset.supply =
      (.ok (.list (.var ctx.reset.supply.fresh.1), ∅), ctx.reset.supply.fresh.2) := fun _ => rfl
  rw [infer_fst, query_fst]
  simp only [Infer.typing, hseeds, ExceptT.run, hrun]
  exact congrArg Except.ok (Subst.apply_eq_self (by simp))

/-- **What a context was used for before shows in the numbers of type variables only.**
    After any requests, a query is answered as by a new context with the same budget whose
    names start from the number that instantiation has left behind (`lead`); so every query
    is answered exactly as by a new context if and only if that number is `0`, or its word
    is. -/
theorem reused_answers (history : List Request) :
    let ctx := serveAll history
    (∀ (t : Term) (env : TypeEnv), (ctx.infer (some t) env).1 =
      ((startAt ctx.fuel (.ofNat (lead history))).infer (some t) env).1) ∧
    ((∀ (t : Term) (env : TypeEnv), (ctx.infer (some t) env).1 =
        (InferContext.infer { fuel := ctx.fuel } (some t) env).1) ↔ 2 ^ 64 ∣ lead history) := by
  intro ctx
  have hsupply : ctx.reset.supply = ⟨"T", lead history⟩ := reset_serveAll history
  refine ⟨fun t env => ?_, fun h => ?_, fun h t env => ?_⟩
  · refine infer_congr ?_ ?_ t env
    · rfl
    rw [hsupply]
    refine ⟨rfl, ?_⟩
    change Int64.ofInt (lead history) = Int64.ofInt (Int64.ofNat (lead history)).toInt
    rw [Int64.ofInt_toInt]
    rfl
  · have hnil := congrArg (Except.map Typing.type) (h .nil ∅)
    rw [infer_nil, infer_nil, hsupply] at hnil
    have hname := Ty.var.inj (Ty.list.inj (Except.ok.inj hnil))
    change (NameSupply.forTypes "" 0).nameAt (lead history) =
      (NameSupply.forTypes "" 0).nameAt 0 at hname
    rw [NameSupply.nameAt_eq_iff] at hname
    omega
  · refine infer_congr ?_ ?_ t env
    · rfl
    rw [hsupply]
    refine ⟨rfl, NameSupply.word_eq_iff.mpr ?_⟩
    change (lead history : Int) % 2 ^ 64 = 0 % 2 ^ 64
    omega

/-- A scheme is instantiated and the context reset.  No query came before, so the reset
    does nothing, and the type of `λx. x` is not what a new context infers. -/
theorem reset_keeps_instantiated :
    let ctx := serveAll [.instantiate (.all "a" (.var "a")), .reset]
    let identity : Term := .abs "x" (.var "x")
    (ctx.infer (some identity) ∅).1.map Typing.type = .ok (.arrow (.var "T1") (.var "T1")) ∧
      (InferContext.infer { fuel := ctx.fuel } (some identity) ∅).1.map Typing.type =
        .ok (.arrow (.var "T0") (.var "T0")) ∧
      (ctx.infer (some identity) ∅).1 ≠
        (InferContext.infer { fuel := ctx.fuel } (some identity) ∅).1 := by
  intro ctx identity
  have hreused : (ctx.infer (some identity) ∅).1.map Typing.type =
      .ok (.arrow (.var "T1") (.var "T1")) := by cbv
  have hnew : (InferContext.infer { fuel := ctx.fuel } (some identity) ∅).1.map Typing.type =
      .ok (.arrow (.var "T0") (.var "T0")) := by cbv
  refine ⟨hreused, hnew, fun heq => ?_⟩
  rw [heq, hnew] at hreused
  exact absurd hreused (by decide)

end InferContext

end MiniML
