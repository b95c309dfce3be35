/-
  MiniML/Ty/Subst.lean
  ====================
  **Substitutions** — finite maps from type variables to types, as unification
  builds them.  Applying one is *transitive*: with `T0 ↦ [T1]` and `T1 ↦ Int` the
  variable `T0` becomes `[Int]`.  While a variable is being resolved it counts as
  unbound, so a cyclic substitution has a result as well: the variable that is
  met again stays in place.

  That rule is also why application ends.  Resolving a variable removes its
  binding, every other step goes to a smaller type, so the pair of the number of
  bindings and the size of the type decreases lexicographically.
-/
import MiniML.Ty.Basic

namespace MiniML

/-- A finite map from type variables to types. -/
abbrev Subst := Std.ExtTreeMap String Ty

theorem size_erase_lt_of_getElem? {α : Type} {s : Std.ExtTreeMap String α} {x : String} {a : α}
    (h : s[x]? = some a) : (s.erase x).size < s.size := by
  have hx : x ∈ s := by simp [Std.ExtTreeMap.mem_iff_isSome_getElem?, h]
  have hpos : s.size ≠ 0 := fun h0 =>
    Std.ExtTreeMap.ne_empty_of_mem hx (Std.ExtTreeMap.eq_empty_iff_size_eq_zero.mpr h0)
  rw [Std.ExtTreeMap.size_erase, if_pos (Std.ExtTreeMap.mem_iff_contains.mp hx)]
  omega

namespace Subst

/-- Resolves the bound variables of a type, and those of what they stand for.  A
    quantifier shadows its variable; a variable that is met again while it is
    being resolved stays in place. -/
def apply (s : Subst) : Ty → Ty
  | .var x =>
    match _h : s[x]? with
    -- `x` counts as unbound as long as it is being resolved
    | some t => apply (s.erase x) t
    | none => .var x
  | .arrow a b => .arrow (apply s a) (apply s b)
  | .int => .int
  | .list e => .list (apply s e)
  | .unit => .unit
  | .ref c => .ref (apply s c)
  | .all v b => .all v (apply (s.erase v) b)
termination_by t => (s.size, sizeOf t)
decreasing_by
  · exact Prod.Lex.left _ _ (size_erase_lt_of_getElem? _h)
  · exact Prod.Lex.right _ (by rw [Ty.arrow.sizeOf_spec]; omega)
  · exact Prod.Lex.right _ (by rw [Ty.arrow.sizeOf_spec]; omega)
  · exact Prod.Lex.right _ (by rw [Ty.list.sizeOf_spec]; omega)
  · exact Prod.Lex.right _ (by rw [Ty.ref.sizeOf_spec]; omega)
  · rcases Nat.lt_or_eq_of_le (Std.ExtTreeMap.size_erase_le (t := s) (k := v)) with h | h
    · exact Prod.Lex.left _ _ h
    · rw [h]
      exact Prod.Lex.right _ (by rw [Ty.all.sizeOf_spec]; omega)

/-- The substitution that stands for `s` followed by `later`: `later` is
    applied to what `s` binds, and the bindings of `later` for other names are added. -/
def compose (s later : Subst) : Subst :=
  -- for a name that both bind, the binding of `s` is the one that stays
  later ∪ s.map fun _ t => apply later t

/-- A name bound by `s` is bound by the composition to its type under `later`, any
    other name to what `later` binds it to. -/
theorem getElem?_compose (s later : Subst) (x : String) :
    (s.compose later)[x]? = (s[x]?.map (apply later)).or later[x]? := by
  simp [compose, Std.ExtTreeMap.getElem?_union, Std.ExtTreeMap.getElem?_map]

end Subst

end MiniML
