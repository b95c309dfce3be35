/-
  MiniML/Proofs/Settings/Search.lean
  ==================================
  **Which settings hold in a directory** — those of the nearest settings file above it,
  as long as no repository boundary lies between.

  The directory `i` levels up is `above dir i`.  Level `i` is where the search ends with
  a file (`Nearest`) if it is the first level that holds one and no level below it is a
  boundary; the boundary itself may still hold one.  What decodes a file is arbitrary
  here: what is found depends on which paths exist only.
-/
import Mathlib
import MiniML.Settings.Load

namespace MiniML

/-! ### Settings that can be used -/

/-- Both bounds are positive, and the use of colour has one of the three names. -/
structure Settings.Usable (s : Settings) : Prop where
  maxSteps : 0 < s.maxSteps
  unifyFuel : 0 < s.unifyFuel
  color : s.color.text ∈ ["auto", "always", "never"]

/-- A number that is not negative is positive or stands for the default. -/
theorem orDefault_pos {n default : Int64} (hn : ¬ n < 0) (hdefault : 0 < default) :
    0 < orDefault n default := by
  rw [orDefault]
  split
  · exact hdefault
  · rename_i hne
    have hne' : n.toInt ≠ (0 : Int64).toInt := fun heq => hne (Int64.toInt_inj.mp heq)
    rw [Int64.lt_iff_toInt_lt] at hn ⊢
    omega

theorem ColorMode.text_mem (m : ColorMode) : m.text ∈ ["auto", "always", "never"] := by
  cases m <;> decide

theorem Settings.usable_default : Settings.Usable {} := ⟨by decide, by decide, by decide⟩

/-- Whatever a file declares, its settings can be used or are refused. -/
theorem Declared.usable_settings {d : Declared} {s : Settings} (h : d.settings = .ok s) :
    s.Usable := by
  rw [settings] at h
  split at h
  · cases h
  · rename_i hsteps
    split at h
    · cases h
    · rename_i hfuel
      split at h
      · cases h
      · cases h
        exact ⟨orDefault_pos hsteps (by decide), orDefault_pos hfuel (by decide), ColorMode.text_mem _⟩

namespace Settings

section

variable {decode : SettingsFormat → List Glyph → Option Declared} {tree : FileTree}

theorem usable_loadWith {path : String} {s : Settings} (h : loadWith decode tree path = .ok s) :
    s.Usable := by
  rw [loadWith] at h
  split at h
  · cases h
  · split at h
    · cases h
    · split at h
      · cases h
      · rename_i declared _
        split at h
        · cases h
        · rename_i hd
          cases h
          exact Declared.usable_settings hd

theorem usable_findWith {dir : String} {path : Option String} {s : Settings}
    (h : findWith decode tree dir = .ok (path, s)) : s.Usable := by
  rw [findWith] at h
  split at h
  · cases h
    exact usable_default
  · split at h
    · rename_i hload
      cases h
      exact usable_loadWith hload
    · cases h

end

/-! ### Levels -/

/-- The directory `i` levels above a directory. -/
def above (dir : Path) (i : Nat) : Path := dir.take (dir.length - i)

theorem above_zero (dir : Path) : above dir 0 = dir := List.take_length

theorem above_concat_succ (dir : Path) (name : String) (i : Nat) :
    above (dir ++ [name]) (i + 1) = above dir i := by
  rw [above, above, List.length_append, List.length_singleton, Nat.add_sub_add_right,
    List.take_append_of_le_length (Nat.sub_le _ _)]

variable (tree : FileTree)

/-- A directory holds a settings file. -/
def Holds (dir : Path) : Prop := ∃ name ∈ fileNames, tree.exists? (dir ++ [name]) = true

/-- A directory is the boundary of a repository. -/
def Bounds (dir : Path) : Prop := tree.exists? (dir ++ [".git"]) = true

/-- The file that counts if a directory holds one. -/
def preferred (dir : Path) : Path :=
  dir ++ [if tree.exists? (dir ++ ["plambda.toml"]) then "plambda.toml" else "plambda.yaml"]

/-- Level `i` is the first one that holds a settings file, and no level below it is a
    boundary. -/
structure Nearest (dir : Path) (i : Nat) : Prop where
  level : i ≤ dir.length
  holds : Holds tree (above dir i)
  first : ∀ j < i, ¬ Holds tree (above dir j)
  inside : ∀ j < i, ¬ Bounds tree (above dir j)

instance (dir : Path) : Decidable (Holds tree dir) :=
  inferInstanceAs (Decidable (∃ name ∈ fileNames, tree.exists? (dir ++ [name]) = true))

instance (dir : Path) : Decidable (Bounds tree dir) :=
  inferInstanceAs (Decidable (tree.exists? (dir ++ [".git"]) = true))

instance (dir : Path) (i : Nat) : Decidable (Nearest tree dir i) :=
  decidable_of_iff (i ≤ dir.length ∧ Holds tree (above dir i) ∧
      (∀ j < i, ¬ Holds tree (above dir j)) ∧ ∀ j < i, ¬ Bounds tree (above dir j))
    ⟨fun ⟨hlevel, hholds, hfirst, hinside⟩ => ⟨hlevel, hholds, hfirst, hinside⟩,
      fun h => ⟨h.level, h.holds, h.first, h.inside⟩⟩

variable {tree} {dir : Path} {name : String} {i : Nat}

theorem fileIn?_of_holds (h : Holds tree dir) : fileIn? tree dir = some (preferred tree dir) := by
  rw [fileIn?, preferred]
  cases htoml : tree.exists? (dir ++ ["plambda.toml"]) with
  | true => simp [fileNames, htoml]
  | false =>
    have hyaml : tree.exists? (dir ++ ["plambda.yaml"]) = true := by
      simpa [Holds, fileNames, htoml] using h
    simp [fileNames, htoml, hyaml]

theorem fileIn?_of_not_holds (h : ¬ Holds tree dir) : fileIn? tree dir = none := by
  rw [fileIn?, List.find?_eq_none]
  intro path hpath hexists
  obtain ⟨name, hname, rfl⟩ := List.mem_map.mp hpath
  exact h ⟨name, hname, hexists⟩

theorem nearest_zero (h : Holds tree dir) : Nearest tree dir 0 where
  level := Nat.zero_le _
  holds := by rwa [above_zero]
  first j hj := absurd hj (Nat.not_lt_zero j)
  inside j hj := absurd hj (Nat.not_lt_zero j)

/-- A directory without a file that is no boundary leaves the matter to its parent. -/
theorem nearest_succ_iff (hholds : ¬ Holds tree (dir ++ [name]))
    (hbounds : ¬ Bounds tree (dir ++ [name])) :
    Nearest tree (dir ++ [name]) (i + 1) ↔ Nearest tree dir i := by
  constructor
  · intro h
    refine ⟨by simpa using h.level, ?_, fun j hj => ?_, fun j hj => ?_⟩
    · rw [← above_concat_succ dir name]
      exact h.holds
    · rw [← above_concat_succ dir name]
      exact h.first (j + 1) (Nat.succ_lt_succ hj)
    · rw [← above_concat_succ dir name]
      exact h.inside (j + 1) (Nat.succ_lt_succ hj)
  · intro h
    refine ⟨by simpa using h.level, ?_, fun j hj => ?_, fun j hj => ?_⟩
    · rw [above_concat_succ]
      exact h.holds
    · cases j with
      | zero => rwa [above_zero]
      | succ j =>
        rw [above_concat_succ]
        exact h.first j (Nat.lt_of_succ_lt_succ hj)
    · cases j with
      | zero => rwa [above_zero]
      | succ j =>
        rw [above_concat_succ]
        exact h.inside j (Nat.lt_of_succ_lt_succ hj)

/-! ### The search -/

theorem findFrom_of_holds (h : Holds tree dir) :
    findFrom tree dir.reverse = some (preferred tree dir) := by
  rw [findFrom.eq_def, List.reverse_reverse, fileIn?_of_holds h]

theorem findFrom_of_bounds (hholds : ¬ Holds tree dir) (hbounds : Bounds tree dir) :
    findFrom tree dir.reverse = none := by
  rw [findFrom.eq_def, List.reverse_reverse, fileIn?_of_not_holds hholds]
  exact if_pos hbounds

theorem findFrom_root (hholds : ¬ Holds tree []) : findFrom tree [] = none := by
  rw [findFrom, List.reverse_nil, fileIn?_of_not_holds hholds]
  exact ite_self _

theorem findFrom_concat (hholds : ¬ Holds tree (dir ++ [name]))
    (hbounds : ¬ Bounds tree (dir ++ [name])) :
    findFrom tree (dir ++ [name]).reverse = findFrom tree dir.reverse := by
  rw [List.reverse_concat, findFrom, List.reverse_cons, List.reverse_reverse,
    fileIn?_of_not_holds hholds]
  exact if_neg hbounds

/-- The search ends with the file of the nearest level. -/
theorem Nearest.findFrom_eq (h : Nearest tree dir i) :
    findFrom tree dir.reverse = some (preferred tree (above dir i)) := by
  induction i generalizing dir with
  | zero =>
    have hholds := h.holds
    rw [above_zero] at hholds ⊢
    exact findFrom_of_holds hholds
  | succ i ih =>
    have hholds := h.first 0 (Nat.succ_pos i)
    have hbounds := h.inside 0 (Nat.succ_pos i)
    rw [above_zero] at hholds hbounds
    cases dir using List.reverseRecOn with
    | nil => exact absurd h.level (Nat.not_succ_le_zero i)
    | append_singleton dir name =>
      rw [findFrom_concat hholds hbounds, above_concat_succ]
      exact ih ((nearest_succ_iff hholds hbounds).mp h)

/-- Without such a level it ends with nothing, at a boundary or at the top. -/
theorem findFrom_eq_none (h : ∀ i, ¬ Nearest tree dir i) : findFrom tree dir.reverse = none := by
  induction dir using List.reverseRecOn with
  | nil => exact findFrom_root fun hholds => h 0 (nearest_zero hholds)
  | append_singleton dir name ih =>
    have hholds : ¬ Holds tree (dir ++ [name]) := fun hholds => h 0 (nearest_zero hholds)
    by_cases hbounds : Bounds tree (dir ++ [name])
    · exact findFrom_of_bounds hholds hbounds
    · rw [findFrom_concat hholds hbounds]
      exact ih fun i hi => h (i + 1) ((nearest_succ_iff hholds hbounds).mpr hi)

/-! ### The search as a loop -/

/-- One turn of the search: its answer, or the directory to go on with.  The top is its
    own parent. -/
def turn (tree : FileTree) (dir : Path) : Option Path ⊕ Path :=
  match fileIn? tree dir with
  | some file => .inl (some file)
  | none =>
    if tree.exists? (dir ++ [".git"]) ∨ dir.dropLast = dir then .inl none else .inr dir.dropLast

/-- The answer of the search, if it ends within a number of turns. -/
def within (tree : FileTree) : Nat → Path → Option (Option Path)
  | 0, _ => none
  | turns + 1, dir =>
    match turn tree dir with
    | .inl answer => some answer
    | .inr parent => within tree turns parent

/-- **The search ends**: it takes at most one turn for each level. -/
theorem within_eq (turns : Nat) (h : dir.length < turns) :
    within tree turns dir = some (findFrom tree dir.reverse) := by
  induction turns generalizing dir with
  | zero => exact absurd h (Nat.not_lt_zero _)
  | succ turns ih =>
    rw [within, turn]
    by_cases hholds : Holds tree dir
    · rw [fileIn?_of_holds hholds, findFrom_of_holds hholds]
    · rw [fileIn?_of_not_holds hholds]
      by_cases hbounds : Bounds tree dir
      · have hstop : tree.exists? (dir ++ [".git"]) = true ∨ dir.dropLast = dir := .inl hbounds
        simp only [if_pos hstop, findFrom_of_bounds hholds hbounds]
      · cases dir using List.reverseRecOn with
        | nil =>
          have htop : tree.exists? ([] ++ [".git"]) = true ∨ ([] : Path).dropLast = [] := .inr rfl
          simp only [if_pos htop, List.reverse_nil, findFrom_root hholds]
        | append_singleton dir name =>
          have hparent : (dir ++ [name]).dropLast = dir := List.dropLast_concat
          have hgo : ¬ (tree.exists? (dir ++ [name] ++ [".git"]) = true ∨ dir = dir ++ [name]) :=
            not_or.mpr ⟨hbounds, by simp⟩
          rw [List.length_append, List.length_singleton] at h
          simp only [hparent, if_neg hgo, findFrom_concat hholds hbounds]
          exact ih (Nat.lt_of_succ_lt_succ h)

/-- **The settings of a directory are those of the nearest settings file** that no
    repository boundary cuts off, and an error if that file cannot be used; the defaults
    where there is none.  The search ends after at most one turn for each level.  All
    settings that are loaded or found can be used. -/
theorem find_nearest (decode : SettingsFormat → List Glyph → Option Declared) (tree : FileTree)
    (start : String) :
    let dir := Path.absolute tree.cwd start
    (∀ i, Nearest tree dir i →
      let path := Path.text (preferred tree (above dir i))
      findWith decode tree start = (loadWith decode tree path).map fun s => (some path, s)) ∧
    ((¬ ∃ i, Nearest tree dir i) → findWith decode tree start = .ok (none, {})) ∧
    (∀ turns, dir.length < turns → within tree turns dir = some (findFrom tree dir.reverse)) ∧
    (∀ path s, loadWith decode tree path = .ok s → s.Usable) ∧
    ∀ path s, findWith decode tree start = .ok (path, s) → s.Usable := by
  intro dir
  refine ⟨fun i hi => ?_, fun hnone => ?_, fun turns => within_eq turns,
    fun path s => usable_loadWith, fun path s => usable_findWith⟩
  · intro path
    rw [findWith, hi.findFrom_eq]
    simp only []
    cases loadWith decode tree path <;> rfl
  · rw [findWith, findFrom_eq_none (not_exists.mp hnone)]

/-- A repository with a malformed file in one format and a good one in the other, beside
    a repository without any, below a directory that holds one. -/
theorem find_nearest_repository :
    let tree : FileTree :=
      { cwd := ["repo"]
        files := [(["repo", "plambda.toml"], Glyph.ofString "max_steps"),
          (["repo", "plambda.yaml"], Glyph.ofString "max_steps: 5"),
          (["plambda.toml"], Glyph.ofString "max_steps = 7")]
        directories := [["repo", ".git"], ["repo", "src", "lib"], ["other", ".git"]] }
    Nearest tree ["repo", "src", "lib"] 2 ∧
      find tree "src/lib" = .error (.decode "/repo/plambda.toml") ∧
      (¬ ∃ i, Nearest tree ["other"] i) ∧ find tree "/other" = .ok (none, {}) ∧
      Nearest tree [] 0 ∧ find tree ".." = .ok (some "/plambda.toml", { maxSteps := 7 }) ∧
      within tree 2 ["other"] = some none := by
  intro tree
  have hlib := find_nearest declared? tree "src/lib"
  have hother := find_nearest declared? tree "/other"
  have hroot := find_nearest declared? tree ".."
  have hlevel : Nearest tree ["repo", "src", "lib"] 2 := by decide
  have hnone : ¬ ∃ i, Nearest tree ["other"] i := by
    rintro ⟨i, hi⟩
    have hle : i ≤ 1 := hi.level
    interval_cases i <;> revert hi <;> decide
  have htop : Nearest tree [] 0 := by decide
  have hbad : loadWith declared? tree "/repo/plambda.toml" =
      .error (.decode "/repo/plambda.toml") := by cbv
  have hgood : loadWith declared? tree "/plambda.toml" = .ok { maxSteps := 7 } := by cbv
  refine ⟨hlevel, (hlib.1 2 hlevel).trans ?_, hnone, hother.2.1 hnone, htop,
    (hroot.1 0 htop).trans ?_, hother.2.2.1 2 (by decide)⟩
  · exact congrArg (Except.map _) hbad
  · exact congrArg (Except.map _) hgood

end Settings

end MiniML
