import Mathlib

/-!
# Directories that are renamed

A few directories under names, each empty or with something in it.  Renaming is
the atomic step: a directory moves to a name that is free, or over an empty
directory, and onto nothing else.  A name that is taken by a full directory is a
fence: nothing moves there as long as it stands.
-/

namespace Library

universe u v

/-- What stands under a name. -/
inductive Directory (χ : Type v) where
  | empty
  | full (content : χ)
deriving DecidableEq

/-- The directories by name. -/
abbrev Directories (ν : Type u) (χ : Type v) := ν → Option (Directory χ)

/-- Why a rename is refused. -/
inductive RenameError where
  /-- There is nothing to move. -/
  | missing
  /-- A full directory is in the way. -/
  | occupied
deriving DecidableEq

namespace Directories

variable {ν : Type u} {χ : Type v} [DecidableEq ν] {d d' : Directories ν χ} {source target name : ν}

/-- A full directory stands under the name. -/
def Taken (d : Directories ν χ) (name : ν) : Prop := ∃ c, d name = some (.full c)

/-- Move a directory. -/
def rename (d : Directories ν χ) (source target : ν) : Except RenameError (Directories ν χ) :=
  match d source with
  | none => .error .missing
  | some x =>
      match d target with
      | some (.full _) => .error .occupied
      | _ => .ok (Function.update (Function.update d source none) target (some x))

/-- Put a directory under a name. -/
def publish (d : Directories ν χ) (name : ν) (x : Directory χ) : Directories ν χ :=
  Function.update d name (some x)

/-- Take a directory away. -/
def remove (d : Directories ν χ) (name : ν) : Directories ν χ := Function.update d name none

/-- A rename moves what stood under the one name to the other, and nothing full
was there. -/
theorem rename_eq_ok (h : d.rename source target = .ok d') :
    ∃ x, d source = some x ∧ ¬d.Taken target ∧
      d' = Function.update (Function.update d source none) target (some x) := by
  rw [rename] at h
  split at h
  next => cases h
  next x hx =>
    split at h
    next => cases h
    next hfree =>
      cases h
      exact ⟨x, hx, fun ⟨c, hc⟩ => hfree c hc, rfl⟩

/-- Where a directory was moved from, nothing is left. -/
theorem rename_source (h : d.rename source target = .ok d') (hne : source ≠ target) :
    d' source = none := by
  obtain ⟨x, -, -, rfl⟩ := rename_eq_ok h
  rw [Function.update_of_ne hne, Function.update_self]

theorem rename_target (h : d.rename source target = .ok d') : d' target = d source := by
  obtain ⟨x, hx, -, rfl⟩ := rename_eq_ok h
  rw [Function.update_self, hx]

/-- Other names keep what they have. -/
theorem rename_other (h : d.rename source target = .ok d') (hsource : name ≠ source)
    (htarget : name ≠ target) : d' name = d name := by
  obtain ⟨x, -, -, rfl⟩ := rename_eq_ok h
  rw [Function.update_of_ne htarget, Function.update_of_ne hsource]

/-- A fence stays where it is, unless it is itself moved. -/
theorem Taken.rename {name : ν} (hname : d.Taken name) (h : d.rename source target = .ok d')
    (hsource : name ≠ source) : d'.Taken name := by
  by_cases htarget : name = target
  · subst htarget
    obtain ⟨x, -, hfree, -⟩ := rename_eq_ok h
    exact absurd hname hfree
  · obtain ⟨c, hc⟩ := hname
    exact ⟨c, (rename_other h hsource htarget).trans hc⟩

/-- What was full is a fence where it was moved to. -/
theorem taken_target {c : χ} (h : d.rename source target = .ok d')
    (hsource : d source = some (.full c)) : d'.Taken target :=
  ⟨c, (rename_target h).trans hsource⟩

/-- A rename is refused only when there is nothing to move or a fence stands. -/
theorem rename_eq_error {e : RenameError} (h : d.rename source target = .error e) :
    d source = none ∨ d.Taken target := by
  rw [rename] at h
  split at h
  next hnone => exact Or.inl hnone
  next =>
    split at h
    next c hc => exact Or.inr ⟨c, hc⟩
    next => cases h

theorem rename_of_free {x : Directory χ} (hsource : d source = some x)
    (htarget : ¬d.Taken target) : ∃ d', d.rename source target = .ok d' := by
  cases h : d.rename source target with
  | ok d' => exact ⟨d', rfl⟩
  | error e =>
      rcases rename_eq_error h with hnone | htaken
      · rw [hsource] at hnone
        cases hnone
      · exact absurd htaken htarget

@[simp] theorem publish_self {x : Directory χ} : d.publish name x name = some x :=
  Function.update_self ..

theorem publish_other {x : Directory χ} {other : ν} (h : other ≠ name) :
    d.publish name x other = d other := Function.update_of_ne h ..

@[simp] theorem remove_self : d.remove name name = none := Function.update_self ..

theorem remove_other {other : ν} (h : other ≠ name) : d.remove name other = d other :=
  Function.update_of_ne h ..

/-- A fence stays when something else is taken away. -/
theorem Taken.remove {other : ν} (hother : d.Taken other) (h : other ≠ name) :
    (d.remove name).Taken other := by
  obtain ⟨c, hc⟩ := hother
  exact ⟨c, (remove_other h).trans hc⟩

end Directories

end Library
