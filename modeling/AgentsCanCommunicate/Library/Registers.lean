import Mathlib

/-!
# Registers that are read while they are written

A schedule `acts : ℕ → α` drives a machine `step : σ → α → σ`, and `history` is
the state at each instant.  A finite run is the beginning of one.

Writers leave a log of what they wrote, the newest first.  A register that holds
some of the writings holds the newest of them, which is `log.find? p`.  When no
writing occurs twice in the log, a register that holds the same at two instants
held it at every instant between them (`find?_between`).
-/

namespace Library

universe u v

variable {σ : Type u} {α : Type v}

/-- The state after the first `n` acts of a schedule. -/
def history (step : σ → α → σ) (s : σ) (acts : ℕ → α) : ℕ → σ
  | 0 => s
  | n + 1 => step (history step s acts n) (acts n)

variable {step : σ → α → σ} {s : σ} {acts : ℕ → α}

/-- What a step keeps holds at every instant. -/
theorem history_invariant {I : σ → Prop} (hs : I s) (hstep : ∀ s a, I s → I (step s a)) (n : ℕ) :
    I (history step s acts n) := by
  induction n with
  | zero => exact hs
  | succ n ih => exact hstep _ _ ih

/-- A relation every step respects, that is reflexive and composes, relates an
instant to every later one. -/
theorem history_relate {R : σ → σ → Prop} (hrefl : ∀ s, R s s)
    (htrans : ∀ s t u, R s t → R t u → R s u) (hstep : ∀ s a, R s (step s a)) {m n : ℕ}
    (h : m ≤ n) : R (history step s acts m) (history step s acts n) := by
  induction n, h using Nat.le_induction with
  | base => exact hrefl _
  | succ n _ ih => exact htrans _ _ _ ih (hstep _ _)

/-- What came to be in a register at one instant and is there at a later one was
there at every instant between them. -/
theorem find?_between {β : Type u} {p : β → Bool} {old mid new : List β} (hnew : new.Nodup)
    (hom : old <:+ mid) (hmn : mid <:+ new) (h : new.find? p = old.find? p) :
    mid.find? p = old.find? p := by
  obtain ⟨added, rfl⟩ := hom
  obtain ⟨later, rfl⟩ := hmn
  rw [List.find?_append] at h ⊢
  cases hadded : added.find? p with
  | none => rfl
  | some b =>
      -- The register changed to `b`, so what it holds at the end is not old.
      exfalso
      rw [List.find?_append, hadded, Option.some_or] at h
      have hb : b ∈ added := List.mem_of_find?_eq_some hadded
      obtain ⟨c, hc, hmem⟩ : ∃ c, old.find? p = some c ∧ c ∈ later ++ added := by
        cases hlater : later.find? p with
        | none =>
            rw [hlater, Option.none_or] at h
            exact ⟨b, h.symm, List.mem_append_right _ hb⟩
        | some c =>
            rw [hlater, Option.some_or] at h
            exact ⟨c, h.symm, List.mem_append_left _ (List.mem_of_find?_eq_some hlater)⟩
      have hold : c ∈ old := List.mem_of_find?_eq_some hc
      rw [← List.append_assoc] at hnew
      exact List.disjoint_of_nodup_append hnew hmem hold

end Library
