import Mathlib

/-!
# Visiting the keys of a list

Every entry of a list changes the value at its own key, one entry after the other.
When no key stands in the list twice, what a key holds at the end is what its only
entry made of what it held at the beginning.
-/

namespace Library

universe u v w

variable {ι : Type u} {α : Type v} {β : Type w} [DecidableEq ι]

/-- Every entry changes the value at its key. -/
def visit (key : α → ι) (f : α → β → β) (s : ι → β) (entries : List α) : ι → β :=
  entries.foldl (fun s a => Function.update s (key a) (f a (s (key a)))) s

variable {key : α → ι} {f : α → β → β} {s : ι → β} {entries : List α} {a : α} {i : ι}

@[simp] theorem visit_nil : visit key f s [] = s := rfl

theorem visit_cons : visit key f s (a :: entries)
    = visit key f (Function.update s (key a) (f a (s (key a)))) entries := rfl

/-- A key that no entry has keeps its value. -/
theorem visit_of_notMem (h : i ∉ entries.map key) : visit key f s entries i = s i := by
  induction entries generalizing s with
  | nil => rfl
  | cons a entries ih =>
      rw [List.map_cons, List.mem_cons, not_or] at h
      rw [visit_cons, ih h.2, Function.update_of_ne h.1]

/-- The only entry of a key decides its value. -/
theorem visit_of_mem (hnodup : (entries.map key).Nodup) (ha : a ∈ entries) :
    visit key f s entries (key a) = f a (s (key a)) := by
  induction entries generalizing s with
  | nil => cases ha
  | cons b entries ih =>
      rw [List.map_cons, List.nodup_cons] at hnodup
      rw [visit_cons]
      obtain rfl | hmem := List.mem_cons.mp ha
      · rw [visit_of_notMem hnodup.1, Function.update_self]
      · have hne : key a ≠ key b := fun h => hnodup.1 (h ▸ List.mem_map_of_mem hmem)
        rw [ih hnodup.2 hmem, Function.update_of_ne hne]

/-- What every entry keeps of the value at its key, all of them keep. -/
theorem visit_induction {P : ι → β → Prop} (h : ∀ i, P i (s i))
    (hstep : ∀ a ∈ entries, ∀ x, P (key a) x → P (key a) (f a x)) (i : ι) :
    P i (visit key f s entries i) := by
  induction entries generalizing s with
  | nil => exact h i
  | cons a entries ih =>
      rw [visit_cons]
      refine ih (fun j => ?_) fun b hb => hstep b (List.mem_cons_of_mem a hb)
      by_cases hj : j = key a
      · subst hj
        rw [Function.update_self]
        exact hstep a (List.mem_cons_self ..) _ (h _)
      · rw [Function.update_of_ne hj]
        exact h j

end Library
