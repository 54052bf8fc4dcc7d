import Mathlib

/-!
# A memory of the most recent entries

A bounded memory keeps the newest entries of a log.  An entry that comes again
moves to the end, so the memory has no entry twice for it, and what is beyond
the bound is forgotten from the old end.

What a memory is good for: it still has each of the last `n` entries of the log,
when `n` is its bound (`Remembers.remember`).
-/

namespace Library

universe u

variable {α : Type u} [DecidableEq α]

/-- The memory after new entries. -/
def remember (bound : Nat) (memory entries : List α) : List α :=
  (memory.filter (fun x => x ∉ entries) ++ entries).rtake bound

/-- The memory has what the last entries of the log have, in the same reach. -/
def Remembers (bound : Nat) (memory log : List α) : Prop :=
  ∀ n ≤ bound, ∀ x ∈ log.rtake n, x ∈ memory.rtake n

omit [DecidableEq α] in
theorem rtake_append_of_le {l m : List α} {n : Nat} (h : n ≤ m.length) :
    (l ++ m).rtake n = m.rtake n := by
  rw [List.rtake, List.rtake, List.length_append, List.drop_append,
    List.drop_eq_nil_of_le (by omega), List.nil_append]
  congr 1
  omega

omit [DecidableEq α] in
theorem rtake_append_of_ge {l m : List α} {n : Nat} (h : m.length ≤ n) :
    (l ++ m).rtake n = l.rtake (n - m.length) ++ m := by
  rw [List.rtake, List.rtake, List.length_append, List.drop_append]
  have hdrop : l.length + m.length - n - l.length = 0 := by omega
  have hsame : l.length + m.length - n = l.length - (n - m.length) := by omega
  rw [hdrop, hsame, List.drop_zero]

omit [DecidableEq α] in
theorem rtake_rtake {l : List α} {n k : Nat} (h : n ≤ k) : (l.rtake k).rtake n = l.rtake n := by
  rw [List.rtake, List.rtake, List.rtake, List.drop_drop, List.length_drop]
  congr 1
  omega

omit [DecidableEq α] in
/-- What is filtered out brings the rest no further from the end. -/
theorem mem_rtake_filter {l : List α} {p : α → Bool} {n : Nat} {x : α} (hx : x ∈ l.rtake n)
    (hp : p x = true) : x ∈ (l.filter p).rtake n := by
  have hsplit : l.filter p = (l.take (l.length - n)).filter p ++ (l.rtake n).filter p := by
    rw [List.rtake, ← List.filter_append, List.take_append_drop]
  have hlength : ((l.rtake n).filter p).length ≤ n := by
    refine (List.length_filter_le _ _).trans ?_
    rw [List.rtake, List.length_drop]
    omega
  rw [hsplit, rtake_append_of_ge hlength]
  exact List.mem_append_right _ (List.mem_filter.mpr ⟨hx, hp⟩)

omit [DecidableEq α] in
theorem remembers_nil {bound : Nat} {memory : List α} : Remembers bound memory [] := by
  intro n _ x hx
  simp [List.rtake] at hx

/-- New entries go into the memory and into the log. -/
theorem Remembers.remember {bound : Nat} {memory log entries : List α}
    (h : Remembers bound memory log) :
    Remembers bound (remember bound memory entries) (log ++ entries) := by
  intro n hn x hx
  rw [Library.remember, rtake_rtake hn]
  by_cases hshort : n ≤ entries.length
  · rw [rtake_append_of_le hshort] at hx ⊢
    exact hx
  · have hlong : entries.length ≤ n := by omega
    rw [rtake_append_of_ge hlong] at hx ⊢
    rcases List.mem_append.mp hx with hx | hx
    · by_cases hagain : x ∈ entries
      · exact List.mem_append_right _ hagain
      · refine List.mem_append_left _ (mem_rtake_filter ?_ (by simpa using hagain))
        exact h _ (by omega) x hx
    · exact List.mem_append_right _ hx

end Library
