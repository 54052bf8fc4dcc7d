import Mathlib

/-!
# First occurrences

`eraseDups` keeps the first of every value.  Whether it is done to the parts of a
list before it is done to the whole makes no difference.
-/

namespace Library

universe u

variable {α : Type u} [BEq α] [LawfulBEq α]

theorem eraseDups_filter (p : α → Bool) (l : List α) :
    (l.filter p).eraseDups = l.eraseDups.filter p := by
  induction hn : l.length using Nat.strong_induction_on generalizing l with
  | _ n ih =>
      cases l with
      | nil => rfl
      | cons a l =>
          have hrest := ih (l.filter fun b => !b == a).length
            (by rw [← hn]; exact Nat.lt_succ_of_le (List.length_filter_le _ l)) _ rfl
          rw [List.eraseDups_cons]
          by_cases ha : p a = true
          · rw [List.filter_cons_of_pos ha, List.filter_cons_of_pos ha, List.eraseDups_cons,
              ← hrest, List.filter_comm]
          · rw [List.filter_cons_of_neg ha, List.filter_cons_of_neg ha, ← hrest, List.filter_filter]
            congr 1
            refine List.filter_congr fun b _ => ?_
            by_cases hb : b = a
            · simp [hb, ha]
            · simp [hb]

theorem eraseDups_idem (l : List α) : l.eraseDups.eraseDups = l.eraseDups := by
  induction hn : l.length using Nat.strong_induction_on generalizing l with
  | _ n ih =>
      cases l with
      | nil => rfl
      | cons a l =>
          have hrest := ih (l.filter fun b => !b == a).length
            (by rw [← hn]; exact Nat.lt_succ_of_le (List.length_filter_le _ l)) _ rfl
          rw [List.eraseDups_cons, List.eraseDups_cons, eraseDups_filter, hrest,
            ← eraseDups_filter, List.filter_filter]
          simp only [Bool.and_self]

theorem eraseDups_append_eraseDups (l m : List α) :
    (l.eraseDups ++ m.eraseDups).eraseDups = (l ++ m).eraseDups := by
  have hmem : ∀ b, l.eraseDups.elem b = l.elem b := by
    intro b
    rw [Bool.eq_iff_iff, List.elem_iff, List.elem_iff, List.mem_eraseDups]
  rw [List.eraseDups_append, List.eraseDups_append, eraseDups_idem, List.removeAll, List.removeAll,
    eraseDups_filter, eraseDups_filter, eraseDups_idem]
  simp only [hmem]

end Library
