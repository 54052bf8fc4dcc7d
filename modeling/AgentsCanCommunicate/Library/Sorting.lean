import Mathlib

/-!
# Sorting by a key

A stable sort by a key of a linear order.  Items that their keys tell apart are
sorted to one list, in whatever order they came.
-/

namespace Library

universe u v

variable {α : Type u} {κ : Type v} [LinearOrder κ] (key : α → κ)

theorem pairwise_mergeSort_key (as : List α) :
    (as.mergeSort fun a b => decide (key a ≤ key b)).Pairwise fun a b => key a ≤ key b := by
  have hsorted : (as.mergeSort fun a b => decide (key a ≤ key b)).Pairwise
      fun a b => decide (key a ≤ key b) = true := by
    refine List.pairwise_mergeSort (fun a b c hab hbc => ?_) (fun a b => ?_) as
    · rw [decide_eq_true_eq] at hab hbc ⊢
      exact hab.trans hbc
    · simpa using le_total (key a) (key b)
  exact hsorted.imp of_decide_eq_true

/-- Sorted items with keys of their own are in strict order. -/
theorem pairwise_map_lt {key : α → κ} {as : List α} (h : as.Pairwise fun a b => key a ≤ key b)
    (hnodup : (as.map key).Nodup) : (as.map key).Pairwise (· < ·) := by
  rw [List.pairwise_map]
  exact (h.and (List.pairwise_map.mp hnodup)).imp fun hab => lt_of_le_of_ne hab.1 hab.2

/-- Two lists in strict order that have the same items are one. -/
theorem eq_of_pairwise_lt {key : α → κ} {as bs : List α} (h : (as.map key).Pairwise (· < ·))
    (h' : (bs.map key).Pairwise (· < ·)) (hmem : ∀ a, a ∈ as ↔ a ∈ bs) : as = bs := by
  rw [List.pairwise_map] at h h'
  have hperm : as.Perm bs := (List.perm_ext_iff_of_nodup
    (h.imp fun hlt heq => hlt.ne (congrArg key heq))
    (h'.imp fun hlt heq => hlt.ne (congrArg key heq))).mpr hmem
  exact hperm.eq_of_pairwise (fun _ _ _ _ hab hba => absurd hab hba.asymm) h h'

theorem mergeSort_key_perm {as bs : List α} (h : as.Perm bs)
    (hkey : ∀ a ∈ as, ∀ b ∈ as, key a = key b → a = b) :
    as.mergeSort (fun a b => decide (key a ≤ key b)) =
      bs.mergeSort fun a b => decide (key a ≤ key b) := by
  refine List.Perm.eq_of_pairwise (fun a b ha hb hab hba => ?_) (pairwise_mergeSort_key key as)
    (pairwise_mergeSort_key key bs) ?_
  · have hb' : b ∈ as := h.mem_iff.mpr (List.mem_mergeSort.mp hb)
    exact hkey a (List.mem_mergeSort.mp ha) b hb' (le_antisymm hab hba)
  · exact ((List.mergeSort_perm as _).trans h).trans (List.mergeSort_perm bs _).symm

/-- Sorting an ascending list the other way turns it around. -/
theorem mergeSort_reverse {as : List α} (h : as.Pairwise fun a b => key a < key b) :
    as.mergeSort (fun a b => decide (key b ≤ key a)) = as.reverse := by
  have hnodup : (as.map key).Nodup := List.pairwise_map.mpr (h.imp fun hlt => hlt.ne)
  have hsame : as.mergeSort (fun a b => decide (key b ≤ key a)) =
      as.reverse.mergeSort fun a b => decide (key b ≤ key a) :=
    mergeSort_key_perm (fun a => OrderDual.toDual (key a)) (List.reverse_perm as).symm
      fun _ ha _ hb heq => List.inj_on_of_nodup_map hnodup ha hb heq
  rw [hsame]
  refine List.mergeSort_of_pairwise (List.pairwise_reverse.mpr (h.imp fun hlt => ?_))
  exact decide_eq_true hlt.le

end Library
