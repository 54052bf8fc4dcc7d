import AgentsCanCommunicate.Library.InsertionMap

/-!
# Gathering by key

The items of a list are folded into one value for each key, in a map that lists
the keys as they first came.  An item without a key is passed over.  The first
item of a key makes the value that the items are added to, itself among them.

So what a key holds is told by its own items, in their order, and by nothing
else of the list.
-/

namespace Library

universe u v w

variable {α : Type u} {κ : Type v} {β : Type w} {key : α → Option κ} {fresh : α → β}
  {add : β → α → β}

/-- What the items of one key come to. -/
def gathered (fresh : α → β) (add : β → α → β) : List α → Option β
  | [] => none
  | a :: as => some ((a :: as).foldl add (fresh a))

theorem gathered_concat (as : List α) (a : α) :
    gathered fresh add (as ++ [a]) = some (add ((gathered fresh add as).getD (fresh a)) a) := by
  cases as with
  | nil => rfl
  | cons b bs =>
      rw [List.cons_append, gathered, gathered, ← List.cons_append, List.foldl_append]
      rfl

theorem gathered_eq_none {as : List α} : gathered fresh add as = none ↔ as = [] := by
  cases as with
  | nil => exact ⟨fun _ => rfl, fun _ => rfl⟩
  | cons a as => exact ⟨nofun, nofun⟩

variable [DecidableEq κ]

/-- One item, added under its key. -/
def gatherOne (key : α → Option κ) (fresh : α → β) (add : β → α → β) (m : InsertionMap κ β)
    (a : α) : InsertionMap κ β :=
  match key a with
  | none => m
  | some k => m.set k (add ((m.get k).getD (fresh a)) a)

def gather (key : α → Option κ) (fresh : α → β) (add : β → α → β) (as : List α) :
    InsertionMap κ β :=
  as.foldl (gatherOne key fresh add) .empty

theorem gather_concat (as : List α) (a : α) :
    gather key fresh add (as ++ [a]) = gatherOne key fresh add (gather key fresh add as) a :=
  List.foldl_concat ..

/-- A key holds what its items come to. -/
theorem gather_get (as : List α) (k : κ) :
    (gather key fresh add as).get k = gathered fresh add (as.filter (key · = some k)) := by
  induction as using List.reverseRecOn with
  | nil => rfl
  | append_singleton as a ih =>
      rw [gather_concat, gatherOne, List.filter_append]
      cases hkey : key a with
      | none =>
          rw [List.filter_singleton, hkey]
          simpa using ih
      | some k' =>
          by_cases hk : k' = k
          · subst hk
            rw [List.filter_singleton, hkey, decide_eq_true rfl, cond_true, gathered_concat, ← ih]
            exact InsertionMap.get_set_self ..
          · have hne : ¬ some k' = some k := fun h => hk (Option.some.inj h)
            rw [List.filter_singleton, hkey, decide_eq_false hne, cond_false, List.append_nil, ← ih]
            exact InsertionMap.get_set_of_ne _ (Ne.symm hk) _

theorem mem_gather_keys {as : List α} {k : κ} :
    k ∈ (gather key fresh add as).keys ↔ ∃ a ∈ as, key a = some k := by
  rw [InsertionMap.mem_keys, gather_get, Option.isSome_iff_ne_none, Ne, gathered_eq_none,
    List.filter_eq_nil_iff]
  simp

/-- The keys do not depend on the order of the items, but for their own order. -/
theorem gather_keys_perm {as bs : List α} (h : as.Perm bs) :
    (gather key fresh add as).keys.Perm (gather key fresh add bs).keys := by
  refine (List.perm_ext_iff_of_nodup (InsertionMap.nodup _) (InsertionMap.nodup _)).mpr fun k => ?_
  rw [mem_gather_keys, mem_gather_keys]
  simp only [h.mem_iff]

end Library
