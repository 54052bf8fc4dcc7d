import Mathlib

/-!
# Doomed directories

The store never unlinks a live name.  It moves a doomed entry into a directory no
other process knows, and empties that directory within a budget.  A condemned
entry can be a whole directory, which is emptied the same way, so its size is paid
for out of the budget.

`empty_drained_iff` says what the budget buys: a directory goes exactly when every
file and every directory below it is paid for.
-/

namespace Acc.Storage

/-- What a doomed directory holds. -/
inductive Doomed where
  | file
  | folder (entries : List Doomed)

namespace Doomed

/-- What `empty` answers. -/
structure Discarded where
  spent : Nat
  /-- The entries of the directory itself that went. -/
  removed : Nat
  drained : Bool
deriving DecidableEq

mutual

/-- Remove one entry, and say what that took and whether it went. -/
def remove : Doomed → Nat → Nat × Bool
  | .file, _ => (1, true)
  | .folder entries, budget =>
      let inner := empty entries budget
      if inner.drained = false ∨ budget ≤ inner.spent then (inner.spent, false)
      else (inner.spent + 1, true)

/-- Remove one entry after the other, while the budget lasts. -/
def empty : List Doomed → Nat → Discarded
  | [], _ => ⟨0, 0, true⟩
  | entry :: entries, budget =>
      if budget = 0 then ⟨0, 0, false⟩
      else
        let turn := remove entry budget
        if turn.2 then
          let rest := empty entries (budget - turn.1)
          ⟨turn.1 + rest.spent, rest.removed + 1, rest.drained⟩
        else ⟨turn.1, 0, false⟩

end

mutual

/-- The files and directories of an entry, itself among them. -/
def size : Doomed → Nat
  | .file => 1
  | .folder entries => sizes entries + 1

def sizes : List Doomed → Nat
  | [] => 0
  | entry :: entries => size entry + sizes entries

end

mutual

theorem size_pos : ∀ entry : Doomed, 0 < entry.size
  | .file => Nat.one_pos
  | .folder _ => Nat.succ_pos _

/-- An entry goes when all of it is paid for. -/
theorem remove_spec : ∀ (entry : Doomed) (budget : Nat), 0 < budget →
    (remove entry budget).1 ≤ budget ∧
      ((remove entry budget).2 = true ↔ entry.size ≤ budget) ∧
      ((remove entry budget).2 = true → (remove entry budget).1 = entry.size)
  | .file, budget, hpos => by
      rw [remove, size]
      exact ⟨hpos, ⟨fun _ => hpos, fun _ => rfl⟩, fun _ => rfl⟩
  | .folder entries, budget, hpos => by
      obtain ⟨hle, hdrained, hspent⟩ := empty_spec entries budget
      rw [remove, size]
      by_cases hsize : sizes entries + 1 ≤ budget
      · have hd : (empty entries budget).drained = true := hdrained.mpr (by omega)
        have hs := (hspent hd).1
        have hgo : ¬((empty entries budget).drained = false ∨
            budget ≤ (empty entries budget).spent) := by
          rw [hd, hs]
          simp only [Bool.true_eq_false, false_or]
          omega
        simp only [if_neg hgo]
        rw [hs]
        exact ⟨hsize, ⟨fun _ => hsize, fun _ => trivial⟩, fun _ => rfl⟩
      · have hstop : (empty entries budget).drained = false ∨
            budget ≤ (empty entries budget).spent := by
          cases hd : (empty entries budget).drained with
          | false => exact .inl rfl
          | true =>
              rw [(hspent hd).1]
              exact .inr (by omega)
        simp only [if_pos hstop]
        exact ⟨hle, ⟨nofun, fun h => absurd h hsize⟩, nofun⟩

theorem empty_spec : ∀ (entries : List Doomed) (budget : Nat),
    (empty entries budget).spent ≤ budget ∧
      ((empty entries budget).drained = true ↔ sizes entries ≤ budget) ∧
      ((empty entries budget).drained = true → (empty entries budget).spent = sizes entries ∧
        (empty entries budget).removed = entries.length)
  | [], budget => by
      rw [empty, sizes]
      exact ⟨Nat.zero_le _, ⟨fun _ => Nat.zero_le _, fun _ => rfl⟩, fun _ => ⟨rfl, rfl⟩⟩
  | entry :: entries, budget => by
      have hsize := size_pos entry
      rw [empty, sizes]
      by_cases hzero : budget = 0
      · rw [if_pos hzero]
        exact ⟨Nat.zero_le _, ⟨nofun, fun h => by omega⟩, nofun⟩
      · obtain ⟨hle, hgoes, hturn⟩ := remove_spec entry budget (Nat.pos_of_ne_zero hzero)
        obtain ⟨hle', hdrained, hspent⟩ :=
          empty_spec entries (budget - (remove entry budget).1)
        rw [if_neg hzero]
        cases hgo : (remove entry budget).2 with
        | false =>
            have hbig : ¬entry.size ≤ budget := fun h => by
              rw [hgoes.mpr h] at hgo
              cases hgo
            simp only [hgo, Bool.false_eq_true, if_false]
            exact ⟨hle, ⟨nofun, fun h => by omega⟩, nofun⟩
        | true =>
            have hpaid := hturn hgo
            have hfits := hgoes.mp hgo
            rw [hpaid] at hle' hdrained hspent
            simp only [hgo, if_true, hpaid]
            refine ⟨by omega, by rw [hdrained]; omega, fun hd => ?_⟩
            obtain ⟨hs, hr⟩ := hspent hd
            rw [hs, hr, List.length_cons]
            exact ⟨rfl, rfl⟩

end

/-- A directory is emptied exactly when the budget covers everything in it. -/
theorem empty_drained_iff {entries : List Doomed} {budget : Nat} :
    (empty entries budget).drained = true ↔ sizes entries ≤ budget :=
  (empty_spec entries budget).2.1

theorem sizes_replicate (n : Nat) : sizes (List.replicate n .file) = n := by
  induction n with
  | zero => rfl
  | succ n ih =>
      rw [List.replicate_succ, sizes, ih, size]
      omega

/-- Plain files, and a budget for each of them. -/
theorem empty_replicate {n budget : Nat} (h : n ≤ budget) :
    empty (List.replicate n .file) budget = ⟨n, n, true⟩ := by
  have hd : (empty (List.replicate n .file) budget).drained = true :=
    empty_drained_iff.mpr (by rwa [sizes_replicate])
  obtain ⟨hs, hr⟩ := (empty_spec (List.replicate n .file) budget).2.2 hd
  rw [sizes_replicate] at hs
  rw [List.length_replicate] at hr
  cases hresult : empty (List.replicate n .file) budget with
  | mk spent removed drained =>
      rw [hresult] at hs hr hd
      cases hs
      cases hr
      cases hd
      rfl

end Doomed

end Acc.Storage
