import AgentsCanCommunicate.Library.Table

/-!
# Records filed under their own key

A *keyed table* is a table of records that each carry the key they are filed
under.  That a record stands at its own key is a field, so a keyed table is
nothing but a set of records with at most one for each key, and it is used as
one: `r ∈ t` says that the record is filed, and the laws of `put`, `remove` and
`filter` are about membership.
-/

namespace Library

universe u v

/-- A table whose records are filed under the key they carry. -/
structure Keyed {κ : Type u} {α : Type v} [LinearOrder κ] (key : α → κ) where
  /-- The files. -/
  table : Table κ α
  /-- Every record stands at its own key. -/
  filed : ∀ k r, table.get? k = some r → key r = k

namespace Keyed

variable {κ : Type u} {α : Type v} [LinearOrder κ] {key : α → κ}

instance [DecidableEq α] : DecidableEq (Keyed key) := fun t u =>
  decidable_of_iff (t.table = u.table) ⟨fun h => by cases t; cases u; cases h; rfl, fun h => h ▸ rfl⟩

/-! ## Operations -/

/-- The table with nothing in it. -/
def empty : Keyed key := ⟨Table.empty, fun k r h => by rw [Table.get?_empty] at h; cases h⟩

/-- Read one key. -/
def get? (t : Keyed key) (k : κ) : Option α := t.table.get? k

/-- The records, in key order. -/
def list (t : Keyed key) : List α := t.table.values

/-- File a record, over the one that has its key. -/
def put (t : Keyed key) (r : α) : Keyed key where
  table := t.table.insert (key r) r
  filed k r' h := by
    rw [Table.get?_insert] at h
    split at h
    next hk =>
      cases h
      exact hk
    next => exact t.filed k r' h

/-- Take one key away. -/
def remove (t : Keyed key) (k : κ) : Keyed key where
  table := t.table.erase k
  filed k' r h := by
    rw [Table.get?_erase] at h
    split at h
    next => cases h
    next => exact t.filed k' r h

/-- Keep the records a test accepts. -/
def filter (t : Keyed key) (p : α → Bool) : Keyed key where
  table := t.table.filter fun e => p e.2
  filed k r h := t.filed k r (Table.get?_filter_eq_some.mp h).1

instance : Membership α (Keyed key) := ⟨fun t r => t.get? (key r) = some r⟩

/-! ## Membership -/

theorem mem_def {t : Keyed key} {r : α} : r ∈ t ↔ t.get? (key r) = some r := Iff.rfl

instance [DecidableEq α] (t : Keyed key) (r : α) : Decidable (r ∈ t) :=
  inferInstanceAs (Decidable (t.get? (key r) = some r))

theorem get?_eq_some {t : Keyed key} {k : κ} {r : α} : t.get? k = some r ↔ r ∈ t ∧ key r = k := by
  constructor
  · intro h
    have hk := t.filed k r h
    exact ⟨by rw [mem_def, hk, h], hk⟩
  · intro ⟨h, hk⟩
    rw [← hk]
    exact h

theorem key_of_get? {t : Keyed key} {k : κ} {r : α} (h : t.get? k = some r) : key r = k :=
  t.filed k r h

theorem mem_of_get? {t : Keyed key} {k : κ} {r : α} (h : t.get? k = some r) : r ∈ t :=
  (get?_eq_some.mp h).1

theorem get?_eq_none {t : Keyed key} {k : κ} : t.get? k = none ↔ ∀ r ∈ t, key r ≠ k := by
  constructor
  · intro h r hr hk
    rw [mem_def, hk, h] at hr
    cases hr
  · intro h
    cases hk : t.get? k with
    | none => rfl
    | some r => exact absurd (key_of_get? hk) (h r (mem_of_get? hk))

/-- A key names one record. -/
theorem eq_of_key {t : Keyed key} {r r' : α} (h : r ∈ t) (h' : r' ∈ t) (hk : key r = key r') :
    r = r' := by
  rw [mem_def, hk, mem_def.mp h'] at h
  cases h
  rfl

@[simp] theorem mem_list {t : Keyed key} {r : α} : r ∈ t.list ↔ r ∈ t := by
  rw [list, Table.mem_values, mem_def]
  constructor
  · intro ⟨k, h⟩
    rw [get?, t.filed k r h, h]
  · intro h
    exact ⟨key r, h⟩

@[simp] theorem mem_empty {r : α} : ¬r ∈ (empty : Keyed key) := by
  intro h
  cases h

theorem get?_put {t : Keyed key} {r : α} {k : κ} :
    (t.put r).get? k = if key r = k then some r else t.get? k := Table.get?_insert _ _ _ _

@[simp] theorem get?_put_self {t : Keyed key} {r : α} : (t.put r).get? (key r) = some r := by
  rw [get?_put, if_pos rfl]

theorem get?_put_ne {t : Keyed key} {r : α} {k : κ} (h : key r ≠ k) :
    (t.put r).get? k = t.get? k := by
  rw [get?_put, if_neg h]

@[simp] theorem mem_put {t : Keyed key} {r r' : α} :
    r' ∈ t.put r ↔ r' = r ∨ (r' ∈ t ∧ key r' ≠ key r) := by
  rw [mem_def, get?_put]
  split
  next hk =>
    constructor
    · intro h
      cases h
      exact Or.inl rfl
    · rintro (rfl | ⟨-, hne⟩)
      · rfl
      · exact absurd hk.symm hne
  next hk =>
    constructor
    · intro h
      exact Or.inr ⟨h, fun he => hk he.symm⟩
    · rintro (rfl | ⟨h, -⟩)
      · exact absurd rfl hk
      · exact h

theorem get?_remove {t : Keyed key} {k k' : κ} :
    (t.remove k).get? k' = if k' = k then none else t.get? k' := Table.get?_erase _ _ _

/-- What stands under a key after a record was filed. -/
theorem get?_put_eq_some {t : Keyed key} {r c : α} {k : κ} (h : (t.put r).get? k = some c) :
    (key r = k ∧ c = r) ∨ (key r ≠ k ∧ t.get? k = some c) := by
  rw [get?_put] at h
  split at h
  next hk =>
    cases h
    exact Or.inl ⟨hk, rfl⟩
  next hk => exact Or.inr ⟨hk, h⟩

theorem get?_put_ne_none {t : Keyed key} {r : α} {k : κ} (h : t.get? k ≠ none) :
    (t.put r).get? k ≠ none := by
  rw [get?_put]
  split
  · exact Option.some_ne_none r
  · exact h

theorem isSome_get?_put {t : Keyed key} {r : α} {k : κ} (h : (t.get? k).isSome = true) :
    ((t.put r).get? k).isSome = true :=
  Option.isSome_iff_ne_none.mpr (get?_put_ne_none (Option.isSome_iff_ne_none.mp h))

theorem get?_remove_eq_some {t : Keyed key} {c : α} {k k' : κ}
    (h : (t.remove k').get? k = some c) : k ≠ k' ∧ t.get? k = some c := by
  rw [get?_remove] at h
  split at h
  next => cases h
  next hne => exact ⟨hne, h⟩

@[simp] theorem mem_remove {t : Keyed key} {k : κ} {r : α} :
    r ∈ t.remove k ↔ r ∈ t ∧ key r ≠ k := by
  rw [mem_def, get?_remove]
  split
  next hk => simp [hk]
  next hk => simp [hk, mem_def]

@[simp] theorem mem_filter {t : Keyed key} {p : α → Bool} {r : α} :
    r ∈ t.filter p ↔ r ∈ t ∧ p r = true := Table.get?_filter_eq_some

/-- A keyed table is its set of records. -/
theorem ext_mem {t u : Keyed key} (h : ∀ r, r ∈ t ↔ r ∈ u) : t = u := by
  have htable : t.table = u.table := by
    refine Table.ext_get? fun k => ?_
    refine Option.ext fun r => ?_
    have ht : t.table.get? k = some r ↔ r ∈ t ∧ key r = k := get?_eq_some
    have hu : u.table.get? k = some r ↔ r ∈ u ∧ key r = k := get?_eq_some
    rw [ht, hu, h r]
  cases t
  cases u
  cases htable
  rfl

/-- The records are listed in the order of their keys. -/
theorem list_sorted (t : Keyed key) : t.list.Pairwise fun r r' => key r < key r' := by
  have hkeys : t.list.map key = t.table.keys := by
    rw [list, Table.values, Table.keys, List.map_map]
    refine List.map_congr_left fun e he => ?_
    exact t.filed e.1 e.2 (Table.mem_entries.mp he)
  rw [← List.pairwise_map, hkeys]
  exact t.table.keys_pairwise

/-- No key is listed twice. -/
theorem keys_nodup (t : Keyed key) : (t.list.map key).Nodup :=
  List.pairwise_map.mpr (t.list_sorted.imp ne_of_lt)

theorem list_nodup (t : Keyed key) : t.list.Nodup := t.keys_nodup.of_map

/-- The first listed record with a key is the one filed under it. -/
theorem find?_list [DecidableEq κ] {t : Keyed key} {k : κ} {p : α → Bool} :
    (t.list.find? fun r => decide (key r = k) && p r) = (t.get? k).filter p := by
  refine Option.ext fun r => ?_
  rw [Option.filter_eq_some_iff]
  constructor
  · intro h
    have hmem := mem_list.mp (List.mem_of_find?_eq_some h)
    have hp := List.find?_some h
    simp only [Bool.and_eq_true, decide_eq_true_eq] at hp
    exact ⟨get?_eq_some.mpr ⟨hmem, hp.1⟩, hp.2⟩
  · intro hfacts
    obtain ⟨hget, hp⟩ := hfacts
    obtain ⟨hmem, hk⟩ := get?_eq_some.mp hget
    cases hfind : t.list.find? fun r => decide (key r = k) && p r with
    | none =>
        have hnone := List.find?_eq_none.mp hfind r (mem_list.mpr hmem)
        simp [hk, hp] at hnone
    | some r' =>
        have hmem' := mem_list.mp (List.mem_of_find?_eq_some hfind)
        have hp' := List.find?_some hfind
        simp only [Bool.and_eq_true, decide_eq_true_eq] at hp'
        rw [eq_of_key hmem' hmem (hp'.1.trans hk.symm)]

/-! ## Lists of removals -/

/-- Take keys away in order. -/
def removeAll (t : Keyed key) (ks : List κ) : Keyed key := ks.foldl remove t

@[simp] theorem mem_removeAll {ks : List κ} {r : α} :
    ∀ {t : Keyed key}, r ∈ t.removeAll ks ↔ r ∈ t ∧ key r ∉ ks := by
  induction ks with
  | nil => simp [removeAll]
  | cons k ks ih =>
      intro t
      have hcons : t.removeAll (k :: ks) = (t.remove k).removeAll ks := rfl
      rw [hcons, ih, mem_remove, List.mem_cons, not_or, and_assoc]

/-! ## Lists of records -/

/-- File records in order. -/
def putAll (t : Keyed key) (rs : List α) : Keyed key := rs.foldl put t

@[simp] theorem putAll_nil {t : Keyed key} : t.putAll [] = t := rfl

@[simp] theorem putAll_cons {t : Keyed key} {r : α} {rs : List α} :
    t.putAll (r :: rs) = (t.put r).putAll rs := rfl

/-- A record that is filed afterwards was written, or stood at a key that none
of those written has. -/
theorem mem_putAll {rs : List α} {r : α} :
    ∀ {t : Keyed key}, r ∈ t.putAll rs → r ∈ rs ∨ (r ∈ t ∧ key r ∉ rs.map key) := by
  induction rs with
  | nil =>
      intro t h
      exact Or.inr ⟨h, by simp⟩
  | cons r₀ rs ih =>
      intro t h
      rcases ih h with h | ⟨h, hkey⟩
      · exact Or.inl (List.mem_cons_of_mem _ h)
      · rcases mem_put.mp h with rfl | ⟨h, hne⟩
        · exact Or.inl (List.mem_cons_self ..)
        · exact Or.inr ⟨h, by simpa [hne] using hkey⟩

/-- What stands at a key that none of the records written has stays. -/
theorem mem_putAll_of_mem {rs : List α} {r : α} :
    ∀ {t : Keyed key}, r ∈ t → key r ∉ rs.map key → r ∈ t.putAll rs := by
  induction rs with
  | nil =>
      intro t h _
      exact h
  | cons r₀ rs ih =>
      intro t h hkey
      simp only [List.map_cons, List.mem_cons, not_or] at hkey
      exact ih (mem_put.mpr (Or.inr ⟨h, hkey.1⟩)) hkey.2

/-- A key that has a record, or is written, has a record afterwards. -/
theorem exists_mem_putAll {rs : List α} {k : κ} :
    ∀ {t : Keyed key}, ((∃ r ∈ t, key r = k) ∨ ∃ r ∈ rs, key r = k) →
      ∃ r ∈ t.putAll rs, key r = k := by
  induction rs with
  | nil =>
      rintro t (h | ⟨r, hr, -⟩)
      · exact h
      · cases hr
  | cons r₀ rs ih =>
      intro t h
      refine ih ?_
      by_cases hk : key r₀ = k
      · exact Or.inl ⟨r₀, mem_put.mpr (Or.inl rfl), hk⟩
      · rcases h with ⟨r, hr, hrk⟩ | ⟨r, hr, hrk⟩
        · refine Or.inl ⟨r, mem_put.mpr (Or.inr ⟨hr, ?_⟩), hrk⟩
          rw [hrk]
          exact Ne.symm hk
        · rcases List.mem_cons.mp hr with rfl | hr
          · exact absurd hrk hk
          · exact Or.inr ⟨r, hr, hrk⟩

end Keyed

end Library
