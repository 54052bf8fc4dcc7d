import Mathlib

/-!
# Finite tables in key order

A *table* is a finite map kept as a list of entries with strictly increasing
keys.  The order is a field, so a table that lists a key twice, or out of order,
cannot be built.  A directory of files listed by name is the intended reading:
`entries` is the listing, `get?` reads one file, `insert` writes one in place
and `erase` takes one away.

`Table.ext_get?` says a table is what its keys read as.  The laws of `insert`,
`erase` and `filter` are therefore stated as what `get?` returns afterwards, and
two tables are compared key by key.

The second half is about lists of writes.  `insertAll` applies them in order and
`lastWrite` is the write that wins, so applying a list of writes over any of its
own prefixes is the same as applying it once (`insertAll_take`).  That is the
whole argument for redoing a log of writes after a stop in the middle of it.
-/

namespace Library

universe u v

/-- A finite map, listed by strictly increasing key. -/
structure Table (κ : Type u) (α : Type v) [LinearOrder κ] where
  /-- The listing. -/
  entries : List (κ × α)
  /-- Every key is listed once, in order. -/
  sorted : (entries.map Prod.fst).Pairwise (· < ·)

namespace Table

variable {κ : Type u} {α : Type v} [LinearOrder κ]

instance [DecidableEq α] : DecidableEq (Table κ α) := fun t u =>
  decidable_of_iff (t.entries = u.entries) ⟨fun h => by cases t; cases u; cases h; rfl, fun h => h ▸ rfl⟩

/-! ## Entries -/

/-- The value listed under a key. -/
def lookupEntry (k : κ) : List (κ × α) → Option α
  | [] => none
  | e :: es => if e.1 = k then some e.2 else lookupEntry k es

/-- Write one entry at its place in the listing. -/
def insertEntry (k : κ) (v : α) : List (κ × α) → List (κ × α)
  | [] => [(k, v)]
  | e :: es =>
      if k < e.1 then (k, v) :: e :: es
      else if k = e.1 then (k, v) :: es
      else e :: insertEntry k v es

theorem mem_keys_insertEntry {k k' : κ} {v : α} :
    ∀ {es : List (κ × α)}, k' ∈ (insertEntry k v es).map Prod.fst →
      k' = k ∨ k' ∈ es.map Prod.fst
  | [], h => by simpa [insertEntry] using h
  | e :: es, h => by
      simp only [insertEntry] at h
      split at h
      · simpa using h
      · split at h
        · simp only [List.map_cons, List.mem_cons] at h ⊢
          rcases h with h | h
          · exact Or.inl h
          · exact Or.inr (Or.inr h)
        · simp only [List.map_cons, List.mem_cons] at h ⊢
          rcases h with h | h
          · exact Or.inr (Or.inl h)
          · rcases mem_keys_insertEntry h with h | h
            · exact Or.inl h
            · exact Or.inr (Or.inr h)

theorem insertEntry_sorted {k : κ} {v : α} :
    ∀ {es : List (κ × α)}, (es.map Prod.fst).Pairwise (· < ·) →
      ((insertEntry k v es).map Prod.fst).Pairwise (· < ·)
  | [], _ => by simp [insertEntry]
  | e :: es, h => by
      rw [List.map_cons, List.pairwise_cons] at h
      simp only [insertEntry]
      split
      next hlt =>
        simp only [List.map_cons, List.pairwise_cons, List.mem_cons]
        refine ⟨?_, h.1, h.2⟩
        rintro x (rfl | hx)
        · exact hlt
        · exact hlt.trans (h.1 x hx)
      next hge =>
        split
        next heq =>
          rw [List.map_cons, List.pairwise_cons]
          exact ⟨fun x hx => heq ▸ h.1 x hx, h.2⟩
        next hne =>
          rw [List.map_cons, List.pairwise_cons]
          refine ⟨fun x hx => ?_, insertEntry_sorted h.2⟩
          rcases mem_keys_insertEntry hx with rfl | hx
          · exact lt_of_le_of_ne (not_lt.mp hge) (Ne.symm hne)
          · exact h.1 x hx

theorem lookupEntry_eq_none {k : κ} :
    ∀ {es : List (κ × α)}, k ∉ es.map Prod.fst → lookupEntry k es = none
  | [], _ => rfl
  | e :: es, h => by
      rw [List.map_cons, List.mem_cons, not_or] at h
      rw [lookupEntry, if_neg (Ne.symm h.1)]
      exact lookupEntry_eq_none h.2

theorem lookupEntry_insertEntry {k k' : κ} {v : α} :
    ∀ {es : List (κ × α)},
      lookupEntry k' (insertEntry k v es) = if k = k' then some v else lookupEntry k' es
  | [] => rfl
  | e :: es => by
      simp only [insertEntry]
      split
      next hlt => rfl
      next hge =>
        split
        next heq =>
          simp only [lookupEntry, ← heq]
          split <;> rfl
        next hne =>
          have ih : lookupEntry k' (insertEntry k v es) = if k = k' then some v else lookupEntry k' es :=
            lookupEntry_insertEntry
          simp only [lookupEntry, ih]
          by_cases he : e.1 = k'
          · rw [if_pos he, if_neg (fun hk => hne (hk.trans he.symm)), if_pos he]
          · rw [if_neg he, if_neg he]

theorem mem_iff_lookupEntry {k : κ} {v : α} :
    ∀ {es : List (κ × α)}, (es.map Prod.fst).Pairwise (· < ·) →
      ((k, v) ∈ es ↔ lookupEntry k es = some v)
  | [], _ => by simp [lookupEntry]
  | e :: es, h => by
      rw [List.map_cons, List.pairwise_cons] at h
      rw [List.mem_cons, lookupEntry]
      by_cases he : e.1 = k
      · have hnot : (k, v) ∉ es := fun hm =>
          absurd (h.1 k (List.mem_map_of_mem (f := Prod.fst) hm)) (by rw [he]; exact lt_irrefl k)
        rw [if_pos he, Option.some.injEq]
        constructor
        · rintro (rfl | hm)
          · rfl
          · exact absurd hm hnot
        · rintro rfl
          exact Or.inl (by rw [← he])
      · rw [if_neg he, ← mem_iff_lookupEntry h.2]
        constructor
        · rintro (rfl | hm)
          · exact absurd rfl he
          · exact hm
        · exact Or.inr

theorem lookupEntry_filter {k : κ} (p : κ × α → Bool) :
    ∀ {es : List (κ × α)}, (es.map Prod.fst).Pairwise (· < ·) →
      lookupEntry k (es.filter p) = (lookupEntry k es).filter fun v => p (k, v)
  | [], _ => rfl
  | e :: es, h => by
      rw [List.map_cons, List.pairwise_cons] at h
      have ih := lookupEntry_filter (k := k) p h.2
      rw [List.filter_cons, lookupEntry]
      by_cases he : e.1 = k
      · have hnone : lookupEntry k es = none :=
          lookupEntry_eq_none fun hm => absurd (h.1 k hm) (by rw [he]; exact lt_irrefl k)
        have hek : e = (k, e.2) := by rw [← he]
        rw [if_pos he]
        by_cases hp : p e = true
        · rw [if_pos hp, lookupEntry, if_pos he, Option.filter, if_pos (by rwa [← hek])]
        · rw [if_neg hp, ih, hnone, Option.filter, if_neg (by rwa [← hek])]
          rfl
      · rw [if_neg he]
        split
        · rw [lookupEntry, if_neg he, ih]
        · exact ih

/-! ## Operations -/

/-- The table with nothing in it. -/
def empty : Table κ α := ⟨[], List.Pairwise.nil⟩

/-- Read one key. -/
def get? (t : Table κ α) (k : κ) : Option α := lookupEntry k t.entries

/-- Write one key. -/
def insert (t : Table κ α) (k : κ) (v : α) : Table κ α :=
  ⟨insertEntry k v t.entries, insertEntry_sorted t.sorted⟩

/-- Keep the entries a test accepts. -/
def filter (t : Table κ α) (p : κ × α → Bool) : Table κ α :=
  ⟨t.entries.filter p, List.Pairwise.sublist (List.filter_sublist.map Prod.fst) t.sorted⟩

/-- Take one key away. -/
def erase (t : Table κ α) (k : κ) : Table κ α := t.filter fun e => decide (e.1 ≠ k)

/-- The keys, in order. -/
def keys (t : Table κ α) : List κ := t.entries.map Prod.fst

/-- The values, in key order. -/
def values (t : Table κ α) : List α := t.entries.map Prod.snd

theorem mem_entries {t : Table κ α} {k : κ} {v : α} : (k, v) ∈ t.entries ↔ t.get? k = some v :=
  mem_iff_lookupEntry t.sorted

theorem mem_values {t : Table κ α} {v : α} : v ∈ t.values ↔ ∃ k, t.get? k = some v := by
  simp only [values, List.mem_map, Prod.exists, exists_eq_right, mem_entries]

theorem mem_keys {t : Table κ α} {k : κ} : k ∈ t.keys ↔ ∃ v, t.get? k = some v := by
  simp only [keys, List.mem_map, Prod.exists, exists_and_right, exists_eq_right, mem_entries]

@[simp] theorem get?_empty (k : κ) : (empty : Table κ α).get? k = none := rfl

theorem get?_insert (t : Table κ α) (k : κ) (v : α) (k' : κ) :
    (t.insert k v).get? k' = if k = k' then some v else t.get? k' := lookupEntry_insertEntry

@[simp] theorem get?_insert_self (t : Table κ α) (k : κ) (v : α) :
    (t.insert k v).get? k = some v := by rw [get?_insert, if_pos rfl]

theorem get?_insert_ne (t : Table κ α) {k k' : κ} (v : α) (h : k ≠ k') :
    (t.insert k v).get? k' = t.get? k' := by rw [get?_insert, if_neg h]

theorem get?_filter (t : Table κ α) (p : κ × α → Bool) (k : κ) :
    (t.filter p).get? k = (t.get? k).filter fun v => p (k, v) := lookupEntry_filter p t.sorted

theorem get?_filter_eq_some {t : Table κ α} {p : κ × α → Bool} {k : κ} {v : α} :
    (t.filter p).get? k = some v ↔ t.get? k = some v ∧ p (k, v) = true := by
  rw [get?_filter, Option.filter_eq_some_iff]

theorem get?_erase (t : Table κ α) (k k' : κ) :
    (t.erase k).get? k' = if k' = k then none else t.get? k' := by
  rw [erase, get?_filter]
  by_cases h : k' = k
  · simp [h, Option.filter]
    cases t.get? k <;> rfl
  · rw [if_neg h]
    cases hv : t.get? k' with
    | none => rfl
    | some v => simp [Option.filter, h]

@[simp] theorem get?_erase_self (t : Table κ α) (k : κ) : (t.erase k).get? k = none := by
  rw [get?_erase, if_pos rfl]

theorem get?_erase_ne (t : Table κ α) {k k' : κ} (h : k' ≠ k) :
    (t.erase k).get? k' = t.get? k' := by rw [get?_erase, if_neg h]

/-- A table is what its keys read as. -/
theorem ext_get? {t u : Table κ α} (h : ∀ k, t.get? k = u.get? k) : t = u := by
  have hmem : ∀ e, e ∈ t.entries ↔ e ∈ u.entries := by
    rintro ⟨k, v⟩
    rw [mem_entries, mem_entries, h k]
  have hlt : ∀ w : Table κ α, w.entries.Pairwise fun a b => a.1 < b.1 := fun w =>
    List.pairwise_map.mp w.sorted
  have hnd : ∀ w : Table κ α, w.entries.Nodup := fun w =>
    (hlt w).imp fun hab heq => absurd hab (by rw [heq]; exact lt_irrefl _)
  have hperm : t.entries.Perm u.entries := (List.perm_ext_iff_of_nodup (hnd t) (hnd u)).mpr hmem
  have heq : t.entries = u.entries :=
    hperm.eq_of_pairwise (fun a b _ _ hab hba => absurd (hab.trans hba) (lt_irrefl _))
      (hlt t) (hlt u)
  cases t
  cases u
  cases heq
  rfl

theorem insert_get?_self {t : Table κ α} {k : κ} {v : α} (h : t.get? k = some v) :
    t.insert k v = t := by
  refine ext_get? fun k' => ?_
  rw [get?_insert]
  split
  next hk => rw [← hk, h]
  next => rfl

theorem keys_pairwise (t : Table κ α) : t.keys.Pairwise (· < ·) := t.sorted

/-- Taking away the first key leaves the others. -/
theorem keys_erase_head {t : Table κ α} {k : κ} {ks : List κ} (h : t.keys = k :: ks) :
    (t.erase k).keys = ks := by
  have hlt : ∀ k' ∈ ks, k < k' := (List.pairwise_cons.mp (h ▸ t.keys_pairwise)).1
  have hmap : ∀ es : List (κ × α), (es.filter fun e => decide (e.1 ≠ k)).map Prod.fst =
      (es.map Prod.fst).filter fun k' => decide (k' ≠ k) := fun es => by
    rw [List.filter_map]
    rfl
  calc (t.erase k).keys = t.keys.filter fun k' => decide (k' ≠ k) := hmap t.entries
    _ = ks.filter fun k' => decide (k' ≠ k) := by rw [h, List.filter_cons_of_neg (by simp)]
    _ = ks := List.filter_eq_self.mpr fun k' hk' => decide_eq_true (ne_of_gt (hlt k' hk'))

/-! ## The last key -/

/-- The entry of the greatest key. -/
def last? (t : Table κ α) : Option (κ × α) := t.entries.getLast?

theorem last?_eq_none {t : Table κ α} (h : t.last? = none) (k : κ) : t.get? k = none := by
  rw [last?, List.getLast?_eq_none_iff] at h
  rw [get?, h]
  rfl

/-- The last key is listed, and no key listed is greater. -/
theorem last?_eq_some {t : Table κ α} {e : κ × α} (h : t.last? = some e) :
    t.get? e.1 = some e.2 ∧ ∀ k v, t.get? k = some v → k ≤ e.1 := by
  obtain ⟨es, hes⟩ := List.getLast?_eq_some_iff.mp h
  refine ⟨mem_entries.mp (by simp [hes]), fun k v hk => ?_⟩
  have hs := t.sorted
  rw [hes, List.map_append, List.pairwise_append] at hs
  have hm : (k, v) ∈ es ++ [e] := hes ▸ mem_entries.mpr hk
  rcases List.mem_append.mp hm with hm | hm
  · exact le_of_lt (hs.2.2 k (List.mem_map_of_mem (f := Prod.fst) hm) e.1 (by simp))
  · rw [List.mem_singleton] at hm
    rw [← hm]

theorem insertEntry_last {k : κ} {v : α} :
    ∀ {es : List (κ × α)}, (∀ e ∈ es, e.1 < k) → insertEntry k v es = es ++ [(k, v)]
  | [], _ => rfl
  | e :: es, h => by
      have hlt : e.1 < k := h e (List.mem_cons_self ..)
      rw [insertEntry, if_neg (not_lt_of_gt hlt), if_neg (ne_of_gt hlt),
        insertEntry_last fun e' he' => h e' (List.mem_cons_of_mem _ he'), List.cons_append]

/-- A key past the last is listed last. -/
theorem values_insert_last {t : Table κ α} {k : κ} (v : α) (h : ∀ e ∈ t.entries, e.1 < k) :
    (t.insert k v).values = t.values ++ [v] := by
  have hentries : (t.insert k v).entries = t.entries ++ [(k, v)] := insertEntry_last h
  rw [values, hentries, List.map_append, values]
  rfl

/-! ## Lists of writes -/

/-- Apply writes in order. -/
def insertAll (t : Table κ α) (ws : List (κ × α)) : Table κ α :=
  ws.foldl (fun t w => t.insert w.1 w.2) t

/-- The write that wins at a key: the last one in the list. -/
def lastWrite (ws : List (κ × α)) (k : κ) : Option α := lookupEntry k ws.reverse

@[simp] theorem insertAll_nil (t : Table κ α) : t.insertAll [] = t := rfl

@[simp] theorem insertAll_cons (t : Table κ α) (w : κ × α) (ws : List (κ × α)) :
    t.insertAll (w :: ws) = (t.insert w.1 w.2).insertAll ws := rfl

theorem insertAll_append (t : Table κ α) (ws vs : List (κ × α)) :
    t.insertAll (ws ++ vs) = (t.insertAll ws).insertAll vs := List.foldl_append

theorem lookupEntry_append (k : κ) :
    ∀ es fs : List (κ × α), lookupEntry k (es ++ fs) = (lookupEntry k es).or (lookupEntry k fs)
  | [], _ => rfl
  | e :: es, fs => by
      simp only [List.cons_append, lookupEntry]
      split
      · rfl
      · exact lookupEntry_append k es fs

theorem lastWrite_cons (w : κ × α) (ws : List (κ × α)) (k : κ) :
    lastWrite (w :: ws) k = (lastWrite ws k).or (if w.1 = k then some w.2 else none) := by
  rw [lastWrite, List.reverse_cons, lookupEntry_append]
  rfl

theorem lastWrite_append (ws vs : List (κ × α)) (k : κ) :
    lastWrite (ws ++ vs) k = (lastWrite vs k).or (lastWrite ws k) := by
  rw [lastWrite, List.reverse_append, lookupEntry_append]
  rfl

theorem lastWrite_eq_none {ws : List (κ × α)} {k : κ} (h : k ∉ ws.map Prod.fst) :
    lastWrite ws k = none :=
  lookupEntry_eq_none (by rwa [List.map_reverse, List.mem_reverse])

theorem lookupEntry_isSome {k : κ} :
    ∀ {es : List (κ × α)}, k ∈ es.map Prod.fst → lookupEntry k es ≠ none
  | e :: es, h => by
      rw [lookupEntry]
      split
      · exact Option.some_ne_none _
      next hne =>
        rw [List.map_cons, List.mem_cons] at h
        exact lookupEntry_isSome (h.resolve_left (Ne.symm hne))

/-- Nothing wins at a key exactly when nothing is written there. -/
theorem lastWrite_eq_none_iff {ws : List (κ × α)} {k : κ} :
    lastWrite ws k = none ↔ k ∉ ws.map Prod.fst := by
  refine ⟨fun h hk => ?_, lastWrite_eq_none⟩
  exact lookupEntry_isSome (by rwa [List.map_reverse, List.mem_reverse]) h

theorem mem_of_lookupEntry {k : κ} {v : α} :
    ∀ {es : List (κ × α)}, lookupEntry k es = some v → (k, v) ∈ es
  | e :: es, h => by
      rw [lookupEntry] at h
      split at h
      next he =>
        cases h
        exact List.mem_cons.mpr (Or.inl (by rw [← he]))
      next => exact List.mem_cons_of_mem _ (mem_of_lookupEntry h)

theorem mem_of_lastWrite {ws : List (κ × α)} {k : κ} {v : α} (h : lastWrite ws k = some v) :
    (k, v) ∈ ws := List.mem_reverse.mp (mem_of_lookupEntry h)

/-- After a list of writes a key holds the write that won, or what it held. -/
theorem get?_insertAll (k : κ) :
    ∀ (ws : List (κ × α)) (t : Table κ α),
      (t.insertAll ws).get? k = (lastWrite ws k).or (t.get? k)
  | [], _ => rfl
  | w :: ws, t => by
      rw [insertAll_cons, get?_insertAll k ws, lastWrite_cons, get?_insert, Option.or_assoc]
      congr 1
      split <;> rfl

/-- Writes applied over a table that already holds some of them, at the keys the
list writes, do what they do over any other such table. -/
theorem insertAll_congr {ws : List (κ × α)} {t u : Table κ α}
    (h : ∀ k, k ∉ ws.map Prod.fst → t.get? k = u.get? k) : t.insertAll ws = u.insertAll ws := by
  refine ext_get? fun k => ?_
  rw [get?_insertAll, get?_insertAll]
  cases hw : lastWrite ws k with
  | some v => rfl
  | none =>
      rw [Option.none_or, Option.none_or]
      exact h k (lastWrite_eq_none_iff.mp hw)

/-- A list of writes redone over one of its own prefixes is the list of writes. -/
theorem insertAll_take (t : Table κ α) (ws : List (κ × α)) (n : Nat) :
    (t.insertAll (ws.take n)).insertAll ws = t.insertAll ws := by
  refine insertAll_congr fun k hk => ?_
  have hk' : k ∉ (ws.take n).map Prod.fst := fun hm =>
    hk (((List.take_sublist n ws).map Prod.fst).subset hm)
  rw [get?_insertAll, lastWrite_eq_none hk', Option.none_or]

end Table

end Library
