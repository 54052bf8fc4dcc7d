import AgentsCanCommunicate.Library.Visits

/-!
# Maps in insertion order

A map that lists its keys in the order in which they were first set.  Setting a
key that is there keeps its place, and a key that is deleted and set again comes
last.

What a map holds is told by `get`, and its order by `keys`.  The two are changed
apart, so that a statement about values never mentions the order.
-/

namespace Library

universe u v

@[ext] structure InsertionMap (κ : Type u) (ν : Type v) where
  keys : List κ
  get : κ → Option ν
  nodup : keys.Nodup
  mem_keys : ∀ k, k ∈ keys ↔ (get k).isSome = true

namespace InsertionMap

variable {κ : Type u} {ν : Type v}

def empty : InsertionMap κ ν := ⟨[], fun _ => none, List.nodup_nil, fun _ => by simp⟩

/-- `map.has(k)`. -/
def has (m : InsertionMap κ ν) (k : κ) : Bool := (m.get k).isSome

theorem has_iff {m : InsertionMap κ ν} {k : κ} : m.has k = true ↔ k ∈ m.keys :=
  (m.mem_keys k).symm

theorem has_eq_false {m : InsertionMap κ ν} {k : κ} : m.has k = false ↔ k ∉ m.keys := by
  rw [← has_iff, Bool.not_eq_true]

theorem get_eq_none {m : InsertionMap κ ν} {k : κ} : m.get k = none ↔ k ∉ m.keys := by
  rw [m.mem_keys, Option.not_isSome_iff_eq_none]

/-- The keys with their values, in order. -/
def entries (m : InsertionMap κ ν) : List (κ × ν) :=
  m.keys.filterMap fun k => (m.get k).map fun v => (k, v)

section

variable [DecidableEq κ]

/-- `map.set(k, v)`. -/
def set (m : InsertionMap κ ν) (k : κ) (v : ν) : InsertionMap κ ν where
  keys := if k ∈ m.keys then m.keys else m.keys ++ [k]
  get := Function.update m.get k (some v)
  nodup := by
    split
    · exact m.nodup
    next hk => exact List.concat_eq_append ▸ m.nodup.concat hk
  mem_keys k' := by
    by_cases hk : k' = k
    · subst hk
      rw [Function.update_self]
      split
      next hmem => simp [hmem]
      next => simp
    · rw [Function.update_of_ne hk, ← m.mem_keys]
      split
      · exact Iff.rfl
      · simp [hk]

/-- `map.delete(k)`. -/
def delete (m : InsertionMap κ ν) (k : κ) : InsertionMap κ ν where
  keys := m.keys.erase k
  get := Function.update m.get k none
  nodup := m.nodup.erase k
  mem_keys k' := by
    rw [m.nodup.mem_erase_iff, m.mem_keys]
    by_cases hk : k' = k
    · simp [hk]
    · rw [Function.update_of_ne hk, and_iff_right hk]

/-- The map of a list of entries, the last of each key. -/
def setAll (m : InsertionMap κ ν) (es : List (κ × ν)) : InsertionMap κ ν :=
  es.foldl (fun m e => m.set e.1 e.2) m

theorem keys_set (m : InsertionMap κ ν) (k : κ) (v : ν) :
    (m.set k v).keys = if k ∈ m.keys then m.keys else m.keys ++ [k] := rfl

theorem keys_set_of_mem {m : InsertionMap κ ν} {k : κ} (h : k ∈ m.keys) (v : ν) :
    (m.set k v).keys = m.keys := if_pos h

theorem keys_set_of_notMem {m : InsertionMap κ ν} {k : κ} (h : k ∉ m.keys) (v : ν) :
    (m.set k v).keys = m.keys ++ [k] := if_neg h

theorem mem_keys_set {m : InsertionMap κ ν} {k k' : κ} {v : ν} :
    k' ∈ (m.set k v).keys ↔ k' = k ∨ k' ∈ m.keys := by
  rw [keys_set]
  split
  next hmem => exact ⟨.inr, fun h => h.elim (fun heq => heq ▸ hmem) id⟩
  next => rw [List.mem_append, List.mem_singleton, or_comm]

@[simp] theorem get_set_self (m : InsertionMap κ ν) (k : κ) (v : ν) :
    (m.set k v).get k = some v := Function.update_self ..

theorem get_set_of_ne (m : InsertionMap κ ν) {k k' : κ} (h : k' ≠ k) (v : ν) :
    (m.set k v).get k' = m.get k' := Function.update_of_ne h ..

@[simp] theorem get_delete_self (m : InsertionMap κ ν) (k : κ) : (m.delete k).get k = none :=
  Function.update_self ..

theorem get_delete_of_ne (m : InsertionMap κ ν) {k k' : κ} (h : k' ≠ k) :
    (m.delete k).get k' = m.get k' := Function.update_of_ne h ..

/-- Setting a key to what it holds changes nothing. -/
theorem set_eq_self {m : InsertionMap κ ν} {k : κ} {v : ν} (h : m.get k = some v) :
    m.set k v = m := by
  have hmem : k ∈ m.keys := (m.mem_keys k).mpr (by rw [h]; rfl)
  refine InsertionMap.ext (keys_set_of_mem hmem v) ?_
  exact Function.update_eq_self_iff.mpr h.symm

theorem keys_delete (m : InsertionMap κ ν) (k : κ) :
    (m.delete k).keys = m.keys.filter (· ≠ k) := by
  refine (m.nodup.erase_eq_filter k).trans (List.filter_congr fun k' _ => ?_)
  by_cases hk : k' = k <;> simp [hk]

theorem mem_keys_delete {m : InsertionMap κ ν} {k k' : κ} :
    k' ∈ (m.delete k).keys ↔ k' ≠ k ∧ k' ∈ m.keys := m.nodup.mem_erase_iff

/-! ## Some keys left out -/

/-- The map without some keys. -/
def without (m : InsertionMap κ ν) (ks : List κ) : InsertionMap κ ν where
  keys := m.keys.filter (· ∉ ks)
  get k := if k ∈ ks then none else m.get k
  nodup := m.nodup.filter _
  mem_keys k := by
    rw [List.mem_filter, m.mem_keys]
    split <;> simp_all

theorem get_without (m : InsertionMap κ ν) (ks : List κ) (k : κ) :
    (m.without ks).get k = if k ∈ ks then none else m.get k := rfl

@[simp] theorem without_nil (m : InsertionMap κ ν) : m.without [] = m := by
  refine InsertionMap.ext ?_ (funext fun k => ?_)
  · exact List.filter_eq_self.mpr fun k _ => by simp
  · rw [get_without, if_neg List.not_mem_nil]

theorem without_congr (m : InsertionMap κ ν) {ks ks' : List κ}
    (h : ∀ k ∈ m.keys, k ∈ ks ↔ k ∈ ks') : m.without ks = m.without ks' := by
  refine InsertionMap.ext ?_ (funext fun k => ?_)
  · exact List.filter_congr fun k hk => by simp [h k hk]
  · rw [get_without, get_without]
    by_cases hk : k ∈ m.keys
    · simp only [h k hk]
    · rw [get_eq_none.mpr hk, ite_self, ite_self]

/-- Leaving out one key is deleting it. -/
theorem without_delete (m : InsertionMap κ ν) (k : κ) (ks : List κ) :
    (m.delete k).without ks = m.without (k :: ks) := by
  refine InsertionMap.ext ?_ (funext fun k' => ?_)
  · change ((m.delete k).keys).filter _ = m.keys.filter _
    rw [keys_delete, List.filter_filter]
    refine List.filter_congr fun k' _ => ?_
    simp [Bool.and_comm]
  · simp only [get_without, List.mem_cons]
    by_cases hk : k' = k
    · subst hk
      simp
    · rw [get_delete_of_ne _ hk]
      simp [hk]

theorem delete_without (m : InsertionMap κ ν) (k : κ) (ks : List κ) :
    (m.without ks).delete k = m.without (k :: ks) := by
  refine InsertionMap.ext ?_ (funext fun k' => ?_)
  · rw [keys_delete]
    change (m.keys.filter _).filter _ = m.keys.filter _
    rw [List.filter_filter]
    refine List.filter_congr fun k' _ => ?_
    simp
  · simp only [get_without, List.mem_cons]
    by_cases hk : k' = k
    · subst hk
      simp
    · rw [get_delete_of_ne _ hk, get_without]
      simp [hk]

/-- A key that is left out may be set. -/
theorem without_set_of_mem (m : InsertionMap κ ν) {k : κ} {ks : List κ} (h : k ∈ ks) (v : ν) :
    (m.set k v).without ks = m.without ks := by
  refine InsertionMap.ext ?_ (funext fun k' => ?_)
  · change ((m.set k v).keys).filter _ = m.keys.filter _
    rw [keys_set]
    split
    · rfl
    · rw [List.filter_append, List.filter_cons_of_neg (by simpa using h), List.filter_nil,
        List.append_nil]
  · rw [get_without, get_without]
    split
    · rfl
    next hk => rw [get_set_of_ne _ fun heq : k' = k => hk (heq ▸ h)]

theorem without_set_of_notMem (m : InsertionMap κ ν) {k : κ} {ks : List κ} (h : k ∉ ks) (v : ν) :
    (m.set k v).without ks = (m.without ks).set k v := by
  have hmem : k ∈ (m.without ks).keys ↔ k ∈ m.keys := by
    change k ∈ m.keys.filter _ ↔ _
    rw [List.mem_filter]
    simp [h]
  refine InsertionMap.ext ?_ (funext fun k' => ?_)
  · change ((m.set k v).keys).filter _ = _
    rw [keys_set, keys_set]
    simp only [hmem]
    split
    · rfl
    · rw [List.filter_append, List.filter_cons_of_pos (by simpa using h), List.filter_nil]
      rfl
  · rw [get_without]
    by_cases hk : k' = k
    · subst hk
      rw [if_neg h, get_set_self, get_set_self]
    · rw [get_set_of_ne _ hk, get_set_of_ne _ hk, get_without]

/-! ## Many entries -/

theorem setAll_get (m : InsertionMap κ ν) (es : List (κ × ν)) :
    (m.setAll es).get = visit Prod.fst (fun e _ => some e.2) m.get es := by
  induction es generalizing m with
  | nil => rfl
  | cons e es ih =>
      rw [visit_cons]
      exact ih (m.set e.1 e.2)

/-- What is put under a name that tells it apart from the others is found there. -/
theorem setAll_named {f : ν → κ} {vs : List ν} (hinj : Set.InjOn f {v | v ∈ vs}) (k : κ) (v : ν) :
    (empty.setAll (vs.map fun v => (f v, v))).get k = some v ↔ v ∈ vs ∧ f v = k := by
  induction vs using List.reverseRecOn with
  | nil => exact ⟨nofun, fun h => nomatch h.1⟩
  | append_singleton vs w ih =>
      have hrest := ih (hinj.mono fun v hv => List.mem_append_left _ hv)
      have hstep : empty.setAll ((vs ++ [w]).map fun v => (f v, v)) =
          (empty.setAll (vs.map fun v => (f v, v))).set (f w) w := by
        rw [List.map_append, setAll, List.foldl_append]
        rfl
      rw [hstep, List.mem_append, List.mem_singleton]
      by_cases hk : k = f w
      · subst hk
        rw [get_set_self, Option.some.injEq]
        constructor
        · rintro rfl
          exact ⟨.inr rfl, rfl⟩
        · rintro ⟨hmem, heq⟩
          exact (hinj (List.mem_append.mpr (hmem.imp_right List.mem_singleton.mpr))
            (List.mem_append_right _ (List.mem_singleton_self w)) heq).symm
      · rw [get_set_of_ne _ hk, hrest]
        constructor
        · exact fun h => ⟨.inl h.1, h.2⟩
        · rintro ⟨hmem | rfl, heq⟩
          · exact ⟨hmem, heq⟩
          · exact absurd heq.symm hk

/-- Keys that are there keep their places, and the others follow in order. -/
theorem setAll_keys (m : InsertionMap κ ν) {es : List (κ × ν)} (hnodup : (es.map Prod.fst).Nodup) :
    (m.setAll es).keys = m.keys ++ (es.map Prod.fst).filter (· ∉ m.keys) := by
  induction es generalizing m with
  | nil => exact (List.append_nil _).symm
  | cons e es ih =>
      rw [List.map_cons, List.nodup_cons] at hnodup
      have hrest := ih (m.set e.1 e.2) hnodup.2
      rw [List.map_cons]
      by_cases hmem : e.1 ∈ m.keys
      · rw [keys_set_of_mem hmem] at hrest
        rw [List.filter_cons_of_neg (by simpa using hmem)]
        exact hrest
      · rw [keys_set_of_notMem hmem] at hrest
        rw [List.filter_cons_of_pos (by simpa using hmem)]
        refine hrest.trans ?_
        rw [List.append_assoc, List.singleton_append]
        congr 2
        refine List.filter_congr fun k hk => ?_
        have hne : k ≠ e.1 := fun heq => hnodup.1 (heq ▸ hk)
        simp [hne]

end

theorem entries_keys (m : InsertionMap κ ν) : m.entries.map Prod.fst = m.keys := by
  have hkeys : ∀ ks : List κ, (∀ k ∈ ks, (m.get k).isSome = true) →
      (ks.filterMap fun k => (m.get k).map fun v => (k, v)).map Prod.fst = ks := by
    intro ks
    induction ks with
    | nil => exact fun _ => rfl
    | cons k ks ih =>
        intro hall
        obtain ⟨v, hv⟩ := Option.isSome_iff_exists.mp (hall k (List.mem_cons_self ..))
        have hrest := ih fun k' hk' => hall k' (List.mem_cons_of_mem _ hk')
        rw [List.filterMap_cons, hv, Option.map_some, List.map_cons, hrest]
  exact hkeys m.keys fun k hk => (m.mem_keys k).mp hk

theorem entries_filterMap {β : Type*} (m : InsertionMap κ ν) (f : κ × ν → Option β) :
    m.entries.filterMap f = m.keys.filterMap fun k => (m.get k).bind fun v => f (k, v) := by
  rw [entries, List.filterMap_filterMap]
  refine List.filterMap_congr fun k _ => ?_
  cases m.get k with
  | none => rfl
  | some v => rfl

theorem mem_entries {m : InsertionMap κ ν} {e : κ × ν} : e ∈ m.entries ↔ m.get e.1 = some e.2 := by
  obtain ⟨k, v⟩ := e
  simp only [entries, List.mem_filterMap, Option.map_eq_some_iff, Prod.mk.injEq]
  constructor
  · rintro ⟨k', -, v', hget, rfl, rfl⟩
    exact hget
  · intro hget
    exact ⟨k, (m.mem_keys k).mpr (by rw [hget]; rfl), v, hget, rfl, rfl⟩

end InsertionMap

end Library
