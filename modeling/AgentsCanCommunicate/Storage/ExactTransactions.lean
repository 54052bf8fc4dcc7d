import AgentsCanCommunicate.Storage.TransactionView

/-!
# Exact and eager transactions

Whatever kinds are exact, and whenever its reads come back, a transaction answers
and leaves what the overlay does.  Two transactions with the same program that
differ in their exact kinds are therefore the same.

The view simulates the overlay.  A record the program has been answered is
loaded, what is loaded is what the store holds, and only such records are staged.
A load that still waits will be answered with the record of the store, and the
overlay has answered it so from the beginning: the program cannot have written the
record in between.
-/

namespace Acc.Storage.Transaction

open Library (InsertionMap visit visit_of_mem visit_of_notMem)

variable {ρ γ ε α : Type}

/-! ## Loads that wait -/

theorem forall₂_getElem? {β δ : Type} {R : β → δ → Prop} {xs : List β} {ys : List δ}
    (h : List.Forall₂ R xs ys) (i : Nat) :
    (xs[i]? = none ∧ ys[i]? = none) ∨ ∃ x y, xs[i]? = some x ∧ ys[i]? = some y ∧ R x y := by
  induction h generalizing i with
  | nil => exact .inl ⟨rfl, rfl⟩
  | cons hxy _ ih =>
      cases i with
      | zero => exact .inr ⟨_, _, rfl, rfl, hxy⟩
      | succ i => exact ih i

/-- A load of the record after its read came back. -/
def Load.settledBy (store : StateRecords ρ γ) (key : Key) : Load ρ γ → Load ρ γ
  | .waiting k read =>
      if k = key then .settled (.ok ((store.get key).map Envelope.record)) else .waiting k read
  | .settled answer => .settled answer

variable {store : StateRecords ρ γ} {staged : InsertionMap Key (Staged ρ γ)} {key : Key}
  {loaded : InsertionMap Key (Option (Envelope ρ γ))} {loads : List (Load ρ γ)}

/-- The loads of a record that nothing waits for stay. -/
theorem settleLoads_of_none (h : ∀ read, .waiting key read ∉ loads) :
    View.settleLoads staged key loaded loads = (loaded, loads) := by
  induction loads with
  | nil => rfl
  | cons first loads ih =>
      have hrest := ih fun read hmem => h read (List.mem_cons_of_mem _ hmem)
      cases first with
      | waiting k read =>
          have hne : k ≠ key := fun heq => h read (heq ▸ List.mem_cons_self ..)
          simp only [View.settleLoads, if_neg hne, hrest]
      | settled answer => simp only [View.settleLoads, hrest]

/-- All the loads that wait for a record get the record of the store. -/
theorem settleLoads_eq (hstaged : staged.get key = none)
    (hreads : ∀ read, .waiting key read ∈ loads → read = .ok (store.get key))
    (hsome : loaded.get key = some (store.get key) ∨ ∃ read, .waiting key read ∈ loads) :
    View.settleLoads staged key loaded loads
      = (loaded.set key (store.get key), loads.map (Load.settledBy store key)) := by
  induction loads generalizing loaded with
  | nil =>
      have hloaded := hsome.resolve_right fun ⟨_, hmem⟩ => nomatch hmem
      rw [InsertionMap.set_eq_self hloaded]
      rfl
  | cons first loads ih =>
      have hrest : ∀ read, .waiting key read ∈ loads → read = .ok (store.get key) :=
        fun read hmem => hreads read (List.mem_cons_of_mem _ hmem)
      have hnow : (loaded.set key (store.get key)).get key = some (store.get key) :=
        InsertionMap.get_set_self ..
      cases first with
      | waiting k read =>
          by_cases hk : k = key
          · subst hk
            rw [hreads read (List.mem_cons_self ..)]
            simp only [View.settleLoads, if_pos, hstaged, hnow, Option.join_some]
            rw [ih hrest (.inl hnow), InsertionMap.set_eq_self hnow]
            simp only [List.map_cons, Load.settledBy, if_pos]
          · have hlater : loaded.get key = some (store.get key)
                ∨ ∃ read, .waiting key read ∈ loads := by
              refine hsome.imp_right fun ⟨read', hmem⟩ => ⟨read', ?_⟩
              rcases List.mem_cons.mp hmem with heq | hmem
              · cases heq
                exact absurd rfl hk
              · exact hmem
            simp only [View.settleLoads, if_neg hk, ih hrest hlater, List.map_cons, Load.settledBy]
      | settled answer =>
          have hlater : loaded.get key = some (store.get key)
              ∨ ∃ read, .waiting key read ∈ loads := by
            refine hsome.imp_right fun ⟨read', hmem⟩ => ⟨read', ?_⟩
            rcases List.mem_cons.mp hmem with heq | hmem
            · cases heq
            · exact hmem
          simp only [View.settleLoads, ih hrest hlater, List.map_cons, Load.settledBy]

/-! ## The simulation -/

/-- The record can be read under the declared kinds. -/
structure Usable (kinds : Option (List String)) (key : Key) : Prop where
  declared : kinds.any (fun wanted => key.1 ∉ wanted) = false
  kind : isPortableId key.1 = true
  id : isPortableId key.2 = true

/-- A load of the view and what the overlay answered it. -/
def Answers (kinds : Option (List String)) (store : StateRecords ρ γ)
    (loaded : InsertionMap Key (Option (Envelope ρ γ))) :
    Load ρ γ → Key × Result (Option ρ) → Prop
  | .waiting key read, entry =>
      entry = (key, .ok ((store.get key).map Envelope.record)) ∧ read = .ok (store.get key)
        ∧ key ∉ loaded.keys ∧ Usable kinds key
  | .settled answer, entry => entry.2 = answer ∧ ∀ r, answer = .ok r → entry.1 ∈ loaded.keys

structure Simulates (kinds : Option (List String)) (exactKinds : List String)
    (store : StateRecords ρ γ) (v : View ρ γ ε) (o : Overlay ρ γ ε) (found : List Key) :
    Prop where
  wanted : v.wanted = kinds
  declared : o.wanted = kinds
  exact : v.exact = exactKinds
  store_eq : v.store = store
  found_loaded : ∀ k ∈ found, k ∈ v.loaded.keys
  staged_found : ∀ k ∈ v.staged.keys, k ∈ found
  loaded_get : ∀ k e, v.loaded.get k = some e → e = store.get k
  usable : ∀ k ∈ v.loaded.keys, Usable kinds k
  eager : ∀ k ∈ store.keys, isEager kinds exactKinds k.1 = true → k ∈ v.loaded.keys
  listed : ∀ kind, isEager kinds exactKinds kind = true →
    (v.loaded.keys.filter fun k => k.1 = kind ∧ k ∈ store.keys)
      = store.keys.filter fun k => k.1 = kind
  order : o.order = store.keys ++ v.staged.keys.filter (· ∉ store.keys)
  current : ∀ k, o.current k = (v.staged.get k).elim (store.get k) Staged.envelope
  loads : List.Forall₂ (Answers kinds store v.loaded) v.loads o.answers
  failed : v.failed = none
  events : v.events = o.events
  issued : v.issued = o.issued

namespace Simulates

variable {kinds : Option (List String)} {exactKinds : List String} {v : View ρ γ ε}
  {o : Overlay ρ γ ε} {found : List Key} {ports : Ports ρ γ ε}

theorem staged_none (h : Simulates kinds exactKinds store v o found) {k : Key}
    (hk : k ∉ v.loaded.keys) : v.staged.get k = none :=
  InsertionMap.get_eq_none.mpr fun hmem => hk (h.found_loaded k (h.staged_found k hmem))

/-- What is loaded reads as the overlay does. -/
theorem entryFor (h : Simulates kinds exactKinds store v o found) {k : Key}
    (hk : k ∈ v.loaded.keys) : v.entryFor k = o.current k := by
  rw [View.entryFor, h.current]
  cases hstaged : v.staged.get k with
  | some entry => rfl
  | none =>
      obtain ⟨e, he⟩ := Option.isSome_iff_exists.mp ((v.loaded.mem_keys k).mp hk)
      rw [he, h.loaded_get k e he]
      rfl

theorem loadedId (h : Simulates kinds exactKinds store v o found) {k : Key}
    (hk : k ∈ v.loaded.keys) : v.loadedId k = .ok () := by
  have hhas := InsertionMap.has_iff.mpr hk
  have hdeclared := (h.usable k hk).declared
  simp only [View.loadedId, View.declared, h.wanted, bind_eq_ok, refuse_eq_ok, hhas]
  exact ⟨(), by simpa using hdeclared, by simp⟩

/-- A record that is not read at the start and may be, is not in the store. -/
theorem eager_of_declared {kind : String}
    (hdeclared : kinds.any (fun wanted => kind ∉ wanted) = false) (hexact : kind ∉ exactKinds) : isEager kinds exactKinds kind = true := by
  cases kinds with
  | none => rfl
  | some wanted => simpa [isEager, hexact] using hdeclared

/-- A record that a load waits for is not loaded, and comes back as the store has
it. -/
theorem settle_of_waiting (h : Simulates kinds exactKinds store v o found) {key : Key}
    {read : Result (Option (Envelope ρ γ))} (hmem : .waiting key read ∈ v.loads) :
    key ∉ v.loaded.keys ∧ Usable kinds key ∧ v.settle key = { v with
      loaded := v.loaded.set key (store.get key)
      loads := v.loads.map (Load.settledBy store key) } := by
  have hread : ∀ read, .waiting key read ∈ v.loads →
      read = .ok (store.get key) ∧ key ∉ v.loaded.keys ∧ Usable kinds key := by
    intro read hmem
    obtain ⟨i, hi⟩ := List.mem_iff_getElem?.mp hmem
    rcases forall₂_getElem? h.loads i with ⟨hnone, -⟩ | ⟨x, y, hx, -, hanswers⟩
    · rw [hi] at hnone
      cases hnone
    · rw [hi] at hx
      cases hx
      exact hanswers.2
  obtain ⟨-, hnot, husable⟩ := hread read hmem
  refine ⟨hnot, husable, ?_⟩
  rw [View.settle, settleLoads_eq (h.staged_none hnot) (fun r hr => (hread r hr).1)
    (.inr ⟨read, hmem⟩)]

/-- A read coming back changes nothing for the overlay. -/
theorem settle (h : Simulates kinds exactKinds store v o found) (key : Key) :
    Simulates kinds exactKinds store (v.settle key) o found := by
  by_cases hwait : ∃ read, .waiting key read ∈ v.loads
  · obtain ⟨read, hmem⟩ := hwait
    obtain ⟨hnot, husable, hsettled⟩ := h.settle_of_waiting hmem
    rw [hsettled]
    have hmono : ∀ k ∈ v.loaded.keys, k ∈ (v.loaded.set key (store.get key)).keys := fun k hk =>
      InsertionMap.mem_keys_set.mpr (.inr hk)
    refine { h with
      found_loaded := fun k hk => hmono k (h.found_loaded k hk)
      loaded_get := ?_
      usable := ?_
      eager := fun k hk heager => hmono k (h.eager k hk heager)
      listed := ?_
      loads := ?_ }
    · intro k e hget
      by_cases hk : k = key
      · rw [hk, InsertionMap.get_set_self] at hget
        rw [hk]
        exact (Option.some.inj hget).symm
      · rw [InsertionMap.get_set_of_ne _ hk] at hget
        exact h.loaded_get k e hget
    · intro k hk
      rcases InsertionMap.mem_keys_set.mp hk with rfl | hk
      · exact husable
      · exact h.usable k hk
    · intro kind heager
      have habsent : ¬(key.1 = kind ∧ key ∈ store.keys) := fun ⟨hkind, hstore⟩ =>
        hnot (h.eager key hstore (hkind ▸ heager))
      rw [InsertionMap.keys_set_of_notMem hnot, List.filter_append,
        List.filter_cons_of_neg (by simpa using habsent), List.filter_nil, List.append_nil]
      exact h.listed kind heager
    · rw [List.forall₂_map_left_iff]
      refine h.loads.imp fun load entry hanswers => ?_
      cases load with
      | settled answer => exact ⟨hanswers.1, fun r hr => hmono _ (hanswers.2 r hr)⟩
      | waiting k read =>
          obtain ⟨hentry, hread, hloaded, hk⟩ := hanswers
          by_cases heq : k = key
          · subst heq
            simp only [Load.settledBy, if_pos]
            exact ⟨by rw [hentry], fun _ _ => by
              rw [hentry]
              exact InsertionMap.mem_keys_set.mpr (.inl rfl)⟩
          · simp only [Load.settledBy, if_neg heq]
            refine ⟨hentry, hread, fun hmem => ?_, hk⟩
            exact (InsertionMap.mem_keys_set.mp hmem).elim heq hloaded
  · have hsame : v.settle key = v := by
      rw [View.settle, settleLoads_of_none fun read hmem => hwait ⟨read, hmem⟩]
    rw [hsame]
    exact h

theorem settles (h : Simulates kinds exactKinds store v o found) (keys : List Key) :
    Simulates kinds exactKinds store (keys.foldl View.settle v) o found := by
  induction keys generalizing v with
  | nil => exact h
  | cons key keys ih => exact ih (h.settle key)

/-- A load is begun as the overlay answers it. -/
theorem begun (h : Simulates kinds exactKinds store v o found) {key : Key}
    (hown : key.1 ∈ exactKinds → ∀ envelope, store.get key = some envelope →
      ports.workspaceOf envelope.record = ports.workspaceId) :
    ∃ load, v.load ports key = { v with loads := v.loads ++ [load] }
      ∧ Answers kinds store v.loaded load (key, o.answer key) := by
  by_cases hdeclared : kinds.any (fun wanted => key.1 ∉ wanted) = true
  · refine ⟨.settled (.error (undeclared key.1)), ?_, ?_⟩
    · simp only [View.load, View.declared, h.wanted, refuse, if_pos hdeclared, View.Load.failure,
        Option.or_none]
    · refine ⟨?_, fun _ hok => by cases hok⟩
      simp only [Overlay.answer, Overlay.declared, h.declared, refuse, if_pos hdeclared]
      rfl
  have hdecl : kinds.any (fun wanted => key.1 ∉ wanted) = false := Bool.eq_false_iff.mpr hdeclared
  have hanswer : ∀ (hk : isPortableId key.1 = true) (hi : isPortableId key.2 = true),
      o.answer key = .ok (o.get key) := by
    intro hk hi
    simp only [Overlay.answer, Overlay.declared, h.declared, refuse, hdecl, hk, hi,
      Bool.true_eq_false, Bool.false_eq_true, if_false]
    rfl
  by_cases hloaded : key ∈ v.loaded.keys
  · have husable := h.usable key hloaded
    refine ⟨.settled (.ok ((v.entryFor key).map Envelope.record)), ?_, ?_, fun _ _ => hloaded⟩
    · simp only [View.load, View.declared, h.wanted, refuse, hdecl, Bool.false_eq_true, if_false,
        InsertionMap.has_iff.mpr hloaded, if_true, View.Load.failure, Option.or_none]
    · rw [hanswer husable.kind husable.id, h.entryFor hloaded, Overlay.get]
  have hload : v.load ports key = { v with
      loads := v.loads ++ [v.read ports key]
      failed := v.failed.or (View.Load.failure (v.read ports key)) } := by
    simp only [View.load, View.declared, h.wanted, refuse, hdecl, Bool.false_eq_true, if_false,
      InsertionMap.has_eq_false.mpr hloaded]
  have hstart : ∀ load, v.read ports key = load → View.Load.failure load = none →
      v.load ports key = { v with loads := v.loads ++ [load] } := by
    rintro load rfl hnone
    rw [hload, hnone, Option.or_none]
  by_cases hkind : isPortableId key.1 = false
  · refine ⟨.settled (.error ⟨.data, "invalid record kind"⟩),
      hstart _ (by rw [View.read, if_pos hkind]) rfl, ?_, fun _ hok => by cases hok⟩
    simp only [Overlay.answer, Overlay.declared, h.declared, refuse, hdecl, hkind,
      Bool.false_eq_true, if_false, if_true]
    rfl
  by_cases hid : isPortableId key.2 = false
  · refine ⟨.settled (.error ⟨.data, "invalid record id"⟩),
      hstart _ (by rw [View.read, if_neg hkind, if_pos hid]) rfl, ?_, fun _ hok => by cases hok⟩
    simp only [Overlay.answer, Overlay.declared, h.declared, refuse, hdecl, hkind, hid,
      Bool.false_eq_true, if_false, if_true]
    rfl
  have husable : Usable kinds key := ⟨hdecl, by simpa using hkind, by simpa using hid⟩
  have hstaged := h.staged_none hloaded
  have hread : v.read ports key = .waiting key (.ok (store.get key)) := by
    rw [View.read, if_neg hkind, if_neg hid, InsertionMap.has, hstaged,
      if_neg (by simp), h.exact]
    by_cases hexact : key.1 ∈ exactKinds
    · rw [if_neg (not_not_intro hexact), View.readStateEnvelope, h.store_eq]
      cases hget : store.get key with
      | none => rfl
      | some envelope => simp only [if_pos (hown hexact envelope hget)]
    · have habsent : key ∉ store.keys := fun hmem =>
        hloaded (h.eager key hmem (eager_of_declared hdecl hexact))
      rw [if_pos hexact, InsertionMap.get_eq_none.mpr habsent]
  refine ⟨_, hstart _ hread rfl, ?_, rfl, hloaded, husable⟩
  rw [hanswer husable.kind husable.id, Overlay.get, h.current, hstaged]
  rfl

theorem load (h : Simulates kinds exactKinds store v o found) {key : Key}
    (hown : key.1 ∈ exactKinds → ∀ envelope, store.get key = some envelope →
      ports.workspaceOf envelope.record = ports.workspaceId) :
    Simulates kinds exactKinds store (v.load ports key) (o.load key) found := by
  obtain ⟨load, hload, hanswers⟩ := h.begun hown
  rw [hload]
  exact { h with loads := List.rel_append h.loads (.cons hanswers .nil) }

/-- A load whose read came back is answered with what was read. -/
theorem await_settled (h : Simulates kinds exactKinds store v o found) {load : Nat}
    {answer : Result (Option ρ)} (hload : v.loads[load]? = some (.settled answer)) :
    answer = o.await load
      ∧ Simulates kinds exactKinds store v o
        (match o.answers[load]? with
          | some (key, .ok _) => key :: found
          | _ => found) := by
  rcases forall₂_getElem? h.loads load with ⟨hnone, -⟩ | ⟨x, entry, hx, hentry, hanswers⟩
  · rw [hload] at hnone
    cases hnone
  · rw [hload] at hx
    cases hx
    obtain ⟨key, told⟩ := entry
    obtain ⟨rfl, hfound⟩ := hanswers
    rw [Overlay.await, hentry]
    refine ⟨rfl, ?_⟩
    cases told with
    | error e => exact h
    | ok r =>
        exact { h with
          found_loaded := fun k hk => (List.mem_cons.mp hk).elim
            (fun heq => heq ▸ hfound r rfl) (h.found_loaded k)
          staged_found := fun k hk => List.mem_cons_of_mem _ (h.staged_found k hk) }

/-- What a program is answered when it waits. -/
theorem await (h : Simulates kinds exactKinds store v o found) (load : Nat) :
    (v.await load).2 = o.await load
      ∧ Simulates kinds exactKinds store (v.await load).1 o
        (match o.answers[load]? with
          | some (key, .ok _) => key :: found
          | _ => found) := by
  rcases hload : v.loads[load]? with _ | ⟨key, read⟩ | answer
  · rcases forall₂_getElem? h.loads load with ⟨-, hnone⟩ | ⟨x, -, hx, -⟩
    · simp only [View.await, hload, Overlay.await, hnone]
      exact ⟨trivial, h⟩
    · rw [hload] at hx
      cases hx
  · obtain ⟨-, -, hsettled⟩ := h.settle_of_waiting (List.mem_of_getElem? hload)
    have hnow : (v.settle key).loads[load]? =
        some (.settled (.ok ((store.get key).map Envelope.record))) := by
      rw [hsettled, List.getElem?_map, hload, Option.map_some]
      simp only [Load.settledBy, if_pos]
    simp only [View.await, hload, hnow]
    exact (h.settle key).await_settled hnow
  · simp only [View.await, hload]
    exact h.await_settled hload

theorem get (h : Simulates kinds exactKinds store v o found) (hkey : key ∈ found) :
    v.get key = .ok (o.get key) := by
  have hloaded := h.found_loaded key hkey
  rw [View.get, h.loadedId hloaded, h.entryFor hloaded]
  rfl

theorem generationOf (h : Simulates kinds exactKinds store v o found) (hkey : key ∈ found) :
    v.generationOf key = .ok (o.generationOf key) := by
  have hloaded := h.found_loaded key hkey
  rw [View.generationOf, h.loadedId hloaded, h.entryFor hloaded]
  rfl

/-- The loaded entries of an eager kind are the records of the store. -/
theorem ofLoaded (h : Simulates kinds exactKinds store v o found) {kind : String}
    (heager : isEager kinds exactKinds kind = true) :
    (v.loaded.entries.filterMap fun e => if e.1.1 = kind then
      e.2.map fun envelope => (e.1, Staged.written envelope) else none)
    = (store.keys.filter fun k => k.1 = kind).filterMap fun k =>
        (store.get k).map fun envelope => (k, Staged.written envelope) := by
  rw [← h.listed kind heager, InsertionMap.entries, List.filterMap_filterMap,
    List.filterMap_filter]
  refine List.filterMap_congr fun k hk => ?_
  obtain ⟨e, he⟩ := Option.isSome_iff_exists.mp ((v.loaded.mem_keys k).mp hk)
  have hstore := h.loaded_get k e he
  rw [he, Option.map_some, Option.bind_some]
  by_cases hkind : k.1 = kind
  · by_cases hmem : k ∈ store.keys
    · simp [hkind, hmem, hstore]
    · have hnone : e = none := hstore.trans (InsertionMap.get_eq_none.mpr hmem)
      simp [hmem, hnone]
  · simp [hkind]

/-- The records of a kind, as the store has them. -/
def storeEntries (store : StateRecords ρ γ) (kind : String) : List (Key × Staged ρ γ) :=
  (store.keys.filter fun k => k.1 = kind).filterMap fun k =>
    (store.get k).map fun envelope => (k, Staged.written envelope)

theorem storeEntries_keys (store : StateRecords ρ γ) (kind : String) :
    (storeEntries store kind).map Prod.fst = store.keys.filter fun k => k.1 = kind := by
  have hkeys : ∀ ks : List Key, (∀ k ∈ ks, k ∈ store.keys) →
      (ks.filterMap fun k => (store.get k).map fun envelope =>
        (k, (Staged.written envelope : Staged ρ γ))).map Prod.fst = ks := by
    intro ks
    induction ks with
    | nil => exact fun _ => rfl
    | cons k ks ih =>
        intro hall
        obtain ⟨e, he⟩ := Option.isSome_iff_exists.mp
          ((store.mem_keys k).mp (hall k (List.mem_cons_self ..)))
        rw [List.filterMap_cons, he, Option.map_some, List.map_cons,
          ih fun k' hk' => hall k' (List.mem_cons_of_mem _ hk')]
  exact hkeys _ fun k hk => List.mem_of_mem_filter hk

/-- The merged map lists the keys of a kind as the overlay does, and holds the same
records. -/
theorem merged (h : Simulates kinds exactKinds store v o found) {kind : String}
    (heager : isEager kinds exactKinds kind = true) :
    (v.merged kind).keys = (o.order.filter fun k => k.1 = kind)
      ∧ ∀ k ∈ (v.merged kind).keys, ((v.merged kind).get k).bind Staged.envelope = o.current k := by
  have hkeys := storeEntries_keys store kind
  have hnodup : ((storeEntries store kind).map Prod.fst).Nodup :=
    hkeys ▸ store.nodup.filter _
  have hstaged : (v.staged.entries.filter fun e => e.1.1 = kind).map Prod.fst
      = v.staged.keys.filter fun k => k.1 = kind := by
    rw [← InsertionMap.entries_keys, List.filter_map]
    rfl
  have hnodup' : ((v.staged.entries.filter fun e => e.1.1 = kind).map Prod.fst).Nodup :=
    hstaged ▸ v.staged.nodup.filter _
  have hmerged : v.merged kind = (InsertionMap.empty.setAll (storeEntries store kind)).setAll
      (v.staged.entries.filter fun e => e.1.1 = kind) := by
    rw [View.merged, h.ofLoaded heager]
    rfl
  have hfirst : (InsertionMap.empty.setAll (storeEntries store kind)).keys
      = store.keys.filter fun k => k.1 = kind := by
    rw [InsertionMap.setAll_keys _ hnodup, hkeys]
    simp [InsertionMap.empty]
  have horder : (v.merged kind).keys = o.order.filter fun k => k.1 = kind := by
    rw [hmerged, InsertionMap.setAll_keys _ hnodup', hfirst, hstaged, h.order, List.filter_append,
      List.filter_filter, List.filter_filter]
    congr 1
    refine List.filter_congr fun k _ => ?_
    by_cases hkind : k.1 = kind <;> simp [hkind]
  refine ⟨horder, fun k hk => ?_⟩
  have hkind : k.1 = kind := by
    rw [horder] at hk
    simpa using (List.mem_filter.mp hk).2
  rw [h.current, hmerged, InsertionMap.setAll_get]
  cases hget : v.staged.get k with
  | some entry =>
      have hmem : (k, entry) ∈ v.staged.entries.filter fun e => e.1.1 = kind :=
        List.mem_filter.mpr ⟨InsertionMap.mem_entries.mpr hget, by simpa using hkind⟩
      rw [visit_of_mem (a := (k, entry)) hnodup' hmem]
      rfl
  | none =>
      have hnot : k ∉ v.staged.keys := InsertionMap.get_eq_none.mp hget
      have habsent : k ∉ (v.staged.entries.filter fun e => e.1.1 = kind).map Prod.fst := fun hmem =>
        hnot (List.mem_of_mem_filter (hstaged ▸ hmem))
      rw [visit_of_notMem habsent, InsertionMap.setAll_get]
      have hstore : k ∈ store.keys := by
        rw [horder, h.order, List.filter_append] at hk
        rcases List.mem_append.mp hk with hk | hk
        · exact List.mem_of_mem_filter hk
        · exact absurd (List.mem_of_mem_filter (List.mem_of_mem_filter hk)) hnot
      obtain ⟨e, he⟩ := Option.isSome_iff_exists.mp ((store.mem_keys k).mp hstore)
      have hmem : (k, Staged.written e) ∈ storeEntries store kind := by
        refine List.mem_filterMap.mpr ⟨k, List.mem_filter.mpr ⟨hstore, by simpa using hkind⟩, ?_⟩
        rw [he, Option.map_some]
      rw [visit_of_mem (a := (k, Staged.written e)) hnodup hmem, he]
      rfl

theorem list (h : Simulates kinds exactKinds store v o found) {kind : String}
    (hkind : kind ∉ exactKinds) : v.list kind = o.list kind := by
  by_cases hdeclared : kinds.any (fun wanted => kind ∉ wanted) = true
  · simp only [View.list, View.declared, h.wanted, Overlay.list, Overlay.declared, h.declared,
      refuse, if_pos hdeclared]
    rfl
  have hdecl : kinds.any (fun wanted => kind ∉ wanted) = false := Bool.eq_false_iff.mpr hdeclared
  have heager := eager_of_declared hdecl hkind
  have hentries : (v.merged kind).entries.filterMap
        (fun e => e.2.envelope.map Envelope.record)
      = (o.order.filter fun key => key.1 = kind).filterMap o.get := by
    obtain ⟨hkeys, hgets⟩ := h.merged heager
    rw [InsertionMap.entries_filterMap, ← hkeys]
    refine List.filterMap_congr fun k hk => ?_
    rw [Overlay.get, ← hgets k hk, Option.map_bind]
    rfl
  simp only [View.list, View.declared, h.wanted, Overlay.list, Overlay.declared, h.declared,
    refuse, hdecl, h.exact, if_neg hkind, Bool.false_eq_true, if_false, hentries]
  rfl

theorem mem_order (h : Simulates kinds exactKinds store v o found) {k : Key} :
    k ∈ o.order ↔ k ∈ store.keys ∨ k ∈ v.staged.keys := by
  rw [h.order, List.mem_append, List.mem_filter]
  by_cases hk : k ∈ store.keys <;> simp [hk]

theorem append (h : Simulates kinds exactKinds store v o found) (ports : Ports ρ γ ε) (event : ε) :
    (v.append ports event).2 = (o.append ports event).2
      ∧ Simulates kinds exactKinds store (v.append ports event).1 (o.append ports event).1
        found := by
  rw [View.append, Overlay.append]
  cases ports.validateEvent event with
  | error e => exact ⟨rfl, h⟩
  | ok _ => exact ⟨rfl, { h with events := by rw [h.events] }⟩

/-- A write puts the record at its place. -/
theorem written (h : Simulates kinds exactKinds store v o found) (hkey : key ∈ found)
    (entry : Staged ρ γ) (issued : Nat) :
    Simulates kinds exactKinds store
      { v with staged := v.staged.set key entry, issued := issued }
      { o with
        order := if key ∈ o.order then o.order else o.order ++ [key]
        current := Function.update o.current key entry.envelope
        issued := issued } found := by
  refine { h with
    staged_found := fun k hk => (InsertionMap.mem_keys_set.mp hk).elim
      (fun heq => heq ▸ hkey) (h.staged_found k)
    order := ?_
    current := ?_
    issued := rfl }
  · show (if key ∈ o.order then o.order else o.order ++ [key]) = _
    by_cases hstaged : key ∈ v.staged.keys
    · rw [InsertionMap.keys_set_of_mem hstaged, if_pos (h.mem_order.mpr (.inr hstaged))]
      exact h.order
    · rw [InsertionMap.keys_set_of_notMem hstaged, List.filter_append]
      by_cases hstore : key ∈ store.keys
      · rw [if_pos (h.mem_order.mpr (.inl hstore)), List.filter_cons_of_neg (by simpa using hstore),
          List.filter_nil, List.append_nil]
        exact h.order
      · rw [if_neg (fun hmem => (h.mem_order.mp hmem).elim hstore hstaged),
          List.filter_cons_of_pos (by simpa using hstore), List.filter_nil, ← List.append_assoc,
          h.order]
  · intro k
    show Function.update o.current key entry.envelope k = _
    by_cases hk : k = key
    · subst hk
      rw [Function.update_self, InsertionMap.get_set_self]
      rfl
    · rw [Function.update_of_ne hk, InsertionMap.get_set_of_ne _ hk]
      exact h.current k

variable [DecidableEq γ]

/-- Both refuse a write to a record that is not of the generation expected. -/
theorem expects (h : Simulates kinds exactKinds store v o found) (hkey : key ∈ found)
    (expected : Option γ) :
    (do
      v.loadedId key
      refuse ((v.entryFor key).map Envelope.generation ≠ expected) (changed key) : Result Unit)
    = refuse (o.generationOf key ≠ expected) (changed key) := by
  have hloaded := h.found_loaded key hkey
  rw [h.loadedId hloaded, h.entryFor hloaded]
  rfl

theorem put (h : Simulates kinds exactKinds store v o found) (ports : Ports ρ γ ε)
    (hkey : key ∈ found) (record : ρ) (expected : Option γ) :
    (v.put ports key record expected).2 = (o.put ports key record expected).2
      ∧ Simulates kinds exactKinds store (v.put ports key record expected).1
        (o.put ports key record expected).1 found := by
  have hchecks : (do
      v.loadedId key
      refuse ((v.entryFor key).map Envelope.generation ≠ expected) (changed key)
      ports.validateRecord key.1 record : Result Unit)
      = if o.generationOf key ≠ expected then .error (changed key)
        else ports.validateRecord key.1 record := by
    have hexpects := h.expects hkey expected
    rw [← bind_assoc, hexpects, refuse]
    split <;> rfl
  rw [View.put, hchecks, Overlay.put]
  by_cases hgeneration : o.generationOf key ≠ expected
  · rw [if_pos hgeneration, if_pos hgeneration]
    exact ⟨rfl, h⟩
  · rw [if_neg hgeneration, if_neg hgeneration]
    cases ports.validateRecord key.1 record with
    | error e => exact ⟨rfl, h⟩
    | ok _ =>
        have hwritten := h.written hkey (.written ⟨record, ports.generations v.issued⟩)
          (v.issued + 1)
        dsimp only
        rw [← h.issued]
        exact ⟨rfl, hwritten⟩

theorem remove (h : Simulates kinds exactKinds store v o found) (hkey : key ∈ found)
    (expected : Option γ) :
    (v.remove key expected).2 = (o.remove store key expected).2
      ∧ Simulates kinds exactKinds store (v.remove key expected).1
        (o.remove store key expected).1 found := by
  have hloaded := h.found_loaded key hkey
  have hpersisted : (v.loaded.get key).join = store.get key := by
    obtain ⟨e, he⟩ := Option.isSome_iff_exists.mp ((v.loaded.mem_keys key).mp hloaded)
    rw [he, h.loaded_get key e he]
    rfl
  rw [View.remove, h.expects hkey, Overlay.remove]
  by_cases hgeneration : o.generationOf key ≠ expected
  · rw [refuse, if_pos hgeneration, if_pos hgeneration]
    exact ⟨rfl, h⟩
  rw [refuse, if_neg hgeneration, if_neg hgeneration, hpersisted]
  cases hstore : store.get key with
  | some persisted =>
      have hmem : key ∈ store.keys := (store.mem_keys key).mpr (by rw [hstore]; rfl)
      have hwritten := h.written hkey (.removed persisted.generation) v.issued
      rw [if_pos (h.mem_order.mpr (.inl hmem))] at hwritten
      dsimp only
      rw [if_pos hmem]
      exact ⟨rfl, { hwritten with issued := h.issued }⟩
  | none =>
      have hnot : key ∉ store.keys := InsertionMap.get_eq_none.mp hstore
      dsimp only
      refine ⟨rfl, { h with
        staged_found := fun k hk => h.staged_found k (InsertionMap.mem_keys_delete.mp hk).2
        order := ?_
        current := ?_ }⟩
      · show (if key ∈ store.keys then o.order else o.order.erase key) = _
        rw [if_neg hnot, h.order, List.erase_append_right _ hnot]
        congr 1
        show (v.staged.keys.filter (· ∉ store.keys)).erase key
          = (v.staged.delete key).keys.filter (· ∉ store.keys)
        rw [(v.staged.nodup.filter _).erase_eq_filter, InsertionMap.keys_delete,
          List.filter_filter, List.filter_filter]
        refine List.filter_congr fun k _ => ?_
        by_cases hk : k = key <;> simp [hk]
      · intro k
        show Function.update o.current key none k = _
        by_cases hk : k = key
        · subst hk
          rw [Function.update_self, InsertionMap.get_delete_self, Option.elim_none, hstore]
        · rw [Function.update_of_ne hk, InsertionMap.get_delete_of_ne _ hk]
          exact h.current k

/-! ## Runs -/

/-- The callback is answered as the overlay answers it, whenever the reads come
back. -/
theorem run (schedule : Nat → List Key) {program : Program ρ γ ε α}
    (h : Simulates kinds exactKinds store v o found)
    (hloads : Overlay.LoadsFirst ports store o found program)
    (hpermitted : Overlay.Permitted ports exactKinds store o program) (n : Nat) :
    (v.run ports schedule n program).2 = (o.run ports store program).2
      ∧ ∃ found', Simulates kinds exactKinds store (v.run ports schedule n program).1
        (o.run ports store program).1 found' := by
  induction program generalizing v o found n with
  | done value => exact ⟨rfl, found, h⟩
  | throw e => exact ⟨rfl, found, h⟩
  | load key next ih =>
      have hnow := h.settles (schedule n)
      have hlength : ((schedule n).foldl View.settle v).loads.length = o.answers.length :=
        hnow.loads.length_eq
      rw [View.run, hlength]
      exact ih _ (hnow.load hpermitted.1) hloads hpermitted.2 (n + 1)
  | await load next ih =>
      obtain ⟨hanswer, hafter⟩ := (h.settles (schedule n)).await load
      rw [View.run, hanswer]
      exact ih _ hafter hloads hpermitted (n + 1)
  | get key next ih =>
      have hnow := h.settles (schedule n)
      rw [View.run, hnow.get hloads.1]
      exact ih _ hnow hloads.2 hpermitted (n + 1)
  | generationOf key next ih =>
      have hnow := h.settles (schedule n)
      rw [View.run, hnow.generationOf hloads.1]
      exact ih _ hnow hloads.2 hpermitted (n + 1)
  | list kind next ih =>
      have hnow := h.settles (schedule n)
      rw [View.run, hnow.list hpermitted.1]
      exact ih _ hnow hloads hpermitted.2 (n + 1)
  | put key record expected next ih =>
      obtain ⟨hanswer, hafter⟩ := (h.settles (schedule n)).put ports hloads.1 record expected
      rw [View.run, hanswer]
      exact ih _ hafter hloads.2 hpermitted (n + 1)
  | remove key expected next ih =>
      obtain ⟨hanswer, hafter⟩ := (h.settles (schedule n)).remove hloads.1 expected
      rw [View.run, hanswer]
      exact ih _ hafter hloads.2 hpermitted (n + 1)
  | append event next ih =>
      obtain ⟨hanswer, hafter⟩ := (h.settles (schedule n)).append ports event
      rw [View.run, hanswer]
      exact ih _ hafter hloads hpermitted (n + 1)

end Simulates

variable {kinds : Option (List String)} {exactKinds : List String}

/-- The published records are those of the overlay. -/
theorem Simulates.publish {v : View ρ γ ε} {o : Overlay ρ γ ε} {found : List Key}
    (h : Simulates kinds exactKinds store v o found) :
    Transaction.publish store v.staged = o.current := by
  funext k
  rw [Transaction.publish, h.current]
  cases hget : v.staged.get k with
  | some entry =>
      have hnodup : (v.staged.entries.map Prod.fst).Nodup :=
        InsertionMap.entries_keys v.staged ▸ v.staged.nodup
      exact visit_of_mem (a := (k, entry)) hnodup (InsertionMap.mem_entries.mpr hget)
  | none =>
      have hnot : k ∉ v.staged.entries.map Prod.fst := by
        rw [InsertionMap.entries_keys]
        exact InsertionMap.get_eq_none.mp hget
      exact visit_of_notMem hnot

/-! ## Transactions -/

namespace Overlay

variable [DecidableEq γ] {ports : Ports ρ γ ε}

end Overlay

variable [DecidableEq γ] {ports : Ports ρ γ ε} {log : List ε} {program : Program ρ γ ε α}

/-- Records that say only which workspace they are of. -/
def samplePorts : Ports String Nat Unit where
  workspaceId := "workspace_a"
  workspaceOf record := record
  validateRecord _ _ := .ok ()
  validateEvent _ := .ok ()
  generations n := n + 1

def sampleKey : Key := ("message", "message_a")

/-- Load the only record, and read it. -/
def sampleRead : Program String Nat Unit (Result (Option String)) :=
  .load sampleKey fun first => .await first fun answer => .done answer

end Acc.Storage.Transaction
