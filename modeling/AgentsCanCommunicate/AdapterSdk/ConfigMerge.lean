import AgentsCanCommunicate.Library.InsertionMap
import AgentsCanCommunicate.Library.Run
import AgentsCanCommunicate.Library.Text

/-!
# Owned entries of a configuration

ACC adds entries to containers of a client's configuration and records them in the
same document: the pairs of a container and a key, and the containers it had to
create.  Taking the entries out again reads nothing but these records.

Two worlds are run side by side.  In one ACC merges its entries and the user edits
what is there; in the other the user makes the same edits and there is no ACC.  The
second is what the first comes to when the entries are taken out (`removed_run`).

The records are kept under joined names and the result is built by assignment, so
two things are asked of a run: no two entries have the same joined name, and
nothing is named `__proto__`, which an assignment does not add to an object.
-/

namespace Acc.AdapterSdk.ConfigMerge

open Library

variable {ν : Type}

/-! ## Objects -/

abbrev Object (α : Type) := InsertionMap Text α

def PROTO : Text := "__proto__".toList

/-- `o[k] = v`.  Where no such key is there, `__proto__` sets the prototype. -/
def assign {α : Type} (o : Object α) (k : Text) (v : α) : Object α :=
  if k = PROTO ∧ o.has k = false then o else o.set k v

/-- What a member of a configuration holds.  The entries of a container are not
looked into.  The last three are what ACC records. -/
inductive Value (ν : Type) where
  | object (members : Object ν)
  /-- An array, by its indices. -/
  | array (items : Object ν)
  | scalar (v : ν)
  | pairs (entries : List (Text × Text))
  | names (containers : List Text)
  /-- `true` -/
  | created

abbrev Config (ν : Type) := Object (Value ν)

def MARKER : Text := "acc:owned".toList

def ENTRY_MARKER : Text := "acc:ownedEntries".toList

def CREATED_MARKER : Text := "acc:createdContainers".toList

def CREATED_FILE : Text := "acc:createdFile".toList

def markers : List Text := [MARKER, ENTRY_MARKER, CREATED_MARKER, CREATED_FILE]

/-- `{ ...value }` -/
def spread : Option (Value ν) → Object ν
  | some (.object members) => members
  | some (.array items) => items
  | _ => .empty

/-- An object or an array with nothing in it. -/
def Value.isEmpty : Value ν → Bool
  | .object members => members.keys.isEmpty
  | .array items => items.keys.isEmpty
  | .scalar _ => false
  | .pairs entries => entries.isEmpty
  | .names containers => containers.isEmpty
  | .created => false

/-- The recorded entries, or none when nothing is recorded. -/
def recordedEntries (config : Config ν) : List (Text × Text) :=
  match config.get ENTRY_MARKER with
  | some (.pairs entries) => entries
  | _ => []

def createdContainers (config : Config ν) : List Text :=
  match config.get CREATED_MARKER with
  | some (.names containers) => containers
  | _ => []

/-! ## Merging -/

/-- Containers with the entries to be added to each. -/
abbrev Additions (ν : Type) := Object (Object ν)

/-- The name an entry is recorded under. -/
def joined (p : Text × Text) : Text := p.1 ++ '\x00' :: p.2

structure Merge (ν : Type) where
  merged : Config ν
  entries : Object (Text × Text)
  created : List Text

/-- A container with the entries added to it. -/
def extended (existing : Config ν) (addition : Text × Object ν) : Object ν :=
  addition.2.entries.foldl (fun members e => assign members e.1 e.2)
    (spread (existing.get addition.1))

/-- Add the entries of one container. -/
def mergeContainer (existing : Config ν) (s : Merge ν) (addition : Text × Object ν) : Merge ν where
  merged := assign s.merged addition.1 (.object (extended existing addition))
  entries := addition.2.entries.foldl
    (fun entries e => entries.set (joined (addition.1, e.1)) (addition.1, e.1)) s.entries
  created :=
    if existing.has addition.1 then s.created
    else if addition.1 ∈ s.created then s.created else s.created ++ [addition.1]

/-- The configuration with what is recorded in it. -/
def Merge.start (existing : Config ν) (createdFile : Bool) : Merge ν where
  merged := if createdFile then assign existing CREATED_FILE .created else existing
  entries := (recordedEntries existing).foldl (fun entries p => entries.set (joined p) p) .empty
  created := (createdContainers existing).dedup

variable (pairLe : Text × Text → Text × Text → Bool) (nameLe : Text → Text → Bool)

/-- Merge the additions and record them.  The records are sorted, by orders that
nothing depends on. -/
def mergeOwnedEntries (existing : Config ν) (additions : Additions ν) (createdFile : Bool) :
    Config ν :=
  let s := additions.entries.foldl (mergeContainer existing) (.start existing createdFile)
  let merged := assign s.merged ENTRY_MARKER
    (.pairs ((s.entries.entries.map Prod.snd).mergeSort pairLe))
  if s.created = [] then merged
  else assign merged CREATED_MARKER (.names (s.created.mergeSort nameLe))

/-! ## Removing -/

def removeEntry (config : Config ν) (p : Text × Text) : Config ν :=
  match config.get p.1 with
  | some (.object members) => assign config p.1 (.object (members.delete p.2))
  | some (.array items) => assign config p.1 (.object (items.delete p.2))
  | _ => config

/-- A container that ACC created goes when nothing is left in it. -/
def removeCreated (config : Config ν) (container : Text) : Config ν :=
  if (config.get container).any Value.isEmpty then config.delete container else config

/-- The keys that are recorded as ACC's own. -/
def ownedNames (config : Config ν) : List Text :=
  match config.get MARKER with
  | some (.names keys) => keys
  | _ => []

def removeOwnedConfig (existing : Config ν) : Config ν :=
  existing.entries.foldl (fun result e =>
    if e.1 ≠ MARKER ∧ e.1 ∉ ownedNames existing then assign result e.1 e.2 else result) .empty

def removeOwnedEntries (existing : Config ν) : Config ν :=
  let result := (recordedEntries existing).foldl removeEntry existing
  let result := (createdContainers result).foldl removeCreated result
  removeOwnedConfig (((result.delete ENTRY_MARKER).delete CREATED_MARKER).delete CREATED_FILE)

/-! ## The two worlds -/

/-- What a user does to a configuration. -/
inductive Edit (ν : Type) where
  | set (key : Text) (value : Value ν)
  | delete (key : Text)
  /-- Set an entry of a container, which is made when it is absent. -/
  | setEntry (container key : Text) (value : ν)
  | deleteEntry (container key : Text)

def Edit.container : Edit ν → Text
  | .set key _ => key
  | .delete key => key
  | .setEntry container _ _ => container
  | .deleteEntry container _ => container

def Edit.apply (config : Config ν) : Edit ν → Config ν
  | .set key value => config.set key value
  | .delete key => config.delete key
  | .setEntry container key value =>
      match config.get container with
      | none => config.set container (.object (InsertionMap.empty.set key value))
      | some (.object members) => config.set container (.object (members.set key value))
      | some _ => config
  | .deleteEntry container key =>
      match config.get container with
      | some (.object members) => config.set container (.object (members.delete key))
      | _ => config

/-- The same edit without ACC.  A container that ACC created is gone once the user
has emptied it. -/
def Edit.applyWithout (created : List Text) (user : Config ν) : Edit ν → Config ν
  | .deleteEntry container key =>
      match user.get container with
      | some (.object members) =>
          if container ∈ created ∧ (members.delete key).keys = [] then user.delete container
          else user.set container (.object (members.delete key))
      | _ => user
  | e => e.apply user

structure World (ν : Type) where
  config : Config ν
  /-- The configuration without ACC. -/
  user : Config ν
  /-- The entries that ACC has added, and the containers it has created. -/
  added : List (Text × Text)
  created : List Text

def World.initial (base : Config ν) : World ν := ⟨base, base, [], []⟩

/-- The edit leaves the added entries alone. -/
def Edit.Foreign (added : List (Text × Text)) : Edit ν → Prop
  | .set key _ => ∀ p ∈ added, p.1 ≠ key
  | .delete key => ∀ p ∈ added, p.1 ≠ key
  | .setEntry container key _ => (container, key) ∉ added
  | .deleteEntry container key => (container, key) ∉ added

inductive Label (ν : Type) where
  | merge (additions : Additions ν) (createdFile : Bool)
  | edit (e : Edit ν)

/-- The entries of some additions. -/
def Additions.pairs (additions : Additions ν) : List (Text × Text) :=
  additions.entries.flatMap fun a => a.2.keys.map fun key => (a.1, key)

/-- The containers that have to be created. -/
def Additions.missing (additions : Additions ν) (config : Config ν) : List Text :=
  additions.keys.filter fun container => !config.has container

def World.apply (w : World ν) : Label ν → World ν
  | .merge additions createdFile =>
      { w with
        config := mergeOwnedEntries pairLe nameLe w.config additions createdFile
        added := w.added ++ additions.pairs
        created := w.created ++ additions.missing w.config }
  | .edit e => { w with config := e.apply w.config, user := e.applyWithout w.created w.user }

/-- What ACC may add: entries that are not there, or that it has added itself, to
containers that are objects or absent.  What the user may edit: anything but the
entries that ACC has added. -/
def Label.Allowed (w : World ν) : Label ν → Prop
  | .merge additions _ =>
      ∀ a ∈ additions.entries, a.2.keys ≠ [] ∧
        (w.config.get a.1 = none ∨ ∃ members, w.config.get a.1 = some (.object members)) ∧
        ∀ key ∈ a.2.keys, (a.1, key) ∈ w.added ∨ key ∉ (spread (w.config.get a.1)).keys
  | .edit e => e.Foreign w.added

/-- Nothing is named `__proto__` or as one of the records, and different entries
have different joined names. -/
def Label.Plain (w : World ν) : Label ν → Prop
  | .merge additions _ => (∀ container ∈ additions.keys, container ∉ PROTO :: markers) ∧
      Set.InjOn joined {p | p ∈ w.added ++ additions.pairs}
  | .edit e => e.container ∉ PROTO :: markers

def World.Step (w : World ν) (label : Label ν) (w' : World ν) : Prop :=
  label.Allowed w ∧ w' = w.apply pairLe nameLe label

/-! ## Entries left out -/

/-- The keys of the entries of one container. -/
def keysOf (added : List (Text × Text)) (container : Text) : List Text :=
  (added.filter fun p => p.1 = container).map Prod.snd

/-- A member without the entries that were added to it.  A container that was
created is nothing when it has no others. -/
def project (created : List Text) (added : List (Text × Text)) (container : Text) :
    Option (Value ν) → Option (Value ν)
  | some (.object members) =>
      if container ∈ created ∧ (members.without (keysOf added container)).keys = [] then none
      else some (.object (members.without (keysOf added container)))
  | v => v

variable {created created' : List Text} {added added' : List (Text × Text)} {container key : Text}
  {config : Config ν} {w w' : World ν}

theorem mem_keysOf : key ∈ keysOf added container ↔ (container, key) ∈ added := by
  rw [keysOf, List.mem_map]
  constructor
  · rintro ⟨⟨c, k⟩, hmem, rfl⟩
    rw [List.mem_filter, decide_eq_true_eq] at hmem
    exact hmem.2 ▸ hmem.1
  · exact fun h => ⟨_, List.mem_filter.mpr ⟨h, decide_eq_true rfl⟩, rfl⟩

theorem keysOf_eq_nil (h : ∀ p ∈ added, p.1 ≠ container) : keysOf added container = [] := by
  rw [List.eq_nil_iff_forall_not_mem]
  exact fun key hkey => h _ (mem_keysOf.mp hkey) rfl

/-- A member that nothing was added to is as it was. -/
theorem project_of_notAdded (hcreated : container ∉ created)
    (hadded : ∀ p ∈ added, p.1 ≠ container) (v : Option (Value ν)) :
    project created added container v = v := by
  unfold project
  split
  · rw [keysOf_eq_nil hadded, InsertionMap.without_nil, if_neg fun h => hcreated h.1]
  · rfl

@[simp] theorem project_nil (v : Option (Value ν)) : project [] [] container v = v :=
  project_of_notAdded List.not_mem_nil (fun _ hp => absurd hp List.not_mem_nil) v

theorem project_congr (hcreated : container ∈ created ↔ container ∈ created')
    (hadded : ∀ key, (container, key) ∈ added ↔ (container, key) ∈ added') (v : Option (Value ν)) :
    project created added container v = project created' added' container v := by
  have hkeys : ∀ key, key ∈ keysOf added container ↔ key ∈ keysOf added' container := by
    intro key
    rw [mem_keysOf, mem_keysOf, hadded]
  unfold project
  split
  next members => simp only [hcreated, members.without_congr fun key _ => hkeys key]
  · rfl

theorem assign_of_ne {α : Type} {o : Object α} (h : key ≠ PROTO) (v : α) :
    assign o key v = o.set key v := if_neg fun hproto => h hproto.1

theorem assign_of_has {α : Type} {o : Object α} (h : o.has key = true) (v : α) :
    assign o key v = o.set key v := by
  refine if_neg fun hproto => ?_
  rw [h] at hproto
  cases hproto.2

theorem has_of_get {α : Type} {o : Object α} {v : α} (h : o.get key = some v) :
    o.has key = true := by
  rw [InsertionMap.has, h]
  rfl

theorem eq_empty_of_keys {α : Type} {o : Object α} (h : o.keys = []) : o = .empty := by
  refine InsertionMap.ext h (funext fun k => ?_)
  exact InsertionMap.get_eq_none.mpr (h ▸ List.not_mem_nil)

/-! ## Removing gives what is left out -/

theorem foldl_removeEntry : ∀ {ps : List (Text × Text)} {config : Config ν},
    (∀ p ∈ ps, ∃ members, config.get p.1 = some (.object members)) → ∀ container,
    (ps.foldl removeEntry config).get container = project [] ps container (config.get container)
  | [], config, _, container => (project_nil _).symm
  | p :: ps, config, h, container => by
      rw [List.forall_mem_cons] at h
      obtain ⟨⟨members, hmembers⟩, hps⟩ := h
      have hremove : removeEntry config p = config.set p.1 (.object (members.delete p.2)) := by
        rw [removeEntry, hmembers]
        exact assign_of_has (has_of_get hmembers) _
      have hobjects : ∀ q ∈ ps, ∃ members, (removeEntry config p).get q.1 =
          some (.object members) := by
        intro q hq
        rw [hremove]
        by_cases heq : q.1 = p.1
        · rw [heq, InsertionMap.get_set_self]
          exact ⟨_, rfl⟩
        · rw [InsertionMap.get_set_of_ne _ heq]
          exact hps q hq
      rw [List.foldl_cons, foldl_removeEntry hobjects, hremove]
      by_cases heq : container = p.1
      · subst heq
        have hkeys : keysOf (p :: ps) p.1 = p.2 :: keysOf ps p.1 := by
          rw [keysOf, List.filter_cons_of_pos (by simp)]
          rfl
        rw [InsertionMap.get_set_self, hmembers, project, project, hkeys,
          InsertionMap.without_delete]
      · rw [InsertionMap.get_set_of_ne _ heq]
        refine project_congr Iff.rfl (fun key => ?_) _
        rw [List.mem_cons, or_iff_right fun h => heq (congrArg Prod.fst h)]

theorem foldl_removeCreated : ∀ {names : List Text} {config : Config ν} {container : Text},
    (names.foldl removeCreated config).get container =
      if container ∈ names ∧ (config.get container).any Value.isEmpty = true then none
      else config.get container
  | [], config, container => by simp
  | name :: names, config, container => by
      rw [List.foldl_cons, foldl_removeCreated, removeCreated]
      by_cases heq : container = name
      · subst heq
        split
        · simp_all
        · simp_all
      · have hget : (if (config.get name).any Value.isEmpty = true then config.delete name
            else config).get container = config.get container := by
          split
          · exact InsertionMap.get_delete_of_ne _ heq
          · rfl
        rw [hget]
        simp [heq]

theorem removeOwnedConfig_get (howned : config.get MARKER = none)
    (hproto : config.get PROTO = none) (container : Text) :
    (removeOwnedConfig config).get container = config.get container := by
  have hset : ∀ {es : List (Text × Value ν)} {result : Config ν},
      (∀ e ∈ es, config.get e.1 = some e.2) →
      es.foldl (fun result e =>
        if e.1 ≠ MARKER ∧ e.1 ∉ ([] : List Text) then assign result e.1 e.2 else result) result =
          result.setAll es := by
    intro es
    induction es with
    | nil => exact fun _ => rfl
    | cons e es ih =>
        intro result hes
        rw [List.forall_mem_cons] at hes
        have hmarker : e.1 ≠ MARKER := fun h => by
          rw [h, howned] at hes
          cases hes.1
        have hplain : e.1 ≠ PROTO := fun h => by
          rw [h, hproto] at hes
          cases hes.1
        rw [List.foldl_cons, if_pos ⟨hmarker, List.not_mem_nil⟩, assign_of_ne hplain, ih hes.2]
        rfl
  have hall : removeOwnedConfig config = InsertionMap.empty.setAll config.entries := by
    have hnames : ownedNames config = [] := by rw [ownedNames, howned]
    rw [removeOwnedConfig, hnames]
    exact hset fun e he => InsertionMap.mem_entries.mp he
  have hnodup : (config.entries.map Prod.fst).Nodup := config.entries_keys ▸ config.nodup
  rw [hall, InsertionMap.setAll_get]
  cases hget : config.get container with
  | none =>
      rw [visit_of_notMem (by rw [config.entries_keys, ← InsertionMap.get_eq_none]; exact hget)]
      rfl
  | some v =>
      have hmem : (container, v) ∈ config.entries := InsertionMap.mem_entries.mpr hget
      exact visit_of_mem hnodup hmem

/-! ## What holds of every run -/

structure World.Inv (w : World ν) : Prop where
  user : ∀ container, w.user.get container =
    if container ∈ markers then none
    else project w.created w.added container (w.config.get container)
  recorded : ∀ p, p ∈ recordedEntries w.config ↔ p ∈ w.added
  createdContainers : ∀ container,
    container ∈ ConfigMerge.createdContainers w.config ↔ container ∈ w.created
  unowned : w.config.get MARKER = none
  plain : w.config.get PROTO = none
  objects : ∀ p ∈ w.added, p.1 ∉ markers ∧ ∃ members, w.config.get p.1 = some (.object members)
  created : ∀ container ∈ w.created, ∃ key, (container, key) ∈ w.added

theorem inv_initial {base : Config ν} (hbase : ∀ marker ∈ markers, base.get marker = none)
    (hproto : base.get PROTO = none) : (World.initial base).Inv where
  user container := by
    change base.get container = _
    split
    next hmarker => exact hbase container hmarker
    next => exact (project_nil _).symm
  recorded p := by
    have hnone : base.get ENTRY_MARKER = none := hbase _ (by decide)
    simp [recordedEntries, World.initial, hnone]
  createdContainers container := by
    have hnone : base.get CREATED_MARKER = none := hbase _ (by decide)
    simp [ConfigMerge.createdContainers, World.initial, hnone]
  unowned := hbase _ (by decide)
  plain := hproto
  objects := nofun
  created := nofun

/-- Taking the entries out gives the other world. -/
theorem World.Inv.removed (h : w.Inv) (container : Text) :
    (removeOwnedEntries w.config).get container = w.user.get container := by
  have hobjects : ∀ p ∈ recordedEntries w.config,
      ∃ members, w.config.get p.1 = some (.object members) :=
    fun p hp => (h.objects p ((h.recorded p).mp hp)).2
  have hout := foldl_removeEntry hobjects
  have hmarker : ∀ marker ∈ markers,
      ((recordedEntries w.config).foldl removeEntry w.config).get marker = w.config.get marker := by
    intro marker hmem
    rw [hout]
    refine project_of_notAdded List.not_mem_nil (fun p hp heq => ?_) _
    exact (h.objects p ((h.recorded p).mp hp)).1 (heq ▸ hmem)
  have hnames : ConfigMerge.createdContainers
      ((recordedEntries w.config).foldl removeEntry w.config) =
        ConfigMerge.createdContainers w.config := by
    rw [ConfigMerge.createdContainers, hmarker _ (by decide), ConfigMerge.createdContainers]
  have hcreated := @foldl_removeCreated ν (ConfigMerge.createdContainers w.config)
    ((recordedEntries w.config).foldl removeEntry w.config)
  have hresult : ∀ name, ((ConfigMerge.createdContainers w.config).foldl removeCreated
      ((recordedEntries w.config).foldl removeEntry w.config)).get name =
        project w.created w.added name (w.config.get name) := by
    intro name
    have hcongr : project [] (recordedEntries w.config) name (w.config.get name) =
        project [] w.added name (w.config.get name) :=
      project_congr Iff.rfl (fun key => h.recorded (name, key)) _
    simp only [hcreated, hout, h.createdContainers, hcongr]
    by_cases hname : name ∈ w.created
    · obtain ⟨key, hkey⟩ := h.created name hname
      obtain ⟨-, members, hmembers⟩ := h.objects _ hkey
      rw [hmembers]
      simp [project, hname, Value.isEmpty]
    · rw [if_neg fun hand => hname hand.1]
      exact project_congr (by simp [hname]) (fun _ => Iff.rfl) _
  rw [removeOwnedEntries, hnames]
  have hdeleted : ∀ name, ((((ConfigMerge.createdContainers w.config).foldl removeCreated
      ((recordedEntries w.config).foldl removeEntry w.config)).delete ENTRY_MARKER).delete
        CREATED_MARKER |>.delete CREATED_FILE).get name =
          if name ∈ [ENTRY_MARKER, CREATED_MARKER, CREATED_FILE] then none
          else project w.created w.added name (w.config.get name) := by
    intro name
    by_cases h₁ : name = CREATED_FILE
    · subst h₁
      rw [InsertionMap.get_delete_self, if_pos (by decide)]
    · rw [InsertionMap.get_delete_of_ne _ h₁]
      by_cases h₂ : name = CREATED_MARKER
      · subst h₂
        rw [InsertionMap.get_delete_self, if_pos (by decide)]
      · rw [InsertionMap.get_delete_of_ne _ h₂]
        by_cases h₃ : name = ENTRY_MARKER
        · subst h₃
          rw [InsertionMap.get_delete_self, if_pos (by decide)]
        · rw [InsertionMap.get_delete_of_ne _ h₃, hresult, if_neg (by simp [h₁, h₂, h₃])]
  have hMARKER : project w.created w.added MARKER (w.config.get MARKER) = none := by
    rw [h.unowned]
    rfl
  have hPROTO : project w.created w.added PROTO (w.config.get PROTO) = none := by
    rw [h.plain]
    rfl
  rw [removeOwnedConfig_get, hdeleted, h.user]
  · by_cases hmem : container ∈ markers
    · rw [if_pos hmem]
      rcases List.mem_cons.mp hmem with rfl | hmem'
      · rw [hMARKER, ite_self]
      · rw [if_pos hmem']
    · rw [if_neg hmem, if_neg fun hmem' => hmem (List.mem_cons_of_mem _ hmem')]
  · rw [hdeleted, hMARKER, ite_self]
  · rw [hdeleted, hPROTO, ite_self]

/-! ## Edits -/

theorem Edit.apply_other {e : Edit ν} (h : container ≠ e.container) :
    (e.apply config).get container = config.get container := by
  cases e with
  | set key value => exact InsertionMap.get_set_of_ne _ h _
  | delete key => exact InsertionMap.get_delete_of_ne _ h
  | setEntry c key value =>
      rw [Edit.apply]
      split
      · exact InsertionMap.get_set_of_ne _ h _
      · exact InsertionMap.get_set_of_ne _ h _
      · rfl
  | deleteEntry c key =>
      rw [Edit.apply]
      split
      · exact InsertionMap.get_set_of_ne _ h _
      · rfl

theorem Edit.applyWithout_other {e : Edit ν} (h : container ≠ e.container) :
    (e.applyWithout created config).get container = config.get container := by
  cases e with
  | set key value => exact InsertionMap.get_set_of_ne _ h _
  | delete key => exact InsertionMap.get_delete_of_ne _ h
  | setEntry c key value => exact Edit.apply_other (e := .setEntry c key value) h
  | deleteEntry c key =>
      rw [Edit.applyWithout]
      split
      · split
        · exact InsertionMap.get_delete_of_ne _ h
        · exact InsertionMap.get_set_of_ne _ h _
      · rfl

/-- What is not an object is projected to itself. -/
theorem project_other {v : Option (Value ν)} (h : ∀ members, v ≠ some (.object members)) :
    project created added container v = v := by
  unfold project
  split
  next members => exact absurd rfl (h members)
  next => rfl

theorem project_setEntry {user : Config ν} {value : ν}
    (huser : user.get container = project created added container (config.get container))
    (hcreated : container ∈ created → ∃ key, (container, key) ∈ added)
    (hobject : ∀ key, (container, key) ∈ added →
      ∃ members, config.get container = some (.object members))
    (hforeign : (container, key) ∉ added) :
    (Edit.apply user (.setEntry container key value)).get container =
      project created added container
        ((Edit.apply config (.setEntry container key value)).get container) := by
  have hkey : key ∉ keysOf added container := fun h => hforeign (mem_keysOf.mp h)
  rw [Edit.apply, Edit.apply]
  match hget : config.get container with
  | none =>
      have hadded : ∀ p ∈ added, p.1 ≠ container := by
        rintro ⟨c, k⟩ hp rfl
        obtain ⟨members, hmembers⟩ := hobject k hp
        cases hget.symm.trans hmembers
      have hnot : container ∉ created := fun h => (hcreated h).elim fun k hk => hadded _ hk rfl
      have hnone : user.get container = none := by rw [huser, hget]; rfl
      simp only [hnone, InsertionMap.get_set_self, project_of_notAdded hnot hadded]
  | some (.object members) =>
      have hset : project created added container (some (.object (members.set key value))) =
          some (.object ((members.without (keysOf added container)).set key value)) := by
        rw [project, members.without_set_of_notMem hkey]
        refine if_neg fun h => ?_
        have hmem : key ∈ ((members.without (keysOf added container)).set key value).keys :=
          InsertionMap.mem_keys_set.mpr (.inl rfl)
        rw [h.2] at hmem
        cases hmem
      simp only [InsertionMap.get_set_self, hset]
      rw [hget, project] at huser
      split at huser
      next hempty =>
        simp only [huser, InsertionMap.get_set_self, eq_empty_of_keys hempty.2]
      next => simp only [huser, InsertionMap.get_set_self]
  | some (.array items) => simp [project, huser, hget]
  | some (.scalar v) => simp [project, huser, hget]
  | some (.pairs entries) => simp [project, huser, hget]
  | some (.names containers) => simp [project, huser, hget]
  | some .created => simp [project, huser, hget]

theorem project_deleteEntry {user : Config ν}
    (huser : user.get container = project created added container (config.get container)) :
    (Edit.applyWithout created user (.deleteEntry container key)).get container =
      project created added container
        ((Edit.apply config (.deleteEntry container key)).get container) := by
  rw [Edit.apply, Edit.applyWithout]
  match hget : config.get container with
  | none => simp [project, huser, hget]
  | some (.object members) =>
      have hdelete : (members.delete key).without (keysOf added container) =
          (members.without (keysOf added container)).delete key := by
        rw [InsertionMap.without_delete, InsertionMap.delete_without]
      simp only [InsertionMap.get_set_self]
      rw [project, hdelete]
      rw [hget, project] at huser
      split at huser
      next hempty =>
        have hkeys : ((members.without (keysOf added container)).delete key).keys = [] := by
          rw [InsertionMap.keys_delete, hempty.2]
          rfl
        rw [if_pos ⟨hempty.1, hkeys⟩]
        simp only [huser]
      next =>
        simp only [huser]
        split
        · exact InsertionMap.get_delete_self ..
        · exact InsertionMap.get_set_self ..
  | some (.array items) => simp [project, huser, hget]
  | some (.scalar v) => simp [project, huser, hget]
  | some (.pairs entries) => simp [project, huser, hget]
  | some (.names containers) => simp [project, huser, hget]
  | some .created => simp [project, huser, hget]

/-- An edit of a container does the same in both worlds. -/
theorem Edit.project_apply {user : Config ν} {e : Edit ν} (he : e.container = container)
    (huser : user.get container = project created added container (config.get container))
    (hcreated : container ∈ created → ∃ key, (container, key) ∈ added)
    (hobject : ∀ key, (container, key) ∈ added →
      ∃ members, config.get container = some (.object members))
    (hforeign : e.Foreign added) :
    (e.applyWithout created user).get container =
      project created added container ((e.apply config).get container) := by
  cases e with
  | set key value =>
      obtain rfl : key = container := he
      have hnot : key ∉ created := fun h => (hcreated h).elim fun k hk => hforeign _ hk rfl
      rw [Edit.apply, Edit.applyWithout, Edit.apply, InsertionMap.get_set_self,
        InsertionMap.get_set_self, project_of_notAdded hnot hforeign]
      exact nofun
  | delete key =>
      obtain rfl : key = container := he
      rw [Edit.apply, Edit.applyWithout, Edit.apply, InsertionMap.get_delete_self,
        InsertionMap.get_delete_self]
      · rfl
      · exact nofun
  | setEntry c key value =>
      obtain rfl : c = container := he
      exact project_setEntry huser hcreated hobject hforeign
  | deleteEntry c key =>
      obtain rfl : c = container := he
      exact project_deleteEntry huser

/-- A container that entries were added to stays an object. -/
theorem Edit.apply_object {e : Edit ν} {members : Object ν} (he : e.container = container)
    (hkey : (container, key) ∈ added) (hforeign : e.Foreign added)
    (hmembers : config.get container = some (.object members)) :
    ∃ members, (e.apply config).get container = some (.object members) := by
  cases e with
  | set c value => exact absurd he.symm (hforeign _ hkey)
  | delete c => exact absurd he.symm (hforeign _ hkey)
  | setEntry c key' value =>
      obtain rfl : c = container := he
      rw [Edit.apply, hmembers]
      exact ⟨_, InsertionMap.get_set_self ..⟩
  | deleteEntry c key' =>
      obtain rfl : c = container := he
      rw [Edit.apply, hmembers]
      exact ⟨_, InsertionMap.get_set_self ..⟩

theorem World.Inv.edit (h : w.Inv) {e : Edit ν} (hallowed : (Label.edit e).Allowed w)
    (hplain : (Label.edit e).Plain w) :
    World.Inv { w with config := e.apply w.config, user := e.applyWithout w.created w.user } := by
  obtain ⟨hproto, hunmarked⟩ := not_or.mp (List.mem_cons.not.mp hplain)
  have hmarker : ∀ marker ∈ markers, (e.apply w.config).get marker = w.config.get marker :=
    fun marker hmem => Edit.apply_other fun heq => hunmarked (heq ▸ hmem)
  exact {
    user := by
      intro container
      by_cases heq : container = e.container
      · subst heq
        have huser := h.user e.container
        rw [if_neg hunmarked] at huser ⊢
        exact Edit.project_apply rfl huser (h.created _) (fun key hkey => (h.objects _ hkey).2)
          hallowed
      · change (e.applyWithout w.created w.user).get container =
          if container ∈ markers then none
          else project w.created w.added container ((e.apply w.config).get container)
        rw [Edit.applyWithout_other heq, Edit.apply_other heq]
        exact h.user container
    recorded := by
      intro p
      rw [recordedEntries, hmarker _ (by decide)]
      exact h.recorded p
    createdContainers := by
      intro container
      rw [ConfigMerge.createdContainers, hmarker _ (by decide)]
      exact h.createdContainers container
    unowned := (hmarker _ (by decide)).trans h.unowned
    plain := (Edit.apply_other (Ne.symm hproto)).trans h.plain
    objects := by
      rintro ⟨container, key⟩ hp
      obtain ⟨hcontainer, members, hmembers⟩ := h.objects _ hp
      refine ⟨hcontainer, ?_⟩
      by_cases heq : container = e.container
      · subst heq
        exact Edit.apply_object rfl hp hallowed hmembers
      · exact ⟨members, (Edit.apply_other heq).trans hmembers⟩
    created := h.created }

/-! ## Merges -/

section

variable {existing : Config ν} {additions : Additions ν} {s : Merge ν}
  {as : List (Text × Object ν)}

theorem foldl_mergeContainer_merged (hproto : PROTO ∉ as.map Prod.fst) :
    (as.foldl (mergeContainer existing) s).merged =
      s.merged.setAll (as.map fun a => (a.1, .object (extended existing a))) := by
  induction as generalizing s with
  | nil => rfl
  | cons a as ih =>
      rw [List.map_cons, List.mem_cons, not_or] at hproto
      rw [List.foldl_cons, ih hproto.2, mergeContainer, assign_of_ne (Ne.symm hproto.1)]
      rfl

theorem foldl_mergeContainer_entries :
    (as.foldl (mergeContainer existing) s).entries =
      s.entries.setAll ((as.flatMap fun a => a.2.keys.map fun key => (a.1, key)).map
        fun p => (joined p, p)) := by
  induction as generalizing s with
  | nil => rfl
  | cons a as ih =>
      have hone : (mergeContainer existing s a).entries =
          s.entries.setAll ((a.2.keys.map fun key => (a.1, key)).map fun p => (joined p, p)) := by
        rw [← a.2.entries_keys, InsertionMap.setAll, List.foldl_map, List.foldl_map, List.foldl_map]
        rfl
      rw [List.foldl_cons, ih, hone, List.flatMap_cons, List.map_append]
      exact List.foldl_append.symm

theorem mem_foldl_mergeContainer_created :
    container ∈ (as.foldl (mergeContainer existing) s).created ↔
      container ∈ s.created ∨ container ∈ as.map Prod.fst ∧ existing.has container = false := by
  induction as generalizing s with
  | nil => simp
  | cons a as ih =>
      have hone : container ∈ (mergeContainer existing s a).created ↔
          container ∈ s.created ∨ container = a.1 ∧ existing.has container = false := by
        rw [mergeContainer]
        by_cases heq : container = a.1
        · subst heq
          split
          next hhas => simp [hhas]
          next hhas =>
            split
            next hmem => simp [hmem]
            next => simp [hhas]
        · split
          · simp [heq]
          · split <;> simp [heq]
      rw [List.foldl_cons, ih, hone, List.map_cons, List.mem_cons]
      tauto

theorem mem_merge_entries {createdFile : Bool} (hinj : Set.InjOn joined
    {p | p ∈ recordedEntries existing ++ additions.pairs}) (p : Text × Text) :
    p ∈ (additions.entries.foldl (mergeContainer existing)
      (.start existing createdFile)).entries.entries.map Prod.snd ↔
      p ∈ recordedEntries existing ∨ p ∈ additions.pairs := by
  have hall : (additions.entries.foldl (mergeContainer existing)
      (.start existing createdFile)).entries = InsertionMap.empty.setAll
        ((recordedEntries existing ++ additions.pairs).map fun p => (joined p, p)) := by
    have hstart : (Merge.start existing createdFile).entries =
        InsertionMap.empty.setAll ((recordedEntries existing).map fun p => (joined p, p)) := by
      rw [InsertionMap.setAll, List.foldl_map]
      rfl
    rw [foldl_mergeContainer_entries, hstart, List.map_append]
    exact List.foldl_append.symm
  rw [hall, ← List.mem_append, List.mem_map]
  constructor
  · rintro ⟨⟨name, q⟩, hmem, rfl⟩
    exact ((InsertionMap.setAll_named hinj name q).mp (InsertionMap.mem_entries.mp hmem)).1
  · intro hp
    exact ⟨(joined p, p),
      InsertionMap.mem_entries.mpr ((InsertionMap.setAll_named hinj _ p).mpr ⟨hp, rfl⟩), rfl⟩

theorem mem_merge_created {createdFile : Bool} :
    container ∈ (additions.entries.foldl (mergeContainer existing)
      (.start existing createdFile)).created ↔
      container ∈ createdContainers existing ∨ container ∈ additions.missing existing := by
  rw [mem_foldl_mergeContainer_created, additions.entries_keys, Additions.missing, List.mem_filter,
    Bool.not_eq_eq_eq_not, Bool.not_true, Merge.start, List.mem_dedup]

/-- What the merged members hold before the records are written. -/
theorem merge_merged_get {createdFile : Bool} (hproto : PROTO ∉ additions.keys) :
    (additions.entries.foldl (mergeContainer existing) (.start existing createdFile)).merged.get
      container = match additions.get container with
        | none => if createdFile = true ∧ container = CREATED_FILE then some .created
            else existing.get container
        | some values => some (.object (extended existing (container, values))) := by
  have hkeys : (additions.entries.map fun a => (a.1, Value.object (extended existing a))).map
      Prod.fst = additions.keys := by
    rw [← additions.entries_keys, List.map_map]
    rfl
  rw [foldl_mergeContainer_merged (additions.entries_keys ▸ hproto), InsertionMap.setAll_get]
  cases hget : additions.get container with
  | none =>
      rw [visit_of_notMem (by rw [hkeys]; exact InsertionMap.get_eq_none.mp hget), Merge.start]
      by_cases hfile : createdFile = true
      · rw [if_pos hfile, assign_of_ne (by decide)]
        by_cases heq : container = CREATED_FILE
        · rw [if_pos ⟨hfile, heq⟩, heq, InsertionMap.get_set_self]
        · rw [if_neg fun h => heq h.2, InsertionMap.get_set_of_ne _ heq]
      · rw [if_neg hfile, if_neg fun h => hfile h.1]
  | some values =>
      have hmem : (container, Value.object (extended existing (container, values))) ∈
          additions.entries.map fun a => (a.1, Value.object (extended existing a)) :=
        List.mem_map.mpr ⟨(container, values), InsertionMap.mem_entries.mpr hget, rfl⟩
      exact visit_of_mem (hkeys ▸ additions.nodup) hmem

/-- What a merge makes of a member that is not a record. -/
theorem mergeOwnedEntries_get {createdFile : Bool} (hproto : PROTO ∉ additions.keys)
    (hrecord : container ∉ [ENTRY_MARKER, CREATED_MARKER, CREATED_FILE]) :
    (mergeOwnedEntries pairLe nameLe existing additions createdFile).get container =
      match additions.get container with
      | none => existing.get container
      | some values => some (.object (extended existing (container, values))) := by
  simp only [List.mem_cons, List.not_mem_nil, or_false, not_or] at hrecord
  have hentries : ∀ (config : Config ν) (v : Value ν),
      (assign config ENTRY_MARKER v).get container = config.get container := by
    intro config v
    rw [assign_of_ne (by decide), InsertionMap.get_set_of_ne _ hrecord.1]
  have hcreated : ∀ (config : Config ν) (v : Value ν),
      (assign config CREATED_MARKER v).get container = config.get container := by
    intro config v
    rw [assign_of_ne (by decide), InsertionMap.get_set_of_ne _ hrecord.2.1]
  have hmerged := @merge_merged_get ν container existing additions createdFile hproto
  simp only [hrecord.2.2, and_false, if_false] at hmerged
  rw [mergeOwnedEntries]
  split
  · rw [hentries, hmerged]
  · rw [hcreated, hentries, hmerged]

theorem recordedEntries_merge {createdFile : Bool} (hinj : Set.InjOn joined
    {p | p ∈ recordedEntries existing ++ additions.pairs}) (p : Text × Text) :
    p ∈ recordedEntries (mergeOwnedEntries pairLe nameLe existing additions createdFile) ↔
      p ∈ recordedEntries existing ∨ p ∈ additions.pairs := by
  have hget : (mergeOwnedEntries pairLe nameLe existing additions createdFile).get ENTRY_MARKER =
      some (.pairs (((additions.entries.foldl (mergeContainer existing)
        (.start existing createdFile)).entries.entries.map Prod.snd).mergeSort pairLe)) := by
    rw [mergeOwnedEntries]
    split
    · rw [assign_of_ne (by decide), InsertionMap.get_set_self]
    · rw [assign_of_ne (by decide), InsertionMap.get_set_of_ne _ (by decide),
        assign_of_ne (by decide), InsertionMap.get_set_self]
  rw [recordedEntries, hget]
  exact List.mem_mergeSort.trans (mem_merge_entries hinj p)

theorem createdContainers_merge {createdFile : Bool} (hproto : PROTO ∉ additions.keys)
    (hadded : CREATED_MARKER ∉ additions.keys) :
    container ∈ createdContainers (mergeOwnedEntries pairLe nameLe existing additions createdFile) ↔
      container ∈ createdContainers existing ∨ container ∈ additions.missing existing := by
  have hmem := @mem_merge_created ν container existing additions createdFile
  rw [← hmem, mergeOwnedEntries]
  split
  next hnil =>
    have hmerged := @merge_merged_get ν CREATED_MARKER existing additions createdFile hproto
    have hne : CREATED_MARKER ≠ CREATED_FILE := by decide
    rw [InsertionMap.get_eq_none.mpr hadded] at hmerged
    rw [createdContainers, assign_of_ne (by decide), InsertionMap.get_set_of_ne _ (by decide),
      hmerged, if_neg fun h => hne h.2, hmem]
    rw [hnil] at hmem
    exact ⟨.inl, fun h => absurd (hmem.mpr h) List.not_mem_nil⟩
  next =>
    rw [createdContainers, assign_of_ne (by decide), InsertionMap.get_set_self]
    exact List.mem_mergeSort

/-- What is left when the added entries are left out does not depend on them. -/
theorem extended_without {a : Text × Object ν} {keys : List Text}
    (hkeys : ∀ key ∈ a.2.keys, key ∈ keys) :
    (extended existing a).without keys = (spread (existing.get a.1)).without keys := by
  have hall : ∀ (es : List (Text × ν)) (members : Object ν), (∀ e ∈ es, e.1 ∈ keys) →
      (es.foldl (fun members e => assign members e.1 e.2) members).without keys =
        members.without keys := by
    intro es
    induction es with
    | nil => exact fun _ _ => rfl
    | cons e es ih =>
        intro members hes
        rw [List.forall_mem_cons] at hes
        rw [List.foldl_cons, ih _ hes.2, assign]
        split
        · rfl
        · exact members.without_set_of_mem hes.1 _
  refine hall _ _ fun e he => hkeys _ ?_
  rw [← a.2.entries_keys]
  exact List.mem_map_of_mem he

theorem mem_pairs {p : Text × Text} :
    p ∈ additions.pairs ↔ ∃ values, additions.get p.1 = some values ∧ p.2 ∈ values.keys := by
  rw [Additions.pairs, List.mem_flatMap]
  constructor
  · rintro ⟨a, ha, hp⟩
    obtain ⟨key, hkey, rfl⟩ := List.mem_map.mp hp
    exact ⟨a.2, InsertionMap.mem_entries.mp ha, hkey⟩
  · rintro ⟨values, hvalues, hkey⟩
    exact ⟨(p.1, values), InsertionMap.mem_entries.mpr hvalues, List.mem_map.mpr ⟨p.2, hkey, rfl⟩⟩

theorem mem_missing :
    container ∈ additions.missing existing ↔
      container ∈ additions.keys ∧ existing.get container = none := by
  rw [Additions.missing, List.mem_filter, Bool.not_eq_eq_eq_not, Bool.not_true, InsertionMap.has,
    Option.isSome_eq_false_iff, Option.isNone_iff_eq_none]

/-- A merge changes nothing that is left when the added entries are left out. -/
theorem project_merge {createdFile : Bool}
    (hallowed : (Label.merge additions createdFile).Allowed ⟨existing, config, added, created⟩)
    (hproto : PROTO ∉ additions.keys)
    (hrecord : container ∉ [ENTRY_MARKER, CREATED_MARKER, CREATED_FILE]) :
    project (created ++ additions.missing existing) (added ++ additions.pairs) container
        ((mergeOwnedEntries pairLe nameLe existing additions createdFile).get container) =
      project created added container (existing.get container) := by
  rw [mergeOwnedEntries_get pairLe nameLe hproto hrecord]
  cases hget : additions.get container with
  | none =>
      have hnot : container ∉ additions.keys := InsertionMap.get_eq_none.mp hget
      refine project_congr ?_ (fun key => ?_) _
      · rw [List.mem_append, or_iff_left fun h => hnot (mem_missing.mp h).1]
      · rw [List.mem_append, or_iff_left]
        intro h
        obtain ⟨values, hvalues, -⟩ := mem_pairs.mp h
        cases hget.symm.trans hvalues
  | some values =>
      obtain ⟨-, hobject, hnew⟩ := hallowed (container, values) (InsertionMap.mem_entries.mpr hget)
      have hkeys : ∀ key, key ∈ keysOf (added ++ additions.pairs) container ↔
          key ∈ keysOf added container ∨ key ∈ values.keys := by
        intro key
        rw [mem_keysOf, mem_keysOf, List.mem_append, mem_pairs]
        refine or_congr_right ⟨?_, fun h => ⟨values, hget, h⟩⟩
        rintro ⟨values', hvalues', hkey⟩
        cases hget.symm.trans hvalues'
        exact hkey
      have hleft : (extended existing (container, values)).without
          (keysOf (added ++ additions.pairs) container) =
            (spread (existing.get container)).without (keysOf added container) := by
        rw [extended_without fun key hkey => (hkeys key).mpr (.inr hkey)]
        refine InsertionMap.without_congr _ fun key hmem => ?_
        rw [hkeys, or_iff_left_of_imp]
        exact fun hkey => mem_keysOf.mpr ((hnew key hkey).resolve_right fun h => h hmem)
      change project _ _ container (some (.object (extended existing (container, values)))) = _
      rw [project, hleft]
      obtain hnone | ⟨members, hmembers⟩ := hobject
      · have hmissing : container ∈ additions.missing existing :=
          mem_missing.mpr ⟨InsertionMap.has_iff.mp (has_of_get hget), hnone⟩
        rw [if_pos ⟨List.mem_append_right _ hmissing, by rw [hnone]; rfl⟩, hnone]
        rfl
      · have hcreated : container ∈ created ++ additions.missing existing ↔ container ∈ created := by
          rw [List.mem_append, or_iff_left]
          intro h
          cases (mem_missing.mp h).2.symm.trans hmembers
        rw [hmembers, project]
        simp only [hcreated, spread]

theorem World.Inv.merge (h : w.Inv) {createdFile : Bool}
    (hallowed : (Label.merge additions createdFile).Allowed w)
    (hplain : (Label.merge additions createdFile).Plain w) :
    (w.apply pairLe nameLe (.merge additions createdFile)).Inv := by
  obtain ⟨hnames, hinj⟩ := hplain
  have hproto : PROTO ∉ additions.keys := fun hmem => hnames _ hmem (List.mem_cons_self ..)
  have hmarkers : ∀ marker ∈ markers, marker ∉ additions.keys :=
    fun marker hmarker hmem => hnames _ hmem (List.mem_cons_of_mem _ hmarker)
  have hrecorded : Set.InjOn joined {p | p ∈ recordedEntries w.config ++ additions.pairs} := by
    refine hinj.mono fun p hp => ?_
    change p ∈ recordedEntries w.config ++ additions.pairs at hp
    rw [List.mem_append, h.recorded] at hp
    exact List.mem_append.mpr hp
  have hsub : ∀ name, name ∈ [ENTRY_MARKER, CREATED_MARKER, CREATED_FILE] → name ∈ markers :=
    fun name => List.mem_cons_of_mem _
  have hkept : ∀ name, name ∉ [ENTRY_MARKER, CREATED_MARKER, CREATED_FILE] →
      name ∉ additions.keys →
      (mergeOwnedEntries pairLe nameLe w.config additions createdFile).get name =
        w.config.get name := by
    intro name hrecord hnot
    rw [mergeOwnedEntries_get pairLe nameLe hproto hrecord, InsertionMap.get_eq_none.mpr hnot]
  exact {
    user := by
      intro container
      rw [World.apply, h.user]
      split
      · rfl
      next hnot => exact (project_merge pairLe nameLe hallowed hproto fun hmem => hnot (hsub _ hmem)).symm
    recorded := by
      intro p
      rw [World.apply, recordedEntries_merge pairLe nameLe hrecorded, h.recorded, List.mem_append]
    createdContainers := by
      intro container
      rw [World.apply, createdContainers_merge pairLe nameLe hproto (hmarkers _ (by decide)),
        h.createdContainers, List.mem_append]
    unowned := (hkept MARKER (by decide) (hmarkers _ (by decide))).trans h.unowned
    plain := (hkept PROTO (by decide) hproto).trans h.plain
    objects := by
      rintro ⟨container, key⟩ hp
      cases hget : additions.get container with
      | none =>
          have hold : (container, key) ∈ w.added := by
            refine (List.mem_append.mp hp).resolve_right fun hmem => ?_
            obtain ⟨values, hvalues, -⟩ := mem_pairs.mp hmem
            cases hget.symm.trans hvalues
          obtain ⟨hcontainer, members, hmembers⟩ := h.objects _ hold
          refine ⟨hcontainer, members, ?_⟩
          exact (hkept container (fun hmem => hcontainer (hsub _ hmem))
            (InsertionMap.get_eq_none.mp hget)).trans hmembers
      | some values =>
          have hcontainer : container ∉ markers :=
            fun hmem => hmarkers _ hmem (InsertionMap.has_iff.mp (has_of_get hget))
          refine ⟨hcontainer, extended w.config (container, values), ?_⟩
          rw [World.apply, mergeOwnedEntries_get pairLe nameLe hproto fun hmem => hcontainer (hsub _ hmem),
            hget]
    created := by
      intro container hmem
      rcases List.mem_append.mp hmem with hold | hnew
      · obtain ⟨key, hkey⟩ := h.created container hold
        exact ⟨key, List.mem_append_left _ hkey⟩
      · obtain ⟨values, hvalues⟩ := Option.isSome_iff_exists.mp
          ((additions.mem_keys container).mp (mem_missing.mp hnew).1)
        obtain ⟨hne, -⟩ := hallowed (container, values) (InsertionMap.mem_entries.mpr hvalues)
        obtain ⟨key, hkey⟩ := List.exists_mem_of_ne_nil _ hne
        exact ⟨key, List.mem_append_right _ (mem_pairs.mpr ⟨values, hvalues, hkey⟩)⟩ }

end

/-! ## Runs -/

theorem World.Inv.step (h : w.Inv) {label : Label ν} (hplain : label.Plain w)
    (hstep : World.Step pairLe nameLe w label w') : w'.Inv := by
  obtain ⟨hallowed, rfl⟩ := hstep
  cases label with
  | merge additions createdFile => exact h.merge pairLe nameLe hallowed hplain
  | edit e => exact h.edit hallowed hplain

/-- Taking the entries out after any run gives the configuration that the user's own
edits make. -/
theorem removed_run {base : Config ν} {labels : List (Label ν)}
    (hbase : ∀ marker ∈ markers, base.get marker = none) (hproto : base.get PROTO = none)
    (hrun : Run (Where (World.Step pairLe nameLe) fun w label => label.Plain w)
      (World.initial base) labels w) (container : Text) :
    (removeOwnedEntries w.config).get container = w.user.get container := by
  have hinv : w.Inv := hrun.invariant (fun _ _ _ h hstep => h.step pairLe nameLe hstep.1 hstep.2)
    (inv_initial hbase hproto)
  exact hinv.removed container

/-- A member that the user names `__proto__` is lost. -/
theorem removeOwnedConfig_proto (config : Config ν) : (removeOwnedConfig config).get PROTO = none := by
  have hassign : ∀ (result : Config ν) (k : Text) (v : Value ν), result.get PROTO = none →
      (assign result k v).get PROTO = none := by
    intro result k v hnone
    by_cases hk : k = PROTO
    · subst hk
      rw [assign, if_pos ⟨rfl, by rw [InsertionMap.has, hnone]; rfl⟩]
      exact hnone
    · rw [assign_of_ne hk, InsertionMap.get_set_of_ne _ (Ne.symm hk)]
      exact hnone
  refine List.foldlRecOn (motive := fun result : Config ν => result.get PROTO = none) _ _ rfl ?_
  intro result hnone e _
  by_cases hkept : e.1 ≠ MARKER ∧ e.1 ∉ ownedNames config
  · exact (if_pos hkept).symm ▸ hassign result e.1 e.2 hnone
  · exact (if_neg hkept).symm ▸ hnone

/-! ## A run -/

def settings : Config ℕ := InsertionMap.empty.set "theme".toList (.scalar 1)

def stopHook : Additions ℕ :=
  InsertionMap.empty.set "hooks".toList (InsertionMap.empty.set "Stop".toList 2)

def installed (base : Config ℕ) : World ℕ :=
  (World.initial base).apply (fun _ _ => true) (fun _ _ => true) (.merge stopHook true)

def ownHook : Edit ℕ := .setEntry "hooks".toList "Start".toList 3

def edited (base : Config ℕ) : World ℕ :=
  (installed base).apply (fun _ _ => true) (fun _ _ => true) (.edit ownHook)

theorem installed_step {base : Config ℕ} (hhooks : base.get "hooks".toList = none) :
    World.Step (fun _ _ => true) (fun _ _ => true) (World.initial base) (.merge stopHook true)
      (installed base) := by
  refine ⟨fun a ha => ?_, rfl⟩
  obtain rfl := List.mem_singleton.mp ha
  refine ⟨by decide, .inl hhooks, fun key _ => .inr ?_⟩
  change key ∉ (spread (base.get "hooks".toList)).keys
  rw [hhooks]
  exact List.not_mem_nil

/-- The container that the installation made stays, with the user's entry. -/
theorem removed_run_settings :
    (removeOwnedEntries (edited settings).config).get "hooks".toList =
      some (.object (InsertionMap.empty.set "Start".toList 3)) := by
  have hinjective : Set.InjOn joined {p | p ∈ [] ++ stopHook.pairs} := by
    intro p hp q hq _
    obtain rfl := List.mem_singleton.mp hp
    exact (List.mem_singleton.mp hq).symm
  have hinstall : Run (Where (World.Step (fun _ _ => true) (fun _ _ => true))
      fun w label => label.Plain w) (World.initial settings) [.merge stopHook true]
        (installed settings) :=
    .single ⟨⟨by decide, hinjective⟩, installed_step rfl⟩
  have hrun : Run (Where (World.Step (fun _ _ => true) (fun _ _ => true))
      fun w label => label.Plain w) (World.initial settings)
        ([.merge stopHook true] ++ [.edit ownHook]) (edited settings) := by
    refine .snoc hinstall ⟨?_, ?_, rfl⟩
    · exact (by decide : ownHook.container ∉ PROTO :: markers)
    · exact (by decide : ("hooks".toList, "Start".toList) ∉ [] ++ stopHook.pairs)
  exact removed_run _ _ (by decide) rfl hrun "hooks".toList

theorem removeOwnedEntries_drops_proto :
    ¬ ∀ (base : Config ℕ) (labels : List (Label ℕ)) (w : World ℕ),
      (∀ marker ∈ markers, base.get marker = none) →
      Run (World.Step (fun _ _ => true) (fun _ _ => true)) (World.initial base) labels w →
      ∀ container, (removeOwnedEntries w.config).get container = w.user.get container := by
  intro h
  have hlost := h (InsertionMap.empty.set PROTO (.scalar 1)) [.merge stopHook true] (installed _)
    (by decide) (.single (installed_step rfl)) PROTO
  rw [removeOwnedEntries, removeOwnedConfig_proto] at hlost
  cases hlost

end Acc.AdapterSdk.ConfigMerge
