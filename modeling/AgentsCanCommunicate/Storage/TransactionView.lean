import AgentsCanCommunicate.Library.InsertionMap
import AgentsCanCommunicate.Protocol.Ids

/-!
# The view of a transaction

A transaction declares the kinds it reads.  The records of an eager kind are read
before the callback runs, those of an exact kind one by one as the callback loads
them.  What the callback writes is staged, and published when it is done.

A callback is a program of the calls it makes.  A load begins a read and the
program goes on; the read comes back at some time, at the latest when the program
waits for it.  A read that is under way is shared by all the loads that wait for
it, and they all go on before the program does.

The overlay is the plain reading of a transaction: a map of the records that each
write changes at once.
-/

namespace Acc.Storage.Transaction

open Library (InsertionMap)

/-- A kind and an identifier. -/
abbrev Key := String × String

structure Envelope (ρ γ : Type) where
  record : ρ
  generation : γ
deriving DecidableEq

/-- The records of a store, in the order of its listing.  Their names are file
names. -/
structure StateRecords (ρ γ : Type) extends InsertionMap Key (Envelope ρ γ) where
  portable : ∀ k ∈ keys, isPortableId k.1 = true ∧ isPortableId k.2 = true

/-- An entry of the staged map. -/
inductive Staged (ρ γ : Type) where
  | written (envelope : Envelope ρ γ)
  | removed (generation : γ)

def Staged.envelope {ρ γ : Type} : Staged ρ γ → Option (Envelope ρ γ)
  | .written envelope => some envelope
  | .removed _ => none

/-- What a transaction is given from outside. -/
structure Ports (ρ γ ε : Type) where
  workspaceId : String
  workspaceOf : ρ → String
  validateRecord : String → ρ → Result Unit
  validateEvent : ε → Result Unit
  /-- The generations, in the order in which they are handed out. -/
  generations : Nat → γ

/-! ## Programs -/

/-- A callback.  A load is answered with a number to wait on. -/
inductive Program (ρ γ ε α : Type) where
  | done (value : α)
  | throw (e : AccError)
  | load (key : Key) (next : Nat → Program ρ γ ε α)
  | await (load : Nat) (next : Result (Option ρ) → Program ρ γ ε α)
  | get (key : Key) (next : Result (Option ρ) → Program ρ γ ε α)
  | generationOf (key : Key) (next : Result (Option γ) → Program ρ γ ε α)
  | list (kind : String) (next : Result (List ρ) → Program ρ γ ε α)
  | put (key : Key) (record : ρ) (expected : Option γ) (next : Result γ → Program ρ γ ε α)
  | remove (key : Key) (expected : Option γ) (next : Result Unit → Program ρ γ ε α)
  | append (event : ε) (next : Result Unit → Program ρ γ ε α)

/-! ## Errors -/

def undeclared (kind : String) : AccError :=
  ⟨.data, s!"this transaction did not declare {kind}, so it was never read"⟩

def unloaded : AccError := ⟨.data, "an exact transaction record must be loaded before access"⟩

def unlistable : AccError := ⟨.data, "an exact transaction kind cannot be listed"⟩

def changed (key : Key) : AccError :=
  ⟨.conflict, s!"{key.1} {key.2} changed under this transaction"⟩

def foreign : AccError := ⟨.data, "state record belongs to a different workspace"⟩

/-- A number that no load was answered with. -/
def unknownLoad : AccError := ⟨.usage, "there is no such load"⟩

/-! ## The view -/

/-- A load that waits for its read, or what it was answered. -/
inductive Load (ρ γ : Type) where
  | waiting (key : Key) (read : Result (Option (Envelope ρ γ)))
  | settled (answer : Result (Option ρ))

structure View (ρ γ ε : Type) where
  wanted : Option (List String)
  exact : List String
  store : StateRecords ρ γ
  loaded : InsertionMap Key (Option (Envelope ρ γ))
  staged : InsertionMap Key (Staged ρ γ)
  loads : List (Load ρ γ)
  /-- A read that was refused. -/
  failed : Option AccError
  events : List ε
  issued : Nat

variable {ρ γ ε α : Type}

namespace View

variable (v : View ρ γ ε) (ports : Ports ρ γ ε)

def declared (kind : String) : Result Unit :=
  refuse ((v.wanted.any fun kinds => kind ∉ kinds) = true) (undeclared kind)

def loadedId (key : Key) : Result Unit := do
  v.declared key.1
  refuse (key.1 ∈ v.exact ∧ v.loaded.has key = false) unloaded

def entryFor (key : Key) : Option (Envelope ρ γ) :=
  match v.staged.get key with
  | some entry => entry.envelope
  | none => (v.loaded.get key).join

/-- `loadEnvelope`. -/
def readStateEnvelope (key : Key) : Result (Option (Envelope ρ γ)) :=
  match v.store.get key with
  | none => .ok none
  | some envelope =>
      if ports.workspaceOf envelope.record = ports.workspaceId then .ok (some envelope)
      else .error foreign

/-- A read, as far as it goes without waiting. -/
def read (key : Key) : Load ρ γ :=
  if isPortableId key.1 = false then .settled (.error ⟨.data, "invalid record kind"⟩)
  else if isPortableId key.2 = false then .settled (.error ⟨.data, "invalid record id"⟩)
  else if v.staged.has key = true then .waiting key (.ok (v.entryFor key))
  else if key.1 ∉ v.exact then .waiting key (.ok none)
  else .waiting key (v.readStateEnvelope ports key)

def Load.failure : Load ρ γ → Option AccError
  | .waiting _ (.error e) => some e
  | _ => none

def load (key : Key) : View ρ γ ε :=
  let begun := match v.declared key.1 with
    | .error e => .settled (.error e)
    | .ok _ =>
        if v.loaded.has key = true then .settled (.ok ((v.entryFor key).map Envelope.record))
        else v.read ports key
  { v with
    loads := v.loads ++ [begun]
    failed := v.failed.or (Load.failure begun) }

/-- The loads that wait for the record go on, in the order in which they were
made. -/
def settleLoads (staged : InsertionMap Key (Staged ρ γ)) (key : Key) :
    InsertionMap Key (Option (Envelope ρ γ)) → List (Load ρ γ) →
      InsertionMap Key (Option (Envelope ρ γ)) × List (Load ρ γ)
  | loaded, [] => (loaded, [])
  | loaded, .waiting k read :: rest =>
      if k = key then
        match read with
        | .error e =>
            let after := settleLoads staged key loaded rest
            (after.1, .settled (.error e) :: after.2)
        | .ok envelope =>
            let now := loaded.set key envelope
            let entry := match staged.get key with
              | some entry => entry.envelope
              | none => (now.get key).join
            let after := settleLoads staged key now rest
            (after.1, .settled (.ok (entry.map Envelope.record)) :: after.2)
      else
        let after := settleLoads staged key loaded rest
        (after.1, .waiting k read :: after.2)
  | loaded, .settled answer :: rest =>
      let after := settleLoads staged key loaded rest
      (after.1, .settled answer :: after.2)

/-- The read of a record comes back. -/
def settle (key : Key) : View ρ γ ε :=
  let after := settleLoads v.staged key v.loaded v.loads
  { v with loaded := after.1, loads := after.2 }

/-- The program waits for a load. -/
def await (load : Nat) : View ρ γ ε × Result (Option ρ) :=
  let now := match v.loads[load]? with
    | some (.waiting key _) => v.settle key
    | _ => v
  (now, match now.loads[load]? with
    | some (.settled answer) => answer
    | _ => .error unknownLoad)

def get (key : Key) : Result (Option ρ) := do
  v.loadedId key
  pure ((v.entryFor key).map Envelope.record)

def generationOf (key : Key) : Result (Option γ) := do
  v.loadedId key
  pure ((v.entryFor key).map Envelope.generation)

/-- The loaded entries of a kind, and over them the staged ones. -/
def merged (kind : String) : InsertionMap Key (Staged ρ γ) :=
  let ofLoaded := v.loaded.entries.filterMap fun e =>
    if e.1.1 = kind then e.2.map fun envelope => (e.1, Staged.written envelope) else none
  (InsertionMap.empty.setAll ofLoaded).setAll (v.staged.entries.filter fun e => e.1.1 = kind)

def list (kind : String) : Result (List ρ) := do
  v.declared kind
  refuse (kind ∈ v.exact) unlistable
  pure ((v.merged kind).entries.filterMap fun e => e.2.envelope.map Envelope.record)

section

variable [DecidableEq γ]

def put (key : Key) (record : ρ) (expected : Option γ) : View ρ γ ε × Result γ :=
  match (do
    v.loadedId key
    refuse ((v.entryFor key).map Envelope.generation ≠ expected) (changed key)
    ports.validateRecord key.1 record : Result Unit) with
  | .error e => (v, .error e)
  | .ok _ =>
      let generation := ports.generations v.issued
      ({ v with
        staged := v.staged.set key (.written ⟨record, generation⟩)
        issued := v.issued + 1 }, .ok generation)

def remove (key : Key) (expected : Option γ) : View ρ γ ε × Result Unit :=
  match (do
    v.loadedId key
    refuse ((v.entryFor key).map Envelope.generation ≠ expected) (changed key) : Result Unit) with
  | .error e => (v, .error e)
  | .ok _ =>
      match (v.loaded.get key).join with
      | none => ({ v with staged := v.staged.delete key }, .ok ())
      | some persisted => ({ v with
          staged := v.staged.set key (.removed persisted.generation) }, .ok ())

end

def append (event : ε) : View ρ γ ε × Result Unit :=
  match ports.validateEvent event with
  | .error e => (v, .error e)
  | .ok _ => ({ v with events := v.events ++ [event] }, .ok ())

/-! ## A transaction -/

/-- The callback runs.  Before each call the reads that the schedule names come
back. -/
def run [DecidableEq γ] (ports : Ports ρ γ ε) (schedule : Nat → List Key) :
    View ρ γ ε → Nat → Program ρ γ ε α → View ρ γ ε × Result α
  | v, _, .done value => (v, .ok value)
  | v, _, .throw e => (v, .error e)
  | v, n, .load key next =>
      let v := (schedule n).foldl settle v
      run ports schedule (v.load ports key) (n + 1) (next v.loads.length)
  | v, n, .await load next =>
      let v := (schedule n).foldl settle v
      run ports schedule (v.await load).1 (n + 1) (next (v.await load).2)
  | v, n, .get key next =>
      let v := (schedule n).foldl settle v
      run ports schedule v (n + 1) (next (v.get key))
  | v, n, .generationOf key next =>
      let v := (schedule n).foldl settle v
      run ports schedule v (n + 1) (next (v.generationOf key))
  | v, n, .list kind next =>
      let v := (schedule n).foldl settle v
      run ports schedule v (n + 1) (next (v.list kind))
  | v, n, .put key record expected next =>
      let v := (schedule n).foldl settle v
      run ports schedule (v.put ports key record expected).1 (n + 1)
        (next (v.put ports key record expected).2)
  | v, n, .remove key expected next =>
      let v := (schedule n).foldl settle v
      run ports schedule (v.remove key expected).1 (n + 1) (next (v.remove key expected).2)
  | v, n, .append event next =>
      let v := (schedule n).foldl settle v
      run ports schedule (v.append ports event).1 (n + 1) (next (v.append ports event).2)

end View

/-- What a transaction leaves: what it answers, the records of the store and the
events. -/
structure Outcome (ρ γ ε α : Type) where
  result : Result α
  records : Key → Option (Envelope ρ γ)
  events : List ε

/-- The records after the staged ones are published. -/
def publish (store : StateRecords ρ γ) (staged : InsertionMap Key (Staged ρ γ)) :
    Key → Option (Envelope ρ γ) :=
  Library.visit Prod.fst (fun e _ => e.2.envelope) store.get staged.entries

/-- `transactionKinds`. -/
def transactionKinds (kinds : Option (List String)) (exactKinds : List String) : Result Unit :=
  refuse (∃ kind ∈ exactKinds, (kinds.all fun wanted => kind ∉ wanted) = true)
    ⟨.data, "exactKinds must be a subset of explicit transaction kinds"⟩

/-- The kind is read before the callback runs. -/
def isEager (kinds : Option (List String)) (exactKinds : List String) (kind : String) : Bool :=
  kinds.all fun wanted => kind ∈ wanted ∧ kind ∉ exactKinds

/-- The view that the callback is given. -/
def createTransactionView (kinds : Option (List String)) (exactKinds : List String)
    (store : StateRecords ρ γ) : View ρ γ ε where
  wanted := kinds
  exact := exactKinds
  store := store
  loaded := InsertionMap.empty.setAll ((store.entries.filter fun e =>
    isEager kinds exactKinds e.1.1).map fun e => (e.1, some e.2))
  staged := .empty
  loads := []
  failed := none
  events := []
  issued := 0

/-- A transaction on the store and its event log.  A read that was refused fails
it, also when the callback did not wait for the read. -/
def transaction [DecidableEq γ] (ports : Ports ρ γ ε) (kinds : Option (List String))
    (exactKinds : List String) (store : StateRecords ρ γ) (log : List ε)
    (schedule : Nat → List Key) (program : Program ρ γ ε α) : Outcome ρ γ ε α :=
  match transactionKinds kinds exactKinds with
  | .error e => ⟨.error e, store.get, log⟩
  | .ok _ =>
      let ended := (createTransactionView kinds exactKinds store).run ports schedule 0 program
      match ended.2, ended.1.failed with
      | .error e, _ => ⟨.error e, store.get, log⟩
      | .ok _, some e => ⟨.error e, store.get, log⟩
      | .ok value, none =>
          ⟨.ok value, publish store ended.1.staged, log ++ ended.1.events⟩

/-! ## The overlay -/

/-- A map of the records that each write changes at once.  A record of the store
keeps its place in the order, also while it is removed. -/
structure Overlay (ρ γ ε : Type) where
  wanted : Option (List String)
  order : List Key
  current : Key → Option (Envelope ρ γ)
  answers : List (Key × Result (Option ρ))
  events : List ε
  issued : Nat

namespace Overlay

variable (o : Overlay ρ γ ε) (ports : Ports ρ γ ε)

def of (kinds : Option (List String)) (store : StateRecords ρ γ) : Overlay ρ γ ε :=
  ⟨kinds, store.keys, store.get, [], [], 0⟩

def declared (kind : String) : Result Unit :=
  refuse ((o.wanted.any fun kinds => kind ∉ kinds) = true) (undeclared kind)

def get (key : Key) : Option ρ := (o.current key).map Envelope.record

def generationOf (key : Key) : Option γ := (o.current key).map Envelope.generation

def answer (key : Key) : Result (Option ρ) := do
  o.declared key.1
  refuse (isPortableId key.1 = false) ⟨.data, "invalid record kind"⟩
  refuse (isPortableId key.2 = false) ⟨.data, "invalid record id"⟩
  pure (o.get key)

def load (key : Key) : Overlay ρ γ ε := { o with answers := o.answers ++ [(key, o.answer key)] }

def await (load : Nat) : Result (Option ρ) :=
  match o.answers[load]? with
  | some entry => entry.2
  | none => .error unknownLoad

def list (kind : String) : Result (List ρ) := do
  o.declared kind
  pure ((o.order.filter fun key => key.1 = kind).filterMap o.get)

section

variable [DecidableEq γ]

def put (key : Key) (record : ρ) (expected : Option γ) : Overlay ρ γ ε × Result γ :=
  if o.generationOf key ≠ expected then (o, .error (changed key))
  else
    match ports.validateRecord key.1 record with
    | .error e => (o, .error e)
    | .ok _ =>
        let generation := ports.generations o.issued
        ({ o with
          order := if key ∈ o.order then o.order else o.order ++ [key]
          current := Function.update o.current key (some ⟨record, generation⟩)
          issued := o.issued + 1 }, .ok generation)

def remove (store : StateRecords ρ γ) (key : Key) (expected : Option γ) :
    Overlay ρ γ ε × Result Unit :=
  if o.generationOf key ≠ expected then (o, .error (changed key))
  else ({ o with
    order := if key ∈ store.keys then o.order else o.order.erase key
    current := Function.update o.current key none }, .ok ())

end

def append (event : ε) : Overlay ρ γ ε × Result Unit :=
  match ports.validateEvent event with
  | .error e => (o, .error e)
  | .ok _ => ({ o with events := o.events ++ [event] }, .ok ())

variable [DecidableEq γ]

def run (ports : Ports ρ γ ε) (store : StateRecords ρ γ) :
    Overlay ρ γ ε → Program ρ γ ε α → Overlay ρ γ ε × Result α
  | o, .done value => (o, .ok value)
  | o, .throw e => (o, .error e)
  | o, .load key next => run ports store (o.load key) (next o.answers.length)
  | o, .await load next => run ports store o (next (o.await load))
  | o, .get key next => run ports store o (next (.ok (o.get key)))
  | o, .generationOf key next => run ports store o (next (.ok (o.generationOf key)))
  | o, .list kind next => run ports store o (next (o.list kind))
  | o, .put key record expected next =>
      run ports store (o.put ports key record expected).1 (next (o.put ports key record expected).2)
  | o, .remove key expected next =>
      run ports store (o.remove store key expected).1 (next (o.remove store key expected).2)
  | o, .append event next =>
      run ports store (o.append ports event).1 (next (o.append ports event).2)

/-- What the overlay leaves. -/
def outcome (ports : Ports ρ γ ε) (kinds : Option (List String)) (store : StateRecords ρ γ)
    (log : List ε) (program : Program ρ γ ε α) : Outcome ρ γ ε α :=
  let ended := (of kinds store).run ports store program
  match ended.2 with
  | .error e => ⟨.error e, store.get, log⟩
  | .ok value => ⟨.ok value, ended.1.current, log ++ ended.1.events⟩

/-! ## What is asked of a program -/

/-- The program waited for a load of each record, and was answered, before it
reads or writes the record. -/
def LoadsFirst (ports : Ports ρ γ ε) (store : StateRecords ρ γ) :
    Overlay ρ γ ε → List Key → Program ρ γ ε α → Prop
  | _, _, .done _ => True
  | _, _, .throw _ => True
  | o, found, .load key next => LoadsFirst ports store (o.load key) found (next o.answers.length)
  | o, found, .await load next =>
      LoadsFirst ports store o
        (match o.answers[load]? with
          | some (key, .ok _) => key :: found
          | _ => found) (next (o.await load))
  | o, found, .get key next =>
      key ∈ found ∧ LoadsFirst ports store o found (next (.ok (o.get key)))
  | o, found, .generationOf key next =>
      key ∈ found ∧ LoadsFirst ports store o found (next (.ok (o.generationOf key)))
  | o, found, .list kind next => LoadsFirst ports store o found (next (o.list kind))
  | o, found, .put key record expected next =>
      key ∈ found ∧ LoadsFirst ports store (o.put ports key record expected).1 found
        (next (o.put ports key record expected).2)
  | o, found, .remove key expected next =>
      key ∈ found ∧ LoadsFirst ports store (o.remove store key expected).1 found
        (next (o.remove store key expected).2)
  | o, found, .append event next =>
      LoadsFirst ports store (o.append ports event).1 found (next (o.append ports event).2)

/-- The program lists no exact kind, and the records of exact kinds that it loads
are of the store's own workspace. -/
def Permitted (ports : Ports ρ γ ε) (exactKinds : List String) (store : StateRecords ρ γ) :
    Overlay ρ γ ε → Program ρ γ ε α → Prop
  | _, .done _ => True
  | _, .throw _ => True
  | o, .load key next =>
      (key.1 ∈ exactKinds → ∀ envelope, store.get key = some envelope →
        ports.workspaceOf envelope.record = ports.workspaceId)
      ∧ Permitted ports exactKinds store (o.load key) (next o.answers.length)
  | o, .await load next => Permitted ports exactKinds store o (next (o.await load))
  | o, .get key next => Permitted ports exactKinds store o (next (.ok (o.get key)))
  | o, .generationOf key next =>
      Permitted ports exactKinds store o (next (.ok (o.generationOf key)))
  | o, .list kind next =>
      kind ∉ exactKinds ∧ Permitted ports exactKinds store o (next (o.list kind))
  | o, .put key record expected next =>
      Permitted ports exactKinds store (o.put ports key record expected).1
        (next (o.put ports key record expected).2)
  | o, .remove key expected next =>
      Permitted ports exactKinds store (o.remove store key expected).1
        (next (o.remove store key expected).2)
  | o, .append event next =>
      Permitted ports exactKinds store (o.append ports event).1 (next (o.append ports event).2)

end Overlay

end Acc.Storage.Transaction
