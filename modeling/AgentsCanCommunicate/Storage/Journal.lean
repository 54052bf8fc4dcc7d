import AgentsCanCommunicate.Library.Table
import AgentsCanCommunicate.Storage.ActiveJournal

/-!
# The disk, the journal and a transaction's writes

A `Disk` is what the store keeps: the two pointer slots, the journal entries,
the events by sequence, the state records with their generations, the markers
that say a generation was deleted, and the floor of the event log.

Whoever holds the writer mutex changes the disk by a list of `Action`s.  Each is
one atomic replacement or link of a file, so a writer that dies has done a
prefix of its list.  An action that is refused ends the list, as the rejected
promise does.

`commitActions` is what a transaction does once its callback has returned, and
`recoverActions` what any holder does first to a transaction it finds open.  An
event and a deletion marker are linked, so they never replace a file that
differs.  A record is renamed over the one before it.
-/

namespace Acc.Storage

open Library (Table)

/-! ## Records, events and publications -/

/-- The path of a state record. -/
structure RecordKey where
  kind : Id
  id : Id
deriving DecidableEq

theorem RecordKey.toLex_injective :
    Function.Injective fun k : RecordKey => toLex (k.kind, k.id) := by
  rintro ⟨kind, id⟩ ⟨kind', id'⟩ h
  cases h
  rfl

instance : LinearOrder RecordKey :=
  LinearOrder.lift' (fun k : RecordKey => toLex (k.kind, k.id)) RecordKey.toLex_injective

/-- The path of a deletion marker, which is also all it says. -/
structure MarkerKey where
  key : RecordKey
  generation : Id
deriving DecidableEq

theorem MarkerKey.toLex_injective :
    Function.Injective fun k : MarkerKey => toLex (k.key, k.generation) := by
  rintro ⟨key, generation⟩ ⟨key', generation'⟩ h
  cases h
  rfl

instance : LinearOrder MarkerKey :=
  LinearOrder.lift' (fun k : MarkerKey => toLex (k.key, k.generation)) MarkerKey.toLex_injective

/-- A state file.  The kind and the id it names are those of its path. -/
structure Envelope (ρ : Type) where
  generation : Id
  record : ρ
deriving DecidableEq

/-- One file a transaction publishes. -/
inductive Publication (ρ ε : Type) where
  /-- An event, linked under its sequence. -/
  | event (sequence : Nat) (body : ε)
  /-- A record, renamed over the one before it. -/
  | put (key : RecordKey) (envelope : Envelope ρ)
  /-- The marker that a generation was deleted. -/
  | deletion (key : RecordKey) (generation : Id)
deriving DecidableEq

/-- A timestamp, in milliseconds. -/
abbrev Timestamp := Int

/-- The entry that lists a decided transaction. -/
structure JournalEntry (ρ ε : Type) where
  transactionId : Id
  firstSequence : Nat
  startedAt : Timestamp
  publications : List (Publication ρ ε)
deriving DecidableEq

/-- What the store means: events, records and deletion markers. -/
structure Contents (ρ ε : Type) where
  events : Table Nat ε
  state : Table RecordKey (Envelope ρ)
  retained : Table MarkerKey Unit
deriving DecidableEq

/-- Everything the store keeps. -/
structure Disk (ρ ε : Type) where
  slots : Slots
  /-- The journal entries, by transaction. -/
  journal : Table Id (JournalEntry ρ ε)
  contents : Contents ρ ε
  /-- The highest sequence trimmed away. -/
  floor : Option Nat
deriving DecidableEq

/-! ## Publishing -/

/-- `publishAtomic` without `replace`: the same bytes are accepted again, and
other bytes are refused. -/
def publishLinked {κ α : Type} [LinearOrder κ] [DecidableEq α] (t : Table κ α) (k : κ) (v : α) :
    Result (Table κ α) :=
  match t.get? k with
  | none => .ok (t.insert k v)
  | some existing =>
      if existing = v then .ok t
      else .error ⟨.conflict, "record already published with different bytes"⟩

theorem publishLinked_eq_ok {κ α : Type} [LinearOrder κ] [DecidableEq α] {t t' : Table κ α}
    {k : κ} {v : α} :
    publishLinked t k v = .ok t' ↔
      (t.get? k = none ∨ t.get? k = some v) ∧ t' = t.insert k v := by
  rw [publishLinked]
  cases hget : t.get? k with
  | none =>
      constructor
      · rintro ⟨⟩
        exact ⟨Or.inl rfl, rfl⟩
      · rintro ⟨-, rfl⟩
        rfl
  | some existing =>
      by_cases hv : existing = v
      · have hsame : t.insert k v = t := Table.insert_get?_self (hv ▸ hget)
        subst hv
        simp only [hsame, if_true]
        constructor
        · intro h
          cases h
          exact ⟨Or.inr trivial, rfl⟩
        · rintro ⟨-, rfl⟩
          rfl
      · simp [hv]

variable {ρ ε : Type}

/-- The events among publications. -/
def eventWrites : List (Publication ρ ε) → List (Nat × ε)
  | [] => []
  | .event sequence body :: ps => (sequence, body) :: eventWrites ps
  | _ :: ps => eventWrites ps

/-- The records among publications. -/
def stateWrites : List (Publication ρ ε) → List (RecordKey × Envelope ρ)
  | [] => []
  | .put key envelope :: ps => (key, envelope) :: stateWrites ps
  | _ :: ps => stateWrites ps

/-- The deletion markers among publications. -/
def markerWrites : List (Publication ρ ε) → List (MarkerKey × Unit)
  | [] => []
  | .deletion key generation :: ps => (⟨key, generation⟩, ()) :: markerWrites ps
  | _ :: ps => markerWrites ps

theorem mem_eventWrites {n : Nat} {e : ε} {ps : List (Publication ρ ε)} :
    (n, e) ∈ eventWrites ps ↔ .event n e ∈ ps := by
  induction ps with
  | nil => simp [eventWrites]
  | cons p ps ih => cases p <;> simp [eventWrites, ih]

theorem mem_stateWrites {k : RecordKey} {v : Envelope ρ} {ps : List (Publication ρ ε)} :
    (k, v) ∈ stateWrites ps ↔ .put k v ∈ ps := by
  induction ps with
  | nil => simp [stateWrites]
  | cons p ps ih => cases p <;> simp [stateWrites, ih]

theorem mem_markerWrites {k : RecordKey} {g : Id} {u : Unit} {ps : List (Publication ρ ε)} :
    (⟨k, g⟩, u) ∈ markerWrites ps ↔ .deletion k g ∈ ps := by
  induction ps with
  | nil => simp [markerWrites]
  | cons p ps ih => cases p <;> simp [markerWrites, ih]

theorem eventWrites_append (ps qs : List (Publication ρ ε)) :
    eventWrites (ps ++ qs) = eventWrites ps ++ eventWrites qs := by
  induction ps with
  | nil => rfl
  | cons p ps ih => cases p <;> simp [eventWrites, ih]

namespace Contents

/-- What a publication leaves where it is accepted. -/
def write (c : Contents ρ ε) : Publication ρ ε → Contents ρ ε
  | .event sequence body => { c with events := c.events.insert sequence body }
  | .put key envelope => { c with state := c.state.insert key envelope }
  | .deletion key generation => { c with retained := c.retained.insert ⟨key, generation⟩ () }

/-- Publications, one after the other. -/
def writeAll (c : Contents ρ ε) (ps : List (Publication ρ ε)) : Contents ρ ε := ps.foldl write c

@[simp] theorem writeAll_nil (c : Contents ρ ε) : c.writeAll [] = c := rfl

@[simp] theorem writeAll_cons (c : Contents ρ ε) (p : Publication ρ ε)
    (ps : List (Publication ρ ε)) : c.writeAll (p :: ps) = (c.write p).writeAll ps := rfl

theorem writeAll_events (ps : List (Publication ρ ε)) (c : Contents ρ ε) :
    (c.writeAll ps).events = c.events.insertAll (eventWrites ps) := by
  induction ps generalizing c with
  | nil => rfl
  | cons p ps ih => cases p <;> exact ih _

theorem writeAll_state (ps : List (Publication ρ ε)) (c : Contents ρ ε) :
    (c.writeAll ps).state = c.state.insertAll (stateWrites ps) := by
  induction ps generalizing c with
  | nil => rfl
  | cons p ps ih => cases p <;> exact ih _

theorem writeAll_retained (ps : List (Publication ρ ε)) (c : Contents ρ ε) :
    (c.writeAll ps).retained = c.retained.insertAll (markerWrites ps) := by
  induction ps generalizing c with
  | nil => rfl
  | cons p ps ih => cases p <;> exact ih _

/-- Publish one file of a decided transaction. -/
def publish [DecidableEq ε] (c : Contents ρ ε) : Publication ρ ε → Result (Contents ρ ε)
  | .event sequence body => do
      let events ← publishLinked c.events sequence body
      pure { c with events := events }
  | .put key envelope => .ok { c with state := c.state.insert key envelope }
  | .deletion key generation => do
      let retained ← publishLinked c.retained ⟨key, generation⟩ ()
      pure { c with retained := retained }

/-- A publication is refused only where another event has the sequence. -/
theorem publish_eq_ok [DecidableEq ε] {c c' : Contents ρ ε} {p : Publication ρ ε} :
    c.publish p = .ok c' ↔
      (∀ sequence body, p = .event sequence body →
        c.events.get? sequence = none ∨ c.events.get? sequence = some body) ∧ c' = c.write p := by
  cases p with
  | event sequence body =>
      simp only [publish, write, bind_eq_ok, publishLinked_eq_ok, pure_eq_ok,
        Publication.event.injEq, and_imp]
      constructor
      · rintro ⟨_, ⟨h, rfl⟩, rfl⟩
        exact ⟨by rintro _ _ rfl rfl; exact h, rfl⟩
      · rintro ⟨h, rfl⟩
        exact ⟨_, ⟨h _ _ rfl rfl, rfl⟩, rfl⟩
  | put key envelope =>
      simp only [publish, write, Except.ok.injEq, eq_comm]
      exact ⟨fun h => ⟨by simp, h⟩, fun h => h.2⟩
  | deletion key generation =>
      simp only [publish, write, bind_eq_ok, publishLinked_eq_ok, pure_eq_ok]
      constructor
      · rintro ⟨_, ⟨-, rfl⟩, rfl⟩
        exact ⟨by simp, rfl⟩
      · rintro ⟨-, rfl⟩
        refine ⟨_, ⟨?_, rfl⟩, rfl⟩
        cases h : c.retained.get? ⟨key, generation⟩ with
        | none => exact Or.inl rfl
        | some u => exact Or.inr rfl

end Contents

/-! ## Actions of the mutex holder -/

/-- One atomic change of the disk. -/
inductive Action (ρ ε : Type) where
  /-- Link a journal entry. -/
  | writeEntry (entry : JournalEntry ρ ε)
  /-- Open the pointer: the transaction is decided. -/
  | activate (transactionId : Id) (firstSequence : Nat)
  /-- Publish one file of the open transaction. -/
  | publish (p : Publication ρ ε)
  /-- Close the pointer. -/
  | idle (transactionId : Id)
  /-- Rename one record over the one before it, outside any journal. -/
  | replaceRecord (key : RecordKey) (envelope : Envelope ρ)
  /-- Raise the floor of the event log. -/
  | raiseFloor (boundary : Nat)
  /-- Move one event file out of the log. -/
  | condemnEvent (sequence : Nat)
deriving DecidableEq

/-- `raiseEventFloor`: the floor is raised and never lowered. -/
def raiseEventFloor (floor : Option Nat) (boundary : Nat) : Option Nat :=
  match floor with
  | none => some boundary
  | some current => if boundary ≤ current then some current else some boundary

variable (sha256 : ActiveRecord → Digest)

/-- The store a first open leaves. -/
def Disk.initial : Disk ρ ε :=
  { slots := initialiseActiveJournal sha256
    journal := Table.empty
    contents := ⟨Table.empty, Table.empty, Table.empty⟩
    floor := none }

section Run

variable [DecidableEq ρ] [DecidableEq ε]

namespace Disk

def act (d : Disk ρ ε) : Action ρ ε → Result (Disk ρ ε)
  | .writeEntry entry => do
      let journal ← publishLinked d.journal entry.transactionId entry
      pure { d with journal := journal }
  | .activate transactionId firstSequence => do
      let slots ← activateJournal sha256 d.slots transactionId firstSequence
      pure { d with slots := slots }
  | .publish p => do
      let contents ← d.contents.publish p
      pure { d with contents := contents }
  | .idle transactionId => do
      let slots ← idleJournal sha256 d.slots transactionId
      pure { d with slots := slots }
  | .replaceRecord key envelope =>
      .ok { d with contents := d.contents.write (.put key envelope) }
  | .raiseFloor boundary => .ok { d with floor := raiseEventFloor d.floor boundary }
  | .condemnEvent sequence =>
      .ok { d with contents := { d.contents with events := d.contents.events.erase sequence } }

/-- Do a list of actions up to the first that is refused. -/
def run (d : Disk ρ ε) : List (Action ρ ε) → Disk ρ ε × Option AccError
  | [] => (d, none)
  | a :: as =>
      match d.act sha256 a with
      | .ok d' => d'.run as
      | .error e => (d, some e)

end Disk

end Run

/-- What the pointer says, or `none` where it cannot be read. -/
def Disk.journalState (d : Disk ρ ε) : Option JournalState :=
  match readActiveJournal sha256 d.slots with
  | .ok record => some record.state
  | .error _ => none

/-! ## Recovery -/

/-- The entry of the transaction that is open, if one is. -/
def readOpenJournals (d : Disk ρ ε) : Result (Option (JournalEntry ρ ε)) := do
  let active ← readActiveJournal sha256 d.slots
  match active.state with
  | .idle => pure none
  | .opened transactionId firstSequence =>
      match d.journal.get? transactionId with
      | none => .error ⟨.data, "active journal entry is missing"⟩
      | some entry => do
          refuse (entry.transactionId ≠ transactionId ∨ entry.firstSequence ≠ firstSequence)
            ⟨.data, "journal entry does not match its active record"⟩
          pure (some entry)

/-- Publish every listed file again, then close the pointer. -/
def rollForward (entry : JournalEntry ρ ε) : List (Action ρ ε) :=
  entry.publications.map .publish ++ [.idle entry.transactionId]

/-- What every holder does first. -/
def recoverActions (d : Disk ρ ε) : List (Action ρ ε) :=
  match readOpenJournals sha256 d with
  | .ok (some entry) => rollForward entry
  | _ => []

/-- The ceiling of the event feed. -/
def readJournalCeiling (d : Disk ρ ε) : Result (Option Nat) := do
  let active ← readActiveJournal sha256 d.slots
  match active.state with
  | .idle => pure none
  | .opened _ firstSequence => pure (some firstSequence)

/-! ## A transaction -/

/-- The last sequence a store gives: `Number.MAX_SAFE_INTEGER`. -/
def maxSafeInteger : Nat := 9007199254740991

/-- A staged record, or a removal where there is no record. -/
structure Staged (ρ : Type) where
  key : RecordKey
  generation : Id
  record : Option ρ
deriving DecidableEq

/-- What the callback of a transaction leaves to commit. -/
structure Prepared (ρ ε : Type) where
  transactionId : Id
  startedAt : Timestamp
  /-- The events, in the order they were appended. -/
  events : List ε
  /-- The staged records, in the order they were first staged. -/
  staged : List (Staged ρ)
deriving DecidableEq

/-- The sequence after the newest event, or after the floor of an empty log. -/
def nextSequence (d : Disk ρ ε) : Result Nat :=
  let highest := match d.contents.events.last? with
    | some e => some e.1
    | none => d.floor
  match highest with
  | none => .ok 1
  | some highest => do
      refuse (maxSafeInteger < highest + 1) ⟨.data, "event sequence is exhausted"⟩
      pure (highest + 1)

/-- Number events from a first sequence. -/
def number (first : Nat) : List ε → List (Nat × ε)
  | [] => []
  | e :: es => (first, e) :: number (first + 1) es

def Staged.publication (s : Staged ρ) : Publication ρ ε :=
  match s.record with
  | none => .deletion s.key s.generation
  | some record => .put s.key ⟨s.generation, record⟩

/-- The files of a transaction: its events, then its records. -/
def publicationsOf (first : Nat) (p : Prepared ρ ε) : List (Publication ρ ε) :=
  ((number first p.events).map fun e => .event e.1 e.2) ++ p.staged.map Staged.publication

def journalEntry (first : Nat) (p : Prepared ρ ε) : JournalEntry ρ ε :=
  ⟨p.transactionId, first, p.startedAt, publicationsOf first p⟩

/-- One record replaced and nothing appended, of a kind no index reads: the
write that needs no journal to appear at once. -/
def soleReplacement (p : Prepared ρ ε) : Option (RecordKey × Envelope ρ) :=
  match p.events, p.staged with
  | [], [only] =>
      match only.record with
      | some record =>
          if only.key.kind.val = "message" ∨ only.key.kind.val = "receipt" then none
          else some (only.key, ⟨only.generation, record⟩)
      | none => none
  | _, _ => none

/-- The part of a transaction that goes through the journal. -/
def journalActions (d : Disk ρ ε) (p : Prepared ρ ε) : Result (List (Action ρ ε)) := do
  let first ← nextSequence d
  refuse (maxSafeInteger < first + p.events.length - 1) ⟨.data, "event sequence is exhausted"⟩
  let entry := journalEntry first p
  pure (.writeEntry entry :: .activate p.transactionId first :: rollForward entry)

/-- What a transaction does after its callback, on a disk that was recovered. -/
def commitActions (d : Disk ρ ε) (p : Prepared ρ ε) : Result (List (Action ρ ε)) := do
  let before ← readActiveJournal sha256 d.slots
  if p.events.isEmpty && p.staged.isEmpty then
    pure []
  else
    match soleReplacement p, before.state with
    | some (key, envelope), .idle => pure [.replaceRecord key envelope]
    | _, _ => journalActions d p

/-! ## Trimming -/

/-- `trimEventLog`: the floor first, then the events at or below it, oldest
first, as many as the budget allows. -/
def trimActions (d : Disk ρ ε) (boundary limit : Nat) : Result (List (Action ρ ε)) := do
  let allocated := match d.contents.events.last? with
    | some e => some e.1
    | none => d.floor
  match allocated with
  | none => .error ⟨.usage, "before is past the newest event this workspace has issued"⟩
  | some newest => do
      refuse (newest < boundary)
        ⟨.usage, "before is past the newest event this workspace has issued"⟩
      let names := (d.contents.events.keys.takeWhile (· ≤ boundary)).take limit
      pure (.raiseFloor boundary :: names.map .condemnEvent)

end Acc.Storage
