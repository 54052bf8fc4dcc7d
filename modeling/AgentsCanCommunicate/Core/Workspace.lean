import AgentsCanCommunicate.Library.Keyed
import AgentsCanCommunicate.Protocol.Records

/-!
# The workspace

What the services of the core read and write: the durable records of one
workspace by kind, its event log with the floor, and the ephemeral records of a
workspace that has not materialised.

A transaction is a function of the workspace.  It reads the records as it staged
them, and a transaction that throws leaves nothing, so a refused call is an
`error` and the workspace before it still stands.  The writes below are those of
the transaction view: a record filed over the one with its key, a record that
must be new, a record taken away, an event appended.  An event takes the
sequence after the newest one, or after the floor of an empty log.

The envelope generations with which the store checks that a record did not
change are left out: every write of the core passes the generation it read in
the same transaction, so the check fails only where a record is expected to be
new, and there it is kept.
-/

namespace Acc.Core

open Library (Table Keyed)

/-! ## The records of a workspace -/

/-- Presence and intent before anything durable is written. -/
structure Ephemeral where
  participants : Keyed Participant.participantId
  sessions : Keyed Session.sessionId
  intents : Keyed Intent.sessionId
deriving DecidableEq

/-- One workspace: its state records, its event log and its ephemeral area. -/
structure Workspace [LinearOrder ReceiptId] where
  /-- The workspace the store was opened for. -/
  workspaceId : Id
  /-- The record that says the workspace has materialised. -/
  workspaces : Keyed WorkspaceRecord.workspaceId
  participants : Keyed Participant.participantId
  sessions : Keyed Session.sessionId
  intents : Keyed Intent.sessionId
  claims : Keyed Claim.claimId
  messages : Keyed Message.messageId
  receipts : Keyed Receipt.receiptId
  /-- The event log, by sequence. -/
  events : Table Nat Event
  /-- The highest sequence trimmed away. -/
  floor : Option Nat
  ephemeral : Ephemeral
deriving DecidableEq

/-- The kinds of identifier a call draws. -/
inductive IdKind where
  | session | generation | claim | message
deriving DecidableEq

/-- What a call reads from outside the store. -/
structure Ports where
  /-- `clock.now()`. -/
  now : Timestamp
  /-- Whether a process with this id exists. -/
  pidIsAlive : Nat → Bool
  /-- The identifiers of a kind the call draws, in the order it draws them. -/
  ids : IdKind → Nat → Id

/-- The message an event records. -/
def recordedMessageId (event : Event) : Option Id :=
  match event.payload with
  | .messageRecorded messageId _ _ => some messageId
  | _ => none

/-- The claim of which an event tells the resource and the mode, and these. -/
def claimFacts (event : Event) : Option (Id × String × ClaimMode) :=
  match event.payload with
  | .claimAcquired claimId resource mode => some (claimId, resource, mode)
  | .claimRenewed claimId (some (resource, mode)) => some (claimId, resource, mode)
  | _ => none

/-- The event of a session that opens, or is promoted. -/
def tellsOpen (event : Event) : Bool :=
  match event.payload with
  | .sessionOpened _ | .sessionPromoted _ => true
  | _ => false

/-- The event of a closed session. -/
def tellsClose (e : Event) : Bool :=
  match e.payload with
  | .sessionClosed | .sessionFinished .. => true
  | _ => false

variable [LinearOrder ReceiptId]

namespace Workspace

/-- A store in which nothing was ever written. -/
def initial (workspaceId : Id) : Workspace :=
  ⟨workspaceId, .empty, .empty, .empty, .empty, .empty, .empty, .empty, .empty, none,
    ⟨.empty, .empty, .empty⟩⟩

/-! ## Writes -/

/-- The newest sequence issued: that of the last event, or the floor. -/
def newest (w : Workspace) : Nat :=
  match w.events.last? with
  | some e => e.1
  | none => w.floor.getD 0

/-- `tx.append`. -/
@[simps]
def append (w : Workspace) (event : Event) : Workspace :=
  { w with events := w.events.insert (w.newest + 1) event }

/-- The events, oldest first. -/
def history (w : Workspace) : List Event := w.events.values

theorem lt_newest_succ {w : Workspace} {e : Nat × Event} (h : e ∈ w.events.entries) :
    e.1 < w.newest + 1 := by
  have hget : w.events.get? e.1 = some e.2 := Table.mem_entries.mp h
  rw [newest]
  split
  next last hlast => exact Nat.lt_succ_of_le ((Table.last?_eq_some hlast).2 e.1 e.2 hget)
  next hnone =>
    rw [Table.last?_eq_none hnone] at hget
    cases hget

/-- The sequence of an event is the next one. -/
theorem newest_append {w : Workspace} {e : Event} : (w.append e).newest = w.newest + 1 := by
  have hget : (w.append e).events.get? (w.newest + 1) = some e := Table.get?_insert_self _ _ _
  rw [newest]
  split
  next last hlast =>
    obtain ⟨hmem, hle⟩ := Table.last?_eq_some hlast
    refine le_antisymm ?_ (hle _ _ hget)
    by_contra hlt
    rw [append_events, Table.get?_insert_ne _ _ (by omega)] at hmem
    have := lt_newest_succ (Table.mem_entries.mpr hmem)
    omega
  next hnone =>
    rw [Table.last?_eq_none hnone] at hget
    cases hget

/-- An event is appended after all that is there. -/
@[simp] theorem history_append {w : Workspace} {e : Event} :
    (w.append e).history = w.history ++ [e] :=
  Table.values_insert_last e fun _ h => lt_newest_succ h

@[simps]
def putWorkspace (w : Workspace) (record : WorkspaceRecord) : Workspace :=
  { w with workspaces := w.workspaces.put record }

@[simps]
def putParticipant (w : Workspace) (record : Participant) : Workspace :=
  { w with participants := w.participants.put record }

@[simps]
def putSession (w : Workspace) (record : Session) : Workspace :=
  { w with sessions := w.sessions.put record }

@[simps]
def putIntent (w : Workspace) (record : Intent) : Workspace :=
  { w with intents := w.intents.put record }

@[simps]
def putClaim (w : Workspace) (record : Claim) : Workspace :=
  { w with claims := w.claims.put record }

@[simps]
def removeClaim (w : Workspace) (claimId : Id) : Workspace :=
  { w with claims := w.claims.remove claimId }

@[simps]
def putMessage (w : Workspace) (record : Message) : Workspace :=
  { w with messages := w.messages.put record }

@[simps]
def putReceipt (w : Workspace) (record : Receipt) : Workspace :=
  { w with receipts := w.receipts.put record }

@[simps]
def setEphemeral (w : Workspace) (ephemeral : Ephemeral) : Workspace :=
  { w with ephemeral := ephemeral }

@[simp] theorem history_putReceipt {w : Workspace} {record : Receipt} :
    (w.putReceipt record).history = w.history := rfl

/-- `tx.put` of a record that is expected to be new. -/
def createMessage (w : Workspace) (record : Message) : Result Workspace := do
  refuse (w.messages.get? record.messageId ≠ none)
    ⟨.conflict, s!"message {record.messageId.val} changed under this transaction"⟩
  return w.putMessage record

def createReceipt (w : Workspace) (record : Receipt) : Result Workspace := do
  refuse (w.receipts.get? record.receiptId ≠ none)
    ⟨.conflict, "receipt changed under this transaction"⟩
  return w.putReceipt record

/-- A write transaction.  The sequences its events take must be countable. -/
def transaction {α : Type} (w : Workspace) (body : Workspace → Result (Workspace × α)) :
    Result (Workspace × α) := do
  let done ← body w
  refuse (w.newest < done.1.newest ∧ maxSafe < done.1.newest)
    ⟨.data, "event sequence is exhausted"⟩
  return done

theorem transaction_eq_ok {α : Type} {w w' : Workspace} {r : α}
    {body : Workspace → Result (Workspace × α)} (h : w.transaction body = .ok (w', r)) :
    body w = .ok (w', r) := by
  simp only [transaction, bind_eq_ok, refuse_eq_ok, pure_eq_ok] at h
  obtain ⟨done, hbody, -, -, rfl⟩ := h
  exact hbody

theorem transaction_congr {α : Type} {w : Workspace}
    {body body' : Workspace → Result (Workspace × α)} (h : body w = body' w) :
    w.transaction body = w.transaction body' := by
  rw [transaction, transaction, h]

end Workspace

end Acc.Core
