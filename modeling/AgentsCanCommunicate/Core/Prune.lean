import AgentsCanCommunicate.Core.Sessions
import AgentsCanCommunicate.Storage.Journal

/-!
# Prune

What an operator may reclaim, as a plan over the records that are there, and the
pass that applies it.  Everything in the plan is ordered so that whatever holds
a reference goes before what it refers to, and a pass that stops early has
removed a prefix of the plan.

The plan is decided again under the writer mutex, so the pass below removes what
its own plan names.  The records of a plan are still the ones it judged, and the
store's check of their generations has nothing to skip.
-/

namespace Acc.Core

open Library (Table Keyed)
open Storage (raiseEventFloor)

variable [LinearOrder ReceiptId]

/-! ## The plan -/

inductive PruneClass where
  | sessions | intents | claims | participants
deriving DecidableEq

/-- `PRUNE_CLASSES`, in the source's order. -/
def pruneClasses : List PruneClass := [.sessions, .intents, .claims, .participants]

structure PruneInput where
  classes : Option (List PruneClass)
  workspaceId : Option Id
  /-- The cursor up to which history is reclaimed. -/
  before : Option Nat
deriving DecidableEq

def PruneInput.wants (input : PruneInput) (name : PruneClass) : Bool :=
  name ∈ input.classes.getD pruneClasses

/-- A record the plan names. -/
inductive Entry where
  | receipt (id : ReceiptId)
  | message (id : Id)
  | intent (id : Id)
  | claim (id : Id)
  | session (id : Id)
  | participant (id : Id)
deriving DecidableEq

/-- The records of the workspace a plan is made for. -/
structure Envelopes where
  participants : List Participant
  sessions : List Session
  intents : List Intent
  claims : List Claim
  messages : List Message
  receipts : List Receipt
deriving DecidableEq

/-- `stateEnvelopes`. -/
def stateEnvelopes (w : Workspace) (workspaceId : Id) : Envelopes where
  participants := w.participants.list.filter fun r => r.workspaceId = workspaceId
  sessions := w.sessions.list.filter fun r => r.workspaceId = workspaceId
  intents := w.intents.list.filter fun r => r.workspaceId = workspaceId
  claims := w.claims.list.filter fun r => r.workspaceId = workspaceId
  messages := w.messages.list.filter fun r => r.workspaceId = workspaceId
  receipts := w.receipts.list.filter fun r => r.workspaceId = workspaceId

/-- What the log holds up to a boundary. -/
structure Below where
  events : Nat
  messageIds : List Id
deriving DecidableEq

def readBelow (w : Workspace) (workspaceId : Id) (before : Nat) : Below :=
  let events := (w.events.entries.filter fun e =>
    e.1 ≤ before ∧ e.2.workspaceId = workspaceId).map Prod.snd
  ⟨events.length, events.filterMap recordedMessageId⟩

/-- A receipt by which its message is still owed to someone who is there. -/
def isOwed (envelopes : Envelopes) (receipt : Receipt) : Bool :=
  receipt.state ≠ .acknowledged
    ∧ ∃ p ∈ envelopes.participants, p.participantId = receipt.recipientParticipantId

/-- Nobody is still owed the message. -/
def isResolved (envelopes : Envelopes) (messageId : Id) : Bool :=
  envelopes.receipts.all fun r => !(isOwed envelopes r && decide (r.messageId = messageId))

def resolvedMessages (envelopes : Envelopes) (messageIds : List Id) : List Message :=
  envelopes.messages.filter fun m => m.messageId ∈ messageIds ∧ isResolved envelopes m.messageId

def hasExpired (claim : Claim) (now : Timestamp) : Bool := decide (claim.expiresAt ≤ now)

/-- Offline, and holding no live claim. -/
def isStopped (envelopes : Envelopes) (now : Timestamp) (pidIsAlive : Nat → Bool)
    (session : Session) : Bool :=
  (envelopes.claims.all fun c => hasExpired c now || c.ownerSessionId ≠ session.sessionId)
    && decide (classifySessionPresence session now pidIsAlive = .offline)

def eligibleSessions (envelopes : Envelopes) (now : Timestamp) (pidIsAlive : Nat → Bool) :
    List Session :=
  envelopes.sessions.filter (isStopped envelopes now pidIsAlive)

/-- The participants a message names. -/
def namedIn (message : Message) : List Id := message.fromParticipantId :: message.toParticipantIds

/-- Nothing that stays points at the participant. -/
def eligibleParticipants (envelopes : Envelopes) (removedSessions : List Session)
    (messages : List Message) : List Participant :=
  envelopes.participants.filter fun p =>
    (∀ s ∈ envelopes.sessions, s ∉ removedSessions → s.participantId ≠ p.participantId)
      ∧ ∀ m ∈ messages, p.participantId ∉ namedIn m

structure PrunePlan where
  sessions : List Session
  intents : List Intent
  claims : List Claim
  participants : List Participant
  messages : List Message
  receipts : List Receipt
  events : Nat
deriving DecidableEq

def planPrune (w : Workspace) (ports : Ports) (input : PruneInput) : PrunePlan :=
  let workspaceId := input.workspaceId.getD w.workspaceId
  let envelopes := stateEnvelopes w workspaceId
  let eligible :=
    if input.wants .sessions || input.wants .intents || input.wants .participants then
      eligibleSessions envelopes ports.now ports.pidIsAlive
    else []
  let sessions := if input.wants .sessions then eligible else []
  -- A session takes its intent along.  Asked for intents, every stopped
  -- session's intent goes, whether or not its session does.
  let owning := if input.wants .intents then eligible else sessions
  let intents := envelopes.intents.filter fun i => i.sessionId ∈ owning.map Session.sessionId
  let claims :=
    if input.wants .claims then envelopes.claims.filter fun c => hasExpired c ports.now else []
  let below := (input.before.map (readBelow w workspaceId)).getD ⟨0, []⟩
  let messages := if input.before = none then [] else resolvedMessages envelopes below.messageIds
  let receipts := envelopes.receipts.filter fun r =>
    r.messageId ∈ messages.map Message.messageId
  -- Judged against the messages that survive this pass.
  let participants :=
    if input.wants .participants then
      eligibleParticipants envelopes sessions (envelopes.messages.filter fun m => m ∉ messages)
    else []
  ⟨sessions, intents, claims, participants, messages, receipts, below.events⟩

/-- The plan, with whatever holds a reference before what it refers to. -/
def PrunePlan.entries (plan : PrunePlan) : List Entry :=
  plan.receipts.map (fun r => .receipt r.receiptId)
    ++ plan.messages.map (fun r => .message r.messageId)
    ++ plan.intents.map (fun r => .intent r.sessionId)
    ++ plan.claims.map (fun r => .claim r.claimId)
    ++ plan.sessions.map (fun r => .session r.sessionId)
    ++ plan.participants.map (fun r => .participant r.participantId)

/-! ## Removing -/

def removeEntry (w : Workspace) : Entry → Workspace
  | .receipt i => { w with receipts := w.receipts.remove i }
  | .message i => { w with messages := w.messages.remove i }
  | .intent i => { w with intents := w.intents.remove i }
  | .claim i => { w with claims := w.claims.remove i }
  | .session i => { w with sessions := w.sessions.remove i }
  | .participant i => { w with participants := w.participants.remove i }

def removeEntries (w : Workspace) (entries : List Entry) : Workspace :=
  entries.foldl removeEntry w

/-! ## A bounded pass -/

/-- What a pass may spend, and what it meets.  Records and events that are taken
out of the store are files to discard afterwards, within what is left of the
limit. -/
structure Budget where
  limit : Nat
  /-- What discarding the files of earlier passes spent, unless it was cut
  short. -/
  leftovers : Option Nat
  /-- Whether a record owns retention markers, which go with it. -/
  owns : Entry → Bool
  /-- The readings of the deadline while records and events are taken. -/
  recordsExpired : Nat → Bool
  eventsExpired : Nat → Bool
  /-- Whether the files of this pass were all discarded. -/
  recordsDiscarded : Bool
  eventsDiscarded : Bool

/-- How many of the entries a pass comes to. -/
def takenRecords (budget : Budget) (spent reading : Nat) : List Entry → Nat
  | [] => 0
  | entry :: entries =>
      if budget.limit < spent + 2 ∨ budget.recordsExpired reading = true then 0
      else takenRecords budget (spent + 1 + (budget.owns entry).toNat) (reading + 1) entries + 1

/-- What a pass left, and whether there is more to do. -/
abbrev Left (α : Type) := α × Bool

def reclaimStateRecords (w : Workspace) (entries : List Entry) (budget : Budget) :
    Left Workspace :=
  if budget.recordsExpired 0 = true then (w, decide (entries ≠ []))
  else
    match budget.leftovers with
    | none => (w, true)
    | some spent =>
        let taken := takenRecords budget spent 1 entries
        (removeEntries w (entries.take taken),
          decide (taken < entries.length) || !budget.recordsDiscarded)

/-- How many of the sequences a pass comes to. -/
def takenEvents (budget : Budget) (spent : Nat) : List Nat → Nat
  | [] => 0
  | _ :: names =>
      if budget.limit ≤ spent ∨ budget.eventsExpired (spent + 1) = true then 0
      else takenEvents budget (spent + 1) names + 1

/-- The newest sequence ever issued, as far as the store can tell. -/
def allocated (w : Workspace) : Option Nat := (w.events.last?.map Prod.fst).or w.floor

/-- The sequences at or below a boundary, in order. -/
def namesBelow (w : Workspace) (boundary : Nat) : List Nat :=
  w.events.keys.takeWhile (· ≤ boundary)

def removeEvents (w : Workspace) (names : List Nat) : Workspace :=
  { w with events := w.events.filter fun e => e.1 ∉ names }

def trimEventLog (w : Workspace) (boundary : Nat) (budget : Budget) : Result (Left Workspace) :=
  if budget.eventsExpired 0 = true then .ok (w, true)
  else do
    refuse ((allocated w).all fun newest => newest < boundary)
      ⟨.usage, "before is past the newest event this workspace has issued"⟩
    let names := namesBelow w boundary
    let taken := takenEvents budget 0 names
    return (removeEvents { w with floor := raiseEventFloor w.floor boundary } (names.take taken),
      decide (taken < names.length) || !budget.eventsDiscarded)

/-- An applied prune: the records first, then the log.  A boundary the log has
not reached is refused when the records are already gone. -/
def prune (w : Workspace) (ports : Ports) (input : PruneInput) (budget : Budget) :
    Workspace × Result Bool :=
  let reclaimed := reclaimStateRecords w (planPrune w ports input).entries budget
  match input.before with
  | none => (reclaimed.1, .ok reclaimed.2)
  | some before =>
      match trimEventLog reclaimed.1 before budget with
      | .error e => (reclaimed.1, .error e)
      | .ok trimmed => (trimmed.1, .ok (reclaimed.2 || trimmed.2))

/-! ## What removing leaves -/

section

variable {w : Workspace} {entries : List Entry}

theorem removeEntries_cons {e : Entry} :
    removeEntries w (e :: entries) = removeEntries (removeEntry w e) entries := rfl

theorem mem_receipts_removeEntries {r : Receipt} :
    r ∈ (removeEntries w entries).receipts ↔ r ∈ w.receipts ∧ .receipt r.receiptId ∉ entries := by
  induction entries generalizing w with
  | nil => simp [removeEntries]
  | cons e entries ih =>
      rw [removeEntries_cons, ih]
      cases e <;> simp [removeEntry, and_assoc]

theorem mem_messages_removeEntries {r : Message} :
    r ∈ (removeEntries w entries).messages ↔ r ∈ w.messages ∧ .message r.messageId ∉ entries := by
  induction entries generalizing w with
  | nil => simp [removeEntries]
  | cons e entries ih =>
      rw [removeEntries_cons, ih]
      cases e <;> simp [removeEntry, and_assoc]

theorem mem_intents_removeEntries {r : Intent} :
    r ∈ (removeEntries w entries).intents ↔ r ∈ w.intents ∧ .intent r.sessionId ∉ entries := by
  induction entries generalizing w with
  | nil => simp [removeEntries]
  | cons e entries ih =>
      rw [removeEntries_cons, ih]
      cases e <;> simp [removeEntry, and_assoc]

theorem mem_claims_removeEntries {r : Claim} :
    r ∈ (removeEntries w entries).claims ↔ r ∈ w.claims ∧ .claim r.claimId ∉ entries := by
  induction entries generalizing w with
  | nil => simp [removeEntries]
  | cons e entries ih =>
      rw [removeEntries_cons, ih]
      cases e <;> simp [removeEntry, and_assoc]

theorem mem_sessions_removeEntries {r : Session} :
    r ∈ (removeEntries w entries).sessions ↔ r ∈ w.sessions ∧ .session r.sessionId ∉ entries := by
  induction entries generalizing w with
  | nil => simp [removeEntries]
  | cons e entries ih =>
      rw [removeEntries_cons, ih]
      cases e <;> simp [removeEntry, and_assoc]

theorem mem_participants_removeEntries {r : Participant} :
    r ∈ (removeEntries w entries).participants ↔
      r ∈ w.participants ∧ .participant r.participantId ∉ entries := by
  induction entries generalizing w with
  | nil => simp [removeEntries]
  | cons e entries ih =>
      rw [removeEntries_cons, ih]
      cases e <;> simp [removeEntry, and_assoc]

theorem removeEntry_workspaceId {e : Entry} : (removeEntry w e).workspaceId = w.workspaceId := by
  cases e <;> rfl

theorem removeEntry_ephemeral {e : Entry} : (removeEntry w e).ephemeral = w.ephemeral := by
  cases e <;> rfl

theorem removeEntries_workspaceId :
    (removeEntries w entries).workspaceId = w.workspaceId :=
  foldl_untouched (g := Workspace.workspaceId) (fun _ _ => removeEntry_workspaceId) entries w

theorem removeEntries_ephemeral :
    (removeEntries w entries).ephemeral = w.ephemeral :=
  foldl_untouched (g := Workspace.ephemeral) (fun _ _ => removeEntry_ephemeral) entries w

theorem removeEntries_workspaces : (removeEntries w entries).workspaces = w.workspaces :=
  foldl_untouched (g := Workspace.workspaces) (fun w e => by cases e <;> rfl) entries w

end

end Acc.Core
