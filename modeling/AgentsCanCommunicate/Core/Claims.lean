import AgentsCanCommunicate.Core.Sessions
import AgentsCanCommunicate.Protocol.Resources

/-!
# Claims

A claim holds a resource for a session until it expires.  An expired claim stays
in the store and holds nothing.  Acquiring checks every requested resource
against the live claims of other sessions before it writes, and files the
session's own claim on a resource again, lapsed or not, rather than a second one.
Renewing extends a claim that is still live.  A session gives its claims up by
releasing them or by finishing, and an authority may take them away.
-/

namespace Acc.Core

open Library (Table Keyed)

variable [LinearOrder ReceiptId]

def isLive (claim : Claim) (now : Timestamp) : Bool := decide (now < claim.expiresAt)

/-! ## Selectors -/

/-- A nonempty list without repeats, every item normalised. -/
def uniqueList {α β : Type} [DecidableEq β] (values : List α) (name : String)
    (normalise : α → Result β) : Result (List β) := do
  refuse (values = []) ⟨.usage, s!"{name} must be a nonempty array"⟩
  let result ← values.mapM normalise
  refuse (¬result.Nodup) ⟨.usage, s!"{name} contains duplicate selectors"⟩
  return result

/-- A resource as it is stored, or a usage error. -/
def claimResource (resource : String) : Result String := do
  refuse (resource = "") ⟨.usage, "resources must contain nonempty strings"⟩
  assertMatchableResource resource
  let normalised := normaliseResource resource
  match resourceUri normalised "resource" with
  | .ok _ => .ok normalised
  | .error e => .error ⟨.usage, e.message⟩

def claimResources (resources : List String) : Result (List String) :=
  uniqueList resources "resources" claimResource

/-- Which claims a release names. -/
inductive Selectors where
  | all
  | claimIds (ids : List Id)
  | resources (resources : List String)
deriving DecidableEq

/-- `releaseSelectors`. -/
def releaseSelectors : Selectors → Result Selectors
  | .all => .ok .all
  | .claimIds ids => do
      let ids ← uniqueList ids "claimIds" fun i => .ok i
      return .claimIds ids
  | .resources resources => do
      let resources ← claimResources resources
      return .resources resources

def selectReleaseClaims (w : Workspace) (sessionId : Id) : Selectors → Result (List Claim)
  | .all => .ok (w.claims.list.filter fun c => c.ownerSessionId = sessionId)
  | .claimIds ids =>
      ids.mapM fun claimId =>
        match w.claims.get? claimId with
        | none => .error ⟨.conflict, "the claim does not exist"⟩
        | some claim => .ok claim
  | .resources resources =>
      resources.mapM fun resource =>
        match w.claims.list.filter fun c =>
            c.resource = resource ∧ c.ownerSessionId = sessionId with
        | [] => .error ⟨.data, s!"no claim on {resource} to release"⟩
        | [mine] => .ok mine
        | mine => .error ⟨.data,
            s!"{mine.length} claims on {resource}; name the one you mean with --claim"⟩

/-! ## Acquiring -/

/-- A session must be open under the generation the caller holds. -/
def requireClaimOwner (current : Option Session) (generation : Id) (action : String) :
    Result Session :=
  match current with
  | none => .error ⟨.conflict, s!"cannot {action} from a session that is not open"⟩
  | some owner => do
      refuse (owner.state ≠ .opened)
        ⟨.conflict, s!"cannot {action} from a session that is not open"⟩
      refuse (owner.generation ≠ generation)
        ⟨.conflict, s!"cannot {action} with a replaced session generation"⟩
      return owner

structure AcquireInput where
  sessionId : Id
  workspaceId : Option Id
  generation : Id
  mode : Option ClaimMode
  leaseSeconds : Option ℚ
  enforcement : Option Enforcement
  reason : String
  descriptor : Option Descriptor
deriving DecidableEq

/-- `new Date(Date.parse(now) + (leaseSeconds ?? 1800) * 1000).toISOString()`. -/
def leaseEnd (now : Timestamp) (leaseSeconds : Option ℚ) : Result Timestamp :=
  toISOString (now + leaseSeconds.getD 1800 * 1000)

/-- The live claims of other sessions that a requested resource runs into, each
with the resource that was requested. -/
def conflictsOf (w : Workspace) (now : Timestamp) (sessionId : Id) (mode : ClaimMode)
    (resources : List String) : List (String × Claim) :=
  resources.flatMap fun resource =>
    (w.claims.list.filter fun c => isLive c now ∧ overlaps c.resource resource
      ∧ c.ownerSessionId ≠ sessionId ∧ (c.mode = .exclusive ∨ mode = .exclusive)).map
      fun c => (resource, c)

def conflictLine (conflict : String × Claim) : String :=
  s!"{conflict.1} overlaps {conflict.2.resource}, held by {conflict.2.ownerSessionId.val}"

/-- How a conflict is reported, singly or for a batch. -/
def conflictError (conflicts : List (String × Claim)) (batch : Bool) : AccError :=
  if batch then
    ⟨.conflict, "batch claim conflicts:\n" ++ "\n".intercalate (conflicts.map conflictLine)⟩
  else ⟨.conflict, "the resource is already claimed"⟩

/-- The session's claim on a resource, lapsed or not. -/
def ownClaim (w : Workspace) (sessionId : Id) (resource : String) : Option Claim :=
  w.claims.list.find? fun c => c.ownerSessionId = sessionId ∧ c.resource = resource

/-- The record to file for the `i`-th requested resource, and whether it is
new. -/
def acquireRecord (w : Workspace) (ports : Ports) (session : Session) (input : AcquireInput)
    (expiresAt : Timestamp) (resource : String) (i : Nat) : Result (Bool × Claim) := do
  let mine := ownClaim w session.sessionId resource
  let record : Claim :=
    { claimId := (mine.map Claim.claimId).getD (ports.ids .claim i)
      workspaceId := session.workspaceId
      ownerSessionId := session.sessionId
      resource := resource
      mode := input.mode.getD .exclusive
      enforcement := input.enforcement.getD .advisory
      reason := input.reason
      -- A lapsed record is used again, but for a new period of holding it.
      acquiredAt := ((mine.filter fun c => isLive c ports.now).map Claim.acquiredAt).getD ports.now
      expiresAt := expiresAt
      generation := ports.ids .generation i }
  validateClaim record
  return (mine.isNone, record)

/-- File one acquired claim, with its event. -/
def fileClaim (now : Timestamp) (w : Workspace) (item : Bool × Claim) : Workspace :=
  let record := item.2
  (w.putClaim record).append
    ⟨record.workspaceId, record.ownerSessionId, now,
      if item.1 then .claimAcquired record.claimId record.resource record.mode
      else .claimRenewed record.claimId (some (record.resource, record.mode))⟩

/-- The transaction that acquires.  The session is the one the call located
before. -/
def acquireTransaction (w : Workspace) (ports : Ports) (session : Session) (input : AcquireInput)
    (resources : List String) (batch : Bool) : Result (Workspace × List Claim) :=
  w.transaction fun w => do
    let _ ← requireClaimOwner (w.sessions.get? input.sessionId) input.generation "claim"
    let expiresAt ← leaseEnd ports.now input.leaseSeconds
    let conflicts := conflictsOf w ports.now session.sessionId (input.mode.getD .exclusive) resources
    refuse (conflicts ≠ []) (conflictError conflicts batch)
    -- Every record is checked before the first is staged.
    let records ← resources.zipIdx.mapM fun item =>
      acquireRecord w ports session input expiresAt item.1 item.2
    return (records.foldl (fileClaim ports.now) w, records.map Prod.snd)

def acquire (w : Workspace) (ports : Ports) (input : AcquireInput) (resources : List String)
    (batch : Bool) : Result (Workspace × List Claim) := do
  let session ← requireClaimOwner (locateSession w input.sessionId input.workspaceId)
    input.generation "claim"
  let resources ← claimResources resources
  let w ← ensureMaterialised w ports session.workspaceId input.descriptor "durable_object"
  acquireTransaction w ports session input resources batch

def acquireClaim (w : Workspace) (ports : Ports) (input : AcquireInput) (resource : String) :
    Result (Workspace × List Claim) :=
  acquire w ports input [resource] false

def acquireClaims (w : Workspace) (ports : Ports) (input : AcquireInput)
    (resources : List String) : Result (Workspace × List Claim) :=
  acquire w ports input resources true

/-! ## Renewing -/

structure RenewInput where
  sessionId : Id
  workspaceId : Option Id
  generation : Id
  claimId : Id
  leaseSeconds : Option ℚ
deriving DecidableEq

def renewTransaction (w : Workspace) (ports : Ports) (session : Session) (input : RenewInput) :
    Result (Workspace × Claim) :=
  w.transaction fun w => do
    let _ ← requireClaimOwner (w.sessions.get? input.sessionId) input.generation "renew"
    match (w.claims.get? input.claimId).filter fun c => c.ownerSessionId = session.sessionId with
    | none => .error ⟨.conflict, "only the owning session generation may renew a claim"⟩
    | some existing => do
        -- A lapsed claim no longer holds its resource, and another may.
        refuse (isLive existing ports.now = false)
          ⟨.conflict, s!"claim {input.claimId.val} has lapsed; acquire the resource again"⟩
        let expiresAt ← leaseEnd ports.now input.leaseSeconds
        let record := { existing with expiresAt, generation := ports.ids .generation 0 }
        return ((w.putClaim record).append
          ⟨existing.workspaceId, session.sessionId, ports.now,
            .claimRenewed input.claimId none⟩, record)

def renewClaim (w : Workspace) (ports : Ports) (input : RenewInput) :
    Result (Workspace × Claim) := do
  let session ← requireClaimOwner (locateSession w input.sessionId input.workspaceId)
    input.generation "renew"
  renewTransaction w ports session input

/-! ## Releasing -/

structure ReleaseInput where
  sessionId : Id
  workspaceId : Option Id
  generation : Id
deriving DecidableEq

/-- Take one claim away, with its event. -/
def releaseOne (now : Timestamp) (sessionId : Id) (authority reason : Option String)
    (w : Workspace) (existing : Claim) : Workspace :=
  (w.removeClaim existing.claimId).append
    ⟨existing.workspaceId, sessionId, now,
      if existing.ownerSessionId = sessionId then
        .claimReleased existing.claimId authority reason existing.generation
      else .claimForceReleased existing.claimId authority reason existing.generation⟩

def removeTransaction (w : Workspace) (ports : Ports) (session : Session) (input : ReleaseInput)
    (selectors : Selectors) (authority reason : Option String) :
    Result (Workspace × List Claim) :=
  w.transaction fun w => do
    let _ ← requireClaimOwner
      ((w.sessions.get? input.sessionId).or (w.ephemeral.sessions.get? input.sessionId))
      input.generation "release"
    let selected ← selectReleaseClaims w session.sessionId selectors
    refuse ((∃ c ∈ selected, c.ownerSessionId ≠ session.sessionId) ∧
        authority ≠ some "human" ∧ authority ≠ some "policy")
      ⟨.conflict, "force release requires human or policy authority"⟩
    return (selected.foldl (releaseOne ports.now session.sessionId authority reason) w, selected)

def removeClaims (w : Workspace) (ports : Ports) (input : ReleaseInput) (selectors : Selectors)
    (authority reason : Option String) : Result (Workspace × List Claim) := do
  let session ← requireClaimOwner (locateSession w input.sessionId input.workspaceId)
    input.generation "release"
  removeTransaction w ports session input selectors authority reason

def releaseClaims (w : Workspace) (ports : Ports) (input : ReleaseInput) (selectors : Selectors) :
    Result (Workspace × List Claim) := do
  let selectors ← releaseSelectors selectors
  removeClaims w ports input selectors none none

def releaseClaim (w : Workspace) (ports : Ports) (input : ReleaseInput) (claimId : Id) :
    Result (Workspace × List Claim) :=
  removeClaims w ports input (.claimIds [claimId]) none none

def forceReleaseClaim (w : Workspace) (ports : Ports) (input : ReleaseInput) (claimId : Id)
    (authority reason : Option String) : Result (Workspace × List Claim) :=
  removeClaims w ports input (.claimIds [claimId]) authority reason

end Acc.Core
