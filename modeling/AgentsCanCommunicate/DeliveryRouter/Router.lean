import AgentsCanCommunicate.AdapterSdk.NativeDelivery
import AgentsCanCommunicate.Core.DeliveryBindings
import AgentsCanCommunicate.Core.Receipts
import AgentsCanCommunicate.Library.Dialogue

/-!
# The live router

A message is offered to one recipient after the other.  The router reads what the core knows of a
recipient, picks the one binding that the recipient can be reached through, extends its lease if
that has run out, and hands the message over to the adapter of the binding.  Whatever it does not
know by itself it asks: the core, the adapter, the consent of the user and the clock.

A recipient that is not offered the message reads it in its next turn, and the outcome says why.

The bindings of one recipient are evaluated one after the other here, and side by side in the
source.
-/

namespace Acc.DeliveryRouter

open Library (Dialogue Text)
open AdapterSdk.NativeDelivery (Value NativeAdapter ReasonCode OfferKind validateNativeHandshake
  evaluateVersionContract isLaunchOption)
open Acc.Core (DeliveryBinding DeliveryMode LivePolicy OfferInput DecisionStatus Viewed)

/-! ## What the router asks -/

structure Adapter extends NativeAdapter where
  /-- `capabilities.delivery.livePush`. -/
  livePush : Bool
  /-- It has `refreshNativeSession`. -/
  refreshes : Bool

/-- What an adapter answers to an offer.  A member that is no text is as one that is missing. -/
structure Response where
  accepted : Bool
  transport : Option String
  safeErrorCode : Option String
  clientVersion : Option Text
  pendingApproval : Bool
  queueStatus : Option String
deriving DecidableEq

structure LiveSession where
  sessionId : Id
  generation : Id
deriving DecidableEq

/-- The last session of a participant. -/
structure LastSession where
  state : SessionState
  endReason : Option String
deriving DecidableEq

/-- Why a session bound no transport, as its own last attempt said. -/
structure NativeReason where
  reasonCode : Option Text
  launchOption : Option Text
deriving DecidableEq

/-- What the core is told of an offer. -/
structure OfferRecord extends OfferInput where
  adapterId : Id
  clientVersion : String
deriving DecidableEq

inductive Question where
  | now
  | readReceipt (messageId recipientParticipantId : Id)
  | listLiveSessions (participantId : Id) (now : Timestamp)
  | lastSessionOf (participantId : Id)
  | listDeliveryBindings (participantId : Id) (now : Timestamp) (includeExpired : Bool)
  | readNativeReason (sessionId generation : Id)
  | loadAdapter (adapterId : Id)
  | readLivePolicy (binding : DeliveryBinding)
  | refreshNativeSession (binding : DeliveryBinding)
  | refreshDeliveryBinding (sessionId generation : Id) (leaseUntil : Timestamp)
  | storedBinding (sessionId : Id)
  /-- `sync` with the scope `history`. -/
  | history (messageId : Id)
  | offerMessage (binding : DeliveryBinding) (message : Message)
  | recordOfferSucceeded (record : OfferRecord)
  | recordOfferFailed (record : OfferRecord) (safeErrorCode : String)
  /-- `storeOfferObservation`, which is not waited for. -/
  | observe (sessionId generation : Id) (at_ : Timestamp) (reasonCode : Option String)

/-- What was thrown. -/
structure Thrown where
  message : String
deriving DecidableEq

@[reducible] def Question.Answer : Question → Type
  | now => Timestamp
  | readReceipt _ _ => Except Thrown Receipt
  | listLiveSessions _ _ => Except Thrown (List LiveSession)
  | lastSessionOf _ => Except Thrown (Option LastSession)
  | listDeliveryBindings _ _ _ => Except Thrown (List DeliveryBinding)
  | readNativeReason _ _ => Except Thrown (Option NativeReason)
  | loadAdapter _ => Except Thrown (Option Adapter)
  -- Nothing, for what is no policy.
  | readLivePolicy _ => Except Thrown (Option LivePolicy)
  | refreshNativeSession _ => Except Thrown Value
  | refreshDeliveryBinding _ _ _ => Except Thrown Unit
  | storedBinding _ => Except Thrown (Option DeliveryBinding)
  | history _ => Except Thrown Viewed
  | offerMessage _ _ => Except Thrown Response
  | recordOfferSucceeded _ => Except Thrown Unit
  | recordOfferFailed _ _ => Except Thrown Unit
  | observe _ _ _ _ => Unit

abbrev Talk (α : Type) := Dialogue Question Question.Answer Thrown α

abbrev Exchange := Dialogue.Exchange Question Question.Answer

abbrev Transcript := Dialogue.Transcript Question Question.Answer

def ask (question : Question) : Talk question.Answer := Dialogue.put question

/-- What was thrown is thrown by the whole. -/
def orThrow {α : Type} (question : Talk (Except Thrown α)) : Talk α := do
  .ofExcept (← question)

/-! ## Words -/

/-- `OFFER_ERRORS`. -/
def safeErrors : List String :=
  ["ambiguous_recipient_sessions", "delivery_disabled", "recipient_busy", "recipient_unavailable",
    "transport_error", "transport_rejected", "transport_permission_denied",
    "unsupported_client_version", "inbound_approval_required"]

def namedLiveTransports : List String := ["claude-inbox", "codex-app-server", "kimi-web"]

/-- The kinds that close or advance a conversation. -/
def actionable : List MessageKind := [.question, .request, .answer, .decision, .handoff]

def permits (policy : LivePolicy) (kind : MessageKind) : Bool :=
  policy = .all || (policy = .actionable && kind ∈ actionable)

def liveCapable (adapter : Option Adapter) (binding : DeliveryBinding) : Bool :=
  adapter.any (fun adapter => adapter.livePush && adapter.nativeDelivery.isSome)
    && DeliveryMode.livePush ∈ binding.availableModes

def safeTransport (value : Option String) (opaqueEndpointRef : String) : String :=
  match value.filter fun value => value ∈ namedLiveTransports ∧ value ≠ opaqueEndpointRef with
  | some value => value
  | none => if opaqueEndpointRef = "live-adapter" then "native-live" else "live-adapter"

/-! ## Outcomes -/

inductive Fate where
  | receipt (state : ReceiptState)
  /-- The client was given a notice, and not the message. -/
  | woken
deriving DecidableEq

structure Outcome where
  recipientParticipantId : Id
  outcome : Fate
  transport : String
  errorCode : Option String
  nativeReasonCode : Option Text
  nativeLaunchOption : Option Text
  endReason : Option String
  busyQueue : Bool
  pendingApproval : Bool
deriving DecidableEq

/-- An outcome with nothing more to say. -/
def plain (recipientParticipantId : Id) (outcome : Fate) (transport : String) : Outcome where
  recipientParticipantId
  outcome
  transport
  errorCode := none
  nativeReasonCode := none
  nativeLaunchOption := none
  endReason := none
  busyQueue := false
  pendingApproval := false

/-- The message waits for the next turn. -/
def durable (recipientParticipantId : Id) (errorCode : String) : Outcome :=
  { plain recipientParticipantId (.receipt .queued) "durable" with errorCode := some errorCode }

def settled (receipt : Receipt) : Outcome :=
  plain receipt.recipientParticipantId (.receipt receipt.state) "durable"

/-! ## One recipient -/

def observeOffer (binding : DeliveryBinding) (reasonCode : Option String) : Talk Unit := do
  let at_ ← ask .now
  ask (.observe binding.sessionId binding.generation at_ reasonCode)

def withoutLiveTransport (participantId : Id) (target : LiveSession) : Talk Outcome := do
  let found ← ask (.readNativeReason target.sessionId target.generation)
  match found with
  | .ok (some ⟨some reason, launchOption⟩) =>
      if reason ∈ ReasonCode.all.map fun code => code.name.toList then
        pure { durable participantId "no_live_transport" with
          nativeReasonCode := some reason
          nativeLaunchOption := launchOption.filter (isLaunchOption ·) }
      else pure (durable participantId "no_live_transport")
  | _ => pure (durable participantId "no_live_transport")

def policyFor (binding : DeliveryBinding) : Talk LivePolicy := do
  let policy ← ask (.readLivePolicy binding)
  match policy with
  | .ok (some policy) => pure policy
  | _ => pure .off

def offerRecord (binding : DeliveryBinding) (message : Message) (participantId : Id)
    (transport : String) : OfferRecord where
  messageId := message.messageId
  recipientParticipantId := participantId
  targetSessionId := binding.sessionId
  targetGeneration := binding.generation
  transport
  repeated := false
  adapterId := binding.adapterId
  clientVersion := binding.clientVersion

def recordFailure (binding : DeliveryBinding) (message : Message) (participantId : Id)
    (transport safeErrorCode : String) : Talk Unit := do
  let _ ← ask (.recordOfferFailed (offerRecord binding message participantId
    (safeTransport (some transport) binding.opaqueEndpointRef)) safeErrorCode)
  observeOffer binding (some safeErrorCode)

section

-- `Date.parse`, for the texts that it reads.
variable (dateParse : Text → Option Timestamp)

def maxRefreshLeaseMs : Int := 120000

def sameBinding (current : Option DeliveryBinding) (expected : DeliveryBinding)
    (leaseUntil : Timestamp) : Bool :=
  current.any fun current => current.retiredAt = none && current.sessionId = expected.sessionId
    && current.generation = expected.generation && current.adapterId = expected.adapterId
    && current.clientVersion = expected.clientVersion
    && current.opaqueEndpointRef = expected.opaqueEndpointRef && current.leaseUntil = leaseUntil

/-- The lease that a handshake asks for, or why there is none. -/
def handshakeLease (adapter : Adapter) (binding : DeliveryBinding) (now : Timestamp)
    (handshake : Value) : Except String Timestamp :=
  match validateNativeHandshake adapter.toNativeAdapter (some binding.clientVersion.toList)
      handshake with
  | .error _ => .error "recipient_unavailable"
  | .ok validated =>
      if validated.ok = false then
        .error (if validated.reasonCode = some .transportPermissionDenied then
          "transport_permission_denied" else "recipient_unavailable")
      else if validated.opaqueEndpointRef ≠ some binding.opaqueEndpointRef.toList then
        .error "recipient_unavailable"
      else
        match validated.leaseUntil.bind dateParse with
        | none => .error "recipient_unavailable"
        | some requested =>
            if requested ≤ now then .error "recipient_unavailable"
            else .ok (min requested (now + maxRefreshLeaseMs))

/-- Nothing if the binding was refreshed, or why it was not. -/
def refreshExpiredBinding (adapter : Adapter) (binding : DeliveryBinding) :
    Talk (Option String) := do
  if adapter.refreshes = false then pure (some "recipient_unavailable")
  else
    let now ← ask .now
    match ← ask (.refreshNativeSession binding) with
    | .error _ => pure (some "recipient_unavailable")
    | .ok handshake =>
        match handshakeLease dateParse adapter binding now handshake with
        | .error errorCode => pure (some errorCode)
        | .ok leaseUntil =>
            match ← ask (.refreshDeliveryBinding binding.sessionId binding.generation
                leaseUntil) with
            | .error _ => pure (some "recipient_unavailable")
            | .ok () =>
                match ← ask (.storedBinding binding.sessionId) with
                | .error _ => pure (some "recipient_unavailable")
                | .ok current =>
                    if sameBinding current binding leaseUntil then pure none
                    else pure (some "recipient_unavailable")

def sameEndpoint (binding item : DeliveryBinding) : Bool :=
  item.sessionId = binding.sessionId && item.generation = binding.generation
    && item.adapterId = binding.adapterId && item.clientVersion = binding.clientVersion
    && item.opaqueEndpointRef = binding.opaqueEndpointRef

/-- The binding with a lease, or the outcome without one. -/
def renew (message : Message) (participantId : Id) (now : Timestamp) (adapter : Adapter)
    (binding : DeliveryBinding) : Talk (Except Outcome DeliveryBinding) := do
  if now < binding.leaseUntil then pure (.ok binding)
  else
    match ← refreshExpiredBinding dateParse adapter binding with
    | some errorCode =>
        if errorCode = "transport_permission_denied" then
          recordFailure binding message participantId "live-adapter" errorCode
        else observeOffer binding (some errorCode)
        pure (.error (durable participantId errorCode))
    | none =>
        let now ← ask .now
        let listed ← orThrow (ask (.listDeliveryBindings participantId now false))
        match listed.filter (sameEndpoint binding) with
        | [current] => pure (.ok current)
        | _ => pure (.error (durable participantId "recipient_unavailable"))

/-- What the adapter made of the message, and what the core is told of it. -/
def handOver (message : Message) (participantId : Id) (adapter : Adapter)
    (binding currentBinding : DeliveryBinding) : Talk Outcome := do
  match ← ask (.offerMessage currentBinding message) with
  | .error _ =>
      recordFailure binding message participantId "live-adapter" "transport_error"
      pure (durable participantId "transport_error")
  | .ok response =>
      let transport := safeTransport response.transport binding.opaqueEndpointRef
      if response.accepted = false then
        let code := (response.safeErrorCode.filter (· ∈ safeErrors)).getD "transport_rejected"
        recordFailure binding message participantId transport code
        pure (durable participantId code)
      else if (evaluateVersionContract adapter.toNativeAdapter response.clientVersion
          none).reasonCode ≠ none then
        recordFailure binding message participantId transport "unsupported_client_version"
        pure (durable participantId "unsupported_client_version")
      else if adapter.nativeDelivery.any (fun contract => contract.offerKind = OfferKind.wake) then
        observeOffer binding (if response.pendingApproval then some "inbound_approval_required"
          else none)
        if response.queueStatus = some "queued" then
          pure { plain participantId (.receipt .queued) transport with busyQueue := true }
        else
          pure { plain participantId .woken transport with
            pendingApproval := response.pendingApproval }
      else
        match ← ask (.recordOfferSucceeded
            (offerRecord binding message participantId transport)) with
        | .error _ =>
            recordFailure binding message participantId transport "transport_error"
            pure (durable participantId "transport_error")
        | .ok () =>
            observeOffer binding none
            pure (plain participantId (.receipt .offered) transport)

/-- The binding still has its lease, by the clock at this moment. -/
def stillLeased (binding item : DeliveryBinding) : Talk Bool := do
  if sameEndpoint binding item && DeliveryMode.livePush ∈ item.availableModes then
    let now ← ask .now
    pure (decide (now < item.leaseUntil))
  else pure false

/-- The binding is read once more, and nothing but the clock between that and the adapter. -/
def confirm (message : Message) (participantId : Id) (adapter : Adapter)
    (binding : DeliveryBinding) (currentPolicy : LivePolicy) : Talk Outcome := do
  let now ← ask .now
  let listed ← orThrow (ask (.listDeliveryBindings participantId now false))
  let leased ← listed.mapM fun item => return (item, ← stillLeased binding item)
  match leased.filter Prod.snd with
  | [current] =>
      handOver message participantId adapter binding { current.1 with livePolicy := currentPolicy }
  | _ => pure (durable participantId "recipient_unavailable")

/-- What stands in the way of a binding that was picked is looked for once more. -/
def recheck (message : Message) (participantId : Id) (adapter : Adapter)
    (binding : DeliveryBinding) : Talk Outcome := do
  let currentPolicy ← policyFor binding
  if permits currentPolicy message.kind = false then
    pure (durable participantId "delivery_disabled")
  else
    let now ← ask .now
    let currentSessions ← orThrow (ask (.listLiveSessions participantId now))
    if 1 < currentSessions.length then
      pure (durable participantId "ambiguous_recipient_sessions")
    else if currentSessions ≠ [⟨binding.sessionId, binding.generation⟩] then
      pure (durable participantId "recipient_unavailable")
    else if message.kind = .decision then
      let current ← orThrow (ask (.history message.messageId))
      match current.2 with
      | none => .fail ⟨"Cannot read properties of undefined (reading 'isHead')"⟩
      | some status =>
          if status.isHead then confirm current.1 participantId adapter binding currentPolicy
          else return settled (← orThrow (ask (.readReceipt current.1.messageId participantId)))
    else confirm message participantId adapter binding currentPolicy

structure Evaluated where
  binding : DeliveryBinding
  adapter : Option Adapter
  policy : LivePolicy

def evaluate (binding : DeliveryBinding) : Talk Evaluated := do
  let adapter ← orThrow (ask (.loadAdapter binding.adapterId))
  return ⟨binding, adapter, ← policyFor binding⟩

/-- The session is reached through the one binding that is permitted and can be reached. -/
def offerToSession (message : Message) (participantId : Id) (now : Timestamp)
    (target : LiveSession) : Talk Outcome := do
  let listed ← orThrow (ask (.listDeliveryBindings participantId now true))
  let bindings := listed.filter fun binding =>
    binding.sessionId = target.sessionId && binding.generation = target.generation
  if bindings = [] then withoutLiveTransport participantId target
  else
    let evaluated ← bindings.mapM evaluate
    let permitted := evaluated.filter fun item => permits item.policy message.kind
    let reachable := permitted.filter fun item =>
      DeliveryMode.livePush ∈ item.binding.availableModes
    if permitted.isEmpty then pure (durable participantId "delivery_disabled")
    else if reachable.isEmpty then pure (durable participantId "no_live_transport")
    else
      match reachable.filter fun item => liveCapable item.adapter item.binding with
      | [] => pure (durable participantId "unsupported_client_version")
      | [⟨binding, some adapter, _⟩] =>
          match ← renew dateParse message participantId now adapter binding with
          | .error outcome => pure outcome
          | .ok binding => recheck message participantId adapter binding
      | _ => pure (durable participantId "ambiguous_recipient_sessions")

def offline (participantId : Id) : Talk Outcome := do
  match ← ask (.lastSessionOf participantId) with
  | .ok (some ⟨.closed, endReason⟩) =>
      pure { durable participantId "recipient_offline" with endReason }
  | _ => pure (durable participantId "recipient_offline")

def offerTo (message : Message) (now : Timestamp) (participantId : Id) : Talk Outcome := do
  let receipt ← orThrow (ask (.readReceipt message.messageId participantId))
  if receipt.state ≠ .queued then pure (settled receipt)
  else
    match ← orThrow (ask (.listLiveSessions participantId now)) with
    | [] => offline participantId
    | [target] => offerToSession dateParse message participantId now target
    | _ => pure (durable participantId "ambiguous_recipient_sessions")

/-! ## All recipients -/

def offerEach (message : Message) : Talk (List Outcome) := do
  let now ← ask .now
  message.toParticipantIds.mapM (offerTo dateParse message now)

def offer (message : Message) : Talk (List Outcome) := do
  if message.toParticipantIds = [] then pure []
  else if message.kind = .decision then
    let current ← orThrow (ask (.history message.messageId))
    match current.2 with
    | none => .fail ⟨"Cannot read properties of undefined (reading 'isHead')"⟩
    | some status =>
        if status.isHead then offerEach dateParse current.1
        else
          current.1.toParticipantIds.mapM fun recipientParticipantId =>
            return settled (← orThrow (ask (.readReceipt current.1.messageId
              recipientParticipantId)))
  else offerEach dateParse message

end

end Acc.DeliveryRouter
