import AgentsCanCommunicate.Core.Inbox

/-!
# Offers

A transport that accepted a message for a recipient records an offer on the
recipient's receipt.  A live offer that nothing followed is shown again by the
next turn, once.  An offer that failed is an event and changes no receipt.
-/

namespace Acc.Core

/-- How long a live offer may stand with nothing after it. -/
def repeatOfferAfterMs : Int := 15 * 60 * 1000

/-- A live transport took the bytes, and the next turn has not shown them. -/
def liveAndUnrepeated (offer : Offer) : Bool :=
  offer.transport ≠ "next-turn" ∧ offer.repeatedAt = none

/-- A live transport accepted the message, and nothing followed for long. -/
def dueForRepeat (message : Message) (receipt : Receipt) (now : Timestamp) : Bool :=
  message.toParticipantIds ≠ [] ∧ receipt.state = .offered
    ∧ receipt.offer.any fun offer =>
        liveAndUnrepeated offer && decide (repeatOfferAfterMs ≤ now - offer.at_)

/-- The errors an offer may report. -/
def safeOfferErrorCodes : List String :=
  ["ambiguous_recipient_sessions", "delivery_disabled", "recipient_busy", "recipient_unavailable",
    "transport_error", "transport_rejected", "transport_permission_denied",
    "unsupported_client_version"]

variable [LinearOrder ReceiptId]

structure OfferInput where
  messageId : Id
  recipientParticipantId : Id
  targetSessionId : Id
  targetGeneration : Id
  transport : String
  repeated : Bool
deriving DecidableEq

/-- The message and the receipt of a recipient. -/
def requireReceipt (w : Workspace) (messageId recipientParticipantId : Id) :
    Result (Message × Receipt) :=
  match w.receipts.get? ⟨messageId, recipientParticipantId⟩, w.messages.get? messageId with
  | some receipt, some message => .ok (message, receipt)
  | _, _ => .error ⟨.conflict, "no receipt exists for that recipient"⟩

def requireOfferableReceipt (w : Workspace) (input : OfferInput) (allowRoomNextTurn : Bool) :
    Result (Message × Receipt) := do
  let found ← requireReceipt w input.messageId input.recipientParticipantId
  refuse (found.1.toParticipantIds = []
      ∧ (allowRoomNextTurn = false ∨ input.transport ≠ "next-turn"))
    ⟨.conflict, "room messages are not eligible for live offers"⟩
  return found

def requireTarget (w : Workspace) (input : OfferInput) (mustBeOpen : Bool) : Result Session :=
  match (w.sessions.get? input.targetSessionId).filter fun s =>
      (mustBeOpen = true → s.state = .opened)
        ∧ s.participantId = input.recipientParticipantId
        ∧ s.generation = input.targetGeneration with
  | none => .error
      ⟨.conflict, "the offer target is not this recipient's session generation"⟩
  | some target => .ok target

def readReceipt (w : Workspace) (messageId recipientParticipantId : Id) : Result Receipt := do
  let found ← requireReceipt w messageId recipientParticipantId
  return publicReceipt found.2

/-- Write a receipt, with the event of its offer. -/
def offered (w : Workspace) (now : Timestamp) (input : OfferInput) (target : Session)
    (receipt : Receipt) (repeated : Bool) : Workspace :=
  (w.putReceipt receipt).append
    ⟨receipt.workspaceId, target.sessionId, now,
      .offerSucceeded input.messageId input.recipientParticipantId input.targetSessionId
        input.targetGeneration input.transport repeated⟩

def recordOfferSucceeded (w : Workspace) (ports : Ports) (input : OfferInput) :
    Result (Workspace × Receipt) := do
  refuse (input.repeated = true ∧ input.transport ≠ "next-turn")
    ⟨.data, "a repeated offer travels only through the next turn"⟩
  w.transaction fun w => do
    let found ← requireOfferableReceipt w input true
    let target ← requireTarget w input true
    let receipt := found.2
    if input.repeated then
      -- Judged again under the writer: a retrieval or another repeat may have landed.
      if dueForRepeat found.1 receipt ports.now then
        let repeated := { receipt with
          offer := receipt.offer.map fun offer => { offer with repeatedAt := some ports.now } }
        return (offered w ports.now input target repeated true, publicReceipt repeated)
      else return (w, publicReceipt receipt)
    else if receipt.state = .queued then
      let next := { receipt with
        state := .offered, updatedAt := ports.now
        offer := some ⟨input.transport, ports.now, none⟩ }
      return (offered w ports.now input target next false, publicReceipt next)
    else return (w, publicReceipt receipt)

def recordOfferFailed (w : Workspace) (ports : Ports) (input : OfferInput)
    (safeErrorCode : String) : Result (Workspace × Unit) := do
  refuse (safeErrorCode ∉ safeOfferErrorCodes)
    ⟨.data, "safeErrorCode is not in the closed offer error set"⟩
  w.transaction fun w => do
    let found ← requireOfferableReceipt w input false
    let target ← requireTarget w input false
    return (w.append
      ⟨found.2.workspaceId, target.sessionId, ports.now,
        .offerFailed input.messageId input.recipientParticipantId target.sessionId
          target.generation input.transport safeErrorCode⟩, ())

end Acc.Core
