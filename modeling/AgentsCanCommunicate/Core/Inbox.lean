import AgentsCanCommunicate.Core.Conversations
import AgentsCanCommunicate.Core.DecisionState

/-!
# The inbox

A reader's inbox is read through two indexes: its receipts by state, and the
decisions that name a decision.  A listing shows what still waits for the reader,
newest first, in pages.  Reading marks receipts retrieved, acknowledging and
replying settle them.

The size of a page is that of its formatted text.  How a value is formatted is
the language's business, so the size is a parameter here.
-/

namespace Acc.Core

open Library (Table Keyed search Leads)

/-! ## Pages -/

def defaultLimit : Nat := 20

def pageBytes : Nat := 12000

/-- Newest first: by time, and then by identifier. -/
def newestFirst (a b : Message) : Bool :=
  b.sentAt < a.sentAt ∨ (a.sentAt = b.sentAt ∧ b.messageId.localeKey ≤ a.messageId.localeKey)

/-- Oldest first. -/
def oldestFirst (a b : Message) : Bool := newestFirst b a

structure PageInput where
  limit : Option Nat
  kind : Option MessageKind
  cursor : Option Id
deriving DecidableEq

/-- A message with the status of its decision. -/
abbrev Viewed := Message × Option DecisionStatus

structure Page (ι : Type) where
  items : List ι
  nextCursor : Option Id
deriving DecidableEq

/-- The items of a page: as many as stay within its size. -/
def fillPage {ι : Type} (size : List ι → Id → Nat) (project : Viewed → ι) (items : List ι) :
    List Viewed → List ι
  | [] => items
  | message :: rest =>
      let items' := items ++ [project message]
      if pageBytes < size items' message.1.messageId then items
      else fillPage size project items' rest

def usageError (message : String) : AccError := ⟨.usage, message⟩

/-- The message a cursor names, which must be in the list. -/
def pageAnchor (messages : List Viewed) (input : PageInput) : Result (Option Message) :=
  match input.cursor with
  | none => .ok none
  | some cursor =>
      match (messages.find? fun m => m.1.messageId = cursor).filter fun m =>
          input.kind.all fun kind => m.1.kind = kind with
      | none => .error
          (usageError "message cursor is not in this message list; start again without a cursor")
      | some anchor => .ok (some anchor.1)

/-- What a page is cut from: the messages wanted, after the anchor, newest
first. -/
def pageSelection (messages : List Viewed) (input : PageInput) (include_ : Viewed → Bool)
    (anchor : Option Message) : List Viewed :=
  (messages.filter fun m => include_ m
    && (input.kind.all fun kind => m.1.kind = kind)
    && anchor.all fun a => !newestFirst m.1 a).mergeSort fun a b => newestFirst a.1 b.1

def messagePage {ι : Type} (size : List ι → Id → Nat) (messages : List Viewed) (input : PageInput)
    (include_ : Viewed → Bool) (project : Viewed → ι) : Result (Page ι) := do
  let limit := input.limit.getD defaultLimit
  refuse (limit < 1 ∨ 500 < limit) (usageError "message list limit must be an integer from 1 to 500")
  let anchor ← pageAnchor messages input
  let selected := pageSelection messages input include_ anchor
  let items := fillPage size project [] (selected.take limit)
  refuse (selected ≠ [] ∧ items.length = 0)
    ⟨.data, "one message summary exceeds the page budget"⟩
  return ⟨items, if items.length < selected.length then
    (selected[items.length - 1]?).map fun m => m.1.messageId else none⟩

/-! ## Summaries -/

/-- Cut a subject to 160 bytes between characters. -/
def shortenTo (text : String) : List Char → String
  | [] => text
  | c :: cs =>
      if 160 < (text ++ c.toString ++ "…").utf8ByteSize then text
      else shortenTo (text ++ c.toString) cs

def shortSubject (subject : String) : String :=
  if subject.utf8ByteSize ≤ 160 then subject else shortenTo "" subject.toList ++ "…"

/-- What discovery shows of a message. -/
structure MessageSummary where
  messageId : Id
  threadId : Id
  fromParticipantId : Id
  fromSessionId : Id
  kind : MessageKind
  obligation : Obligation
  subject : String
  sentAt : Timestamp
  inReplyTo : Option Id
  bodyBytes : Nat
  artifactCount : Nat
  decisionStatus : Option DecisionStatus
deriving DecidableEq

def messageSummary (message : Viewed) : MessageSummary :=
  let m := message.1
  ⟨m.messageId, m.threadId, m.fromParticipantId, m.fromSessionId, m.kind, m.obligation,
    shortSubject m.subject, m.sentAt, m.inReplyTo, m.body.utf8ByteSize, m.artifacts.length,
    message.2⟩

/-- The receipt as it is shown, without the bookkeeping of the index. -/
def publicReceipt (receipt : Receipt) : Receipt := { receipt with obligation := none }

structure InboxItem where
  message : MessageSummary
  receipt : Option Receipt
deriving DecidableEq

variable [LinearOrder ReceiptId]

/-! ## What is read -/

def listable (message : Message) (receipt : Receipt) : Bool :=
  receipt.state = .queued ∨ receipt.state = .offered
    ∨ (receipt.state = .retrieved ∧ message.obligation ≠ .none)

/-- Every state a listable receipt can be in. -/
def pendingStates : List ReceiptState := [.queued, .offered, .retrieved]

/-- The reader's receipts in these states. -/
def receiptsInState (w : Workspace) (session : Session) (states : List ReceiptState) :
    List Receipt :=
  states.flatMap fun state =>
    (lookupReceipts w .receiptsByRecipientState
      [session.workspaceId.val, session.participantId.val, state.word]).filterMap w.receipts.get?

/-- The reader's receipt for one message. -/
def ownReceipt (w : Workspace) (session : Session) (messageId : Id) : Option Receipt :=
  w.receipts.get? ⟨messageId, session.participantId⟩

/-- The receipt of a message among receipts. -/
def receiptOf (receipts : List Receipt) (messageId : Id) : Option Receipt :=
  receipts.find? fun r => r.messageId = messageId

/-- The decisions a walk goes to from a decision. -/
def walkNext (w : Workspace) (session : Session) (i : Id) : List Id :=
  let named := ((w.messages.get? i).map targets).getD []
  let naming := lookupMessages w .decisionsByTarget [session.workspaceId.val, i.val]
  (named ++ naming).filter fun j => (w.messages.get? j).any fun m => m.kind = .decision

/-- The whole groups of some decisions, walked link by link. -/
def walkGroups (w : Workspace) (session : Session) (seeds : List Id) : List Message :=
  (search (walkNext w session) w.messages.list.length seeds seeds.reverse).filterMap
    w.messages.get?

/-- The messages of these receipts, each with the status of its decision. -/
def messagesFor (w : Workspace) (session : Session) (receipts : List Receipt) : List Viewed :=
  let messages := receipts.filterMap fun r => w.messages.get? r.messageId
  let view := decisionView
    (walkGroups w session ((messages.filter fun m => m.kind = .decision).map Message.messageId))
  messages.map fun m => (m, view m)

/-! ## Listing -/

/-- A reader must be open under the generation it holds. -/
def requireOpen (current : Option Session) (generation : Id) (action : String) : Result Session :=
  match current.filter fun s => s.state = .opened ∧ s.generation = generation with
  | none => .error ⟨.conflict, s!"cannot {action} from this session generation"⟩
  | some session => .ok session

/-- The record a transaction reads: the durable one, or that of a solo session. -/
def sessionIn (w : Workspace) (sessionId : Id) : Option Session :=
  (w.sessions.get? sessionId).or (w.ephemeral.sessions.get? sessionId)

structure ListInput where
  sessionId : Id
  workspaceId : Option Id
  generation : Id
  page : PageInput
deriving DecidableEq

/-- The listing of a page, from the reader's pending receipts. -/
def inboxPage (size : List InboxItem → Id → Nat) (receipts : List Receipt)
    (messages : List Viewed) (page : PageInput) : Result (Page InboxItem) :=
  messagePage size messages page
    (fun m => isCurrentDecision m.2 && (receiptOf receipts m.1.messageId).any (listable m.1))
    (fun m => ⟨messageSummary m, (receiptOf receipts m.1.messageId).map publicReceipt⟩)

/-- The receipt of the cursor's message, which may have been resolved since the
page before. -/
def anchorReceipt (w : Workspace) (session : Session) (receipts : List Receipt)
    (cursor : Option Id) : List Receipt :=
  match cursor with
  | none => []
  | some cursor =>
      if (receiptOf receipts cursor).isSome then [] else (ownReceipt w session cursor).toList

def listInbox (size : List InboxItem → Id → Nat) (w : Workspace) (input : ListInput) :
    Result (Page InboxItem) := do
  let session ← requireOpen (locateSession w input.sessionId input.workspaceId) input.generation
    "list the inbox"
  let _ ← requireOpen (sessionIn w input.sessionId) input.generation "list the inbox"
  let pending := receiptsInState w session pendingStates
  let receipts := pending ++ anchorReceipt w session pending input.page.cursor
  inboxPage size receipts (messagesFor w session receipts) input.page

/-! ## Moving a receipt -/

/-- A message addressed to the reader, and the reader's receipt. -/
def requireOwnedReceipt (w : Workspace) (session : Session) (messageId : Id) :
    Result (Message × Receipt) :=
  match w.messages.get? messageId, w.receipts.get? ⟨messageId, session.participantId⟩ with
  | some message, some receipt => .ok (message, receipt)
  | _, _ => .error ⟨.conflict, "that message is not addressed to this participant"⟩

/-- The receipt in a later state.  One from an earlier version gains the
obligation of its message. -/
def advancedReceipt (message : Message) (receipt : Receipt) (state : ReceiptState)
    (now : Timestamp) : Receipt :=
  { receipt with
    state, updatedAt := now
    obligation := receipt.obligation.or (some message.obligation) }

def advanceOwned (w : Workspace) (session : Session) (messageId : Id) (state : ReceiptState)
    (now : Timestamp) : Result (Workspace × Receipt) := do
  let owned ← requireOwnedReceipt w session messageId
  let nextState ← advanceReceipt owned.2.state state
  if nextState = owned.2.state then return (w, owned.2)
  else
    let receipt := advancedReceipt owned.1 owned.2 nextState now
    return ((w.putReceipt receipt).append
      ⟨session.workspaceId, session.sessionId, now,
        .messageAdvanced state messageId session.participantId⟩, receipt)

/-! ## Reading -/

structure ReadInput where
  sessionId : Id
  workspaceId : Option Id
  generation : Id
  messageId : Option Id
deriving DecidableEq

/-- The receipts a read is about, oldest message first. -/
def selectRead (receipts : List Receipt) (messages : List Viewed) (messageId : Option Id) :
    Result (List (Viewed × Receipt)) := do
  let found := messages.filterMap fun m =>
    (receiptOf receipts m.1.messageId).map fun r => (m, r)
  let selected := match messageId with
    | none => found.filter fun i => listable i.1.1 i.2 && isCurrentDecision i.1.2
    | some messageId => found.filter fun i => i.1.1.messageId = messageId
  refuse (messageId ≠ none ∧ selected = [])
    ⟨.conflict, "that message is not recoverable by this participant"⟩
  return selected.mergeSort fun a b => oldestFirst a.1.1 b.1.1

/-- Mark one receipt retrieved, unless it is settled. -/
def readOne (session : Session) (now : Timestamp) (state : Workspace × List (Viewed × Receipt))
    (item : Viewed × Receipt) : Result (Workspace × List (Viewed × Receipt)) :=
  if item.2.state = .acknowledged then .ok (state.1, state.2 ++ [(item.1, publicReceipt item.2)])
  else do
    let done ← advanceOwned state.1 session item.1.1.messageId .retrieved now
    return (done.1, state.2 ++ [(item.1, publicReceipt done.2)])

/-- The receipts a read looks at. -/
def readReceipts (w : Workspace) (session : Session) (messageId : Option Id) : List Receipt :=
  match messageId with
  | none => receiptsInState w session pendingStates
  | some messageId => (ownReceipt w session messageId).toList

def readInbox (w : Workspace) (ports : Ports) (input : ReadInput) :
    Result (Workspace × List (Viewed × Receipt)) := do
  let session ← requireOpen (locateSession w input.sessionId input.workspaceId) input.generation
    "read the inbox"
  w.transaction fun w => do
    let _ ← requireOpen (sessionIn w input.sessionId) input.generation "read the inbox"
    let receipts := readReceipts w session input.messageId
    let selected ← selectRead receipts (messagesFor w session receipts) input.messageId
    selected.foldlM (readOne session ports.now) (w, [])

/-! ## Settling -/

structure SettleInput where
  sessionId : Id
  workspaceId : Option Id
  generation : Id
  messageId : Id
deriving DecidableEq

def acknowledgeMessage (w : Workspace) (ports : Ports) (input : SettleInput) :
    Result (Workspace × Receipt) := do
  let session ← requireOpen (locateSession w input.sessionId input.workspaceId) input.generation
    "acknowledge a message"
  w.transaction fun w => do
    let _ ← requireOpen (sessionIn w input.sessionId) input.generation "acknowledge a message"
    let owned ← requireOwnedReceipt w session input.messageId
    refuse (owned.1.obligation = .reply ∧ owned.2.state ≠ .acknowledged)
      ⟨.conflict, "this message requires a reply; use reply to answer, clarify, or decline"⟩
    let done ← advanceOwned w session input.messageId .acknowledged ports.now
    return (done.1, publicReceipt done.2)

structure ReplyInput where
  settle : SettleInput
  clientMessageId : Id
  subject : Option String
  body : String
  artifacts : List ArtifactRef
deriving DecidableEq

/-- The answer a reply sends. -/
def replyMessage (original : Message) (input : ReplyInput) : MessageInput where
  clientMessageId := input.clientMessageId
  toParticipantIds := [original.fromParticipantId.val]
  kind := .answer
  obligation := .none
  subject := input.subject.getD s!"Re: {original.subject}"
  body := input.body
  inReplyTo := some original.messageId
  artifacts := input.artifacts
  handoff := none
  supersedes := none
  withdraws := none
  decisionChange := none

def replyToMessage (w : Workspace) (ports : Ports) (input : ReplyInput) :
    Result (Workspace × (Message × Receipt)) := do
  let session ← requireOpen (locateSession w input.settle.sessionId input.settle.workspaceId)
    input.settle.generation "reply to a message"
  w.transaction fun w => do
    let original ← requireOwnedReceipt w session input.settle.messageId
    let recorded ← recordMessageInTransaction w session (replyMessage original.1 input) ports.now
      (ports.ids .message 0) "reply to a message"
    let done ← advanceOwned recorded.1 session input.settle.messageId .acknowledged ports.now
    return (done.1, (recorded.2.message, publicReceipt done.2))

end Acc.Core
