import AgentsCanCommunicate.Protocol.Fields

/-!
# Durable records

The records a workspace keeps, their closed sets of values, and the checks a
record passes before it is written.  A field that is one of a closed set of
words is an enumeration here, so the source's `oneOf` has nothing left to
refuse, and a field that holds an identifier is an `Id`.

A receipt is filed under a digest of its message and its recipient.  `ReceiptId`
is that pair.  The order in which receipts are listed is the order of the
digests, about which nothing is known, so the development takes any order of
`ReceiptId`.
-/

namespace Acc

/-! ## Closed sets -/

inductive WorkspaceSource where
  | config | git | directory
deriving DecidableEq, Repr

inductive ParticipantKind where
  | agent | human
deriving DecidableEq, Repr

inductive SessionState where
  | opened | closed
deriving DecidableEq, Repr

inductive Enforcement where
  | guarded | advisory
deriving DecidableEq, Repr

inductive Lifecycle where
  | managed | manual
deriving DecidableEq, Repr

inductive IntentMode where
  | observe | explore | edit | review | coordinate | wait
deriving DecidableEq, Repr

inductive IntentState where
  | active | blocked | waiting | done
deriving DecidableEq, Repr

inductive ClaimMode where
  | shared | exclusive
deriving DecidableEq, Repr

inductive MessageKind where
  | note | question | request | answer | decision | handoff
deriving DecidableEq, Repr

inductive Obligation where
  | none | acknowledge | reply
deriving DecidableEq, Repr

inductive ReceiptState where
  | queued | offered | retrieved | acknowledged
deriving DecidableEq, Repr

inductive HandoffStatus where
  | complete | partially | blocked
deriving DecidableEq, Repr

inductive ArtifactKind where
  | file | git | url | report | image | data
deriving DecidableEq, Repr

inductive DecisionAction where
  | replace | withdraw
deriving DecidableEq, Repr

def MessageKind.word : MessageKind → String
  | .note => "note"
  | .question => "question"
  | .request => "request"
  | .answer => "answer"
  | .decision => "decision"
  | .handoff => "handoff"

def Obligation.word : Obligation → String
  | .none => "none"
  | .acknowledge => "acknowledge"
  | .reply => "reply"

def ReceiptState.word : ReceiptState → String
  | .queued => "queued"
  | .offered => "offered"
  | .retrieved => "retrieved"
  | .acknowledged => "acknowledged"

def HandoffStatus.word : HandoffStatus → String
  | .complete => "complete"
  | .partially => "partial"
  | .blocked => "blocked"

/-! ## Records -/

structure WorkspaceRecord where
  workspaceId : Id
  displayName : String
  source : WorkspaceSource
  roots : List String
  createdAt : Timestamp
deriving DecidableEq

structure Participant where
  participantId : Id
  workspaceId : Id
  displayName : String
  kind : ParticipantKind
  createdAt : Timestamp
deriving DecidableEq

structure Session where
  sessionId : Id
  participantId : Id
  workspaceId : Id
  generation : Id
  harness : String
  state : SessionState
  parentSessionId : Option Id
  checkoutRoot : Option String
  branch : Option String
  pid : Option Nat
  enforcement : Enforcement
  lifecycle : Lifecycle
  heartbeatCadenceMs : Nat
  startedAt : Timestamp
  heartbeatAt : Timestamp
  /-- The extension that keeps the left messages a session was told about. -/
  noticedLeftMessages : List String
  /-- The extension that keeps the client's own word for why it ended. -/
  endReason : Option String
deriving DecidableEq

structure Intent where
  sessionId : Id
  workspaceId : Id
  summary : String
  mode : IntentMode
  resourceHints : List String
  state : IntentState
  updatedAt : Timestamp
deriving DecidableEq

structure Claim where
  claimId : Id
  workspaceId : Id
  ownerSessionId : Id
  resource : String
  mode : ClaimMode
  enforcement : Enforcement
  reason : String
  acquiredAt : Timestamp
  expiresAt : Timestamp
  generation : Id
deriving DecidableEq

structure ArtifactRef where
  kind : ArtifactKind
  uri : String
  description : String
  sha256 : Option String
deriving DecidableEq

structure Handoff where
  status : HandoffStatus
  completed : List String
  remaining : List String
  blockers : List String
  verification : List ArtifactRef
deriving DecidableEq

/-- The decisions a decision replaces or withdraws. -/
structure DecisionChange where
  action : DecisionAction
  messageIds : List Id
deriving DecidableEq

structure Message where
  messageId : Id
  threadId : Id
  clientMessageId : Id
  workspaceId : Id
  fromParticipantId : Id
  fromSessionId : Id
  toParticipantIds : List Id
  kind : MessageKind
  obligation : Obligation
  subject : String
  body : String
  inReplyTo : Option Id
  artifacts : List ArtifactRef
  handoff : Option Handoff
  decisionChange : Option DecisionChange
  sentAt : Timestamp
deriving DecidableEq

/-- How and when a transport accepted a message. -/
structure Offer where
  transport : String
  at_ : Timestamp
  repeatedAt : Option Timestamp
deriving DecidableEq

/-- What names a receipt. -/
structure ReceiptId where
  messageId : Id
  participantId : Id
deriving DecidableEq

structure Receipt where
  messageId : Id
  workspaceId : Id
  recipientParticipantId : Id
  state : ReceiptState
  updatedAt : Timestamp
  /-- The extension that keeps the obligation of the message.  A receipt from an
  earlier version has none. -/
  obligation : Option Obligation
  /-- The extension that keeps the accepted offer. -/
  offer : Option Offer
  /-- The extensions of which this version knows nothing, by name. -/
  others : List (String × String)
deriving DecidableEq

theorem ReceiptId.toLex_injective :
    Function.Injective fun i : ReceiptId => toLex (i.messageId, i.participantId) := by
  intro i j h
  cases i
  cases j
  cases h
  rfl

/-- One of the orders in which receipts may be listed. -/
instance ReceiptId.lexOrder : LinearOrder ReceiptId :=
  LinearOrder.lift' (fun i : ReceiptId => toLex (i.messageId, i.participantId))
    ReceiptId.toLex_injective

/-- The name a receipt is filed under. -/
def Receipt.receiptId (receipt : Receipt) : ReceiptId :=
  ⟨receipt.messageId, receipt.recipientParticipantId⟩

/-! ## Events -/

/-- What an event reports, under its type. -/
inductive Payload where
  | workspaceMaterialised (reason : String)
  | sessionOpened (replaced : Option Id)
  /-- The promotion of an ephemeral session. -/
  | sessionPromoted (sessionId : Id)
  | sessionClosed
  | sessionFinished (messageId sessionGeneration : Id) (releasedClaimIds : List Id)
  | intentPublished (mode : IntentMode) (state : IntentState)
  /-- The promotion of an ephemeral intent. -/
  | intentPromoted (sessionId : Id)
  | intentCleared
  | claimAcquired (claimId : Id) (resource : String) (mode : ClaimMode)
  | claimRenewed (claimId : Id) (facts : Option (String × ClaimMode))
  | claimReleased (claimId : Id) (authority reason : Option String) (replacedGeneration : Id)
  | claimForceReleased (claimId : Id) (authority reason : Option String) (replacedGeneration : Id)
  | messageRecorded (messageId threadId : Id) (recipientParticipantIds : List Id)
  | messageAdvanced (state : ReceiptState) (messageId recipientParticipantId : Id)
  | offerSucceeded (messageId recipientParticipantId targetSessionId targetGeneration : Id)
      (transport : String) (repeated : Bool)
  | offerFailed (messageId recipientParticipantId targetSessionId targetGeneration : Id)
      (transport safeErrorCode : String)
deriving DecidableEq

structure Event where
  workspaceId : Id
  actorSessionId : Id
  occurredAt : Timestamp
  payload : Payload
deriving DecidableEq

/-! ## Record checks -/

def artifactRef (value : ArtifactRef) (field : String) : Result Unit := do
  resourceUri value.uri s!"{field}.uri"
  line value.description s!"{field}.description"
  nullable
    (fun digest path =>
      refuse (¬(digest.toList.length = 64
          ∧ digest.toList.all fun c => c.isDigit || ('a' ≤ c && c ≤ 'f')))
        (invalid path "must be a lowercase SHA-256 digest"))
    value.sha256 s!"{field}.sha256"

def handoffPayload (value : Handoff) (field : String) : Result Unit := do
  listOf line value.completed s!"{field}.completed"
  listOf line value.remaining s!"{field}.remaining"
  listOf line value.blockers s!"{field}.blockers"
  listOf artifactRef value.verification s!"{field}.verification"

def assertDecisionChange (value : DecisionChange) (field : String) : Result Unit :=
  refuse (value.messageIds.length < 1 ∨ 16 < value.messageIds.length ∨ ¬value.messageIds.Nodup)
    (invalid s!"{field}.messageIds" "requires 1 to 16 unique decision message ids")

/-- The obligations a kind of message may carry. -/
def validObligations : MessageKind → List Obligation
  | .note => [.none]
  | .question => [.reply]
  | .request => [.reply]
  | .answer => [.none]
  | .decision => [.none, .acknowledge]
  | .handoff => [.none, .acknowledge]

/-- The rules that relate the fields of a message. -/
def assertMessageSemantics (message : Message) : Result Unit := do
  let room := message.toParticipantIds = []
  let root := message.threadId = message.messageId
  refuse (message.decisionChange ≠ none ∧ message.kind ≠ .decision)
    ⟨.data, "only a decision can replace or withdraw decisions"⟩
  refuse (room ∧ message.kind ∉ [MessageKind.note, .decision, .handoff])
    ⟨.data, s!"a room message cannot have kind {message.kind.word}"⟩
  refuse (room ∧ message.obligation ≠ .none) ⟨.data, "a room message must have obligation none"⟩
  refuse (message.obligation ∉ validObligations message.kind)
    ⟨.data, s!"message obligation {message.obligation.word} is invalid for {message.kind.word}"⟩
  refuse (message.kind = .answer ∧ message.inReplyTo = none)
    ⟨.data, "an answer requires inReplyTo"⟩
  refuse (message.kind = .answer ∧ root) ⟨.data, "an answer cannot be a thread root"⟩
  refuse (message.inReplyTo = none ∧ ¬root)
    ⟨.data, "a thread root requires threadId to equal messageId"⟩
  refuse (message.inReplyTo ≠ none ∧ root)
    ⟨.data, "a thread root must have inReplyTo null"⟩
  refuse (message.kind = .handoff ∧ message.handoff = none)
    ⟨.data, "a handoff message requires a handoff payload"⟩
  refuse (¬room ∧ message.kind = .handoff ∧ message.obligation ≠ .acknowledge)
    ⟨.data, "an addressed handoff requires acknowledgement"⟩
  refuse (message.kind ≠ .handoff ∧ message.handoff ≠ none)
    ⟨.data, s!"a {message.kind.word} message must have handoff null"⟩

def validateWorkspace (value : WorkspaceRecord) : Result Unit := do
  line value.displayName "displayName"
  listOf line value.roots "roots"

def validateParticipant (value : Participant) : Result Unit := line value.displayName "displayName"

def validateSession (value : Session) : Result Unit := do
  line value.harness "harness"
  nullable line value.checkoutRoot "checkoutRoot"
  nullable line value.branch "branch"
  nullable positiveInteger value.pid "pid"
  positiveInteger value.heartbeatCadenceMs "heartbeatCadenceMs"

def validateIntent (value : Intent) : Result Unit := do
  summary value.summary "summary"
  listOf resourceUri value.resourceHints "resourceHints"

def validateClaim (value : Claim) : Result Unit := do
  resourceUri value.resource "resource"
  line value.reason "reason"

def validateMessage (value : Message) : Result Unit := do
  line value.subject "subject"
  prose value.body "body"
  listOf artifactRef value.artifacts "artifacts"
  nullable handoffPayload value.handoff "handoff"
  value.decisionChange.elim (.ok ()) fun change => assertDecisionChange change "decisionChange"
  assertMessageSemantics value

/-! ## Receipt states -/

/-- The states a receipt may move to. -/
def receiptNext : ReceiptState → List ReceiptState
  | .queued => [.offered, .retrieved, .acknowledged]
  | .offered => [.retrieved, .acknowledged]
  | .retrieved => [.acknowledged]
  | .acknowledged => []

/-- The place of a state in queued < offered < retrieved < acknowledged. -/
def ReceiptState.rank : ReceiptState → Nat
  | .queued => 0
  | .offered => 1
  | .retrieved => 2
  | .acknowledged => 3

theorem rank_lt_of_mem_receiptNext {current next : ReceiptState} (h : next ∈ receiptNext current) :
    current.rank < next.rank := by
  cases current <;> cases next <;> simp [receiptNext, ReceiptState.rank] at h ⊢

def advanceReceipt (current next : ReceiptState) : Result ReceiptState :=
  if current = next then .ok next
  else if next ∈ receiptNext current then .ok next
  else .error
    ⟨.conflict, s!"illegal receipt transition from {current.word} to {next.word}"⟩

theorem advanceReceipt_eq_ok {current next state : ReceiptState}
    (h : advanceReceipt current next = .ok state) :
    state = next ∧ (current = next ∨ next ∈ receiptNext current) := by
  rw [advanceReceipt] at h
  split at h
  next heq =>
    cases h
    exact ⟨rfl, Or.inl heq⟩
  next =>
    split at h
    next hmem =>
      cases h
      exact ⟨rfl, Or.inr hmem⟩
    next => cases h

end Acc
