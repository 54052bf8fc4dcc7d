import AgentsCanCommunicate.Core.Sessions
import AgentsCanCommunicate.Protocol.TransactionIndexes

/-!
# Recording a message

A message is recorded in one transaction: the names its sender gave become
participants, a decision change is resolved to the decisions it names, a message
already recorded under the same client id is found, and otherwise the message,
one receipt for each recipient and one event are written.

A lookup is taken as what it stands for, the sorted ids of the records that the
index files under the tuple.
-/

namespace Acc.Core

open Library (Table Keyed)

variable [LinearOrder ReceiptId]

/-! ## Lookups -/

/-- `tx.lookup` in an index of messages. -/
def lookupMessages (w : Workspace) (index : Index) (tuple : Tuple) : List Id :=
  (w.messages.list.filter fun m => (index, tuple) ∈ messageKeys m).map Message.messageId

/-- `tx.lookup` in an index of receipts. -/
def lookupReceipts (w : Workspace) (index : Index) (tuple : Tuple) : List ReceiptId :=
  (w.receipts.list.filter fun r => (index, tuple) ∈ receiptKeys r).map Receipt.receiptId

theorem mem_lookupMessages {w : Workspace} {index : Index} {tuple : Tuple} {i : Id} :
    i ∈ lookupMessages w index tuple ↔
      ∃ m ∈ w.messages, (index, tuple) ∈ messageKeys m ∧ m.messageId = i := by
  simp [lookupMessages, and_assoc]

theorem mem_lookupReceipts {w : Workspace} {index : Index} {tuple : Tuple} {i : ReceiptId} :
    i ∈ lookupReceipts w index tuple ↔
      ∃ r ∈ w.receipts, (index, tuple) ∈ receiptKeys r ∧ r.receiptId = i := by
  simp [lookupReceipts, and_assoc]

/-! ## What a caller gives -/

/-- The input of a message.  A recipient is named by a text: a participant, or
a client of which one session is open. -/
structure MessageInput where
  clientMessageId : Id
  toParticipantIds : List String
  kind : MessageKind
  obligation : Obligation
  subject : String
  body : String
  inReplyTo : Option Id
  artifacts : List ArtifactRef
  handoff : Option Handoff
  /-- The decisions this one replaces. -/
  supersedes : Option (List Id)
  /-- The decisions this one withdraws. -/
  withdraws : Option (List Id)
  /-- The resolved change, which no caller may give. -/
  decisionChange : Option DecisionChange
deriving DecidableEq

/-! ## Addressees -/

/-- The order of `sort` on identifiers. -/
def sortIds (ids : List Id) : List Id :=
  ids.mergeSort fun a b => decide (codeUnits a.val ≤ codeUnits b.val)

/-- The other participants with an open session that meets a test. -/
def openPeers (w : Workspace) (session : Session) (test : Session → Bool) : List Id :=
  sortIds (((w.sessions.list.filter fun s =>
    s.state = .opened ∧ test s = true ∧ s.participantId ≠ session.participantId).map
      Session.participantId).dedup)

/-- A participant as written, or the one open session of a client. -/
def resolveAddressee (w : Workspace) (session : Session) (name : String) : Result String :=
  if w.participants.list.any fun p => p.participantId.val = name then .ok name
  else
    match openPeers w session fun s => s.harness = name with
    | [] => .ok name
    | [peer] => .ok peer.val
    | peers => .error ⟨.usage,
        s!"could not tell which of {peers.length} {name} sessions you meant: "
        ++ ", ".intercalate (peers.map Id.val)
        ++ ". Name one of them, which `acc status --json` lists."⟩

def resolveAddressees (w : Workspace) (requested : List String) (session : Session) :
    Result (List String) :=
  requested.mapM (resolveAddressee w session)

/-- Who gets a receipt: every other open participant for a room message, and
otherwise those addressed, who must be known. -/
def addressedRecipients (w : Workspace) (message : Message) (session : Session) :
    Result (List Id) :=
  if message.toParticipantIds = [] then .ok (openPeers w session fun _ => true)
  else do
    refuse (¬message.toParticipantIds.Nodup)
      ⟨.usage, "a participant may be addressed only once"⟩
    let strangers := message.toParticipantIds.filter fun i => w.participants.get? i = none
    let known := sortIds (w.participants.list.map Participant.participantId)
    refuse (strangers ≠ [])
      ⟨.data, "no participant here is called " ++ ", ".intercalate (strangers.map Id.val)
        ++ ". This workspace has: "
        ++ (if known = [] then "nobody else yet" else ", ".intercalate (known.map Id.val))⟩
    return message.toParticipantIds

/-! ## Decision changes -/

/-- The decisions a change names, each in this workspace. -/
def decisionTargets (w : Workspace) (workspaceId : Id) (messageIds : List Id) :
    Result (List Message) :=
  messageIds.mapM fun messageId =>
    match (w.messages.get? messageId).filter fun m =>
        m.kind = .decision ∧ m.workspaceId = workspaceId with
    | none => .error
        ⟨.data, "a decision change must reference existing decisions in this workspace"⟩
    | some target => .ok target

/-- The participants a change inherits from its targets: their senders, then
their recipients. -/
def inheritedRecipients (w : Workspace) (workspaceId : Id) (targets : List Message) : List Id :=
  targets.map Message.fromParticipantId ++ targets.flatMap fun target =>
    (lookupReceipts w .receiptsByMessage [workspaceId.val, target.messageId.val]).map
      ReceiptId.participantId

/-- Recipients are resolved before a retry is compared, so that a stored message
names everyone the change reaches. -/
def prepareDecisionChange (w : Workspace) (input : MessageInput) (session : Session) :
    Result MessageInput := do
  refuse (input.decisionChange ≠ none)
    ⟨.usage, "send a decision change using supersedes or withdraws"⟩
  match input.supersedes.or input.withdraws with
  | none => return input
  | some named => do
      refuse (input.kind ≠ .decision ∨ (input.supersedes ≠ none ∧ input.withdraws ≠ none))
        ⟨.usage, "only decisions accept either supersedes or withdraws, never both"⟩
      let action : DecisionAction := if input.supersedes = none then .withdraw else .replace
      assertDecisionChange ⟨action, named⟩ "decisionChange"
      let messageIds := sortIds named
      let targets ← decisionTargets w session.workspaceId messageIds
      refuse (¬input.toParticipantIds.Nodup)
        ⟨.usage, "a participant may be addressed only once"⟩
      let inherited := (inheritedRecipients w session.workspaceId targets).filter fun i =>
        i ≠ session.participantId
      return { input with
        decisionChange := some ⟨action, messageIds⟩
        toParticipantIds := sortTexts (input.toParticipantIds ++ inherited.map Id.val).dedup }

/-! ## Retries -/

/-- The fields two messages must share to be one. -/
structure LogicalContent where
  toParticipantIds : List String
  kind : MessageKind
  obligation : Obligation
  subject : String
  body : String
  inReplyTo : Option Id
  artifacts : List ArtifactRef
  handoff : Option Handoff
  decisionChange : Option DecisionChange
deriving DecidableEq

def logicalContent (message : Message) : LogicalContent :=
  ⟨message.toParticipantIds.map Id.val, message.kind, message.obligation, message.subject,
    message.body, message.inReplyTo, message.artifacts, message.handoff, message.decisionChange⟩

def normalizedContent (input : MessageInput) : LogicalContent :=
  ⟨input.toParticipantIds, input.kind, input.obligation, input.subject, input.body,
    input.inReplyTo, input.artifacts, input.handoff, input.decisionChange⟩

/-- The first of the candidates that is the caller's message. -/
def retryAmong (w : Workspace) (session : Session) (input : MessageInput) :
    List Id → Result (Option Message)
  | [] => .ok none
  | candidate :: candidates =>
      match (w.messages.get? candidate).filter fun m =>
          m.workspaceId = session.workspaceId ∧ m.fromParticipantId = session.participantId
            ∧ m.clientMessageId = input.clientMessageId with
      | none => retryAmong w session input candidates
      | some existing =>
          if logicalContent existing = normalizedContent input then .ok (some existing)
          else .error ⟨.conflict, "clientMessageId was already used with different message content"⟩

def findMessageRetry (w : Workspace) (session : Session) (input : MessageInput) :
    Result (Option Message) :=
  retryAmong w session input (lookupMessages w .messageByClientKey
    [session.workspaceId.val, session.participantId.val, input.clientMessageId.val])

/-! ## Recording -/

def assertCurrentSession (w : Workspace) (session : Session) (action : String) : Result Unit :=
  refuse (∀ current, w.sessions.get? session.sessionId = some current →
      current.state ≠ .opened ∨ current.generation ≠ session.generation)
    ⟨.conflict, s!"cannot {action} from this session generation"⟩

def threadFor (w : Workspace) (messageId : Id) (inReplyTo : Option Id) : Result Id :=
  match inReplyTo with
  | none => .ok messageId
  | some parentId =>
      match w.messages.get? parentId with
      | none => .error ⟨.data, "the message being replied to does not exist"⟩
      | some parent => .ok parent.threadId

/-- The message as it is stored. -/
def messageRecord (w : Workspace) (session : Session) (input : MessageInput) (now : Timestamp)
    (messageId : Id) : Result Message := do
  let threadId ← threadFor w messageId input.inReplyTo
  let toParticipantIds ← input.toParticipantIds.zipIdx.mapM fun item =>
    id item.1 s!"toParticipantIds[{item.2}]"
  let message : Message :=
    { messageId, threadId
      clientMessageId := input.clientMessageId
      workspaceId := session.workspaceId
      fromParticipantId := session.participantId
      fromSessionId := session.sessionId
      toParticipantIds
      kind := input.kind
      obligation := input.obligation
      subject := input.subject
      body := input.body
      inReplyTo := input.inReplyTo
      artifacts := input.artifacts
      handoff := input.handoff
      decisionChange := input.decisionChange
      sentAt := now }
  validateMessage message
  return message

/-- The receipt a recipient gets. -/
def queuedReceipt (message : Message) (participantId : Id) (now : Timestamp) : Receipt :=
  ⟨message.messageId, message.workspaceId, participantId, .queued, now,
    some message.obligation, none, []⟩

/-- A message that was recorded, or found. -/
structure Recorded where
  message : Message
  recipientParticipantIds : List Id
  created : Bool
deriving DecidableEq

/-- The writes of a new message: itself, its receipts, its event. -/
def createRecords (w : Workspace) (message : Message) (recipients : List Id) (now : Timestamp) :
    Result Workspace := do
  let w ← w.createMessage message
  let w ← recipients.foldlM
    (fun w participantId => w.createReceipt (queuedReceipt message participantId now)) w
  return w.append ⟨message.workspaceId, message.fromSessionId, now,
    .messageRecorded message.messageId message.threadId recipients⟩

/-- The workspace with a new message recorded. -/
def recordedMessage (w : Workspace) (message : Message) (recipients : List Id)
    (now : Timestamp) : Workspace :=
  { w with
    messages := w.messages.put message
    receipts := w.receipts.putAll (recipients.map fun i => queuedReceipt message i now)
    events := w.events.insert (w.newest + 1) ⟨message.workspaceId, message.fromSessionId, now,
      .messageRecorded message.messageId message.threadId recipients⟩ }

theorem recordedMessage_newest {w : Workspace} {message : Message} {recipients : List Id}
    {now : Timestamp} : (recordedMessage w message recipients now).newest = w.newest + 1 :=
  Workspace.newest_append (w := w)

theorem createReceipts_eq_ok {message : Message} {recipients : List Id} {now : Timestamp}
    {w w' : Workspace}
    (h : recipients.foldlM (fun w participantId =>
      w.createReceipt (queuedReceipt message participantId now)) w = .ok w') :
    w' = { w with
      receipts := w.receipts.putAll (recipients.map fun i => queuedReceipt message i now) } := by
  induction recipients generalizing w with
  | nil =>
      simp only [List.foldlM_nil, pure_eq_ok] at h
      rw [← h]
      rfl
  | cons i is ih =>
      simp only [List.foldlM_cons, Workspace.createReceipt, bind_eq_ok, refuse_eq_ok,
        pure_eq_ok] at h
      obtain ⟨_, ⟨_, _, rfl⟩, hrest⟩ := h
      rw [ih hrest]
      rfl

/-- A message that was recorded is new, and nothing but its own records was
written. -/
theorem createRecords_eq_ok {w w' : Workspace} {message : Message} {recipients : List Id}
    {now : Timestamp} (h : createRecords w message recipients now = .ok w') :
    w.messages.get? message.messageId = none ∧
      w' = recordedMessage w message recipients now := by
  simp only [createRecords, Workspace.createMessage, bind_eq_ok, refuse_eq_ok, pure_eq_ok] at h
  obtain ⟨w₁, ⟨_, hnew, rfl⟩, w₂, hreceipts, rfl⟩ := h
  constructor
  · simpa using hnew
  · rw [createReceipts_eq_ok hreceipts]
    rfl

/-- The input with its addressees and its decision change resolved. -/
def prepareMessage (w : Workspace) (session : Session) (input : MessageInput) :
    Result MessageInput := do
  let toParticipantIds ← resolveAddressees w input.toParticipantIds session
  prepareDecisionChange w { input with toParticipantIds } session

def recordMessageInTransaction (w : Workspace) (session : Session) (raw : MessageInput)
    (now : Timestamp) (messageId : Id) (action : String) : Result (Workspace × Recorded) := do
  assertCurrentSession w session action
  let input ← prepareMessage w session raw
  let existing ← findMessageRetry w session input
  match existing with
  | some message => return (w, ⟨message, [], false⟩)
  | none => do
      let message ← messageRecord w session input now messageId
      let recipients ← addressedRecipients w message session
      let w ← createRecords w message recipients now
      return (w, ⟨message, recipients, true⟩)

/-- Recording finds the message of a retry, or writes a new one. -/
theorem recordMessage_eq_ok {w w' : Workspace} {session : Session} {raw : MessageInput}
    {now : Timestamp} {messageId : Id} {action : String} {done : Recorded}
    (h : recordMessageInTransaction w session raw now messageId action = .ok (w', done)) :
    assertCurrentSession w session action = .ok () ∧
    ∃ input, prepareMessage w session raw = .ok input ∧
      ((∃ message, findMessageRetry w session input = .ok (some message) ∧
          w' = w ∧ done = ⟨message, [], false⟩) ∨
        (∃ message recipients, findMessageRetry w session input = .ok none ∧
          messageRecord w session input now messageId = .ok message ∧
          addressedRecipients w message session = .ok recipients ∧
          w.messages.get? message.messageId = none ∧
          w' = recordedMessage w message recipients now ∧
          done = ⟨message, recipients, true⟩)) := by
  simp only [recordMessageInTransaction, bind_eq_ok] at h
  obtain ⟨_, hsession, input, hinput, existing, hexisting, hrest⟩ := h
  refine ⟨hsession, input, hinput, ?_⟩
  cases existing with
  | some message =>
      simp only [pure_eq_ok, Prod.mk.injEq] at hrest
      exact Or.inl ⟨message, hexisting, hrest.1.symm, hrest.2.symm⟩
  | none =>
      simp only [bind_eq_ok, pure_eq_ok, Prod.mk.injEq] at hrest
      obtain ⟨message, hmessage, recipients, hrecipients, w₁, hcreate, rfl, rfl⟩ := hrest
      obtain ⟨hnew, rfl⟩ := createRecords_eq_ok hcreate
      exact Or.inr ⟨message, recipients, hexisting, hmessage, hrecipients, hnew, rfl, rfl⟩

variable {w w' : Workspace} {session : Session}

/-! ## What an answer says -/

theorem decisionTargets_eq_ok {workspaceId : Id} {messageIds : List Id} {targets : List Message}
    (h : decisionTargets w workspaceId messageIds = .ok targets) {i : Id} (hi : i ∈ messageIds) :
    ∃ target ∈ targets, w.messages.get? i = some target ∧ target.kind = .decision := by
  obtain ⟨target, htarget, heq⟩ := mapM_eq_ok_of_mem h i hi
  split at heq
  next => cases heq
  next found hfound =>
    cases heq
    have hfound := Option.filter_eq_some_iff.mp hfound
    simp only [decide_eq_true_eq] at hfound
    exact ⟨target, htarget, hfound.1, hfound.2.1⟩

theorem mem_inheritedRecipients {workspaceId : Id} {targets : List Message} {i : Id} :
    i ∈ inheritedRecipients w workspaceId targets ↔
      ∃ target ∈ targets, target.fromParticipantId = i ∨
        ∃ r ∈ w.receipts, r.workspaceId = workspaceId ∧ r.messageId = target.messageId ∧
          r.recipientParticipantId = i := by
  simp only [inheritedRecipients, List.mem_append, List.mem_map, List.mem_flatMap]
  constructor
  · rintro (⟨target, htarget, rfl⟩ | ⟨target, htarget, receiptId, hlookup, rfl⟩)
    · exact ⟨target, htarget, Or.inl rfl⟩
    · obtain ⟨r, hr, hkey, rfl⟩ := mem_lookupReceipts.mp hlookup
      obtain ⟨hhome, hmessage⟩ := receiptsByMessage_mem.mp hkey
      exact ⟨target, htarget, Or.inr ⟨r, hr, hhome, hmessage, rfl⟩⟩
  · rintro ⟨target, htarget, rfl | ⟨r, hr, hhome, hmessage, rfl⟩⟩
    · exact Or.inl ⟨target, htarget, rfl⟩
    · exact Or.inr ⟨target, htarget, r.receiptId, mem_lookupReceipts.mpr
        ⟨r, hr, receiptsByMessage_mem.mpr ⟨hhome, hmessage⟩, rfl⟩, rfl⟩

/-- A message that names its addressees goes to them. -/
theorem addressedRecipients_eq_ok {message : Message} {recipients : List Id}
    (h : addressedRecipients w message session = .ok recipients)
    (haddressed : message.toParticipantIds ≠ []) : recipients = message.toParticipantIds := by
  rw [addressedRecipients, if_neg haddressed] at h
  simp only [bind_eq_ok, pure_eq_ok] at h
  obtain ⟨_, _, _, _, rfl⟩ := h
  rfl

/-- What preparing makes of an input. -/
structure Prepared (w : Workspace) (session : Session) (raw input : MessageInput) : Prop where
  clientMessageId : input.clientMessageId = raw.clientMessageId
  inReplyTo : input.inReplyTo = raw.inReplyTo
  /-- A change names decisions that are there, and whom they reached is addressed. -/
  change : ∀ change, input.decisionChange = some change → ∃ targets,
    decisionTargets w session.workspaceId change.messageIds = .ok targets ∧
      ∀ i ∈ inheritedRecipients w session.workspaceId targets, i ≠ session.participantId →
        i.val ∈ input.toParticipantIds

theorem prepareMessage_eq_ok {raw input : MessageInput}
    (h : prepareMessage w session raw = .ok input) : Prepared w session raw input := by
  simp only [prepareMessage, prepareDecisionChange, bind_eq_ok, refuse_eq_ok, not_not] at h
  obtain ⟨_, _, _, hnone, h⟩ := h
  split at h
  next =>
    cases h
    refine ⟨rfl, rfl, ?_⟩
    intro change hchange
    rw [hnone] at hchange
    cases hchange
  next named _ =>
    simp only [bind_eq_ok, pure_eq_ok] at h
    obtain ⟨_, _, _, _, targets, htargets, _, _, rfl⟩ := h
    refine ⟨rfl, rfl, ?_⟩
    intro change hchange
    cases hchange
    refine ⟨targets, htargets, ?_⟩
    intro i hi hne
    refine List.mem_mergeSort.mpr (List.mem_dedup.mpr (List.mem_append_right _ ?_))
    exact List.mem_map_of_mem (List.mem_filter.mpr ⟨hi, by simpa using hne⟩)

/-- A client id under which nothing was found names no message of its sender. -/
theorem retryAmong_none {input : MessageInput} {candidates : List Id}
    (h : retryAmong w session input candidates = .ok none) {i : Id} (hi : i ∈ candidates)
    {m : Message} (hm : w.messages.get? i = some m) (hhome : m.workspaceId = session.workspaceId)
    (hfrom : m.fromParticipantId = session.participantId) :
    m.clientMessageId ≠ input.clientMessageId := by
  induction candidates with
  | nil => cases hi
  | cons candidate candidates ih =>
      rw [retryAmong] at h
      split at h
      next hnone =>
        rcases List.mem_cons.mp hi with rfl | hi
        · intro hclient
          rw [hm, Option.filter_eq_none_iff] at hnone
          exact hnone m rfl (by simp [hhome, hfrom, hclient])
        · exact ih h hi
      next existing hexisting =>
        split at h <;> cases h

/-- What a retry finds is the caller's own message, with the content it sends. -/
structure Resent (w : Workspace) (session : Session) (input : MessageInput)
    (message : Message) : Prop where
  mem : message ∈ w.messages
  workspaceId : message.workspaceId = session.workspaceId
  sender : message.fromParticipantId = session.participantId
  clientMessageId : message.clientMessageId = input.clientMessageId
  content : logicalContent message = normalizedContent input

theorem retryAmong_some {input : MessageInput} {candidates : List Id} {message : Message}
    (h : retryAmong w session input candidates = .ok (some message)) :
    Resent w session input message := by
  induction candidates with
  | nil => cases h
  | cons candidate candidates ih =>
      rw [retryAmong] at h
      split at h
      next => exact ih h
      next existing hexisting =>
        split at h
        next hcontent =>
          cases h
          have hfound := Option.filter_eq_some_iff.mp hexisting
          simp only [decide_eq_true_eq] at hfound
          exact ⟨Keyed.mem_of_get? hfound.1, hfound.2.1, hfound.2.2.1, hfound.2.2.2, hcontent⟩
        next => cases h

theorem findMessageRetry_none {input : MessageInput}
    (h : findMessageRetry w session input = .ok none) {m : Message} (hm : m ∈ w.messages)
    (hhome : m.workspaceId = session.workspaceId)
    (hfrom : m.fromParticipantId = session.participantId) :
    m.clientMessageId ≠ input.clientMessageId := by
  intro hclient
  have hcandidate : m.messageId ∈ lookupMessages w .messageByClientKey
      [session.workspaceId.val, session.participantId.val, input.clientMessageId.val] :=
    mem_lookupMessages.mpr
      ⟨m, hm, messageByClientKey_mem.mpr ⟨hhome, hfrom, hclient⟩, rfl⟩
  exact retryAmong_none h hcandidate hm hhome hfrom hclient

theorem findMessageRetry_some {input : MessageInput} {message : Message}
    (h : findMessageRetry w session input = .ok (some message)) :
    Resent w session input message := retryAmong_some h

/-- A message as it is stored, in terms of its input. -/
structure StoredAs (w : Workspace) (session : Session) (input : MessageInput) (messageId : Id)
    (message : Message) : Prop where
  thread : threadFor w messageId input.inReplyTo = .ok message.threadId
  messageId : message.messageId = messageId
  workspaceId : message.workspaceId = session.workspaceId
  sender : message.fromParticipantId = session.participantId
  clientMessageId : message.clientMessageId = input.clientMessageId
  content : logicalContent message = normalizedContent input
  valid : validateMessage message = .ok ()

theorem messageRecord_eq_ok {input : MessageInput} {now : Timestamp} {messageId : Id}
    {message : Message} (h : messageRecord w session input now messageId = .ok message) :
    StoredAs w session input messageId message := by
  simp only [messageRecord, bind_eq_ok, pure_eq_ok] at h
  obtain ⟨threadId, hthread, recipients, hrecipients, _, hvalid, rfl⟩ := h
  have htexts : recipients.map Id.val = input.toParticipantIds := by
    rw [map_of_mapM_eq_ok (fun _ _ => id_eq_ok) hrecipients, List.zipIdx_map_fst]
  refine ⟨hthread, rfl, rfl, rfl, rfl, ?_, hvalid⟩
  rw [logicalContent, normalizedContent, htexts]

theorem messageRecord_fromSessionId {session : Session} {input : MessageInput} {now : Timestamp}
    {messageId : Id} {message : Message}
    (h : messageRecord w session input now messageId = .ok message) :
    message.fromSessionId = session.sessionId := by
  simp only [messageRecord, bind_eq_ok, pure_eq_ok] at h
  obtain ⟨_, _, _, _, _, _, rfl⟩ := h
  rfl

/-! ## Sending -/

structure SendInput where
  sessionId : Id
  workspaceId : Option Id
  generation : Id
  message : MessageInput
  descriptor : Option Descriptor
deriving DecidableEq

def requireSession (w : Workspace) (sessionId : Id) (workspaceId : Option Id) (generation : Id)
    (action : String) (mustBeOpen : Bool) : Result Session :=
  match (locateSession w sessionId workspaceId).filter fun s =>
      s.generation = generation ∧ (mustBeOpen = true → s.state = .opened) with
  | none => .error ⟨.conflict, s!"cannot {action} from this session generation"⟩
  | some located => .ok located

theorem requireSession_eq_ok {sessionId generation : Id}
    {workspaceId : Option Id} {action : String} {mustBeOpen : Bool}
    (h : requireSession w sessionId workspaceId generation action mustBeOpen = .ok session) :
    locateSession w sessionId workspaceId = some session ∧ session.generation = generation ∧
      (mustBeOpen = true → session.state = .opened) := by
  rw [requireSession] at h
  split at h
  next => cases h
  next located hlocated =>
    cases h
    have hfound := Option.filter_eq_some_iff.mp hlocated
    exact ⟨hfound.1, by simpa [imp_iff_not_or] using hfound.2⟩

def sendMessage (w : Workspace) (ports : Ports) (input : SendInput) :
    Result (Workspace × Message) := do
  let session ← requireSession w input.sessionId input.workspaceId input.generation
    "send a message" true
  let w ← ensureMaterialised w ports session.workspaceId input.descriptor "durable_object"
  w.transaction fun w => do
    let done ← recordMessageInTransaction w session input.message ports.now (ports.ids .message 0)
      "send a message"
    return (done.1, done.2.message)

/-! ## Finishing -/

structure FinishInput where
  sessionId : Id
  workspaceId : Option Id
  generation : Id
  clientMessageId : Id
  toParticipantId : Option String
  goal : String
  status : Option HandoffStatus
  completed : List String
  remaining : List String
  blockers : List String
  verification : List ArtifactRef
  artifacts : List ArtifactRef
  descriptor : Option Descriptor
deriving DecidableEq

def handoffBody (goal : String) (handoff : Handoff) : String :=
  let part := fun (label : String) (items : List String) =>
    if items = [] then [] else s!"{label}:" :: items.map fun item => s!"- {item}"
  "\n".intercalate ([goal, handoff.status.word] ++ part "completed" handoff.completed
    ++ part "remaining" handoff.remaining ++ part "blockers" handoff.blockers)

/-- The handoff message a finish sends. -/
def finishMessage (input : FinishInput) : MessageInput :=
  let handoff : Handoff :=
    ⟨input.status.getD .partially, input.completed, input.remaining, input.blockers,
      input.verification⟩
  { clientMessageId := input.clientMessageId
    toParticipantIds := input.toParticipantId.toList
    kind := .handoff
    obligation := if input.toParticipantId = none then .none else .acknowledge
    subject := input.goal
    body := handoffBody input.goal handoff
    inReplyTo := none
    artifacts := input.artifacts
    handoff := some handoff
    supersedes := none
    withdraws := none
    decisionChange := none }

/-- What a finish answers inside its transaction. -/
structure FinishOutcome where
  /-- The message was recorded by an earlier finish. -/
  retry : Bool
  message : Message
  releasedClaims : List Claim
  session : Session
deriving DecidableEq

/-- Give up one claim on finishing. -/
def releaseFinished (now : Timestamp) (session : Session) (w : Workspace) (claim : Claim) :
    Workspace :=
  (w.removeClaim claim.claimId).append
    ⟨session.workspaceId, session.sessionId, now,
      .claimReleased claim.claimId none none claim.generation⟩

/-- Give up every claim of the session and close it. -/
def closeFinished (w : Workspace) (now : Timestamp) (session current : Session)
    (message : Message) (releasedClaims : List Claim) : Workspace :=
  let w := releasedClaims.foldl (releaseFinished now session) w
  (w.putSession { current with state := .closed, heartbeatAt := now }).append
    ⟨session.workspaceId, session.sessionId, now,
      .sessionFinished message.messageId session.generation (releasedClaims.map Claim.claimId)⟩

def finishTransaction (w : Workspace) (ports : Ports) (session : Session) (input : FinishInput) :
    Result (Workspace × FinishOutcome) :=
  w.transaction fun w => do
    let refused : AccError := ⟨.conflict, "cannot finish from this session generation"⟩
    match (w.sessions.get? session.sessionId).filter fun s =>
        s.generation = session.generation with
    | none => .error refused
    | some current => do
        let message := finishMessage input
        let resolved ← resolveAddressees w message.toParticipantIds session
        let existing ← findMessageRetry w session { message with toParticipantIds := resolved }
        match existing with
        | some existing => do
            refuse (existing.fromSessionId ≠ session.sessionId)
              ⟨.conflict, "clientMessageId belongs to a different finish generation"⟩
            return (w, ⟨true, existing, [], current⟩)
        | none => do
            refuse (current.state ≠ .opened) refused
            let releasedClaims := w.claims.list.filter fun c =>
              c.ownerSessionId = session.sessionId
            let recorded ← recordMessageInTransaction w session message ports.now
              (ports.ids .message 0) "finish"
            let w := closeFinished recorded.1 ports.now session current recorded.2.message
              releasedClaims
            return (w, ⟨false, recorded.2.message, releasedClaims,
              { current with state := .closed, heartbeatAt := ports.now }⟩)

/-- The part of a finish that writes.  A retry then reads what the first finish
released back from the event log, and writes nothing. -/
def finishSession (w : Workspace) (ports : Ports) (input : FinishInput) :
    Result (Workspace × FinishOutcome) := do
  let session ← requireSession w input.sessionId input.workspaceId input.generation "finish" false
  let w ← ensureMaterialised w ports session.workspaceId input.descriptor "durable_object"
  finishTransaction w ports session input

end Acc.Core
