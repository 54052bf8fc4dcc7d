import AgentsCanCommunicate.Core.Populated

/-!
# Replying without a subject

A reply that names no subject takes that of the message it answers, after the
word "Re:".  Every other field of the answer is within the validator's rules
whatever the original says: its sender is known (`Populated`), its thread is not
the answer's own, and the obligation is none.  The subject is not: a line holds
500 code units, and an original may have used all of them.
-/

namespace Acc

/-! ## The derived subject -/

theorem codeUnits_append (s t : String) : codeUnits (s ++ t) = codeUnits s ++ codeUnits t := by
  simp [codeUnits, String.toList_append, List.flatMap_append]

theorem hasControl_append (s t : String) (allowNewline : Bool) :
    hasControl (s ++ t) allowNewline = (hasControl s allowNewline || hasControl t allowNewline) := by
  simp [hasControl, String.toList_append, List.any_append]

/-- A text is refused for nothing, for its length or for its characters. -/
theorem text_eq_ok {max : Nat} {multiline : Bool} {value field : String} :
    text max multiline value field = .ok () ↔
      ¬value.toList.all isBlank ∧ (codeUnits value).length ≤ max ∧
        hasControl value multiline = false := by
  simp only [text, bind_eq_ok, refuse_eq_ok, not_lt, Bool.not_eq_true, exists_const]

/-- The subject a reply derives is a line unless the original's is too long for
the four units before it. -/
theorem line_reply {subject field : String} (h : line subject field = .ok ()) :
    line s!"Re: {subject}" field = .ok () ↔ (codeUnits subject).length ≤ 496 := by
  have htext : s!"Re: {subject}" = "Re: " ++ subject := rfl
  obtain ⟨-, -, hcontrol⟩ := text_eq_ok.mp h
  have hlength : (codeUnits ("Re: " ++ subject)).length = 4 + (codeUnits subject).length := by
    rw [codeUnits_append, List.length_append]
    rfl
  have hblank : ¬("Re: " ++ subject).toList.all isBlank := by
    have hword : "Re: ".toList.all isBlank = false := by decide
    rw [String.toList_append, List.all_append, hword]
    exact Bool.false_ne_true
  rw [htext, line, text_eq_ok, hlength, hasControl_append, hcontrol]
  constructor
  · intro ⟨_, hmax, _⟩
    omega
  · intro hmax
    exact ⟨hblank, by omega, rfl⟩

/-- An identifier passes the check of identifiers. -/
@[simp] theorem id_val (i : Id) (field : String) : id i.val field = .ok i := by
  rw [id, dif_pos i.portable]

end Acc

namespace Acc.Core

open Library (Table Keyed)

section

variable [LinearOrder ReceiptId]

/-! ## Recording what is new -/

theorem createReceipts_of_new {w : Workspace} {message : Message} {recipients : List Id}
    {now : Timestamp} (hnodup : recipients.Nodup)
    (hnew : ∀ i ∈ recipients, w.receipts.get? ⟨message.messageId, i⟩ = none) :
    recipients.foldlM (fun w participantId =>
        w.createReceipt (queuedReceipt message participantId now)) w =
      .ok { w with
        receipts := w.receipts.putAll (recipients.map fun i => queuedReceipt message i now) } := by
  induction recipients generalizing w with
  | nil => rfl
  | cons i is ih =>
      obtain ⟨hi, hnodup⟩ := List.nodup_cons.mp hnodup
      have hkey : ∀ j, (queuedReceipt message j now).receiptId = ⟨message.messageId, j⟩ :=
        fun _ => rfl
      have hfirst : w.createReceipt (queuedReceipt message i now) =
          .ok (w.putReceipt (queuedReceipt message i now)) := by
        rw [Workspace.createReceipt, hkey, hnew i (List.mem_cons_self ..)]
        rfl
      have hrest : ∀ j ∈ is, (w.putReceipt (queuedReceipt message i now)).receipts.get?
          ⟨message.messageId, j⟩ = none := by
        intro j hj
        have hne : (queuedReceipt message i now).receiptId ≠ ⟨message.messageId, j⟩ := by
          intro heq
          have hij : i = j := congrArg ReceiptId.participantId heq
          exact hi (hij ▸ hj)
        rw [Workspace.putReceipt_receipts, Keyed.get?_put_ne hne]
        exact hnew j (List.mem_cons_of_mem _ hj)
      rw [List.foldlM_cons, hfirst]
      exact ih hnodup hrest

/-- A message whose identifier is new is recorded. -/
theorem createRecords_of_new {w : Workspace} {message : Message} {recipients : List Id}
    {now : Timestamp} (hmessage : w.messages.get? message.messageId = none)
    (hnodup : recipients.Nodup)
    (hnew : ∀ i ∈ recipients, w.receipts.get? ⟨message.messageId, i⟩ = none) :
    createRecords w message recipients now = .ok (recordedMessage w message recipients now) := by
  have hcreated : w.createMessage message = .ok (w.putMessage message) := by
    rw [Workspace.createMessage, hmessage]
    rfl
  rw [createRecords, hcreated]
  simp only [Except.bind, bind, @createReceipts_of_new _ (w.putMessage message) message recipients
    now hnodup hnew]
  rfl

omit [LinearOrder ReceiptId] in
theorem mapM_id_val (recipients : List Id) :
    ((recipients.map Id.val).zipIdx.mapM fun item =>
      id item.1 s!"toParticipantIds[{item.2}]") = .ok recipients := by
  have hfrom : ∀ start, (((recipients.map Id.val).zipIdx start).mapM fun item =>
      id item.1 s!"toParticipantIds[{item.2}]") = .ok recipients := by
    induction recipients with
    | nil => exact fun _ => rfl
    | cons i is ih =>
        intro start
        rw [List.map_cons, List.zipIdx_cons, List.mapM_cons, ih, id_val]
        rfl
  exact hfrom 0

/-- The message an input makes, with its thread and its recipients. -/
def builtMessage (session : Session) (input : MessageInput) (now : Timestamp)
    (messageId threadId : Id) (toParticipantIds : List Id) : Message where
  messageId := messageId
  threadId := threadId
  clientMessageId := input.clientMessageId
  workspaceId := session.workspaceId
  fromParticipantId := session.participantId
  fromSessionId := session.sessionId
  toParticipantIds := toParticipantIds
  kind := input.kind
  obligation := input.obligation
  subject := input.subject
  body := input.body
  inReplyTo := input.inReplyTo
  artifacts := input.artifacts
  handoff := input.handoff
  decisionChange := input.decisionChange
  sentAt := now

/-- Once the thread is known, only the record checks may refuse a message. -/
theorem messageRecord_built {w : Workspace} {session : Session} {input : MessageInput}
    {now : Timestamp} {messageId threadId : Id} {recipients : List Id}
    (hthread : threadFor w messageId input.inReplyTo = .ok threadId)
    (hrecipients : input.toParticipantIds = recipients.map Id.val) :
    messageRecord w session input now messageId =
      (validateMessage (builtMessage session input now messageId threadId recipients) >>= fun _ =>
        .ok (builtMessage session input now messageId threadId recipients)) := by
  rw [messageRecord, hthread, hrecipients]
  simp only [Except.bind, bind, mapM_id_val]
  rfl

/-- A client id that its sender did not use finds no retry. -/
theorem findMessageRetry_of_unused {w : Workspace} {session : Session} {input : MessageInput}
    (hunused : ∀ m ∈ w.messages, m.fromParticipantId = session.participantId →
      m.clientMessageId ≠ input.clientMessageId) :
    findMessageRetry w session input = .ok none := by
  have hnone : ∀ candidates : List Id, retryAmong w session input candidates = .ok none := by
    intro candidates
    induction candidates with
    | nil => rfl
    | cons candidate candidates ih =>
        rw [retryAmong]
        split
        next => exact ih
        next existing hexisting =>
          obtain ⟨hget, hmine⟩ := Option.filter_eq_some_iff.mp hexisting
          simp only [decide_eq_true_eq] at hmine
          exact absurd hmine.2.2 (hunused existing (Keyed.mem_of_get? hget) hmine.2.1)
  exact hnone _

/-- A message that was checked and is new is recorded. -/
theorem recordMessage_of_new {w : Workspace} {session : Session} {raw input : MessageInput}
    {now : Timestamp} {messageId : Id} {action : String} {message : Message}
    {recipients : List Id} (hsession : assertCurrentSession w session action = .ok ())
    (hinput : prepareMessage w session raw = .ok input)
    (hretry : findMessageRetry w session input = .ok none)
    (hmessage : messageRecord w session input now messageId = .ok message)
    (hrecipients : addressedRecipients w message session = .ok recipients)
    (hrecords : createRecords w message recipients now =
      .ok (recordedMessage w message recipients now)) :
    recordMessageInTransaction w session raw now messageId action =
      .ok (recordedMessage w message recipients now, ⟨message, recipients, true⟩) := by
  rw [recordMessageInTransaction, hsession, hinput]
  simp only [Except.bind, bind, hretry, hmessage, hrecipients, hrecords]
  rfl

/-- An identifier that names no message names no receipt. -/
theorem Linked.receipt_none {w : Workspace} (h : Linked w) {messageId : Id}
    (hfresh : ∀ m ∈ w.messages, m.messageId ≠ messageId) (i : Id) :
    w.receipts.get? ⟨messageId, i⟩ = none := by
  refine Keyed.get?_eq_none.mpr fun r hr heq => ?_
  obtain ⟨m, hm, hid⟩ := h.message r hr
  exact hfresh m hm (hid.trans (congrArg ReceiptId.messageId heq))

variable {w : Workspace} {ports : Ports} {session : Session} {input : ReplyInput}
  {original : Message} {receipt : Receipt}

/-! ## What is replied to -/

/-- A message that reached an open session, and a reply to it that names no
subject. -/
structure Repliable (w : Workspace) (ports : Ports) (session : Session) (input : ReplyInput)
    (original : Message) (receipt : Receipt) : Prop where
  located : locateSession w input.settle.sessionId input.settle.workspaceId = some session
  opened : session.state = .opened
  generation : session.generation = input.settle.generation
  message : w.messages.get? input.settle.messageId = some original
  valid : validateMessage original = .ok ()
  receipt : w.receipts.get? ⟨input.settle.messageId, session.participantId⟩ = some receipt
  subject : input.subject = none
  body : prose input.body "body" = .ok ()
  artifacts : listOf artifactRef input.artifacts "artifacts" = .ok ()
  /-- The sender used the client id for no other message. -/
  unused : ∀ m ∈ w.messages, m.fromParticipantId = session.participantId →
    m.clientMessageId ≠ input.clientMessageId
  /-- The identifier that is drawn names no message and no thread. -/
  fresh : ∀ m ∈ w.messages,
    m.messageId ≠ ports.ids .message 0 ∧ m.threadId ≠ ports.ids .message 0

/-- The reply records a new answer that passes record validation, and
acknowledges the receipt. -/
def Replied (w : Workspace) (ports : Ports) (session : Session) (input : ReplyInput)
    (original : Message) : Prop :=
  ∃ w' answer settled, replyToMessage w ports input = .ok (w', answer, publicReceipt settled) ∧
    ¬answer ∈ w.messages ∧ answer ∈ w'.messages ∧ validateMessage answer = .ok () ∧
    answer.kind = .answer ∧ answer.inReplyTo = some original.messageId ∧
    answer.body = input.body ∧ answer.fromParticipantId = session.participantId ∧
    answer.toParticipantIds = [original.fromParticipantId] ∧
    w'.receipts.get? ⟨original.messageId, session.participantId⟩ = some settled ∧
    settled.state = .acknowledged

/-- The answer as it is stored. -/
def answerRecord (ports : Ports) (session : Session) (original : Message) (input : ReplyInput) :
    Message where
  messageId := ports.ids .message 0
  threadId := original.threadId
  clientMessageId := input.clientMessageId
  workspaceId := session.workspaceId
  fromParticipantId := session.participantId
  fromSessionId := session.sessionId
  toParticipantIds := [original.fromParticipantId]
  kind := .answer
  obligation := .none
  subject := input.subject.getD s!"Re: {original.subject}"
  body := input.body
  inReplyTo := some original.messageId
  artifacts := input.artifacts
  handoff := none
  decisionChange := none
  sentAt := ports.now

/-- The events a reply appends: of the answer, and of the receipt unless it was
acknowledged before. -/
def replyEvents (receipt : Receipt) : Nat := if receipt.state = .acknowledged then 1 else 2

/-- The receipt of the original, once it is settled. -/
def settledReceipt (original : Message) (receipt : Receipt) (now : Timestamp) : Receipt :=
  if receipt.state = .acknowledged then receipt
  else advancedReceipt original receipt .acknowledged now

omit [LinearOrder ReceiptId] in
theorem settledReceipt_state (now : Timestamp) :
    (settledReceipt original receipt now).state = .acknowledged := by
  rw [settledReceipt]
  split
  next hstate => exact hstate
  next => rfl

omit [LinearOrder ReceiptId] in
theorem advanceReceipt_acknowledged (state : ReceiptState) :
    advanceReceipt state .acknowledged = .ok .acknowledged := by
  cases state <;> rfl

namespace Repliable

/-- Only the subject of the answer may be refused. -/
theorem answer_valid (h : Repliable w ports session input original receipt) :
    validateMessage (answerRecord ports session original input) =
        .ok () ↔ (codeUnits original.subject).length ≤ 496 := by
  have hsubject : line original.subject "subject" = .ok () := by
    have hvalid := h.valid
    simp only [validateMessage, bind_eq_ok] at hvalid
    obtain ⟨_, hline, -⟩ := hvalid
    exact hline
  have hroot : original.threadId ≠ ports.ids .message 0 :=
    (h.fresh original (Keyed.mem_of_get? h.message)).2
  have hsemantics : assertMessageSemantics
      (answerRecord ports session original input) = .ok () := by
    simp [assertMessageSemantics, answerRecord, validObligations, hroot, refuse]
  have hderived : (answerRecord ports session original input).subject =
      s!"Re: {original.subject}" := by
    rw [answerRecord, h.subject]
    rfl
  rw [← line_reply hsubject, ← hderived]
  constructor
  · intro hvalid
    simp only [validateMessage, bind_eq_ok] at hvalid
    obtain ⟨_, hline, -⟩ := hvalid
    exact hline
  · intro hline
    simp only [validateMessage, bind_eq_ok]
    exact ⟨(), hline, (), h.body, (), h.artifacts, (), rfl, (), rfl, hsemantics⟩

/-- An open session that holds a receipt is durable. -/
theorem current (h : Repliable w ports session input original receipt) (hw : Reachable w) :
    w.sessions.get? session.sessionId = some session := by
  have hdone : Durable w := by
    by_contra hbare
    exact (hw.populated.bare hbare).2 original (Keyed.mem_of_get? h.message)
  have hid := locateSession_sessionId h.located
  have hlocated := h.located
  simp only [locateSession] at hlocated
  split at hlocated
  next durable hdurable =>
    cases hlocated
    rw [hid]
    exact (Option.filter_eq_some_iff.mp hdurable).1
  next =>
    have halone := Keyed.mem_of_get? (Option.filter_eq_some_iff.mp hlocated).1
    exact absurd halone ((hw.populated.retired hdone).1 session)

theorem assertCurrentSession (h : Repliable w ports session input original receipt)
    (hw : Reachable w) (action : String) :
    Core.assertCurrentSession w session action = .ok () := by
  simp [Core.assertCurrentSession, h.current hw, h.opened]

/-- The sender is known, so the answer is addressed to the participant itself. -/
theorem prepareMessage (h : Repliable w ports session input original receipt)
    (hw : Reachable w) :
    Core.prepareMessage w session (replyMessage original input) =
      .ok (replyMessage original input) := by
  have hsender := hw.populated.senders original (Keyed.mem_of_get? h.message)
  obtain ⟨p, hp⟩ := Option.ne_none_iff_exists'.mp hsender
  have hany : (w.participants.list.any fun p =>
      decide (p.participantId.val = original.fromParticipantId.val)) = true :=
    List.any_eq_true.mpr ⟨p, Keyed.mem_list.mpr (Keyed.mem_of_get? hp),
      by rw [Keyed.key_of_get? hp]; exact decide_eq_true rfl⟩
  have hresolved : resolveAddressees w (replyMessage original input).toParticipantIds session =
      .ok (replyMessage original input).toParticipantIds := by
    simp [resolveAddressees, resolveAddressee, replyMessage, hany]
  simp only [Core.prepareMessage, hresolved]
  simp [prepareDecisionChange, replyMessage, refuse]

theorem messageRecord (h : Repliable w ports session input original receipt) :
    Core.messageRecord w session (replyMessage original input) ports.now (ports.ids .message 0) =
      (validateMessage (answerRecord ports session original input) >>=
        fun _ => .ok (answerRecord ports session original input)) := by
  have hthread : threadFor w (ports.ids .message 0) (replyMessage original input).inReplyTo =
      .ok original.threadId := by
    have hget : w.messages.get? original.messageId = some original := by
      rw [Keyed.key_of_get? h.message]
      exact h.message
    simp [threadFor, replyMessage, hget]
  exact messageRecord_built hthread rfl

theorem addressedRecipients (h : Repliable w ports session input original receipt)
    (hw : Reachable w) :
    Core.addressedRecipients w
        (answerRecord ports session original input) session =
      .ok [original.fromParticipantId] := by
  have hsender := hw.populated.senders original (Keyed.mem_of_get? h.message)
  simp [Core.addressedRecipients, answerRecord, refuse, hsender]

/-- The records of the answer are new. -/
theorem createRecords (h : Repliable w ports session input original receipt)
    (hw : Reachable w) :
    Core.createRecords w (answerRecord ports session original input)
        [original.fromParticipantId] ports.now =
      .ok (recordedMessage w
        (answerRecord ports session original input)
        [original.fromParticipantId] ports.now) := by
  have hfresh : ∀ m ∈ w.messages, m.messageId ≠ ports.ids .message 0 :=
    fun m hm => (h.fresh m hm).1
  refine createRecords_of_new (Keyed.get?_eq_none.mpr hfresh) (List.nodup_singleton _) ?_
  exact fun i _ => hw.linked.receipt_none hfresh i

/-- The answer is recorded when it is valid. -/
theorem recordMessage (h : Repliable w ports session input original receipt) (hw : Reachable w)
    (action : String) :
    recordMessageInTransaction w session (replyMessage original input) ports.now
        (ports.ids .message 0) action =
      (validateMessage (answerRecord ports session original input) >>=
        fun _ => .ok (recordedMessage w
          (answerRecord ports session original input)
          [original.fromParticipantId] ports.now,
          ⟨answerRecord ports session original input,
            [original.fromParticipantId], true⟩)) := by
  have hmessage := h.messageRecord
  have hretry : findMessageRetry w session (replyMessage original input) = .ok none :=
    findMessageRetry_of_unused h.unused
  cases hvalid : validateMessage (answerRecord ports session original input) with
  | error e =>
      rw [hvalid] at hmessage
      rw [recordMessageInTransaction, h.assertCurrentSession hw, h.prepareMessage hw]
      simp only [Except.bind, bind, hretry, hmessage]
  | ok u =>
      rw [hvalid] at hmessage
      exact recordMessage_of_new (h.assertCurrentSession hw action) (h.prepareMessage hw)
        hretry hmessage (h.addressedRecipients hw) (h.createRecords hw)

/-- Recording the answer leaves the original and its receipt, which is then
settled. -/
theorem advanceOwned (h : Repliable w ports session input original receipt) :
    ∃ w', Core.advanceOwned (recordedMessage w
          (answerRecord ports session original input)
          [original.fromParticipantId] ports.now) session input.settle.messageId .acknowledged
          ports.now = .ok (w', settledReceipt original receipt ports.now) ∧
      w'.messages = w.messages.put
        (answerRecord ports session original input) ∧
      w'.receipts.get? ⟨original.messageId, session.participantId⟩ =
        some (settledReceipt original receipt ports.now) ∧
      w'.newest = w.newest + replyEvents receipt := by
  have hid : original.messageId = input.settle.messageId := Keyed.key_of_get? h.message
  have hne : ports.ids .message 0 ≠ input.settle.messageId := by
    rw [← hid]
    exact fun heq => (h.fresh original (Keyed.mem_of_get? h.message)).1 heq.symm
  have hmessage : (recordedMessage w
      (answerRecord ports session original input)
      [original.fromParticipantId] ports.now).messages.get? input.settle.messageId =
        some original := by
    have hkey : (answerRecord ports session original input).messageId ≠ input.settle.messageId :=
      hne
    exact (Keyed.get?_put_ne hkey).trans h.message
  have hreceipt : (recordedMessage w
      (answerRecord ports session original input)
      [original.fromParticipantId] ports.now).receipts.get?
        ⟨input.settle.messageId, session.participantId⟩ = some receipt := by
    have hother : (queuedReceipt (answerRecord ports session original input) original.fromParticipantId ports.now).receiptId ≠
          ⟨input.settle.messageId, session.participantId⟩ :=
      fun heq => hne (congrArg ReceiptId.messageId heq)
    rw [recordedMessage, List.map_cons, List.map_nil, Keyed.putAll_cons, Keyed.putAll_nil,
      Keyed.get?_put_ne hother]
    exact h.receipt
  have howned : requireOwnedReceipt (recordedMessage w
      (answerRecord ports session original input)
      [original.fromParticipantId] ports.now) session input.settle.messageId =
        .ok (original, receipt) := by
    rw [requireOwnedReceipt, hmessage, hreceipt]
  rw [hid, settledReceipt, replyEvents, Core.advanceOwned, howned]
  simp only [Except.bind, bind, advanceReceipt_acknowledged]
  by_cases hstate : receipt.state = .acknowledged
  · rw [if_pos hstate.symm, if_pos hstate, if_pos hstate]
    exact ⟨_, rfl, rfl, hreceipt, recordedMessage_newest⟩
  · rw [if_neg (Ne.symm hstate), if_neg hstate, if_neg hstate]
    refine ⟨_, rfl, rfl, ?_, ?_⟩
    · have hkey : (advancedReceipt original receipt .acknowledged ports.now).receiptId =
          ⟨input.settle.messageId, session.participantId⟩ :=
        show receipt.receiptId = _ from Keyed.key_of_get? h.receipt
      rw [← hkey]
      exact Keyed.get?_put_self
    · rw [Workspace.newest_append]
      exact congrArg (· + 1) recordedMessage_newest

/-- A reply is recorded when its answer is valid and its events can be
numbered. -/
theorem replied_iff (h : Repliable w ports session input original receipt) (hw : Reachable w) :
    Replied w ports session input original ↔
      validateMessage (answerRecord ports session original input) = .ok () ∧
        w.newest + replyEvents receipt ≤ maxSafe := by
  have hrequired : requireOpen (locateSession w input.settle.sessionId input.settle.workspaceId)
      input.settle.generation "reply to a message" = .ok session := by
    rw [requireOpen, h.located]
    simp [Option.filter, h.opened, h.generation]
  have howned : requireOwnedReceipt w session input.settle.messageId = .ok (original, receipt) := by
    rw [requireOwnedReceipt, h.message, h.receipt]
  have hreply : replyToMessage w ports input = replyTransaction w ports session input := by
    rw [replyToMessage_eq, hrequired]
    rfl
  obtain ⟨w', hadvanced, hmessages, hsettled, hnewest⟩ := h.advanceOwned
  have htransaction : replyTransaction w ports session input =
      w.transaction fun w => validateMessage (answerRecord ports session original input) >>=
        fun _ => .ok (w', answerRecord ports session original input,
          publicReceipt (settledReceipt original receipt ports.now)) := by
    refine Workspace.transaction_congr ?_
    simp only [Except.bind, bind, howned, h.recordMessage hw]
    cases validateMessage (answerRecord ports session original input) with
    | error e => rfl
    | ok u =>
        simp only [hadvanced]
        rfl
  rw [Replied, hreply, htransaction]
  constructor
  · rintro ⟨_, _, _, hdone, _⟩
    simp only [Workspace.transaction, bind_eq_ok, refuse_eq_ok, pure_eq_ok] at hdone
    obtain ⟨_, ⟨_, hvalid, hrest⟩, _, hcountable, -⟩ := hdone
    cases hrest
    refine ⟨hvalid, ?_⟩
    dsimp only at hcountable
    rw [hnewest] at hcountable
    have hevents : 0 < replyEvents receipt := by
      rw [replyEvents]
      split <;> decide
    omega
  · rintro ⟨hvalid, hcountable⟩
    refine ⟨w', answerRecord ports session original input, settledReceipt original receipt ports.now,
      ?_, ?_, ?_, hvalid, rfl, rfl, rfl, rfl, rfl, hsettled, settledReceipt_state _⟩
    · simp only [Workspace.transaction, bind_eq_ok, refuse_eq_ok, pure_eq_ok]
      refine ⟨_, ⟨(), hvalid, rfl⟩, (), ?_, rfl⟩
      dsimp only
      omega
    · exact fun hm => (h.fresh _ hm).1 rfl
    · rw [hmessages]
      exact Keyed.mem_put.mpr (Or.inl rfl)

end Repliable

/-! ## When a reply is recorded -/

/-- A reply without a subject is recorded if the original's subject leaves room
for the word before it, and the events of the reply can still be numbered. -/
theorem replyToMessage_records (hw : Reachable w)
    (h : Repliable w ports session input original receipt) :
    Replied w ports session input original ↔
      (codeUnits original.subject).length ≤ 496 ∧
        w.newest + replyEvents receipt ≤ maxSafe := by
  rw [h.replied_iff hw, h.answer_valid]

end

/-! ## A reply to a short subject -/

/-- The second session answers the question of the first. -/
def sampleReply : ReplyInput :=
  ⟨⟨sampleId "session_b", none, sampleId "generation_b", sampleId "message_1"⟩,
    sampleId "client_2", none, "answer", []⟩

theorem sampleTalk_has :
    (sampleTalk.messages.get? (sampleId "message_1")).isSome = true ∧
      (sampleTalk.receipts.get? ⟨sampleId "message_1", sampleId "bob"⟩).isSome = true := by
  decide +kernel

def sampleOriginal : Message :=
  (sampleTalk.messages.get? (sampleId "message_1")).get sampleTalk_has.1

def sampleQueued : Receipt :=
  (sampleTalk.receipts.get? ⟨sampleId "message_1", sampleId "bob"⟩).get sampleTalk_has.2

theorem sampleReply_repliable : Repliable sampleTalk (samplePorts 30 (sampleId "message_2"))
    sampleReader sampleReply sampleOriginal sampleQueued where
  located := by decide +kernel
  opened := rfl
  generation := rfl
  message := (Option.some_get _).symm
  valid := by decide +kernel
  receipt := (Option.some_get _).symm
  subject := rfl
  body := by decide +kernel
  artifacts := rfl
  unused := by
    have hall : ∀ m ∈ sampleTalk.messages.list, m.fromParticipantId = sampleReader.participantId →
        m.clientMessageId ≠ sampleReply.clientMessageId := by decide +kernel
    exact fun m hm => hall m (Keyed.mem_list.mpr hm)
  fresh := by
    have hall : ∀ m ∈ sampleTalk.messages.list,
        m.messageId ≠ sampleId "message_2" ∧ m.threadId ≠ sampleId "message_2" := by decide +kernel
    exact fun m hm => hall m (Keyed.mem_list.mpr hm)

theorem replyToMessage_records_sample :
    Reachable sampleTalk ∧ Repliable sampleTalk (samplePorts 30 (sampleId "message_2"))
        sampleReader sampleReply sampleOriginal sampleQueued ∧
      (Replied sampleTalk (samplePorts 30 (sampleId "message_2")) sampleReader sampleReply
          sampleOriginal ↔
        (codeUnits sampleOriginal.subject).length ≤ 496 ∧
          sampleTalk.newest + replyEvents sampleQueued ≤ maxSafe) :=
  ⟨sampleTalk_reachable, sampleReply_repliable,
    replyToMessage_records sampleTalk_reachable sampleReply_repliable⟩

/-! ## A reply to the longest subject -/

/-- A text of that many letters. -/
@[irreducible]
def letters (n : Nat) : String := String.ofList (List.replicate n 'a')

theorem codeUnits_letters (n : Nat) : (codeUnits (letters n)).length = n := by
  have hunits : codeUnits (letters n) = (List.replicate n 'a').flatMap fun _ => [97] := by
    rw [codeUnits, letters, String.toList_ofList]
    refine List.flatMap_congr fun c hc => ?_
    rw [List.eq_of_mem_replicate hc]
    rfl
  rw [hunits, List.length_flatMap]
  simp

/-- Letters are a line as long as they are at most 500. -/
theorem line_letters {n : Nat} (hpos : 0 < n) (hmax : n ≤ 500) (field : String) :
    line (letters n) field = .ok () := by
  refine text_eq_ok.mpr ⟨?_, (codeUnits_letters n).trans_le hmax, ?_⟩
  · rw [letters, String.toList_ofList, List.all_replicate, if_neg (by omega)]
    decide
  · rw [hasControl, letters, String.toList_ofList, List.any_replicate, if_neg (by omega)]
    decide

def longSubject : String := letters 500

/-- Two sessions are open. -/
theorem samplePair_runs :
    ((Workspace.initial (sampleId "workspace_1")).calls (sampleTalkCalls.take 2)).toOption.isSome =
      true := by decide +kernel

def samplePair : Workspace :=
  ((Workspace.initial (sampleId "workspace_1")).calls (sampleTalkCalls.take 2)).toOption.get
    samplePair_runs

/-- The session that sends. -/
def sampleSender : Session :=
  sessionRecord (sampleOpen (sampleId "session_a") (sampleId "ann") "claude")
    (sampleId "workspace_1") (sampleId "session_a") 0 (sampleId "generation_a")

/-- The first session asks a question with the longest subject. -/
def longSend : SendInput :=
  ⟨sampleId "session_a", none, sampleId "generation_a",
    { sampleMessage (sampleId "client_1") ["bob"] .question .reply with subject := longSubject },
    none⟩

def longOriginal : Message :=
  builtMessage sampleSender longSend.message 20 (sampleId "message_1") (sampleId "message_1")
    [sampleId "bob"]

/-- The workspace with the question recorded. -/
def longTalk : Workspace := recordedMessage samplePair longOriginal [sampleId "bob"] 20

theorem longOriginal_valid : validateMessage longOriginal = .ok () := by
  have hbody : prose "body" "body" = .ok () := by decide +kernel
  simp only [validateMessage, bind_eq_ok]
  exact ⟨(), line_letters (by decide) le_rfl _, (), hbody, (), rfl, (), rfl, (), rfl, by decide⟩

theorem longSend_records :
    sendMessage samplePair (samplePorts 20 (sampleId "message_1")) longSend =
      .ok (longTalk, longOriginal) := by
  have hsession : requireSession samplePair (sampleId "session_a") none (sampleId "generation_a")
      "send a message" true = .ok sampleSender := by decide +kernel
  have hdone : isMaterialised samplePair sampleSender.workspaceId = true := by decide +kernel
  have hcurrent : assertCurrentSession samplePair sampleSender "send a message" = .ok () := by
    decide +kernel
  have hinput : prepareMessage samplePair sampleSender longSend.message = .ok longSend.message := by
    decide +kernel
  have hretry : findMessageRetry samplePair sampleSender longSend.message = .ok none := by
    decide +kernel
  have hmessage : messageRecord samplePair sampleSender longSend.message 20
      (sampleId "message_1") = .ok longOriginal := by
    have hvalid : validateMessage (builtMessage sampleSender longSend.message 20
        (sampleId "message_1") (sampleId "message_1") [sampleId "bob"]) = .ok () :=
      longOriginal_valid
    have hrecipients : longSend.message.toParticipantIds = [sampleId "bob"].map Id.val := by
      decide +kernel
    rw [messageRecord_built rfl hrecipients, hvalid]
    rfl
  have hrecipients : addressedRecipients samplePair longOriginal sampleSender =
      .ok [sampleId "bob"] := by decide +kernel
  have hrecords : createRecords samplePair longOriginal [sampleId "bob"] 20 = .ok longTalk := by
    refine createRecords_of_new (by decide +kernel) (List.nodup_singleton _) ?_
    intro i hi
    rw [List.mem_singleton.mp hi]
    decide +kernel
  have hrecorded := recordMessage_of_new hcurrent hinput hretry hmessage hrecipients hrecords
  have hnumbered : ¬(samplePair.newest < longTalk.newest ∧ maxSafe < longTalk.newest) := by
    decide +kernel
  simp only [sendMessage, longSend, bind_eq_ok, pure_eq_ok, Workspace.transaction, refuse_eq_ok]
  refine ⟨sampleSender, hsession, samplePair, ?_, (longTalk, longOriginal), ⟨_, hrecorded, rfl⟩,
    (), hnumbered, rfl⟩
  rw [ensureMaterialised, if_pos hdone]

theorem longTalk_reachable : Reachable longTalk := by
  have hpair : Reachable samplePair := (Reachable.initial _).calls (eq_ok_get samplePair_runs)
  have hcall : samplePair.call (samplePorts 20 (sampleId "message_1")) (.sendMessage longSend) =
      .ok longTalk := by
    rw [Workspace.call, longSend_records]
    rfl
  exact hpair.call hcall

theorem longReply_repliable : Repliable longTalk (samplePorts 30 (sampleId "message_2"))
    sampleReader sampleReply longOriginal (queuedReceipt longOriginal (sampleId "bob") 20) where
  located := by decide +kernel
  opened := rfl
  generation := rfl
  message := Keyed.get?_put_self
  valid := longOriginal_valid
  receipt := by decide +kernel
  subject := rfl
  body := by decide +kernel
  artifacts := rfl
  unused := by
    have hall : ∀ m ∈ longTalk.messages.list, m.fromParticipantId = sampleReader.participantId →
        m.clientMessageId ≠ sampleReply.clientMessageId := by decide +kernel
    exact fun m hm => hall m (Keyed.mem_list.mpr hm)
  fresh := by
    have hall : ∀ m ∈ longTalk.messages.list,
        m.messageId ≠ sampleId "message_2" ∧ m.threadId ≠ sampleId "message_2" := by decide +kernel
    exact fun m hm => hall m (Keyed.mem_list.mpr hm)

/-- A question whose subject has 500 characters cannot be answered without a
subject of one's own. -/
theorem replyToMessage_refused : Reachable longTalk ∧
    Repliable longTalk (samplePorts 30 (sampleId "message_2")) sampleReader sampleReply longOriginal
      (queuedReceipt longOriginal (sampleId "bob") 20) ∧
    longTalk.newest + 2 ≤ maxSafe ∧
    ¬Replied longTalk (samplePorts 30 (sampleId "message_2")) sampleReader sampleReply
      longOriginal := by
  refine ⟨longTalk_reachable, longReply_repliable, by decide +kernel, fun hreplied => ?_⟩
  have hvalid := ((longReply_repliable.replied_iff longTalk_reachable).mp hreplied).1
  have hshort := longReply_repliable.answer_valid.mp hvalid
  have hlength : (codeUnits longOriginal.subject).length = 500 := codeUnits_letters 500
  omega

end Acc.Core
