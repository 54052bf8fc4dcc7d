import AgentsCanCommunicate.Core.InboxPages

/-!
# A question stays until it is answered

A message that asks for a reply is acknowledged by a reply and by nothing else.
Until then it is on the pages of its recipient's inbox.

The invariant is `Answered`: a reply is in the thread of what it replies to, and
an acknowledged receipt of such a message has its reply.
-/

namespace Acc.Core

open Library (Keyed)

section

variable [LinearOrder ReceiptId]

variable {w w' : Workspace} {ports : Ports}

/-! ## The invariant -/

/-- The reply a recipient gave to a message. -/
def HasReply (w : Workspace) (receipt : Receipt) (message : Message) : Prop :=
  ∃ answer ∈ w.messages, answer.fromParticipantId = receipt.recipientParticipantId ∧
    answer.inReplyTo = some message.messageId ∧ answer.threadId = message.threadId

structure Answered (w : Workspace) : Prop where
  thread : ∀ m ∈ w.messages, ∀ i, m.inReplyTo = some i →
    ∃ parent ∈ w.messages, parent.messageId = i ∧ parent.threadId = m.threadId
  settled : ∀ r ∈ w.receipts, ∀ m ∈ w.messages, m.messageId = r.messageId →
    m.obligation = .reply → r.state = .acknowledged → HasReply w r m

theorem answered_initial (workspaceId : Id) : Answered (.initial workspaceId) := by
  constructor <;> intro r hr <;> exact absurd hr Keyed.mem_empty

theorem Answered.recorded (h : Answered w) (hlinked : Linked w) {m : Message}
    {recipients : List Id} {now : Timestamp} (hm : NewMessage w m recipients) :
    Answered (recordedMessage w m recipients now) := by
  have hkept : ∀ d ∈ w.messages, d ∈ (recordedMessage w m recipients now).messages := by
    intro d hd
    exact Keyed.mem_put.mpr (Or.inr ⟨hd, Keyed.get?_eq_none.mp hm.fresh d hd⟩)
  constructor
  · intro d hd i hi
    have hparent : ∃ parent ∈ w.messages, parent.messageId = i ∧ parent.threadId = d.threadId := by
      rcases Keyed.mem_put.mp hd with rfl | ⟨hd, -⟩
      · exact hm.thread i hi
      · exact h.thread d hd i hi
    obtain ⟨parent, hparent, hid, hthread⟩ := hparent
    exact ⟨parent, hkept parent hparent, hid, hthread⟩
  · intro r hr d hd hid hreply hstate
    rcases Keyed.mem_putAll hr with hfiled | ⟨hold, -⟩
    · -- A receipt that was just filed is queued.
      obtain ⟨i, -, rfl⟩ := List.mem_map.mp hfiled
      cases hstate
    · rcases Keyed.mem_put.mp hd with rfl | ⟨hd, -⟩
      · exact absurd hid (hlinked.unnamed hm hold)
      · obtain ⟨answer, hanswer, hfacts⟩ := h.settled r hold d hd hid hreply hstate
        exact ⟨answer, hkept answer hanswer, hfacts⟩

theorem Answered.updated (h : Answered w) {r r' : Receipt} (hr : ReceiptUpdate w r r') :
    Answered (w.putReceipt r') := by
  have hmessageId : r'.messageId = r.messageId := congrArg ReceiptId.messageId hr.receiptId
  have hrecipient : r'.recipientParticipantId = r.recipientParticipantId :=
    congrArg ReceiptId.participantId hr.receiptId
  refine ⟨h.thread, ?_⟩
  intro s hs m hm hid hreply hstate
  rcases Keyed.mem_put.mp hs with rfl | ⟨hs, -⟩
  · obtain ⟨answer, hanswer, hsender, hparent⟩ :=
      hr.answered hstate m hm (hid.trans hmessageId) hreply
    obtain ⟨parent, hparentMem, hparentId, hthread⟩ := h.thread answer hanswer _ hparent
    have heq : parent = m := Keyed.eq_of_key hparentMem hm hparentId
    exact ⟨answer, hanswer, hsender.trans hrecipient.symm, hparent, by rw [← hthread, heq]⟩
  · exact h.settled s hs m hm hid hreply hstate

theorem Change.answered (h : Change w w') (hlinked : Linked w) (hw : Answered w) :
    Answered w' := by
  cases h with
  | message hm => exact hw.recorded hlinked hm
  | receipt hr => exact hw.updated hr
  | _ => exact ⟨hw.thread, hw.settled⟩

theorem Unpruned.answered (h : Unpruned w) : Answered w := by
  refine h.invariant answered_initial (fun _ _ _ hlinked hw hstep => hstep.answered hlinked hw) ?_
  intro w r hr hw
  refine ⟨hw.thread, ?_⟩
  intro s hs m hm hid hreply hstate
  rcases Keyed.mem_put.mp hs with rfl | ⟨hs, -⟩
  · exact hw.settled r hr m hm hid hreply hstate
  · exact hw.settled s hs m hm hid hreply hstate

/-! ## What stays listed -/

/-- The record a session was located by is the one its transaction reads. -/
theorem sessionIn_of_located (hw : Homed w) {sessionId : Id} {workspaceId : Option Id}
    {session : Session} (h : locateSession w sessionId workspaceId = some session) :
    sessionIn w sessionId = some session := by
  have hid := hw.located h
  simp only [locateSession] at h
  split at h
  next durable hdurable =>
    cases h
    rw [sessionIn, (Option.filter_eq_some_iff.mp hdurable).1]
    rfl
  next hnone =>
    obtain ⟨hephemeral, hhome⟩ := Option.filter_eq_some_iff.mp h
    cases hdurable : w.sessions.get? sessionId with
    | none =>
        rw [sessionIn, hdurable, hephemeral]
        rfl
    | some durable =>
        rw [hdurable, Option.filter_eq_none_iff] at hnone
        refine absurd ?_ (hnone durable rfl)
        have hdurableHome := hw.sessions durable (Keyed.mem_of_get? hdurable)
        simpa [hdurableHome, ← hid] using hhome

/-- The inbox of an open session is a list of pages of its own messages. -/
theorem listInbox_open {size : List InboxItem → Id → Nat} {input : ListInput} {session : Session}
    (hw : Homed w) (hlinked : Linked w)
    (hsession : locateSession w input.sessionId input.workspaceId = some session)
    (hopen : session.state = .opened) (hgeneration : session.generation = input.generation) :
    listInbox size w input = inboxPage size (scanReceipts w session)
      (scanMessages w (scanReceipts w session)) input.page := by
  have hrequired : ∀ current, current = some session →
      requireOpen current input.generation "list the inbox" = .ok session := by
    intro current hcurrent
    have hfilter : current.filter (fun s => s.state = .opened ∧ s.generation = input.generation) =
        some session := by
      rw [hcurrent]
      simp [Option.filter, hopen, hgeneration]
    rw [requireOpen, hfilter]
  rw [listInbox_eq_scan hw hlinked, scanList, hrequired _ hsession]
  rw [show (Except.ok session : Result Session) = pure session from rfl, pure_bind,
    hrequired _ (sessionIn_of_located hw hsession)]
  rfl

/-- The pages of an inbox, one after the other. -/
abbrev inboxPages (size : List InboxItem → Id → Nat) (w : Workspace) (input : ListInput)
    (page : PageInput) : Result (Page InboxItem) := listInbox size w { input with page }

end

/-! ## One question answered and one open -/

/-- The first question is answered, and another one is asked. -/
def sampleAnsweredCalls : List (Ports × Call) :=
  sampleTalkCalls ++
  [ (samplePorts 30 (sampleId "message_2"),
      .replyToMessage ⟨⟨sampleId "session_b", none, sampleId "generation_b", sampleId "message_1"⟩,
        sampleId "client_2", none, "answer", []⟩),
    (samplePorts 40 (sampleId "message_3"),
      .sendMessage ⟨sampleId "session_a", none, sampleId "generation_a",
        sampleMessage (sampleId "client_3") ["bob"] .question .reply, none⟩)]

theorem sampleAnswered_runs :
    ((Workspace.initial (sampleId "workspace_1")).calls sampleAnsweredCalls).toOption.isSome =
      true := by decide +kernel

def sampleAnswered : Workspace :=
  ((Workspace.initial (sampleId "workspace_1")).calls sampleAnsweredCalls).toOption.get
    sampleAnswered_runs

theorem sampleAnswered_unpruned : Unpruned sampleAnswered :=
  (Unpruned.initial _).calls (eq_ok_get sampleAnswered_runs)

end Acc.Core
