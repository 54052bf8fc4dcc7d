import AgentsCanCommunicate.Core.Claims
import AgentsCanCommunicate.Core.Receipts

/-!
# What a call writes

Whatever a call does to a workspace, it does by the writes of `Change`, one after
the other.  A change says with each write what its call made sure of before: that
the record belongs to this workspace, that a message is new, that a receipt is
the one that was there and only moved forward.

Each call is read here once, as a list of changes.  What a change keeps, every
call keeps, and the modules after this one look at changes and no longer at
calls.  Only a prune takes records away for good, and it is not a change.
-/

namespace Acc.Core

open Library (Table Keyed)

variable [LinearOrder ReceiptId]

/-! ## Records that belong to a workspace -/

/-- An ephemeral area that holds records of one workspace. -/
structure Ephemeral.Homed (ephemeral : Ephemeral) (workspaceId : Id) : Prop where
  participants : ∀ r ∈ ephemeral.participants, r.workspaceId = workspaceId
  sessions : ∀ r ∈ ephemeral.sessions, r.workspaceId = workspaceId
  intents : ∀ r ∈ ephemeral.intents, r.workspaceId = workspaceId

/-- Every record is one of the workspace the store was opened for. -/
structure Homed (w : Workspace) : Prop where
  participants : ∀ r ∈ w.participants, r.workspaceId = w.workspaceId
  sessions : ∀ r ∈ w.sessions, r.workspaceId = w.workspaceId
  intents : ∀ r ∈ w.intents, r.workspaceId = w.workspaceId
  claims : ∀ r ∈ w.claims, r.workspaceId = w.workspaceId
  messages : ∀ r ∈ w.messages, r.workspaceId = w.workspaceId
  receipts : ∀ r ∈ w.receipts, r.workspaceId = w.workspaceId
  ephemeral : w.ephemeral.Homed w.workspaceId

omit [LinearOrder ReceiptId] in
theorem Ephemeral.homed_empty (workspaceId : Id) :
    Ephemeral.Homed ⟨.empty, .empty, .empty⟩ workspaceId := by
  constructor <;> intro r hr <;> exact absurd hr Keyed.mem_empty

theorem homed_initial (workspaceId : Id) : Homed (Workspace.initial workspaceId) := by
  constructor
  case ephemeral => exact Ephemeral.homed_empty workspaceId
  all_goals
    intro r hr
    exact absurd hr Keyed.mem_empty

/-! ## Changes -/

/-- A participant whom a message concerns: its sender, or one it was sent to. -/
def Concerns (w : Workspace) (message : Message) (i : Id) : Prop :=
  message.fromParticipantId = i ∨ ∃ r ∈ w.receipts, r.receiptId = ⟨message.messageId, i⟩

/-- What is known of a message when it is recorded for its recipients. -/
structure NewMessage (w : Workspace) (message : Message) (recipients : List Id) : Prop where
  home : message.workspaceId = w.workspaceId
  fresh : w.messages.get? message.messageId = none
  /-- Its sender used the client id for no other message. -/
  unsent : ∀ m ∈ w.messages, m.workspaceId = message.workspaceId →
    m.fromParticipantId = message.fromParticipantId →
    m.clientMessageId ≠ message.clientMessageId
  valid : validateMessage message = .ok ()
  /-- A reply is in the thread of what it replies to. -/
  thread : ∀ i, message.inReplyTo = some i →
    ∃ parent ∈ w.messages, parent.messageId = i ∧ parent.threadId = message.threadId
  /-- A change names decisions that are there. -/
  named : ∀ i ∈ targets message, ∃ d ∈ w.messages, d.messageId = i ∧ d.kind = .decision
  /-- A change goes to all whom the decisions it names concern, but its sender. -/
  reached : ∀ d ∈ w.messages, d.messageId ∈ targets message → ∀ i, Concerns w d i →
    i ≠ message.fromParticipantId → i ∈ recipients

/-- What is known of a receipt when it is written again. -/
structure ReceiptUpdate (w : Workspace) (receipt next : Receipt) : Prop where
  mem : receipt ∈ w.receipts
  receiptId : next.receiptId = receipt.receiptId
  workspaceId : next.workspaceId = receipt.workspaceId
  state : next.state = receipt.state ∨ next.state ∈ receiptNext receipt.state
  /-- What is written again is no longer as it was queued. -/
  moved : next.state ≠ .queued
  /-- A receipt from an earlier version may gain the obligation of its message. -/
  obligation : next.obligation = receipt.obligation ∨
    ∃ m ∈ w.messages, m.messageId = receipt.messageId ∧ next.obligation = some m.obligation
  /-- A message that asks for a reply is acknowledged by one. -/
  answered : next.state = .acknowledged → ∀ m ∈ w.messages, m.messageId = receipt.messageId →
    m.obligation = .reply → ∃ answer ∈ w.messages,
      answer.fromParticipantId = receipt.recipientParticipantId ∧
        answer.inReplyTo = some m.messageId

/-- One write of a call. -/
inductive Change : Workspace → Workspace → Prop where
  | workspace {w : Workspace} {r : WorkspaceRecord} : Change w (w.putWorkspace r)
  | participant {w : Workspace} {r : Participant} :
      r.workspaceId = w.workspaceId → w.participants.get? r.participantId = none →
      Change w (w.putParticipant r)
  | session {w : Workspace} {r : Session} :
      r.workspaceId = w.workspaceId → Change w (w.putSession r)
  | intent {w : Workspace} {r : Intent} :
      r.workspaceId = w.workspaceId → Change w (w.putIntent r)
  | claim {w : Workspace} {r : Claim} : r.workspaceId = w.workspaceId → Change w (w.putClaim r)
  | release {w : Workspace} {i : Id} : Change w (w.removeClaim i)
  | message {w : Workspace} {m : Message} {recipients : List Id} {now : Timestamp} :
      NewMessage w m recipients → Change w (recordedMessage w m recipients now)
  | receipt {w : Workspace} {r r' : Receipt} : ReceiptUpdate w r r' → Change w (w.putReceipt r')
  | event {w : Workspace} {e : Event} :
      e.workspaceId = w.workspaceId → recordedMessageId e = none → Change w (w.append e)
  | ephemeral {w : Workspace} {e : Ephemeral} :
      e.Homed w.workspaceId → Change w (w.setEphemeral e)

/-- Changes, one after the other. -/
abbrev Changes : Workspace → Workspace → Prop := Relation.ReflTransGen Change

variable {w w' w₁ w₂ : Workspace} {ports : Ports}

theorem Change.workspaceId (h : Change w w') : w'.workspaceId = w.workspaceId := by
  cases h <;> rfl

theorem Changes.workspaceId (h : Changes w w') : w'.workspaceId = w.workspaceId := by
  induction h with
  | refl => rfl
  | tail _ hstep ih => rw [hstep.workspaceId, ih]

/-- A change files records of this workspace. -/
theorem Change.homed (h : Change w w') (hw : Homed w) : Homed w' := by
  cases h with
  | workspace => exact { hw with }
  | participant hr _ =>
      refine { hw with participants := ?_ }
      intro r' hr'
      rcases Keyed.mem_put.mp hr' with rfl | ⟨hr', -⟩
      · exact hr
      · exact hw.participants r' hr'
  | session hr =>
      refine { hw with sessions := ?_ }
      intro r' hr'
      rcases Keyed.mem_put.mp hr' with rfl | ⟨hr', -⟩
      · exact hr
      · exact hw.sessions r' hr'
  | intent hr =>
      refine { hw with intents := ?_ }
      intro r' hr'
      rcases Keyed.mem_put.mp hr' with rfl | ⟨hr', -⟩
      · exact hr
      · exact hw.intents r' hr'
  | claim hr =>
      refine { hw with claims := ?_ }
      intro r' hr'
      rcases Keyed.mem_put.mp hr' with rfl | ⟨hr', -⟩
      · exact hr
      · exact hw.claims r' hr'
  | release =>
      refine { hw with claims := ?_ }
      intro r' hr'
      exact hw.claims r' (Keyed.mem_remove.mp hr').1
  | message hm =>
      refine { hw with messages := ?_, receipts := ?_ }
      · intro r' hr'
        rcases Keyed.mem_put.mp hr' with rfl | ⟨hr', -⟩
        · exact hm.home
        · exact hw.messages r' hr'
      · intro r' hr'
        rcases Keyed.mem_putAll hr' with hr' | ⟨hr', -⟩
        · obtain ⟨i, -, rfl⟩ := List.mem_map.mp hr'
          exact hm.home
        · exact hw.receipts r' hr'
  | receipt hr =>
      refine { hw with receipts := ?_ }
      intro r' hr'
      rcases Keyed.mem_put.mp hr' with rfl | ⟨hr', -⟩
      · exact hr.workspaceId.trans (hw.receipts _ hr.mem)
      · exact hw.receipts r' hr'
  | event => exact { hw with }
  | ephemeral he => exact { hw with ephemeral := he }

theorem Changes.homed (h : Changes w w') (hw : Homed w) : Homed w' := by
  induction h with
  | refl => exact hw
  | tail _ hstep ih => exact hstep.homed ih

/-! ## Writes -/

/-- Two records of one session generation. -/
structure SameLife (c r : Session) : Prop where
  sessionId : r.sessionId = c.sessionId
  generation : r.generation = c.generation
  participantId : r.participantId = c.participantId
  workspaceId : r.workspaceId = c.workspaceId

/-- An event that records no message, opens no session and says nothing of what
a claim holds. -/
structure Plain (e : Event) : Prop where
  message : recordedMessageId e = none
  claim : claimFacts e = none
  opening : tellsOpen e = false

/-- One write of a call, with what it says of sessions and claims: a session is
written again by its own generation, or opens with an event, and a claim is
filed for an open session with the event that says what it holds. -/
inductive Write : Workspace → Workspace → Prop where
  | workspace {w : Workspace} {r : WorkspaceRecord} : Write w (w.putWorkspace r)
  | participant {w : Workspace} {r : Participant} :
      r.workspaceId = w.workspaceId → w.participants.get? r.participantId = none →
      Write w (w.putParticipant r)
  | opened {w : Workspace} {r : Session} {e : Event} :
      r.workspaceId = w.workspaceId → e.workspaceId = w.workspaceId → tellsOpen e = true →
      e.actorSessionId = r.sessionId → Write w ((w.putSession r).append e)
  | session {w : Workspace} {c r : Session} : w.sessions.get? c.sessionId = some c →
      SameLife c r → r.workspaceId = w.workspaceId → r.state = .closed ∨ c.state = .opened →
      Write w (w.putSession r)
  | intent {w : Workspace} {r : Intent} :
      r.workspaceId = w.workspaceId → Write w (w.putIntent r)
  | claim {w : Workspace} {r : Claim} {e : Event} {s : Session} : r.workspaceId = w.workspaceId →
      w.sessions.get? r.ownerSessionId = some s → s.state = .opened →
      e.workspaceId = w.workspaceId → claimFacts e = some (r.claimId, r.resource, r.mode) →
      Write w ((w.putClaim r).append e)
  /-- The claim is held for longer. -/
  | renewed {w : Workspace} {c r : Claim} : c ∈ w.claims → r.claimId = c.claimId →
      r.workspaceId = c.workspaceId → r.ownerSessionId = c.ownerSessionId →
      r.resource = c.resource → r.mode = c.mode → Write w (w.putClaim r)
  | release {w : Workspace} {i : Id} : Write w (w.removeClaim i)
  | message {w : Workspace} {m : Message} {recipients : List Id} {now : Timestamp} :
      NewMessage w m recipients → Write w (recordedMessage w m recipients now)
  | receipt {w : Workspace} {r r' : Receipt} : ReceiptUpdate w r r' → Write w (w.putReceipt r')
  | event {w : Workspace} {e : Event} :
      e.workspaceId = w.workspaceId → Plain e → Write w (w.append e)
  | ephemeral {w : Workspace} {e : Ephemeral} :
      e.Homed w.workspaceId → Write w (w.setEphemeral e)

/-- Writes, one after the other. -/
abbrev Writes : Workspace → Workspace → Prop := Relation.ReflTransGen Write

omit [LinearOrder ReceiptId] in
theorem recordedMessageId_of_tellsOpen {e : Event} (h : tellsOpen e = true) :
    recordedMessageId e = none := by
  cases hpayload : e.payload <;> simp_all [tellsOpen, recordedMessageId]

omit [LinearOrder ReceiptId] in
theorem recordedMessageId_of_claimFacts {e : Event} {facts : Id × String × ClaimMode}
    (h : claimFacts e = some facts) : recordedMessageId e = none := by
  cases hpayload : e.payload <;> simp_all [claimFacts, recordedMessageId]

/-- A write changes records of the workspace, as its call made sure. -/
theorem Write.changes (h : Write w w') (hw : Homed w) : Changes w w' := by
  cases h with
  | workspace => exact .single .workspace
  | participant hr hnone => exact .single (.participant hr hnone)
  | opened hr he hopen _ =>
      exact .tail (.single (.session hr)) (.event he (recordedMessageId_of_tellsOpen hopen))
  | session _ _ hr _ => exact .single (.session hr)
  | intent hr => exact .single (.intent hr)
  | claim hr _ _ he hfacts =>
      exact .tail (.single (.claim hr)) (.event he (recordedMessageId_of_claimFacts hfacts))
  | renewed hc _ hr _ _ _ => exact .single (.claim (hr.trans (hw.claims _ hc)))
  | release => exact .single .release
  | message hm => exact .single (.message hm)
  | receipt hr => exact .single (.receipt hr)
  | event he hplain => exact .single (.event he hplain.message)
  | ephemeral he => exact .single (.ephemeral he)

theorem Writes.changes (h : Writes w w') (hw : Homed w) : Changes w w' := by
  induction h with
  | refl => exact .refl
  | tail _ hstep ih => exact ih.trans (hstep.changes (ih.homed hw))

theorem Write.workspaceId (h : Write w w') : w'.workspaceId = w.workspaceId := by
  cases h <;> rfl

/-- The log only grows. -/
theorem Write.history (h : Write w w') : w.history <+: w'.history := by
  cases h with
  | opened => exact ⟨_, Workspace.history_append.symm⟩
  | claim => exact ⟨_, Workspace.history_append.symm⟩
  | message => exact ⟨_, (Workspace.history_append (w := w)).symm⟩
  | event => exact ⟨_, Workspace.history_append.symm⟩
  | _ => exact List.prefix_rfl

theorem Writes.workspaceId (h : Writes w w') : w'.workspaceId = w.workspaceId := by
  induction h with
  | refl => rfl
  | tail _ hstep ih => rw [hstep.workspaceId, ih]

theorem Writes.homed (h : Writes w w') (hw : Homed w) : Homed w' := (h.changes hw).homed hw

/-- Steps that are writes each, as long as they keep what they need. -/
theorem writes_foldl_of {α : Type} {f : Workspace → α → Workspace} {items : List α}
    {P : Workspace → Prop} (hw : P w)
    (hf : ∀ w' a, a ∈ items → P w' → Writes w' (f w' a) ∧ P (f w' a)) :
    Writes w (items.foldl f w) := by
  induction items generalizing w with
  | nil => exact .refl
  | cons a items ih =>
      obtain ⟨hhead, hkept⟩ := hf w a (List.mem_cons_self ..) hw
      exact hhead.trans (ih hkept fun w' b hb => hf w' b (List.mem_cons_of_mem _ hb))

/-- Steps that are writes each, as long as the workspace stays the same one. -/
theorem writes_foldl {α : Type} {f : Workspace → α → Workspace} {items : List α}
    (hf : ∀ w' a, a ∈ items → w'.workspaceId = w.workspaceId → Writes w' (f w' a)) :
    Writes w (items.foldl f w) :=
  writes_foldl_of (P := fun w' => w'.workspaceId = w.workspaceId) rfl fun w' a ha hw' =>
    ⟨hf w' a ha hw', (hf w' a ha hw').workspaceId.trans hw'⟩

/-! ## Sessions -/

/-- A session that was located is one of this workspace. -/
theorem Homed.located (hw : Homed w) {sessionId : Id} {workspaceId : Option Id} {session : Session}
    (h : locateSession w sessionId workspaceId = some session) :
    session.workspaceId = w.workspaceId := by
  simp only [locateSession] at h
  split at h
  next durable hdurable =>
    cases h
    exact hw.sessions _ (Keyed.mem_of_get? (Option.filter_eq_some_iff.mp hdurable).1)
  next => exact hw.ephemeral.sessions _ (Keyed.mem_of_get? (Option.filter_eq_some_iff.mp h).1)

/-- A session that is located goes by its id. -/
theorem locateSession_sessionId {sessionId : Id} {workspaceId : Option Id} {session : Session}
    (h : locateSession w sessionId workspaceId = some session) :
    session.sessionId = sessionId := by
  simp only [locateSession] at h
  split at h
  next durable hdurable =>
    cases h
    exact Keyed.key_of_get? (Option.filter_eq_some_iff.mp hdurable).1
  next => exact Keyed.key_of_get? (Option.filter_eq_some_iff.mp h).1

/-- A session is written again by its own generation. -/
theorem session_writes {i : Id} {c r : Session} (hw : Homed w)
    (hcurrent : w.sessions.get? i = some c) (hsame : SameLife c r)
    (hstate : r.state = .closed ∨ c.state = .opened) : Writes w (w.putSession r) := by
  refine .single (.session ?_ hsame ?_ hstate)
  · rw [Keyed.key_of_get? hcurrent]
    exact hcurrent
  · exact hsame.workspaceId.trans (hw.sessions _ (Keyed.mem_of_get? hcurrent))

theorem promoteParticipant_writes {r : Participant} (hr : r.workspaceId = w.workspaceId) :
    Writes w (promoteParticipant w r) := by
  rw [promoteParticipant]
  split
  · exact .refl
  next hnew => exact .single (.participant hr (by simpa using hnew))

theorem promoteSession_writes {now : Timestamp} {workspaceId : Id} {own : Option Session}
    {r : Session} (hid : workspaceId = w.workspaceId) (hr : r.workspaceId = w.workspaceId) :
    Writes w (promoteSession now workspaceId own w r) := by
  rw [promoteSession]
  split
  · exact .refl
  · exact .single (.opened hr hid rfl rfl)

theorem promoteIntent_writes {now : Timestamp} {workspaceId : Id} {r : Intent}
    (hid : workspaceId = w.workspaceId) (hr : r.workspaceId = w.workspaceId) :
    Writes w (promoteIntent now workspaceId w r) := by
  rw [promoteIntent]
  split
  · exact .refl
  · exact .tail (.single (.intent hr)) (.event hid ⟨rfl, rfl, rfl⟩)

theorem promote_writes {now : Timestamp} {workspaceId : Id} {staged : Ephemeral}
    {own : Option Session} (hid : workspaceId = w.workspaceId)
    (hstaged : staged.Homed w.workspaceId) : Writes w (promote w now workspaceId staged own) := by
  have hparticipants : Writes w (staged.participants.list.foldl promoteParticipant w) :=
    writes_foldl fun w' r hr hw' => promoteParticipant_writes
      ((hstaged.participants r (Keyed.mem_list.mp hr)).trans hw'.symm)
  have hsessions : Writes w (staged.sessions.list.foldl (promoteSession now workspaceId own)
      (staged.participants.list.foldl promoteParticipant w)) :=
    hparticipants.trans (writes_foldl fun w' r hr hw' => promoteSession_writes
      (by rw [hid, hw', hparticipants.workspaceId])
      (by rw [hstaged.sessions r (Keyed.mem_list.mp hr), hw', hparticipants.workspaceId]))
  exact hsessions.trans (writes_foldl fun w' r hr hw' => promoteIntent_writes
    (by rw [hid, hw', hsessions.workspaceId])
    (by rw [hstaged.intents r (Keyed.mem_list.mp hr), hw', hsessions.workspaceId]))

/-- The records a session opens with belong to this workspace. -/
structure Opening.Homed (opening : Opening) (workspaceId : Id) : Prop where
  participant : opening.participant.workspaceId = workspaceId
  session : opening.session.workspaceId = workspaceId

theorem openIn_writes {now : Timestamp} {participant : Participant} {session : Session}
    {replaced : Option Session} (hparticipant : participant.workspaceId = w.workspaceId)
    (hsession : session.workspaceId = w.workspaceId) :
    Writes w (openIn w now participant session replaced) := by
  have hpromoted : Writes w (promoteParticipant w participant) :=
    promoteParticipant_writes hparticipant
  have hid : session.workspaceId = (promoteParticipant w participant).workspaceId := by
    rw [hsession, hpromoted.workspaceId]
  exact hpromoted.tail (.opened hid hid rfl rfl)

theorem materialiseRecord_writes {now : Timestamp} {workspaceId : Id}
    {descriptor : Option Descriptor} {reason : String} (hid : workspaceId = w.workspaceId)
    (h : materialiseRecord w now workspaceId descriptor reason = .ok w') : Writes w w' := by
  rw [materialiseRecord] at h
  split at h
  · cases h
    exact .refl
  · simp only [bind_eq_ok, pure_eq_ok] at h
    obtain ⟨_, _, rfl⟩ := h
    exact .tail (.single .workspace) (.event hid ⟨rfl, rfl, rfl⟩)

theorem joinIn_writes {now : Timestamp} {own : Option Session} {opening : Option Opening}
    (hopening : ∀ o, opening = some o → o.Homed w.workspaceId)
    (h : joinIn w now own opening = .ok w') : Writes w w' := by
  cases opening with
  | none =>
      cases h
      exact .refl
  | some o =>
      simp only [joinIn, bind_eq_ok, pure_eq_ok] at h
      obtain ⟨_, _, rfl⟩ := h
      exact openIn_writes (hopening o rfl).participant (hopening o rfl).session

theorem materialise_writes {workspaceId : Id} {descriptor : Option Descriptor} {reason : String}
    {opening : Option Opening} {joined : Bool} (hw : Homed w) (hid : workspaceId = w.workspaceId)
    (hopening : ∀ o, opening = some o → o.Homed w.workspaceId)
    (h : materialise w ports workspaceId descriptor reason opening = .ok (w', joined)) :
    Writes w w' := by
  simp only [materialise, bind_eq_ok, pure_eq_ok, Prod.mk.injEq] at h
  obtain ⟨⟨w₁, joined₁⟩, htx, rfl, rfl⟩ := h
  have htx := Workspace.transaction_eq_ok htx
  have hw₁ : Writes w w₁ := by
    dsimp only at htx
    split at htx
    · simp only [bind_eq_ok, pure_eq_ok, Prod.mk.injEq] at htx
      obtain ⟨w₂, hrecord, w₃, hjoined, rfl, _⟩ := htx
      have hw₂ := materialiseRecord_writes hid hrecord
      have hpromoted := @promote_writes _ w₂ ports.now _ w.ephemeral
        (opening.bind fun o => w.ephemeral.sessions.get? o.session.sessionId)
        (hid.trans hw₂.workspaceId.symm) (hw₂.workspaceId ▸ hw.ephemeral)
      have hbefore := hw₂.trans hpromoted
      refine hbefore.trans (joinIn_writes ?_ hjoined)
      intro o ho
      rw [Writes.workspaceId hbefore]
      exact hopening o ho
    · simp only [pure_eq_ok, Prod.mk.injEq] at htx
      rw [← htx.1]
  dsimp only
  split
  · refine hw₁.tail (.ephemeral ?_)
    have hhomed := (hw₁.homed hw).ephemeral
    constructor
    · intro r hr
      exact hhomed.participants r (Keyed.mem_removeAll.mp hr).1
    · intro r hr
      exact hhomed.sessions r (Keyed.mem_removeAll.mp hr).1
    · intro r hr
      exact hhomed.intents r (Keyed.mem_removeAll.mp hr).1
  · exact hw₁

theorem ensureMaterialised_writes {workspaceId : Id} {descriptor : Option Descriptor}
    {reason : String} (hw : Homed w) (hid : workspaceId = w.workspaceId)
    (h : ensureMaterialised w ports workspaceId descriptor reason = .ok w') : Writes w w' := by
  rw [ensureMaterialised] at h
  split at h
  · cases h
    exact .refl
  · simp only [bind_eq_ok, pure_eq_ok] at h
    obtain ⟨done, hdone, rfl⟩ := h
    exact materialise_writes hw hid (fun o ho => by cases ho) hdone

theorem openEphemeral_writes {input : OpenInput} {participant : Participant} {session : Session}
    (hw : Homed w) (hparticipant : participant.workspaceId = w.workspaceId)
    (hsession : session.workspaceId = w.workspaceId)
    (h : openEphemeral w ports input participant session = .ok w') : Writes w w' := by
  simp only [openEphemeral, bind_eq_ok, pure_eq_ok] at h
  obtain ⟨_, _, rfl⟩ := h
  refine .single (.ephemeral { hw.ephemeral with participants := ?_, sessions := ?_ })
  · intro r hr
    rcases Keyed.mem_put.mp hr with rfl | ⟨hr, -⟩
    · cases hkept : w.ephemeral.participants.get? participant.participantId with
      | none => exact hparticipant
      | some kept => exact hw.ephemeral.participants kept (Keyed.mem_of_get? hkept)
    · exact hw.ephemeral.participants r hr
  · intro r hr
    rcases Keyed.mem_put.mp hr with rfl | ⟨hr, -⟩
    · exact hsession
    · exact hw.ephemeral.sessions r hr

theorem openSession_writes {input : OpenInput} {session : Session} (hw : Homed w)
    (h : openSession w ports input = .ok (w', session)) : Writes w w' := by
  simp only [openSession, bind_eq_ok, refuse_eq_ok, not_not] at h
  obtain ⟨_, hid, _, _, _, _, _, _, h⟩ := h
  split at h
  · have h := Workspace.transaction_eq_ok h
    simp only [bind_eq_ok, pure_eq_ok, Prod.mk.injEq] at h
    obtain ⟨_, _, rfl, _⟩ := h
    exact openIn_writes hid hid
  · split at h
    · simp only [bind_eq_ok, pure_eq_ok, Prod.mk.injEq] at h
      obtain ⟨done, hdone, rfl, _⟩ := h
      refine materialise_writes hw hid ?_ hdone
      intro o ho
      cases ho
      exact ⟨hid, hid⟩
    · simp only [bind_eq_ok, pure_eq_ok, Prod.mk.injEq] at h
      obtain ⟨w₁, hw₁, rfl, _⟩ := h
      exact openEphemeral_writes hw hid hid hw₁

/-- An ephemeral session that is written again. -/
theorem ephemeralSession_writes {current next : Session} (hw : Homed w)
    (hcurrent : current ∈ w.ephemeral.sessions) (hid : next.workspaceId = current.workspaceId) :
    Writes w (w.setEphemeral
      { w.ephemeral with sessions := w.ephemeral.sessions.put next }) := by
  refine .single (.ephemeral { hw.ephemeral with sessions := ?_ })
  intro r hr
  rcases Keyed.mem_put.mp hr with rfl | ⟨hr, -⟩
  · exact hid.trans (hw.ephemeral.sessions _ hcurrent)
  · exact hw.ephemeral.sessions r hr

theorem updateOwn_writes {sessionId : Id} {change : Session → Result Session} {session : Session}
    (hw : Homed w)
    (hchange : ∀ s s', change s = .ok s' → SameLife s s' ∧ s.state = .opened)
    (h : updateOwn w sessionId change = .ok (w', session)) : Writes w w' := by
  rw [updateOwn] at h
  split at h
  next current hcurrent =>
    simp only [bind_eq_ok, pure_eq_ok, Prod.mk.injEq] at h
    obtain ⟨next, hnext, rfl, _⟩ := h
    exact ephemeralSession_writes hw
      (Keyed.mem_of_get? (Option.filter_eq_some_iff.mp hcurrent).1)
      (hchange _ _ hnext).1.workspaceId
  next =>
    have h := Workspace.transaction_eq_ok h
    split at h
    next => cases h
    next current hcurrent =>
      simp only [bind_eq_ok, pure_eq_ok, Prod.mk.injEq] at h
      obtain ⟨next, hnext, rfl, _⟩ := h
      obtain ⟨hsame, hopen⟩ := hchange _ _ hnext
      exact session_writes hw hcurrent hsame (Or.inr hopen)

theorem heartbeatSession_writes {sessionId generation : Id} {workspaceId : Option Id}
    {session : Session} (hw : Homed w)
    (h : heartbeatSession w ports sessionId workspaceId generation = .ok (w', session)) :
    Writes w w' := by
  refine updateOwn_writes hw ?_ h
  intro s s' hs
  simp only [assertHolder, bind_eq_ok, refuse_eq_ok, pure_eq_ok, not_not] at hs
  obtain ⟨_, ⟨_, _, hopen⟩, rfl⟩ := hs
  exact ⟨⟨rfl, rfl, rfl, rfl⟩, hopen⟩

theorem recordNotices_writes {sessionId generation : Id} {workspaceId : Option Id}
    {messageIds : List String} {session : Session} (hw : Homed w)
    (h : recordNotices w sessionId workspaceId generation messageIds = .ok (w', session)) :
    Writes w w' := by
  simp only [recordNotices, bind_eq_ok] at h
  obtain ⟨_, _, h⟩ := h
  refine updateOwn_writes hw ?_ h
  intro s s' hs
  simp only [assertHolder, bind_eq_ok, refuse_eq_ok, pure_eq_ok, not_not] at hs
  obtain ⟨_, ⟨_, _, hopen⟩, rfl⟩ := hs
  exact ⟨⟨rfl, rfl, rfl, rfl⟩, hopen⟩

omit [LinearOrder ReceiptId] in
theorem filter_bind_eq_some {α β : Type} {o : Option α} {p : α → Bool} {f : α → Option β} {b : β}
    (h : (o.filter p).bind f = some b) : ∃ a, o = some a ∧ f a = some b := by
  obtain ⟨a, ha, hb⟩ := Option.bind_eq_some_iff.mp h
  exact ⟨a, (Option.filter_eq_some_iff.mp ha).1, hb⟩

theorem resume_sameLife {now : Timestamp} {workspaceId : Option Id} {generation : Id}
    {metadata : ResumeInput} {current resumed : Session}
    (h : resume w now workspaceId generation metadata current = some resumed) :
    SameLife current resumed ∧ current.state = .opened := by
  rw [resume] at h
  split at h
  next => cases h
  next hholds =>
    cases h
    exact ⟨⟨rfl, rfl, rfl, rfl⟩, by simpa using (not_or.mp hholds).1⟩

theorem resumeSession_writes {sessionId generation : Id} {workspaceId : Option Id}
    {metadata : ResumeInput} {session : Option Session} (hw : Homed w)
    (h : resumeSession w ports sessionId workspaceId generation metadata = .ok (w', session)) :
    Writes w w' := by
  rw [resumeSession] at h
  split at h
  next resumed hresumed =>
    simp only [bind_eq_ok, pure_eq_ok, Prod.mk.injEq] at h
    obtain ⟨_, _, rfl, _⟩ := h
    obtain ⟨current, hcurrent, hresume⟩ := filter_bind_eq_some hresumed
    exact ephemeralSession_writes hw (Keyed.mem_of_get? hcurrent)
      (resume_sameLife hresume).1.workspaceId
  next =>
    have h := Workspace.transaction_eq_ok h
    split at h
    next =>
      cases h
      exact .refl
    next resumed hresumed =>
      simp only [bind_eq_ok, pure_eq_ok, Prod.mk.injEq] at h
      obtain ⟨_, _, rfl, _⟩ := h
      obtain ⟨current, hcurrent, hresume⟩ := Option.bind_eq_some_iff.mp hresumed
      obtain ⟨hsame, hopen⟩ := resume_sameLife hresume
      exact session_writes hw hcurrent hsame (Or.inr hopen)

theorem closeSession_writes {sessionId generation : Id} {workspaceId : Option Id}
    {endReason : Option String} {session : Session} (hw : Homed w)
    (h : closeSession w ports sessionId workspaceId generation endReason = .ok (w', session)) :
    Writes w w' := by
  rw [closeSession] at h
  split at h
  next =>
    simp only [bind_eq_ok, pure_eq_ok, Prod.mk.injEq] at h
    obtain ⟨_, _, rfl, _⟩ := h
    refine .single (.ephemeral { hw.ephemeral with sessions := ?_, intents := ?_ })
    · intro r hr
      exact hw.ephemeral.sessions r (Keyed.mem_remove.mp hr).1
    · intro r hr
      exact hw.ephemeral.intents r (Keyed.mem_remove.mp hr).1
  next =>
    have h := Workspace.transaction_eq_ok h
    dsimp only at h
    split at h
    next => cases h
    next current hcurrent =>
      simp only [bind_eq_ok, pure_eq_ok, Prod.mk.injEq] at h
      obtain ⟨_, _, rfl, _⟩ := h
      have hid : current.workspaceId = w.workspaceId :=
        hw.sessions _ (Keyed.mem_of_get? hcurrent)
      exact (session_writes (r := closed current ports.now endReason) hw hcurrent
        ⟨rfl, rfl, rfl, rfl⟩ (Or.inl rfl)).tail (.event hid ⟨rfl, rfl, rfl⟩)

/-! ## Intents -/

omit [LinearOrder ReceiptId] in
theorem requireIntentOwner_eq_ok {current : Option Session} {generation : Id} {owner : Session}
    (h : requireIntentOwner current generation = .ok owner) : current = some owner := by
  cases current with
  | none => cases h
  | some s =>
      simp only [requireIntentOwner, bind_eq_ok, pure_eq_ok] at h
      obtain ⟨_, _, _, _, rfl⟩ := h
      rfl

theorem setIntent_writes {input : IntentInput} {intent : Intent} (hw : Homed w)
    (h : setIntent w ports input = .ok (w', intent)) : Writes w w' := by
  simp only [setIntent, bind_eq_ok] at h
  obtain ⟨owner, howner, _, _, h⟩ := h
  have hid := hw.located (requireIntentOwner_eq_ok howner)
  split at h
  · have h := Workspace.transaction_eq_ok h
    simp only [bind_eq_ok, pure_eq_ok, Prod.mk.injEq] at h
    obtain ⟨_, _, rfl, _⟩ := h
    exact .tail (.single (.intent hid)) (.event hid ⟨rfl, rfl, rfl⟩)
  · simp only [pure_eq_ok, Prod.mk.injEq] at h
    obtain ⟨rfl, _⟩ := h
    refine .single (.ephemeral { hw.ephemeral with intents := ?_ })
    intro r hr
    rcases Keyed.mem_put.mp hr with rfl | ⟨hr, -⟩
    · exact hid
    · exact hw.ephemeral.intents r hr

theorem clearIntent_writes {sessionId generation : Id} {workspaceId : Option Id} (hw : Homed w)
    (h : clearIntent w ports sessionId workspaceId generation = .ok w') : Writes w w' := by
  simp only [clearIntent, bind_eq_ok] at h
  obtain ⟨owner, howner, h⟩ := h
  have hid := hw.located (requireIntentOwner_eq_ok howner)
  split at h
  · simp only [bind_eq_ok, pure_eq_ok] at h
    obtain ⟨⟨w₁, _⟩, hdone, rfl⟩ := h
    have hdone := Workspace.transaction_eq_ok hdone
    simp only [bind_eq_ok] at hdone
    obtain ⟨_, _, hdone⟩ := hdone
    split at hdone
    next =>
      cases hdone
      exact .refl
    next current hcurrent =>
      cases hdone
      have hintent : current.workspaceId = w.workspaceId :=
        hw.intents _ (Keyed.mem_of_get? hcurrent)
      exact .tail (.single (.intent
        (r := { current with state := .done, updatedAt := ports.now }) hintent)) (.event hid ⟨rfl, rfl, rfl⟩)
  · simp only [pure_eq_ok] at h
    rw [← h]
    refine .single (.ephemeral { hw.ephemeral with intents := ?_ })
    intro r hr
    exact hw.ephemeral.intents r (Keyed.mem_remove.mp hr).1

/-! ## Claims -/

omit [LinearOrder ReceiptId] in
theorem requireClaimOwner_eq_ok {current : Option Session} {generation : Id} {action : String}
    {owner : Session} (h : requireClaimOwner current generation action = .ok owner) :
    current = some owner := by
  cases current with
  | none => cases h
  | some s =>
      simp only [requireClaimOwner, bind_eq_ok, pure_eq_ok] at h
      obtain ⟨_, _, _, _, rfl⟩ := h
      rfl

omit [LinearOrder ReceiptId] in
theorem requireClaimOwner_opened {current : Option Session} {generation : Id} {action : String}
    {owner : Session} (h : requireClaimOwner current generation action = .ok owner) :
    owner.state = .opened := by
  cases current with
  | none => cases h
  | some s =>
      simp only [requireClaimOwner, bind_eq_ok, refuse_eq_ok, pure_eq_ok, not_not] at h
      obtain ⟨_, hopen, _, _, rfl⟩ := h
      exact hopen

theorem acquireRecord_workspaceId {session : Session} {input : AcquireInput}
    {expiresAt : Timestamp} {resource : String} {i : Nat} {item : Bool × Claim}
    (h : acquireRecord w ports session input expiresAt resource i = .ok item) :
    item.2.workspaceId = session.workspaceId := by
  simp only [acquireRecord, bind_eq_ok, pure_eq_ok] at h
  obtain ⟨_, _, rfl⟩ := h
  rfl

theorem acquireRecord_ownerSessionId {session : Session} {input : AcquireInput}
    {expiresAt : Timestamp} {resource : String} {i : Nat} {item : Bool × Claim}
    (h : acquireRecord w ports session input expiresAt resource i = .ok item) :
    item.2.ownerSessionId = session.sessionId := by
  simp only [acquireRecord, bind_eq_ok, pure_eq_ok] at h
  obtain ⟨_, _, rfl⟩ := h
  rfl

omit [LinearOrder ReceiptId] in
theorem fileClaim_claimFacts {now : Timestamp} {item : Bool × Claim} :
    claimFacts ⟨item.2.workspaceId, item.2.ownerSessionId, now,
      if item.1 then .claimAcquired item.2.claimId item.2.resource item.2.mode
      else .claimRenewed item.2.claimId (some (item.2.resource, item.2.mode))⟩ =
        some (item.2.claimId, item.2.resource, item.2.mode) := by
  cases item.1 <;> rfl

theorem acquireTransaction_writes {session : Session} {input : AcquireInput}
    {resources : List String} {batch : Bool} {records : List Claim}
    (hid : session.workspaceId = w.workspaceId) (howner : session.sessionId = input.sessionId)
    (h : acquireTransaction w ports session input resources batch = .ok (w', records)) :
    Writes w w' := by
  have h := Workspace.transaction_eq_ok h
  simp only [bind_eq_ok, pure_eq_ok, Prod.mk.injEq] at h
  obtain ⟨owner, hrequired, _, _, _, _, items, hitems, rfl, rfl⟩ := h
  refine writes_foldl_of (P := fun w' => w'.workspaceId = w.workspaceId ∧
    w'.sessions = w.sessions) ⟨rfl, rfl⟩ fun w' item hitem hkept => ?_
  obtain ⟨hw', hsessions⟩ := hkept
  obtain ⟨source, _, hsource⟩ := mem_of_mapM_eq_ok hitems item hitem
  have hhome : item.2.workspaceId = w'.workspaceId := by
    rw [acquireRecord_workspaceId hsource, hid, hw']
  have hopen : w'.sessions.get? item.2.ownerSessionId = some owner := by
    rw [acquireRecord_ownerSessionId hsource, howner, hsessions]
    exact requireClaimOwner_eq_ok hrequired
  exact ⟨.single (.claim hhome hopen (requireClaimOwner_opened hrequired) hhome
    fileClaim_claimFacts), hw', hsessions⟩

theorem acquire_writes {input : AcquireInput} {resources : List String} {batch : Bool}
    {records : List Claim} (hw : Homed w)
    (h : acquire w ports input resources batch = .ok (w', records)) : Writes w w' := by
  simp only [acquire, bind_eq_ok] at h
  obtain ⟨session, hsession, requested, _, w₁, hw₁, htx⟩ := h
  have hid := hw.located (requireClaimOwner_eq_ok hsession)
  have hensured := ensureMaterialised_writes hw hid hw₁
  exact hensured.trans (acquireTransaction_writes (hid.trans hensured.workspaceId.symm)
    (locateSession_sessionId (requireClaimOwner_eq_ok hsession)) htx)

theorem renewClaim_writes {input : RenewInput} {record : Claim} (hw : Homed w)
    (h : renewClaim w ports input = .ok (w', record)) : Writes w w' := by
  simp only [renewClaim, bind_eq_ok] at h
  obtain ⟨session, _, h⟩ := h
  have h := Workspace.transaction_eq_ok h
  simp only [bind_eq_ok] at h
  obtain ⟨_, _, h⟩ := h
  split at h
  next => cases h
  next existing hexisting =>
    simp only [bind_eq_ok, pure_eq_ok, Prod.mk.injEq] at h
    obtain ⟨_, _, expiresAt, _, rfl, _⟩ := h
    have hhome : existing.workspaceId = w.workspaceId :=
      hw.claims _ (Keyed.mem_of_get? (Option.filter_eq_some_iff.mp hexisting).1)
    have hexisting := Keyed.mem_of_get? (Option.filter_eq_some_iff.mp hexisting).1
    exact .tail (.single (.renewed
      (r := { existing with expiresAt, generation := ports.ids .generation 0 }) hexisting
      rfl rfl rfl rfl rfl)) (.event hhome ⟨rfl, rfl, rfl⟩)

/-- What a release selects is there. -/
theorem selectReleaseClaims_mem {sessionId : Id} {selectors : Selectors} {selected : List Claim}
    (h : selectReleaseClaims w sessionId selectors = .ok selected) :
    ∀ c ∈ selected, c ∈ w.claims := by
  intro c hc
  cases selectors with
  | all =>
      cases h
      exact Keyed.mem_list.mp (List.mem_filter.mp hc).1
  | claimIds ids =>
      obtain ⟨i, _, hi⟩ := mem_of_mapM_eq_ok h c hc
      split at hi
      next => cases hi
      next claim hclaim =>
        cases hi
        exact Keyed.mem_of_get? hclaim
  | resources resources =>
      obtain ⟨resource, _, hresource⟩ := mem_of_mapM_eq_ok h c hc
      split at hresource
      next => cases hresource
      next mine hmine =>
        cases hresource
        have hmem : c ∈ w.claims.list.filter fun c =>
            c.resource = resource ∧ c.ownerSessionId = sessionId := by
          rw [hmine]
          exact List.mem_singleton_self c
        exact Keyed.mem_list.mp (List.mem_filter.mp hmem).1
      next => cases hresource

theorem releaseOne_writes {now : Timestamp} {sessionId : Id} {authority reason : Option String}
    {existing : Claim} (hid : existing.workspaceId = w.workspaceId) :
    Writes w (releaseOne now sessionId authority reason w existing) := by
  refine .tail (.single .release) (.event hid ?_)
  split <;> exact ⟨rfl, rfl, rfl⟩

theorem removeClaims_writes {input : ReleaseInput} {selectors : Selectors}
    {authority reason : Option String} {selected : List Claim} (hw : Homed w)
    (h : removeClaims w ports input selectors authority reason = .ok (w', selected)) :
    Writes w w' := by
  simp only [removeClaims, bind_eq_ok] at h
  obtain ⟨session, _, h⟩ := h
  have h := Workspace.transaction_eq_ok h
  simp only [bind_eq_ok, pure_eq_ok, Prod.mk.injEq] at h
  obtain ⟨_, _, chosen, hchosen, _, _, rfl, rfl⟩ := h
  refine writes_foldl fun w' c hc hw' => releaseOne_writes ?_
  rw [hw.claims c (selectReleaseClaims_mem hchosen c hc), hw']

/-! ## Messages -/

/-- What a stored message shares with its input. -/
theorem StoredAs.inReplyTo {session : Session} {input : MessageInput} {messageId : Id}
    {message : Message} (h : StoredAs w session input messageId message) :
    message.inReplyTo = input.inReplyTo := congrArg LogicalContent.inReplyTo h.content

theorem StoredAs.decisionChange {session : Session} {input : MessageInput} {messageId : Id}
    {message : Message} (h : StoredAs w session input messageId message) :
    message.decisionChange = input.decisionChange := congrArg LogicalContent.decisionChange h.content

theorem StoredAs.toParticipantIds {session : Session} {input : MessageInput} {messageId : Id}
    {message : Message} (h : StoredAs w session input messageId message) :
    message.toParticipantIds.map Id.val = input.toParticipantIds :=
  congrArg LogicalContent.toParticipantIds h.content

theorem newMessage {session : Session} {raw input : MessageInput} {messageId : Id}
    {message : Message} {recipients : List Id} (hw : Homed w)
    (hid : session.workspaceId = w.workspaceId) (hinput : Prepared w session raw input)
    (hretry : findMessageRetry w session input = .ok none)
    (hmessage : StoredAs w session input messageId message)
    (hrecipients : addressedRecipients w message session = .ok recipients)
    (hfresh : w.messages.get? message.messageId = none) : NewMessage w message recipients where
  home := hmessage.workspaceId.trans hid
  fresh := hfresh
  unsent := by
    intro m hm hmhome hmfrom
    rw [hmessage.clientMessageId]
    exact findMessageRetry_none hretry hm (hmhome.trans hmessage.workspaceId)
      (hmfrom.trans hmessage.sender)
  valid := hmessage.valid
  thread := by
    intro i hi
    have hthread := hmessage.thread
    rw [← hmessage.inReplyTo, hi, threadFor] at hthread
    split at hthread
    next => cases hthread
    next parent hparent =>
      exact ⟨parent, Keyed.mem_of_get? hparent, Keyed.key_of_get? hparent, by injection hthread⟩
  named := by
    intro i hi
    obtain ⟨change, hchange, hi⟩ := mem_targets.mp hi
    obtain ⟨targets, htargets, _⟩ := hinput.change change (hmessage.decisionChange ▸ hchange)
    obtain ⟨d, _, hd, hkind⟩ := decisionTargets_eq_ok htargets hi
    exact ⟨d, Keyed.mem_of_get? hd, Keyed.key_of_get? hd, hkind⟩
  reached := by
    intro d hd hnamed i hi hne
    obtain ⟨change, hchange, hnamed⟩ := mem_targets.mp hnamed
    obtain ⟨targets, htargets, hreached⟩ :=
      hinput.change change (hmessage.decisionChange ▸ hchange)
    obtain ⟨target, htarget, hget, _⟩ := decisionTargets_eq_ok htargets hnamed
    have heq : target = d := by
      rw [Keyed.mem_def.mp hd] at hget
      cases hget
      rfl
    have hinherited : i ∈ inheritedRecipients w session.workspaceId targets := by
      refine mem_inheritedRecipients.mpr ⟨target, htarget, ?_⟩
      rw [heq]
      rcases hi with hsender | ⟨r, hr, hkey⟩
      · exact Or.inl hsender
      · exact Or.inr ⟨r, hr, (hw.receipts r hr).trans hid.symm,
          congrArg ReceiptId.messageId hkey, congrArg ReceiptId.participantId hkey⟩
    have hval := hreached i hinherited (hmessage.sender ▸ hne)
    rw [← hmessage.toParticipantIds] at hval
    obtain ⟨j, hj, hji⟩ := List.mem_map.mp hval
    obtain rfl := Id.val_injective hji
    rw [addressedRecipients_eq_ok hrecipients (List.ne_nil_of_mem hj)]
    exact hj

theorem recordMessage_writes {session : Session} {raw : MessageInput} {now : Timestamp}
    {messageId : Id} {action : String} {done : Recorded} (hw : Homed w)
    (hid : session.workspaceId = w.workspaceId)
    (h : recordMessageInTransaction w session raw now messageId action = .ok (w', done)) :
    Writes w w' := by
  obtain ⟨_, input, hinput, hcases⟩ := recordMessage_eq_ok h
  rcases hcases with ⟨_, _, rfl, _⟩ |
    ⟨message, _, hretry, hmessage, hrecipients, hfresh, rfl, _⟩
  · exact .refl
  · exact .single (.message (newMessage hw hid (prepareMessage_eq_ok hinput) hretry
      (messageRecord_eq_ok hmessage) hrecipients hfresh))

theorem recordMessage_sessions {session : Session} {raw : MessageInput} {now : Timestamp}
    {messageId : Id} {action : String} {done : Recorded}
    (h : recordMessageInTransaction w session raw now messageId action = .ok (w', done)) :
    w'.sessions = w.sessions := by
  obtain ⟨_, _, _, hcases⟩ := recordMessage_eq_ok h
  rcases hcases with ⟨_, _, rfl, _⟩ | ⟨_, _, _, _, _, _, rfl, _⟩
  · rfl
  · rfl

/-- What was recorded, or found, is there. -/
theorem recordMessage_answer {session : Session} {raw : MessageInput} {now : Timestamp}
    {messageId : Id} {action : String} {done : Recorded}
    (h : recordMessageInTransaction w session raw now messageId action = .ok (w', done)) :
    done.message ∈ w'.messages ∧ done.message.fromParticipantId = session.participantId ∧
      done.message.inReplyTo = raw.inReplyTo := by
  obtain ⟨_, input, hinput, hcases⟩ := recordMessage_eq_ok h
  have hreply := (prepareMessage_eq_ok hinput).inReplyTo
  rcases hcases with ⟨message, hretry, rfl, rfl⟩ | ⟨message, _, _, hmessage, _, _, rfl, rfl⟩
  · have hfound := findMessageRetry_some hretry
    exact ⟨hfound.mem, hfound.sender,
      (congrArg LogicalContent.inReplyTo hfound.content).trans hreply⟩
  · have hstored := messageRecord_eq_ok hmessage
    exact ⟨Keyed.mem_put.mpr (Or.inl rfl), hstored.sender, hstored.inReplyTo.trans hreply⟩

theorem sendMessage_writes {input : SendInput} {message : Message} (hw : Homed w)
    (h : sendMessage w ports input = .ok (w', message)) : Writes w w' := by
  simp only [sendMessage, bind_eq_ok] at h
  obtain ⟨session, hsession, w₁, hw₁, htx⟩ := h
  have hid := hw.located (requireSession_eq_ok hsession).1
  have hensured := ensureMaterialised_writes hw hid hw₁
  have htx := Workspace.transaction_eq_ok htx
  simp only [bind_eq_ok, pure_eq_ok, Prod.mk.injEq] at htx
  obtain ⟨⟨_, _⟩, hdone, rfl, _⟩ := htx
  exact hensured.trans (recordMessage_writes (hensured.homed hw)
    (hid.trans hensured.workspaceId.symm) hdone)

theorem closeFinished_writes {now : Timestamp} {session current : Session} {message : Message}
    {releasedClaims : List Claim} (hw : Homed w) (hid : session.workspaceId = w.workspaceId)
    (hcurrent : w.sessions.get? current.sessionId = some current) :
    Writes w (closeFinished w now session current message releasedClaims) := by
  have hreleased : Writes w (releasedClaims.foldl (releaseFinished now session) w) :=
    writes_foldl fun w' c _ hw' =>
      .tail (.single .release) (.event (hid.trans hw'.symm) ⟨rfl, rfl, rfl⟩)
  have hkept : (releasedClaims.foldl (releaseFinished now session) w).sessions = w.sessions :=
    foldl_untouched (g := Workspace.sessions) (f := releaseFinished now session)
      (fun _ _ => rfl) _ _
  have hclosed := hreleased.trans (session_writes (c := current)
    (r := { current with state := .closed, heartbeatAt := now }) (hreleased.homed hw)
    (hkept ▸ hcurrent) ⟨rfl, rfl, rfl, rfl⟩ (Or.inl rfl))
  exact hclosed.tail (.event (hid.trans hreleased.workspaceId.symm) ⟨rfl, rfl, rfl⟩)

theorem finishTransaction_writes {session : Session} {input : FinishInput}
    {outcome : FinishOutcome} (hw : Homed w) (hid : session.workspaceId = w.workspaceId)
    (h : finishTransaction w ports session input = .ok (w', outcome)) : Writes w w' := by
  have h := Workspace.transaction_eq_ok h
  dsimp only at h
  split at h
  · cases h
  next current hcurrent =>
    simp only [bind_eq_ok] at h
    obtain ⟨_, _, existing, _, h⟩ := h
    cases existing with
    | some existing =>
        simp only [bind_eq_ok, pure_eq_ok, Prod.mk.injEq] at h
        obtain ⟨_, _, rfl, _⟩ := h
        exact .refl
    | none =>
        simp only [bind_eq_ok, pure_eq_ok, Prod.mk.injEq] at h
        obtain ⟨_, _, ⟨w₁, recorded⟩, hrecorded, rfl, _⟩ := h
        have hw₁ := recordMessage_writes hw hid hrecorded
        have hcurrent := (Option.filter_eq_some_iff.mp hcurrent).1
        refine hw₁.trans (closeFinished_writes (hw₁.homed hw) (hid.trans hw₁.workspaceId.symm) ?_)
        rw [recordMessage_sessions hrecorded, Keyed.key_of_get? hcurrent]
        exact hcurrent

theorem finishSession_writes {input : FinishInput} {outcome : FinishOutcome} (hw : Homed w)
    (h : finishSession w ports input = .ok (w', outcome)) : Writes w w' := by
  simp only [finishSession, bind_eq_ok] at h
  obtain ⟨session, hsession, w₁, hw₁, htx⟩ := h
  have hid := hw.located (requireSession_eq_ok hsession).1
  have hensured := ensureMaterialised_writes hw hid hw₁
  exact hensured.trans (finishTransaction_writes (hensured.homed hw)
    (hid.trans hensured.workspaceId.symm) htx)

/-! ## Receipts -/

omit [LinearOrder ReceiptId] in
theorem requireOpen_eq_ok {current : Option Session} {generation : Id} {action : String}
    {session : Session} (h : requireOpen current generation action = .ok session) :
    current = some session ∧ session.state = .opened ∧ session.generation = generation := by
  rw [requireOpen] at h
  split at h
  next => cases h
  next found hfound =>
    cases h
    have hfound := Option.filter_eq_some_iff.mp hfound
    exact ⟨hfound.1, by simpa using hfound.2⟩

theorem requireOwnedReceipt_eq_ok {session : Session} {messageId : Id} {owned : Message × Receipt}
    (h : requireOwnedReceipt w session messageId = .ok owned) :
    w.messages.get? messageId = some owned.1 ∧
      w.receipts.get? ⟨messageId, session.participantId⟩ = some owned.2 := by
  rw [requireOwnedReceipt] at h
  split at h
  next message receipt hmessage hreceipt =>
    cases h
    exact ⟨hmessage, hreceipt⟩
  next => cases h

omit [LinearOrder ReceiptId] in
theorem ne_queued_of_mem_receiptNext {state next : ReceiptState} (h : next ∈ receiptNext state) :
    next ≠ .queued := by
  cases state <;> cases next <;> simp [receiptNext] at h ⊢

omit [LinearOrder ReceiptId] in
theorem dueForRepeat_state {message : Message} {receipt : Receipt} {now : Timestamp}
    (h : dueForRepeat message receipt now = true) : receipt.state = .offered := by
  simp only [dueForRepeat, Bool.decide_and, Bool.and_eq_true, decide_eq_true_eq] at h
  exact h.2.1

/-- A receipt that is advanced is the reader's own, and it moves forward. -/
theorem advanceOwned_writes {session : Session} {messageId : Id} {state : ReceiptState}
    {now : Timestamp} {receipt : Receipt} (hid : session.workspaceId = w.workspaceId)
    (hanswered : state = .acknowledged → ∀ owned,
      requireOwnedReceipt w session messageId = .ok owned → owned.2.state ≠ .acknowledged →
      owned.1.obligation = .reply → ∃ answer ∈ w.messages,
        answer.fromParticipantId = session.participantId ∧ answer.inReplyTo = some messageId)
    (h : advanceOwned w session messageId state now = .ok (w', receipt)) : Writes w w' := by
  simp only [advanceOwned, bind_eq_ok] at h
  obtain ⟨owned, howned, nextState, hnext, h⟩ := h
  obtain ⟨hmessage, hreceipt⟩ := requireOwnedReceipt_eq_ok howned
  obtain ⟨rfl, hstate⟩ := advanceReceipt_eq_ok hnext
  split at h
  · simp only [pure_eq_ok, Prod.mk.injEq] at h
    rw [← h.1]
  next hmoves =>
    simp only [pure_eq_ok, Prod.mk.injEq] at h
    obtain ⟨rfl, _⟩ := h
    have hforward := hstate.resolve_left fun heq => hmoves heq.symm
    have hupdate : ReceiptUpdate w owned.2 (advancedReceipt owned.1 owned.2 nextState now) := by
      have hkey : owned.1.messageId = messageId := Keyed.key_of_get? hmessage
      have hreceiptKey : owned.2.receiptId = ⟨messageId, session.participantId⟩ :=
        Keyed.key_of_get? hreceipt
      refine ⟨Keyed.mem_of_get? hreceipt, rfl, rfl, Or.inr hforward, ?_, ?_, ?_⟩
      · exact ne_queued_of_mem_receiptNext hforward
      · cases hobligation : owned.2.obligation with
        | none =>
            refine Or.inr ⟨owned.1, Keyed.mem_of_get? hmessage, ?_, ?_⟩
            · rw [hkey]
              exact (congrArg ReceiptId.messageId hreceiptKey).symm
            · rw [advancedReceipt, hobligation]
              rfl
        | some obligation =>
            left
            rw [advancedReceipt, hobligation]
            rfl
      · intro hacknowledged m hm hmid hreply
        have hmowned : m = owned.1 := by
          refine Keyed.eq_of_key hm (Keyed.mem_of_get? hmessage) ?_
          rw [hmid, hkey]
          exact congrArg ReceiptId.messageId hreceiptKey
        obtain ⟨answer, hanswer, hsender, hparent⟩ := hanswered hacknowledged owned howned
          (fun heq => hmoves (hacknowledged.trans heq.symm)) (hmowned ▸ hreply)
        refine ⟨answer, hanswer, hsender.trans ?_, ?_⟩
        · exact (congrArg ReceiptId.participantId hreceiptKey).symm
        · rw [hparent, hmowned, hkey]
    exact .tail (.single (.receipt hupdate)) (.event hid ⟨rfl, rfl, rfl⟩)

theorem readOne_writes {session : Session} {now : Timestamp} {done : List (Viewed × Receipt)}
    {item : Viewed × Receipt} {read : List (Viewed × Receipt)}
    (hid : session.workspaceId = w.workspaceId)
    (h : readOne session now (w, done) item = .ok (w', read)) : Writes w w' := by
  rw [readOne] at h
  split at h
  · cases h
    exact .refl
  · simp only [bind_eq_ok, pure_eq_ok, Prod.mk.injEq] at h
    obtain ⟨⟨_, _⟩, hdone, rfl, _⟩ := h
    exact advanceOwned_writes hid (fun heq => by cases heq) hdone

theorem readAll_writes {session : Session} {now : Timestamp} {items : List (Viewed × Receipt)}
    {done read : List (Viewed × Receipt)} (hid : session.workspaceId = w.workspaceId)
    (h : items.foldlM (readOne session now) (w, done) = .ok (w', read)) : Writes w w' := by
  induction items generalizing w done with
  | nil =>
      cases h
      exact .refl
  | cons item items ih =>
      simp only [List.foldlM_cons, bind_eq_ok] at h
      obtain ⟨⟨w₁, done₁⟩, hone, hrest⟩ := h
      have hw₁ := readOne_writes hid hone
      exact hw₁.trans (ih (hid.trans hw₁.workspaceId.symm) hrest)

theorem readInbox_writes {input : ReadInput} {read : List (Viewed × Receipt)} (hw : Homed w)
    (h : readInbox w ports input = .ok (w', read)) : Writes w w' := by
  simp only [readInbox, bind_eq_ok] at h
  obtain ⟨session, hsession, h⟩ := h
  have hid := hw.located (requireOpen_eq_ok hsession).1
  have h := Workspace.transaction_eq_ok h
  simp only [bind_eq_ok] at h
  obtain ⟨_, _, selected, _, h⟩ := h
  exact readAll_writes hid h

theorem acknowledgeMessage_writes {input : SettleInput} {receipt : Receipt} (hw : Homed w)
    (h : acknowledgeMessage w ports input = .ok (w', receipt)) : Writes w w' := by
  simp only [acknowledgeMessage, bind_eq_ok] at h
  obtain ⟨session, hsession, h⟩ := h
  have hid := hw.located (requireOpen_eq_ok hsession).1
  have h := Workspace.transaction_eq_ok h
  simp only [bind_eq_ok, pure_eq_ok, Prod.mk.injEq] at h
  obtain ⟨_, _, owned, howned, _, hsettles, ⟨_, _⟩, hdone, rfl, _⟩ := h
  refine advanceOwned_writes hid ?_ hdone
  intro _ owned' howned' hstate hreply
  rw [howned] at howned'
  cases howned'
  exact absurd ⟨hreply, hstate⟩ (refuse_eq_ok.mp hsettles)

theorem replyToMessage_writes {input : ReplyInput} {answer : Message × Receipt} (hw : Homed w)
    (h : replyToMessage w ports input = .ok (w', answer)) : Writes w w' := by
  simp only [replyToMessage, bind_eq_ok] at h
  obtain ⟨session, hsession, h⟩ := h
  have hid := hw.located (requireOpen_eq_ok hsession).1
  have h := Workspace.transaction_eq_ok h
  simp only [bind_eq_ok, pure_eq_ok, Prod.mk.injEq] at h
  obtain ⟨original, horiginal, ⟨w₁, recorded⟩, hrecorded, ⟨_, _⟩, hdone, rfl, _⟩ := h
  have hw₁ := recordMessage_writes hw hid hrecorded
  refine hw₁.trans (advanceOwned_writes (hid.trans hw₁.workspaceId.symm) ?_ hdone)
  intro _ _ _ _ _
  obtain ⟨hmem, hsender, hparent⟩ := recordMessage_answer hrecorded
  refine ⟨recorded.message, hmem, hsender, hparent.trans ?_⟩
  exact congrArg some (Keyed.key_of_get? (requireOwnedReceipt_eq_ok horiginal).1)

theorem requireReceipt_eq_ok {messageId participantId : Id} {found : Message × Receipt}
    (h : requireReceipt w messageId participantId = .ok found) :
    found.2 ∈ w.receipts ∧ found.2.receiptId = ⟨messageId, participantId⟩ := by
  rw [requireReceipt] at h
  split at h
  next receipt message hreceipt hmessage =>
    cases h
    exact Keyed.get?_eq_some.mp hreceipt
  next => cases h

theorem requireOfferableReceipt_eq_ok {input : OfferInput} {allow : Bool}
    {found : Message × Receipt} (h : requireOfferableReceipt w input allow = .ok found) :
    found.2 ∈ w.receipts ∧
      found.2.receiptId = ⟨input.messageId, input.recipientParticipantId⟩ := by
  simp only [requireOfferableReceipt, bind_eq_ok, pure_eq_ok] at h
  obtain ⟨_, hfound, _, _, rfl⟩ := h
  exact requireReceipt_eq_ok hfound

theorem offered_writes {now : Timestamp} {input : OfferInput} {target : Session}
    {receipt next : Receipt} {repeated : Bool} (hw : Homed w)
    (hnext : ReceiptUpdate w receipt next) :
    Writes w (offered w now input target next repeated) :=
  .tail (.single (.receipt hnext))
    (.event (hnext.workspaceId.trans (hw.receipts _ hnext.mem)) ⟨rfl, rfl, rfl⟩)

theorem recordOfferSucceeded_writes {input : OfferInput} {receipt : Receipt} (hw : Homed w)
    (h : recordOfferSucceeded w ports input = .ok (w', receipt)) : Writes w w' := by
  simp only [recordOfferSucceeded, bind_eq_ok] at h
  obtain ⟨_, _, h⟩ := h
  have h := Workspace.transaction_eq_ok h
  simp only [bind_eq_ok] at h
  obtain ⟨found, hfound, target, _, h⟩ := h
  have hmem := (requireOfferableReceipt_eq_ok hfound).1
  split at h
  · split at h
    next hdue =>
      simp only [pure_eq_ok, Prod.mk.injEq] at h
      rw [← h.1]
      have hoffered := dueForRepeat_state hdue
      refine offered_writes hw ⟨hmem, rfl, rfl, Or.inl rfl, ?_, Or.inl rfl, ?_⟩
      · rw [hoffered]
        decide
      · intro hacknowledged
        rw [hoffered] at hacknowledged
        cases hacknowledged
    · simp only [pure_eq_ok, Prod.mk.injEq] at h
      rw [← h.1]
  · split at h
    next hqueued =>
      simp only [pure_eq_ok, Prod.mk.injEq] at h
      rw [← h.1]
      refine offered_writes hw ⟨hmem, rfl, rfl, Or.inr ?_, by simp, Or.inl rfl, ?_⟩
      · rw [hqueued]
        exact List.mem_cons_self ..
      · intro hacknowledged
        cases hacknowledged
    next =>
      simp only [pure_eq_ok, Prod.mk.injEq] at h
      rw [← h.1]

theorem recordOfferFailed_writes {input : OfferInput} {safeErrorCode : String} (hw : Homed w)
    (h : recordOfferFailed w ports input safeErrorCode = .ok (w', ())) : Writes w w' := by
  simp only [recordOfferFailed, bind_eq_ok] at h
  obtain ⟨_, _, h⟩ := h
  have h := Workspace.transaction_eq_ok h
  simp only [bind_eq_ok, pure_eq_ok, Prod.mk.injEq] at h
  obtain ⟨found, hfound, target, _, rfl, _⟩ := h
  exact .single (.event (hw.receipts _ (requireOfferableReceipt_eq_ok hfound).1) ⟨rfl, rfl, rfl⟩)

end Acc.Core
