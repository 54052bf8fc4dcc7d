import AgentsCanCommunicate.Core.Run

/-!
# References across a prune

A pass that stopped at any point should leave no record that refers to one it
removed.  Four of the six references are kept by the order of the plan alone.
The two others are kept under a condition.  A claim keeps its owner unless
sessions are pruned and claims are not.  A receipt keeps its recipient unless
the participant has no session that stays and is named by no message that stays:
the recipients of a room message are named by its receipts only, and receipts
are not looked at.
-/

namespace Acc.Core

open Library (Table Keyed)

section

variable [LinearOrder ReceiptId]

/-- No record that stays refers to a record that was removed. -/
structure Intact (w : Workspace) (gone : List Entry) : Prop where
  receiptMessage : ∀ r ∈ (removeEntries w gone).receipts, .message r.messageId ∉ gone
  receiptRecipient : ∀ r ∈ (removeEntries w gone).receipts,
    .participant r.recipientParticipantId ∉ gone
  messageParticipants : ∀ m ∈ (removeEntries w gone).messages, ∀ i ∈ namedIn m,
    .participant i ∉ gone
  intentSession : ∀ i ∈ (removeEntries w gone).intents, .session i.sessionId ∉ gone
  claimOwner : ∀ c ∈ (removeEntries w gone).claims, .session c.ownerSessionId ∉ gone
  sessionParticipant : ∀ s ∈ (removeEntries w gone).sessions, .participant s.participantId ∉ gone

variable {w : Workspace} {ports : Ports} {input : PruneInput}

/-- A message is recorded up to the boundary, and nobody is still owed it. -/
def Settled (w : Workspace) (input : PruneInput) (messageId : Id) : Prop :=
  ∃ before, input.before = some before ∧
    messageId ∈ (readBelow w (input.workspaceId.getD w.workspaceId) before).messageIds ∧
    isResolved (envelopesFor w input) messageId = true

/-- A session is pruned. -/
def Stopped (w : Workspace) (ports : Ports) (input : PruneInput) (session : Session) : Prop :=
  input.wants .sessions = true ∧
    isStopped (envelopesFor w input) ports.now ports.pidIsAlive session = true

/-- What a prune refers to by records that it leaves. -/
structure Unreferenced (w : Workspace) (ports : Ports) (input : PruneInput) : Prop where
  /-- Unless claims are pruned too, no session that goes owns a claim. -/
  owners : input.wants .claims = false → ∀ s ∈ (envelopesFor w input).sessions,
    Stopped w ports input s → ∀ c ∈ w.claims, c.ownerSessionId ≠ s.sessionId
  /-- A participant without a session that stays and named by no message that
  stays is the recipient of no receipt whose message stays. -/
  recipients : input.wants .participants = true → ∀ p ∈ (envelopesFor w input).participants,
    (∀ s ∈ w.sessions, s.participantId = p.participantId → Stopped w ports input s) →
    (∀ m ∈ w.messages, p.participantId ∈ namedIn m → Settled w input m.messageId) →
    ∀ r ∈ w.receipts, r.recipientParticipantId = p.participantId → Settled w input r.messageId

theorem mem_plan_messages_iff_settled {m : Message} :
    m ∈ (planPrune w ports input).messages ↔
      m ∈ (envelopesFor w input).messages ∧ Settled w input m.messageId := by
  rw [mem_plan_messages, Settled]
  simp only [resolvedMessages, List.mem_filter, decide_eq_true_eq]
  constructor
  · intro ⟨before, hbefore, hm, hnamed, hresolved⟩
    exact ⟨hm, before, hbefore, hnamed, hresolved⟩
  · intro ⟨hm, before, hbefore, hnamed, hresolved⟩
    exact ⟨before, hbefore, hm, hnamed, hresolved⟩

theorem mem_plan_sessions_iff_stopped {s : Session} :
    s ∈ (planPrune w ports input).sessions ↔
      s ∈ (envelopesFor w input).sessions ∧ Stopped w ports input s := by
  rw [mem_plan_sessions, Stopped, eligibleSessions, List.mem_filter, and_left_comm]

theorem mem_plan_participants_iff (hw : Homed w) {p : Participant} :
    p ∈ (planPrune w ports input).participants ↔ input.wants .participants = true ∧
      p ∈ (envelopesFor w input).participants ∧
      (∀ s ∈ w.sessions, s.participantId = p.participantId → Stopped w ports input s) ∧
      ∀ m ∈ w.messages, p.participantId ∈ namedIn m → Settled w input m.messageId := by
  rw [mem_plan_participants, eligibleParticipants, List.mem_filter]
  refine and_congr_right fun hwants => and_congr_right fun hp => ?_
  have hscope : input.workspaceId.getD w.workspaceId = w.workspaceId := by
    obtain ⟨hmem, hid⟩ := List.mem_filter.mp hp
    exact (of_decide_eq_true hid).symm.trans (hw.participants p (Keyed.mem_list.mp hmem))
  have hsessions : ∀ s ∈ w.sessions, s ∈ (envelopesFor w input).sessions := by
    intro s hs
    rw [hw.envelopes hscope]
    exact Keyed.mem_list.mpr hs
  have hmessages : ∀ m ∈ w.messages, m ∈ (envelopesFor w input).messages := by
    intro m hm
    rw [hw.envelopes hscope]
    exact Keyed.mem_list.mpr hm
  simp only [decide_eq_true_eq]
  refine and_congr ?_ ?_
  · constructor
    · intro h s hs hparticipant
      by_contra hstays
      exact h s (hsessions s hs) (fun hgoes => hstays (mem_plan_sessions_iff_stopped.mp hgoes).2)
        hparticipant
    · intro h s hs hstays hparticipant
      have hmem : s ∈ w.sessions := Keyed.mem_list.mp (List.mem_filter.mp hs).1
      exact hstays (mem_plan_sessions_iff_stopped.mpr ⟨hs, h s hmem hparticipant⟩)
  · constructor
    · intro h m hm hnamed
      by_contra hstays
      refine h m (List.mem_filter.mpr ⟨hmessages m hm, ?_⟩) hnamed
      simpa using fun hgoes => hstays (mem_plan_messages_iff_settled.mp hgoes).2
    · intro h m hm hnamed
      obtain ⟨hmem, hstays⟩ := List.mem_filter.mp hm
      have hstored : m ∈ w.messages := Keyed.mem_list.mp (List.mem_filter.mp hmem).1
      have hgoes : m ∈ (planPrune w ports input).messages :=
        mem_plan_messages_iff_settled.mpr ⟨hmem, h m hstored hnamed⟩
      simp [hgoes] at hstays

/-- A pass keeps references at every prefix exactly if no record it leaves
refers to a record it removes along the two relations its plan does not look
at. -/
theorem prune_keeps_references (hreachable : Reachable w) :
    (∀ n, Intact w (gone w ports input n)) ↔ Unreferenced w ports input := by
  have hw := hreachable.homed
  constructor
  · intro h
    -- The whole plan is a prefix.
    have hall : Intact w (planPrune w ports input).entries := by
      have := h (planPrune w ports input).entries.length
      rwa [gone, List.take_length] at this
    constructor
    · intro hclaims s hs hstopped c hc howner
      refine hall.claimOwner c (mem_claims_removeEntries.mpr ⟨hc, ?_⟩) ?_
      · intro hgone
        obtain ⟨c', hc', -⟩ := claim_mem_entries.mp hgone
        rw [(mem_plan_claims.mp hc').1] at hclaims
        cases hclaims
      · exact session_mem_entries.mpr
          ⟨s, mem_plan_sessions_iff_stopped.mpr ⟨hs, hstopped⟩, howner.symm⟩
    · intro hwants p hp hsessions hmessages r hr hrecipient
      have hplan : p ∈ (planPrune w ports input).participants :=
        (mem_plan_participants_iff hw).mpr ⟨hwants, hp, hsessions, hmessages⟩
      have hgone : .receipt r.receiptId ∈ (planPrune w ports input).entries := by
        by_contra hstays
        exact hall.receiptRecipient r (mem_receipts_removeEntries.mpr ⟨hr, hstays⟩)
          (participant_mem_entries.mpr ⟨p, hplan, hrecipient.symm⟩)
      obtain ⟨r', hr', hid⟩ := receipt_mem_entries.mp hgone
      obtain ⟨-, m, hm, hmessage⟩ := mem_plan_receipts.mp hr'
      have hsame : r'.messageId = r.messageId := congrArg ReceiptId.messageId hid
      rw [← hsame, ← hmessage]
      exact (mem_plan_messages_iff_settled.mp hm).2
  · intro h n
    constructor
    · intro r hr hgone
      obtain ⟨hr, hstays⟩ := mem_receipts_removeEntries.mp hr
      exact hstays (receipt_gone hw hr hgone)
    · intro r hr hgone
      obtain ⟨hr, hstays⟩ := mem_receipts_removeEntries.mp hr
      obtain ⟨p, hp, hid⟩ := participant_mem_entries.mp (mem_entries_of_gone hgone)
      obtain ⟨hwants, hmem, hsessions, hmessages⟩ := (mem_plan_participants_iff hw).mp hp
      have hsettled := h.recipients hwants p hmem hsessions hmessages r hr hid.symm
      -- The message of the receipt goes, so the receipt goes before it.
      obtain ⟨m, hm, hmessage⟩ := hreachable.linked.message r hr
      have hscope := (hw.of_plan_participant hp).2
      have hplan : r ∈ (planPrune w ports input).receipts := by
        refine mem_plan_receipts.mpr ⟨?_, m, mem_plan_messages_iff_settled.mpr ⟨?_, ?_⟩, hmessage⟩
        · rw [hw.envelopes hscope]
          exact Keyed.mem_list.mpr hr
        · rw [hw.envelopes hscope]
          exact Keyed.mem_list.mpr hm
        · rw [hmessage]
          exact hsettled
      exact hstays (PrunePlan.before hgone (receipt_mem_entries.mpr ⟨r, hplan, rfl⟩)
        (by simp [Entry.rank]))
    · intro m hm i hi hgone
      obtain ⟨hm, hstays⟩ := mem_messages_removeEntries.mp hm
      exact hstays (message_gone hw hm hi hgone)
    · intro i hi hgone
      obtain ⟨hi, hstays⟩ := mem_intents_removeEntries.mp hi
      exact hstays (intent_gone hw hi hgone)
    · intro c hc hgone
      obtain ⟨hc, hstays⟩ := mem_claims_removeEntries.mp hc
      cases hclaims : input.wants .claims with
      | true => exact hstays (claim_gone hw hc hclaims hgone)
      | false =>
          obtain ⟨s, hs, hid⟩ := session_mem_entries.mp (mem_entries_of_gone hgone)
          obtain ⟨hmem, hstopped⟩ := mem_plan_sessions_iff_stopped.mp hs
          exact h.owners hclaims s hmem hstopped c hc hid.symm
    · intro s hs hgone
      obtain ⟨hs, hstays⟩ := mem_sessions_removeEntries.mp hs
      exact hstays (session_gone hw hs hgone)

end

/-! ## A room message -/

/-- Two sessions open, the first says something to the room, and both close. -/
def sampleRoomCalls : List (Ports × Call) :=
  [ (samplePorts 0 (sampleId "generation_a"),
      .openSession (sampleOpen (sampleId "session_a") (sampleId "ann") "claude")),
    (samplePorts 10 (sampleId "generation_b"),
      .openSession (sampleOpen (sampleId "session_b") (sampleId "bob") "codex")),
    (samplePorts 20 (sampleId "message_1"),
      .sendMessage ⟨sampleId "session_a", none, sampleId "generation_a",
        sampleMessage (sampleId "client_1") [] .note .none, none⟩),
    (samplePorts 30 (sampleId "unused"),
      .closeSession (sampleId "session_a") none (sampleId "generation_a") none),
    (samplePorts 40 (sampleId "unused"),
      .closeSession (sampleId "session_b") none (sampleId "generation_b") none)]

theorem sampleRoom_runs :
    ((Workspace.initial (sampleId "workspace_1")).calls sampleRoomCalls).toOption.isSome =
      true := by decide +kernel

def sampleRoom : Workspace :=
  ((Workspace.initial (sampleId "workspace_1")).calls sampleRoomCalls).toOption.get
    sampleRoom_runs

theorem sampleRoom_reachable : Reachable sampleRoom :=
  (Reachable.initial _).calls (eq_ok_get sampleRoom_runs)

theorem prune_keeps_references_room :
    Reachable sampleRoom ∧
      ((∀ n, Intact sampleRoom
          (gone sampleRoom (samplePorts 50 ⟨"unused", by decide⟩) ⟨some [.sessions], none, none⟩ n)) ↔
        Unreferenced sampleRoom (samplePorts 50 ⟨"unused", by decide⟩)
          ⟨some [.sessions], none, none⟩) :=
  ⟨sampleRoom_reachable, prune_keeps_references sampleRoom_reachable⟩

/-- The second session is the recipient of a room message that stays, and goes. -/
theorem prune_breaks_reference :
    ¬∀ w, Reachable w → ∀ ports input n, Intact w (gone w ports input n) := by
  intro h
  have hintact := h sampleRoom sampleRoom_reachable (samplePorts 50 ⟨"unused", by decide⟩)
    ⟨none, none, none⟩ 100
  have hbroken : ∃ r ∈ (removeEntries sampleRoom (gone sampleRoom
      (samplePorts 50 ⟨"unused", by decide⟩) ⟨none, none, none⟩ 100)).receipts.list,
      .participant r.recipientParticipantId ∈ gone sampleRoom
        (samplePorts 50 ⟨"unused", by decide⟩) ⟨none, none, none⟩ 100 := by decide +kernel
  obtain ⟨r, hr, hgone⟩ := hbroken
  exact hintact.receiptRecipient r (Keyed.mem_list.mp hr) hgone

end Acc.Core
