import AgentsCanCommunicate.Core.Changes
import AgentsCanCommunicate.Core.Prune

/-!
# A prefix of a plan

A plan names kinds of records in an order, so a pass that stopped somewhere has
removed every record of an earlier kind before one of a later kind (`before`).
With that, what removing a record asks of the records that name it holds at
every prefix: a receipt goes before its message, what names a participant goes
before the participant, an intent goes before its session.
-/

namespace Acc.Core

open Library (Table Keyed)

/-! ## The order of a plan -/

/-- The place of a kind in a plan. -/
def Entry.rank : Entry → Nat
  | .receipt _ => 0
  | .message _ => 1
  | .intent _ => 2
  | .claim _ => 3
  | .session _ => 4
  | .participant _ => 5

/-- A prefix that has an item has everything that must come before it. -/
theorem mem_take_of_before {α : Type} {r : α → α → Prop} {items : List α} {n : Nat} {a b : α}
    (hsorted : items.Pairwise fun x y => ¬r y x) (ha : a ∈ items.take n) (hb : b ∈ items)
    (hbefore : r b a) : b ∈ items.take n := by
  rw [← List.take_append_drop n items] at hb hsorted
  rcases List.mem_append.mp hb with hb | hb
  · exact hb
  · exact absurd hbefore ((List.pairwise_append.mp hsorted).2.2 a ha b hb)

/-- In a list whose ranks never go down, a prefix that has an item has
everything of a lower rank. -/
theorem mem_take_of_rank_lt {α : Type} {rank : α → Nat} {items : List α} {n : Nat} {a b : α}
    (hsorted : items.Pairwise fun x y => rank x ≤ rank y) (ha : a ∈ items.take n)
    (hb : b ∈ items) (hlt : rank b < rank a) : b ∈ items.take n :=
  mem_take_of_before (hsorted.imp not_lt.mpr) ha hb hlt

section

variable {plan : PrunePlan} {n : Nat}

theorem rank_entries : plan.entries.Pairwise fun x y => x.rank ≤ y.rank := by
  simp only [PrunePlan.entries, List.pairwise_append, List.pairwise_map, List.mem_append,
    List.mem_map]
  refine ⟨⟨⟨⟨⟨?_, ?_, ?_⟩, ?_, ?_⟩, ?_, ?_⟩, ?_, ?_⟩, ?_, ?_⟩
  all_goals first
    | exact List.pairwise_of_forall fun _ _ => le_rfl
    | grind [Entry.rank]

/-- What a prefix removed of a kind, it removed after all of the kinds before. -/
theorem PrunePlan.before {e e' : Entry} (he : e ∈ plan.entries.take n) (he' : e' ∈ plan.entries)
    (hlt : e'.rank < e.rank) : e' ∈ plan.entries.take n :=
  mem_take_of_rank_lt rank_entries he he' hlt

@[simp] theorem receipt_mem_entries {i : ReceiptId} :
    .receipt i ∈ plan.entries ↔ ∃ r ∈ plan.receipts, r.receiptId = i := by
  simp [PrunePlan.entries]

@[simp] theorem message_mem_entries {i : Id} :
    .message i ∈ plan.entries ↔ ∃ r ∈ plan.messages, r.messageId = i := by
  simp [PrunePlan.entries]

@[simp] theorem intent_mem_entries {i : Id} :
    .intent i ∈ plan.entries ↔ ∃ r ∈ plan.intents, r.sessionId = i := by
  simp [PrunePlan.entries]

@[simp] theorem claim_mem_entries {i : Id} :
    .claim i ∈ plan.entries ↔ ∃ r ∈ plan.claims, r.claimId = i := by
  simp [PrunePlan.entries]

@[simp] theorem session_mem_entries {i : Id} :
    .session i ∈ plan.entries ↔ ∃ r ∈ plan.sessions, r.sessionId = i := by
  simp [PrunePlan.entries]

@[simp] theorem participant_mem_entries {i : Id} :
    .participant i ∈ plan.entries ↔ ∃ r ∈ plan.participants, r.participantId = i := by
  simp [PrunePlan.entries]

end

/-! ## What a plan names -/

section

variable [LinearOrder ReceiptId] {w : Workspace} {ports : Ports} {input : PruneInput}

/-- The records a plan is made over. -/
abbrev envelopesFor (w : Workspace) (input : PruneInput) : Envelopes :=
  stateEnvelopes w (input.workspaceId.getD w.workspaceId)

/-- The messages that stay. -/
def survivingMessages (w : Workspace) (ports : Ports) (input : PruneInput) : List Message :=
  (envelopesFor w input).messages.filter fun m => m ∉ (planPrune w ports input).messages

theorem mem_plan_messages {m : Message} :
    m ∈ (planPrune w ports input).messages ↔ ∃ before, input.before = some before ∧
      m ∈ resolvedMessages (envelopesFor w input)
        (readBelow w (input.workspaceId.getD w.workspaceId) before).messageIds := by
  cases hbefore : input.before <;> simp [planPrune, hbefore]

theorem mem_plan_receipts {r : Receipt} :
    r ∈ (planPrune w ports input).receipts ↔ r ∈ (envelopesFor w input).receipts ∧
      ∃ m ∈ (planPrune w ports input).messages, m.messageId = r.messageId := by
  simp [planPrune]

theorem mem_plan_sessions {s : Session} :
    s ∈ (planPrune w ports input).sessions ↔ input.wants .sessions = true ∧
      s ∈ eligibleSessions (envelopesFor w input) ports.now ports.pidIsAlive := by
  cases hsessions : input.wants .sessions <;> simp [planPrune, hsessions]

/-- A session that goes takes its intent along. -/
theorem mem_plan_intents {i : Intent} {s : Session}
    (hs : s ∈ (planPrune w ports input).sessions) (hi : i ∈ (envelopesFor w input).intents)
    (hsession : s.sessionId = i.sessionId) : i ∈ (planPrune w ports input).intents := by
  obtain ⟨hsessions, heligible⟩ := mem_plan_sessions.mp hs
  simp only [planPrune, hsessions, Bool.true_or, if_true]
  refine List.mem_filter.mpr ⟨hi, ?_⟩
  simp only [ite_self, List.mem_map, decide_eq_true_eq]
  exact ⟨s, heligible, hsession⟩

theorem mem_plan_claims {c : Claim} :
    c ∈ (planPrune w ports input).claims ↔ input.wants .claims = true ∧
      c ∈ (envelopesFor w input).claims ∧ hasExpired c ports.now = true := by
  cases hclaims : input.wants .claims <;> simp [planPrune, hclaims]

theorem mem_plan_participants {p : Participant} :
    p ∈ (planPrune w ports input).participants ↔ input.wants .participants = true ∧
      p ∈ eligibleParticipants (envelopesFor w input) (planPrune w ports input).sessions
        (survivingMessages w ports input) := by
  cases hparticipants : input.wants .participants
  · simp [planPrune, hparticipants]
  · simp [planPrune, hparticipants, survivingMessages]

/-- A plan that names anything is made over the whole store. -/
theorem Homed.envelopes (hw : Homed w)
    (hid : input.workspaceId.getD w.workspaceId = w.workspaceId) :
    envelopesFor w input = ⟨w.participants.list, w.sessions.list, w.intents.list, w.claims.list,
      w.messages.list, w.receipts.list⟩ := by
  rw [envelopesFor, hid, stateEnvelopes]
  congr 1 <;> refine List.filter_eq_self.mpr fun r hr => ?_
  · simpa using hw.participants r (Keyed.mem_list.mp hr)
  · simpa using hw.sessions r (Keyed.mem_list.mp hr)
  · simpa using hw.intents r (Keyed.mem_list.mp hr)
  · simpa using hw.claims r (Keyed.mem_list.mp hr)
  · simpa using hw.messages r (Keyed.mem_list.mp hr)
  · simpa using hw.receipts r (Keyed.mem_list.mp hr)

theorem Homed.of_plan_message (hw : Homed w) {m : Message}
    (hm : m ∈ (planPrune w ports input).messages) :
    m ∈ w.messages ∧ input.workspaceId.getD w.workspaceId = w.workspaceId := by
  obtain ⟨before, -, hm⟩ := mem_plan_messages.mp hm
  have hm := (List.mem_filter.mp hm).1
  obtain ⟨hmem, hid⟩ := List.mem_filter.mp hm
  have hmem := Keyed.mem_list.mp hmem
  exact ⟨hmem, (of_decide_eq_true hid).symm.trans (hw.messages m hmem)⟩

theorem Homed.of_plan_session (hw : Homed w) {s : Session}
    (hs : s ∈ (planPrune w ports input).sessions) :
    s ∈ w.sessions ∧ input.workspaceId.getD w.workspaceId = w.workspaceId := by
  obtain ⟨-, hs⟩ := mem_plan_sessions.mp hs
  have hs := (List.mem_filter.mp hs).1
  obtain ⟨hmem, hid⟩ := List.mem_filter.mp hs
  have hmem := Keyed.mem_list.mp hmem
  exact ⟨hmem, (of_decide_eq_true hid).symm.trans (hw.sessions s hmem)⟩

theorem Homed.of_plan_participant (hw : Homed w) {p : Participant}
    (hp : p ∈ (planPrune w ports input).participants) :
    p ∈ w.participants ∧ input.workspaceId.getD w.workspaceId = w.workspaceId := by
  obtain ⟨-, hp⟩ := mem_plan_participants.mp hp
  have hp := (List.mem_filter.mp hp).1
  obtain ⟨hmem, hid⟩ := List.mem_filter.mp hp
  have hmem := Keyed.mem_list.mp hmem
  exact ⟨hmem, (of_decide_eq_true hid).symm.trans (hw.participants p hmem)⟩

end

/-! ## What a prefix leaves intact -/

section

variable [LinearOrder ReceiptId] {w : Workspace} {ports : Ports} {input : PruneInput} {n : Nat}

/-- What a pass that stopped after `n` entries removed. -/
abbrev gone (w : Workspace) (ports : Ports) (input : PruneInput) (n : Nat) : List Entry :=
  (planPrune w ports input).entries.take n

theorem mem_entries_of_gone {e : Entry} (h : e ∈ gone w ports input n) :
    e ∈ (planPrune w ports input).entries := List.mem_of_mem_take h

/-- The receipts of a message go before it. -/
theorem receipt_gone (hw : Homed w) {r : Receipt} (hr : r ∈ w.receipts)
    (h : .message r.messageId ∈ gone w ports input n) :
    .receipt r.receiptId ∈ gone w ports input n := by
  obtain ⟨m, hm, hid⟩ := message_mem_entries.mp (mem_entries_of_gone h)
  have hscope := (hw.of_plan_message hm).2
  have hplan : r ∈ (planPrune w ports input).receipts := by
    refine mem_plan_receipts.mpr ⟨?_, m, hm, hid⟩
    rw [hw.envelopes hscope]
    exact Keyed.mem_list.mpr hr
  exact PrunePlan.before h (receipt_mem_entries.mpr ⟨r, hplan, rfl⟩) (by simp [Entry.rank])

/-- A message goes before a participant it names. -/
theorem message_gone (hw : Homed w) {m : Message} (hm : m ∈ w.messages) {i : Id}
    (hi : i ∈ namedIn m) (h : .participant i ∈ gone w ports input n) :
    .message m.messageId ∈ gone w ports input n := by
  obtain ⟨p, hp, rfl⟩ := participant_mem_entries.mp (mem_entries_of_gone h)
  have hscope := (hw.of_plan_participant hp).2
  have heligible := (List.mem_filter.mp (mem_plan_participants.mp hp).2).2
  simp only [decide_eq_true_eq] at heligible
  have hplan : m ∈ (planPrune w ports input).messages := by
    by_contra hnot
    refine heligible.2 m (List.mem_filter.mpr ⟨?_, by simpa using hnot⟩) hi
    rw [hw.envelopes hscope]
    exact Keyed.mem_list.mpr hm
  exact PrunePlan.before h (message_mem_entries.mpr ⟨m, hplan, rfl⟩) (by simp [Entry.rank])

/-- An intent goes before its session. -/
theorem intent_gone (hw : Homed w) {i : Intent} (hi : i ∈ w.intents)
    (h : .session i.sessionId ∈ gone w ports input n) :
    .intent i.sessionId ∈ gone w ports input n := by
  obtain ⟨s, hs, hid⟩ := session_mem_entries.mp (mem_entries_of_gone h)
  have hscope := (hw.of_plan_session hs).2
  have hplan : i ∈ (planPrune w ports input).intents := by
    refine mem_plan_intents hs ?_ hid
    rw [hw.envelopes hscope]
    exact Keyed.mem_list.mpr hi
  exact PrunePlan.before h (intent_mem_entries.mpr ⟨i, hplan, rfl⟩) (by simp [Entry.rank])

/-- A claim that goes with its class goes before its session. -/
theorem claim_gone (hw : Homed w) {c : Claim} (hc : c ∈ w.claims)
    (hclaims : input.wants .claims = true)
    (h : .session c.ownerSessionId ∈ gone w ports input n) :
    .claim c.claimId ∈ gone w ports input n := by
  obtain ⟨s, hs, hid⟩ := session_mem_entries.mp (mem_entries_of_gone h)
  have hscope := (hw.of_plan_session hs).2
  have hmem : c ∈ (envelopesFor w input).claims := by
    rw [hw.envelopes hscope]
    exact Keyed.mem_list.mpr hc
  have hstopped := (List.mem_filter.mp (mem_plan_sessions.mp hs).2).2
  simp only [isStopped, Bool.and_eq_true, List.all_eq_true, Bool.or_eq_true] at hstopped
  -- A session that goes holds no live claim.
  have hexpired : hasExpired c ports.now = true := by
    rcases hstopped.1 c hmem with hexpired | hother
    · exact hexpired
    · simp [hid] at hother
  have hplan : c ∈ (planPrune w ports input).claims :=
    mem_plan_claims.mpr ⟨hclaims, hmem, hexpired⟩
  exact PrunePlan.before h (claim_mem_entries.mpr ⟨c, hplan, rfl⟩) (by simp [Entry.rank])

/-- A session goes before its participant. -/
theorem session_gone (hw : Homed w) {s : Session} (hs : s ∈ w.sessions)
    (h : .participant s.participantId ∈ gone w ports input n) :
    .session s.sessionId ∈ gone w ports input n := by
  obtain ⟨p, hp, hid⟩ := participant_mem_entries.mp (mem_entries_of_gone h)
  have hscope := (hw.of_plan_participant hp).2
  have heligible := (List.mem_filter.mp (mem_plan_participants.mp hp).2).2
  simp only [decide_eq_true_eq] at heligible
  have hplan : s ∈ (planPrune w ports input).sessions := by
    by_contra hnot
    refine heligible.1 s ?_ hnot hid.symm
    rw [hw.envelopes hscope]
    exact Keyed.mem_list.mpr hs
  exact PrunePlan.before h (session_mem_entries.mpr ⟨s, hplan, rfl⟩) (by simp [Entry.rank])

end

end Acc.Core
