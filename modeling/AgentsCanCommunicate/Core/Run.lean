import AgentsCanCommunicate.Core.PrunePrefix
import AgentsCanCommunicate.Library.Run

/-!
# Runs of the core

A run is made of calls and of applied prunes, in any order and with any clock.
A workspace may also hold receipts that an earlier version wrote, which lack the
extension that keeps the obligation, and a run may lose that extension from any
receipt at any moment.

A workspace is reachable when a run from an empty store leads to it.  Two things
hold of every reachable workspace: its records belong to it (`Homed`), and a
receipt has its message and, if it keeps an obligation, that of its message
(`Linked`).
-/

namespace Acc.Core

open Library (Table Keyed Run)

section

variable [LinearOrder ReceiptId]

/-! ## Calls -/

inductive Call where
  | openSession (input : OpenInput)
  | heartbeatSession (sessionId : Id) (workspaceId : Option Id) (generation : Id)
  | recordNotices (sessionId : Id) (workspaceId : Option Id) (generation : Id)
      (messageIds : List String)
  | resumeSession (sessionId : Id) (workspaceId : Option Id) (generation : Id)
      (metadata : ResumeInput)
  | closeSession (sessionId : Id) (workspaceId : Option Id) (generation : Id)
      (endReason : Option String)
  | setIntent (input : IntentInput)
  | clearIntent (sessionId : Id) (workspaceId : Option Id) (generation : Id)
  | acquireClaim (input : AcquireInput) (resource : String)
  | acquireClaims (input : AcquireInput) (resources : List String)
  | renewClaim (input : RenewInput)
  | releaseClaims (input : ReleaseInput) (selectors : Selectors)
  | releaseClaim (input : ReleaseInput) (claimId : Id)
  | forceReleaseClaim (input : ReleaseInput) (claimId : Id) (authority reason : Option String)
  | sendMessage (input : SendInput)
  | finishSession (input : FinishInput)
  | readInbox (input : ReadInput)
  | acknowledgeMessage (input : SettleInput)
  | replyToMessage (input : ReplyInput)
  | recordOfferSucceeded (input : OfferInput)
  | recordOfferFailed (input : OfferInput) (safeErrorCode : String)

/-- What a call leaves. -/
def Workspace.call (w : Workspace) (ports : Ports) : Call → Result Workspace
  | .openSession input => Prod.fst <$> Core.openSession w ports input
  | .heartbeatSession sessionId workspaceId generation =>
      Prod.fst <$> Core.heartbeatSession w ports sessionId workspaceId generation
  | .recordNotices sessionId workspaceId generation messageIds =>
      Prod.fst <$> Core.recordNotices w sessionId workspaceId generation messageIds
  | .resumeSession sessionId workspaceId generation metadata =>
      Prod.fst <$> Core.resumeSession w ports sessionId workspaceId generation metadata
  | .closeSession sessionId workspaceId generation endReason =>
      Prod.fst <$> Core.closeSession w ports sessionId workspaceId generation endReason
  | .setIntent input => Prod.fst <$> Core.setIntent w ports input
  | .clearIntent sessionId workspaceId generation =>
      Core.clearIntent w ports sessionId workspaceId generation
  | .acquireClaim input resource => Prod.fst <$> Core.acquireClaim w ports input resource
  | .acquireClaims input resources => Prod.fst <$> Core.acquireClaims w ports input resources
  | .renewClaim input => Prod.fst <$> Core.renewClaim w ports input
  | .releaseClaims input selectors => Prod.fst <$> Core.releaseClaims w ports input selectors
  | .releaseClaim input claimId => Prod.fst <$> Core.releaseClaim w ports input claimId
  | .forceReleaseClaim input claimId authority reason =>
      Prod.fst <$> Core.forceReleaseClaim w ports input claimId authority reason
  | .sendMessage input => Prod.fst <$> Core.sendMessage w ports input
  | .finishSession input => Prod.fst <$> Core.finishSession w ports input
  | .readInbox input => Prod.fst <$> Core.readInbox w ports input
  | .acknowledgeMessage input => Prod.fst <$> Core.acknowledgeMessage w ports input
  | .replyToMessage input => Prod.fst <$> Core.replyToMessage w ports input
  | .recordOfferSucceeded input => Prod.fst <$> Core.recordOfferSucceeded w ports input
  | .recordOfferFailed input safeErrorCode =>
      Prod.fst <$> Core.recordOfferFailed w ports input safeErrorCode

variable {w w' : Workspace} {ports : Ports}

/-- Every call is made of writes. -/
theorem call_writes {call : Call} (hw : Homed w) (h : w.call ports call = .ok w') :
    Writes w w' := by
  cases call <;> simp only [Workspace.call, map_eq_ok] at h
  case openSession =>
    obtain ⟨⟨_, _⟩, h, rfl⟩ := h
    exact openSession_writes hw h
  case heartbeatSession =>
    obtain ⟨⟨_, _⟩, h, rfl⟩ := h
    exact heartbeatSession_writes hw h
  case recordNotices =>
    obtain ⟨⟨_, _⟩, h, rfl⟩ := h
    exact recordNotices_writes hw h
  case resumeSession =>
    obtain ⟨⟨_, _⟩, h, rfl⟩ := h
    exact resumeSession_writes hw h
  case closeSession =>
    obtain ⟨⟨_, _⟩, h, rfl⟩ := h
    exact closeSession_writes hw h
  case setIntent =>
    obtain ⟨⟨_, _⟩, h, rfl⟩ := h
    exact setIntent_writes hw h
  case clearIntent => exact clearIntent_writes hw h
  case acquireClaim =>
    obtain ⟨⟨_, _⟩, h, rfl⟩ := h
    exact acquire_writes hw h
  case acquireClaims =>
    obtain ⟨⟨_, _⟩, h, rfl⟩ := h
    exact acquire_writes hw h
  case renewClaim =>
    obtain ⟨⟨_, _⟩, h, rfl⟩ := h
    exact renewClaim_writes hw h
  case releaseClaims =>
    obtain ⟨⟨_, _⟩, h, rfl⟩ := h
    simp only [Core.releaseClaims, bind_eq_ok] at h
    obtain ⟨_, _, h⟩ := h
    exact removeClaims_writes hw h
  case releaseClaim =>
    obtain ⟨⟨_, _⟩, h, rfl⟩ := h
    exact removeClaims_writes hw h
  case forceReleaseClaim =>
    obtain ⟨⟨_, _⟩, h, rfl⟩ := h
    exact removeClaims_writes hw h
  case sendMessage =>
    obtain ⟨⟨_, _⟩, h, rfl⟩ := h
    exact sendMessage_writes hw h
  case finishSession =>
    obtain ⟨⟨_, _⟩, h, rfl⟩ := h
    exact finishSession_writes hw h
  case readInbox =>
    obtain ⟨⟨_, _⟩, h, rfl⟩ := h
    exact readInbox_writes hw h
  case acknowledgeMessage =>
    obtain ⟨⟨_, _⟩, h, rfl⟩ := h
    exact acknowledgeMessage_writes hw h
  case replyToMessage =>
    obtain ⟨⟨_, _⟩, h, rfl⟩ := h
    exact replyToMessage_writes hw h
  case recordOfferSucceeded =>
    obtain ⟨⟨_, _⟩, h, rfl⟩ := h
    exact recordOfferSucceeded_writes hw h
  case recordOfferFailed =>
    obtain ⟨⟨_, _⟩, h, rfl⟩ := h
    exact recordOfferFailed_writes hw h

theorem call_changes {call : Call} (hw : Homed w) (h : w.call ports call = .ok w') :
    Changes w w' := (call_writes hw h).changes hw

/-! ## Runs -/

inductive Action where
  | call (ports : Ports) (call : Call)
  | prune (ports : Ports) (input : PruneInput) (budget : Budget)
  /-- A receipt turns out to be one of an earlier version. -/
  | earlier (receipt : Receipt)

inductive Step : Workspace → Action → Workspace → Prop where
  | call {w w' : Workspace} {ports : Ports} {call : Call} :
      w.call ports call = .ok w' → Step w (.call ports call) w'
  | prune {w : Workspace} {ports : Ports} {input : PruneInput} {budget : Budget} :
      Step w (.prune ports input budget) (prune w ports input budget).1
  | earlier {w : Workspace} {receipt : Receipt} :
      receipt ∈ w.receipts →
      Step w (.earlier receipt) (w.putReceipt { receipt with obligation := none })

/-- Calls, one after the other. -/
def Workspace.calls (w : Workspace) (calls : List (Ports × Call)) : Result Workspace :=
  calls.foldlM (fun w c => w.call c.1 c.2) w

/-- A run from an empty store leads to the workspace. -/
def Reachable (w : Workspace) : Prop :=
  ∃ workspaceId actions, Run Step (.initial workspaceId) actions w

/-! ## What a prune leaves -/

/-- A prune removes a prefix of its plan, and otherwise changes only the log. -/
theorem prune_eq {input : PruneInput} {budget : Budget} :
    ∃ n events floor, (prune w ports input budget).1 =
      { removeEntries w (gone w ports input n) with events, floor } := by
  have hreclaim : ∃ n, (reclaimStateRecords w (planPrune w ports input).entries budget).1 =
      removeEntries w (gone w ports input n) := by
    rw [reclaimStateRecords]
    split
    · exact ⟨0, rfl⟩
    · split
      · exact ⟨0, rfl⟩
      · exact ⟨_, rfl⟩
  obtain ⟨n, hn⟩ := hreclaim
  refine ⟨n, ?_⟩
  rw [prune]
  cases input.before with
  | none => exact ⟨_, _, hn⟩
  | some before =>
      dsimp only
      split
      next => exact ⟨_, _, hn⟩
      next trimmed htrim =>
        rw [trimEventLog] at htrim
        split at htrim
        · cases htrim
          exact ⟨_, _, hn⟩
        · simp only [bind_eq_ok, pure_eq_ok] at htrim
          obtain ⟨_, _, rfl⟩ := htrim
          dsimp only [removeEvents]
          rw [hn]
          exact ⟨_, _, rfl⟩

/-- Removing records leaves records of the workspace. -/
theorem Homed.removeEntries (hw : Homed w) (entries : List Entry) :
    Homed (Core.removeEntries w entries) := by
  constructor
  case ephemeral =>
    rw [removeEntries_ephemeral, removeEntries_workspaceId]
    exact hw.ephemeral
  all_goals
    intro r hr
    rw [removeEntries_workspaceId]
  · exact hw.participants r (mem_participants_removeEntries.mp hr).1
  · exact hw.sessions r (mem_sessions_removeEntries.mp hr).1
  · exact hw.intents r (mem_intents_removeEntries.mp hr).1
  · exact hw.claims r (mem_claims_removeEntries.mp hr).1
  · exact hw.messages r (mem_messages_removeEntries.mp hr).1
  · exact hw.receipts r (mem_receipts_removeEntries.mp hr).1

theorem Homed.prune (hw : Homed w) (ports : Ports) (input : PruneInput) (budget : Budget) :
    Homed (Core.prune w ports input budget).1 := by
  obtain ⟨n, events, floor, heq⟩ := @prune_eq _ w ports input budget
  rw [heq]
  exact { hw.removeEntries (gone w ports input n) with }

theorem Step.homed {action : Action} (h : Step w action w') (hw : Homed w) : Homed w' := by
  cases h with
  | call hcall => exact (call_changes hw hcall).homed hw
  | prune => exact hw.prune _ _ _
  | @earlier r hr =>
      refine { hw with receipts := ?_ }
      intro r' hr'
      rcases Keyed.mem_put.mp hr' with rfl | ⟨hr', -⟩
      · exact hw.receipts r hr
      · exact hw.receipts r' hr'

/-! ## Receipts and their messages -/

/-- A receipt has its message, and keeps no other obligation than its message's. -/
structure Linked (w : Workspace) : Prop where
  message : ∀ r ∈ w.receipts, ∃ m ∈ w.messages, m.messageId = r.messageId
  obligation : ∀ r ∈ w.receipts, ∀ m ∈ w.messages, m.messageId = r.messageId →
    r.obligation = none ∨ r.obligation = some m.obligation

theorem linked_initial (workspaceId : Id) : Linked (.initial workspaceId) := by
  constructor <;> intro r hr <;> exact absurd hr Keyed.mem_empty

/-- A new message is named by no receipt that was there. -/
theorem Linked.unnamed (h : Linked w) {m : Message} {recipients : List Id}
    (hm : NewMessage w m recipients) {r : Receipt} (hr : r ∈ w.receipts) : m.messageId ≠ r.messageId := by
  intro heq
  obtain ⟨m', hm', hid⟩ := h.message r hr
  exact Keyed.get?_eq_none.mp hm.fresh m' hm' (hid.trans heq.symm)

theorem Linked.recorded (h : Linked w) {m : Message} {recipients : List Id} {now : Timestamp}
    (hm : NewMessage w m recipients) : Linked (recordedMessage w m recipients now) := by
  have hnew : ∀ r ∈ recipients.map fun i => queuedReceipt m i now,
      r.messageId = m.messageId ∧ r.obligation = some m.obligation := by
    intro r hr
    obtain ⟨i, -, rfl⟩ := List.mem_map.mp hr
    exact ⟨rfl, rfl⟩
  constructor
  · intro r hr
    rcases Keyed.mem_putAll hr with hr | ⟨hr, -⟩
    · exact ⟨m, Keyed.mem_put.mpr (Or.inl rfl), (hnew r hr).1.symm⟩
    · obtain ⟨m', hm', hid⟩ := h.message r hr
      exact ⟨m', Keyed.mem_put.mpr (Or.inr ⟨hm', Keyed.get?_eq_none.mp hm.fresh m' hm'⟩), hid⟩
  · intro r hr m' hm' hid
    rcases Keyed.mem_putAll hr with hfiled | ⟨hold, -⟩
    · obtain ⟨hmessage, hobligation⟩ := hnew r hfiled
      rcases Keyed.mem_put.mp hm' with rfl | ⟨-, hne⟩
      · exact Or.inr hobligation
      · exact absurd (hid.trans hmessage) hne
    · rcases Keyed.mem_put.mp hm' with rfl | ⟨hm', -⟩
      · exact absurd hid (h.unnamed hm hold)
      · exact h.obligation r hold m' hm' hid

theorem Linked.updated (h : Linked w) {r r' : Receipt} (hr : ReceiptUpdate w r r') :
    Linked (w.putReceipt r') := by
  have hmessageId : r'.messageId = r.messageId := congrArg ReceiptId.messageId hr.receiptId
  constructor
  · intro s hs
    rcases Keyed.mem_put.mp hs with rfl | ⟨hs, -⟩
    · rw [hmessageId]
      exact h.message r hr.mem
    · exact h.message s hs
  · intro s hs m hm hid
    rcases Keyed.mem_put.mp hs with rfl | ⟨hs, -⟩
    · rcases hr.obligation with hsame | ⟨m', hm', hid', hgained⟩
      · rw [hsame]
        exact h.obligation r hr.mem m hm (hid.trans hmessageId)
      · rw [Keyed.eq_of_key hm hm' (hid.trans (hmessageId.trans hid'.symm))]
        exact Or.inr hgained
    · exact h.obligation s hs m hm hid

theorem Change.linked (h : Change w w') (hw : Linked w) : Linked w' := by
  cases h with
  | message hm => exact hw.recorded hm
  | receipt hr => exact hw.updated hr
  | _ => exact ⟨hw.message, hw.obligation⟩

theorem Changes.linked (h : Changes w w') (hw : Linked w) : Linked w' := by
  induction h with
  | refl => exact hw
  | tail _ hstep ih => exact hstep.linked ih

theorem Linked.prune (h : Linked w) (hw : Homed w) (ports : Ports) (input : PruneInput)
    (budget : Budget) : Linked (Core.prune w ports input budget).1 := by
  obtain ⟨n, events, floor, heq⟩ := @prune_eq _ w ports input budget
  rw [heq]
  constructor
  · intro r hr
    obtain ⟨hr, hstays⟩ := mem_receipts_removeEntries.mp hr
    obtain ⟨m, hm, hid⟩ := h.message r hr
    refine ⟨m, mem_messages_removeEntries.mpr ⟨hm, fun hgone => hstays ?_⟩, hid⟩
    exact receipt_gone hw hr (hid ▸ hgone)
  · intro r hr m hm hid
    exact h.obligation r (mem_receipts_removeEntries.mp hr).1 m
      (mem_messages_removeEntries.mp hm).1 hid

theorem Step.linked {action : Action} (h : Step w action w') (hhome : Homed w) (hw : Linked w) :
    Linked w' := by
  cases h with
  | call hcall => exact (call_changes hhome hcall).linked hw
  | prune => exact hw.prune hhome _ _ _
  | @earlier r hr =>
      constructor
      · intro s hs
        rcases Keyed.mem_put.mp hs with rfl | ⟨hs, -⟩
        · exact hw.message r hr
        · exact hw.message s hs
      · intro s hs m hm hid
        rcases Keyed.mem_put.mp hs with rfl | ⟨hs, -⟩
        · exact Or.inl rfl
        · exact hw.obligation s hs m hm hid

/-! ## Reachable workspaces -/

theorem Reachable.homed_linked (h : Reachable w) : Homed w ∧ Linked w := by
  obtain ⟨workspaceId, actions, hrun⟩ := h
  refine Run.invariant (I := fun w => Homed w ∧ Linked w) ?_ hrun
    ⟨homed_initial workspaceId, linked_initial workspaceId⟩
  intro s a t hs hstep
  exact ⟨hstep.homed hs.1, hstep.linked hs.1 hs.2⟩

theorem Reachable.homed (h : Reachable w) : Homed w := h.homed_linked.1

theorem Reachable.linked (h : Reachable w) : Linked w := h.homed_linked.2

theorem Reachable.initial (workspaceId : Id) : Reachable (.initial workspaceId) :=
  ⟨workspaceId, [], .nil _⟩

theorem Reachable.step {action : Action} (h : Reachable w) (hstep : Step w action w') :
    Reachable w' := by
  obtain ⟨workspaceId, actions, hrun⟩ := h
  exact ⟨workspaceId, _, hrun.snoc hstep⟩

theorem Reachable.call {call : Call} (h : Reachable w) (hcall : w.call ports call = .ok w') :
    Reachable w' := h.step (.call hcall)

theorem Reachable.calls {calls : List (Ports × Call)} (h : Reachable w)
    (hcalls : w.calls calls = .ok w') : Reachable w' := by
  induction calls generalizing w with
  | nil =>
      cases hcalls
      exact h
  | cons c calls ih =>
      simp only [Workspace.calls, List.foldlM_cons, bind_eq_ok] at hcalls
      obtain ⟨w₁, hw₁, hrest⟩ := hcalls
      exact ih (h.call hw₁) hrest

/-! ## Runs that remove nothing -/

def Action.isPrune : Action → Bool
  | .prune _ _ _ => true
  | _ => false

/-- A run in which nothing was pruned leads to the workspace. -/
def Unpruned (w : Workspace) : Prop :=
  ∃ workspaceId actions,
    Run (Library.Where Step fun _ action => action.isPrune = false) (.initial workspaceId) actions w

theorem Unpruned.reachable (h : Unpruned w) : Reachable w := by
  obtain ⟨workspaceId, actions, hrun⟩ := h
  exact ⟨workspaceId, actions, hrun.of_where⟩

theorem Unpruned.initial (workspaceId : Id) : Unpruned (.initial workspaceId) :=
  ⟨workspaceId, [], .nil _⟩

theorem Unpruned.call {call : Call} (h : Unpruned w) (hcall : w.call ports call = .ok w') :
    Unpruned w' := by
  obtain ⟨workspaceId, actions, hrun⟩ := h
  exact ⟨workspaceId, _, hrun.snoc ⟨rfl, .call hcall⟩⟩

theorem Unpruned.calls {calls : List (Ports × Call)} (h : Unpruned w)
    (hcalls : w.calls calls = .ok w') : Unpruned w' := by
  induction calls generalizing w with
  | nil =>
      cases hcalls
      exact h
  | cons c calls ih =>
      simp only [Workspace.calls, List.foldlM_cons, bind_eq_ok] at hcalls
      obtain ⟨w₁, hw₁, hrest⟩ := hcalls
      exact ih (h.call hw₁) hrest

/-- What every write keeps, and the loss of an obligation, a run keeps in which
nothing is pruned. -/
theorem unpruned_run {I : Workspace → Prop} {actions : List Action}
    (hwrite : ∀ w w', Homed w → Linked w → I w → Write w w' → I w')
    (hearlier : ∀ w r, r ∈ w.receipts → I w → I (w.putReceipt { r with obligation := none }))
    (hrun : Run (Library.Where Step fun _ action => action.isPrune = false) w actions w')
    (hhome : Homed w) (hlinked : Linked w) (hw : I w) : I w' := by
  have hall : Homed w' ∧ Linked w' ∧ I w' := by
    refine Run.invariant (I := fun w => Homed w ∧ Linked w ∧ I w) ?_ hrun ⟨hhome, hlinked, hw⟩
    intro s action t ⟨hhome, hlinked, hs⟩ ⟨hwrites, hstep⟩
    refine ⟨hstep.homed hhome, hstep.linked hhome hlinked, ?_⟩
    cases hstep with
    | call hcall =>
        have hcalled := call_writes hhome hcall
        clear hcall
        have hafter : Homed t ∧ Linked t ∧ I t := by
          induction hcalled with
          | refl => exact ⟨hhome, hlinked, hs⟩
          | tail _ hone ih =>
              exact ⟨(hone.changes ih.1).homed ih.1, (hone.changes ih.1).linked ih.2.1,
                hwrite _ _ ih.1 ih.2.1 ih.2.2 hone⟩
        exact hafter.2.2
    | prune => cases hwrites
    | earlier hr => exact hearlier _ _ hr hs
  exact hall.2.2

theorem Unpruned.write_invariant {I : Workspace → Prop} (hinitial : ∀ i, I (.initial i))
    (hwrite : ∀ w w', Homed w → Linked w → I w → Write w w' → I w')
    (hearlier : ∀ w r, r ∈ w.receipts → I w → I (w.putReceipt { r with obligation := none }))
    (h : Unpruned w) : I w := by
  obtain ⟨workspaceId, actions, hrun⟩ := h
  exact unpruned_run hwrite hearlier hrun (homed_initial workspaceId)
    (linked_initial workspaceId) (hinitial workspaceId)

/-- What every change keeps, and the loss of an obligation, holds wherever
nothing was pruned. -/
theorem Unpruned.invariant {I : Workspace → Prop} (hinitial : ∀ i, I (.initial i))
    (hchange : ∀ w w', Homed w → Linked w → I w → Change w w' → I w')
    (hearlier : ∀ w r, r ∈ w.receipts → I w → I (w.putReceipt { r with obligation := none }))
    (h : Unpruned w) : I w := by
  refine h.write_invariant hinitial ?_ hearlier
  intro w w' hhome hlinked hw hwrite
  have hchanges := hwrite.changes hhome
  have hafter : Homed w' ∧ Linked w' ∧ I w' := by
    clear hwrite
    induction hchanges with
    | refl => exact ⟨hhome, hlinked, hw⟩
    | tail _ hone ih =>
        exact ⟨hone.homed ih.1, hone.linked ih.2.1, hchange _ _ ih.1 ih.2.1 ih.2.2 hone⟩
  exact hafter.2.2

end

/-! ## A small message -/

/-- A message that says nothing but its fields. -/
def sampleMessage (clientMessageId : Id) (recipients : List String) (kind : MessageKind)
    (obligation : Obligation) : MessageInput where
  clientMessageId := clientMessageId
  toParticipantIds := recipients
  kind := kind
  obligation := obligation
  subject := "subject"
  body := "body"
  inReplyTo := none
  artifacts := []
  handoff := none
  supersedes := none
  withdraws := none
  decisionChange := none

/-- Two sessions open, and the first asks the second a question. -/
def sampleTalkCalls : List (Ports × Call) :=
  [ (samplePorts 0 (sampleId "generation_a"),
      .openSession (sampleOpen (sampleId "session_a") (sampleId "ann") "claude")),
    (samplePorts 10 (sampleId "generation_b"),
      .openSession (sampleOpen (sampleId "session_b") (sampleId "bob") "codex")),
    (samplePorts 20 (sampleId "message_1"),
      .sendMessage ⟨sampleId "session_a", none, sampleId "generation_a",
        sampleMessage (sampleId "client_1") ["bob"] .question .reply, none⟩)]

theorem sampleTalk_runs :
    ((Workspace.initial (sampleId "workspace_1")).calls sampleTalkCalls).toOption.isSome =
      true := by decide +kernel

def sampleTalk : Workspace :=
  ((Workspace.initial (sampleId "workspace_1")).calls sampleTalkCalls).toOption.get
    sampleTalk_runs

theorem sampleTalk_reachable : Reachable sampleTalk :=
  (Reachable.initial _).calls (eq_ok_get sampleTalk_runs)

end Acc.Core
