import AgentsCanCommunicate.Core.Claims
import AgentsCanCommunicate.Core.DecisionState

/-!
# Attention

What a session should act on now, computed from one reading of the workspace:
messages that wait for its answer, recipients of its requests that are away,
claims that stand against its intent, intents that stand against its claims,
claims of its own that have run out, and messages left for participants whose
sessions have all ended.

A reading has the durable records.  In a workspace that has not materialised the
sessions and intents are the ephemeral ones.
-/

namespace Acc.Core

open Library (Keyed)

/-! ## Items -/

inductive AttentionKind where
  | replyRequired | acknowledgementRequired | recipientUnavailable | claimConflict
  | claimContended | claimExpired | leftForEndedSession
deriving DecidableEq, Repr

def AttentionKind.word : AttentionKind → String
  | .replyRequired => "reply_required"
  | .acknowledgementRequired => "acknowledgement_required"
  | .recipientUnavailable => "recipient_unavailable"
  | .claimConflict => "claim_conflict"
  | .claimContended => "claim_contended"
  | .claimExpired => "claim_expired"
  | .leftForEndedSession => "left_for_ended_session"

/-- `ATTENTION_PRIORITY`. -/
def AttentionKind.priority : AttentionKind → Nat
  | .replyRequired => 1
  | .acknowledgementRequired => 2
  | .recipientUnavailable => 3
  | .claimConflict => 4
  | .claimContended => 5
  | .claimExpired => 6
  | .leftForEndedSession => 7

structure AttentionItem where
  kind : AttentionKind
  sourceId : Id
  summary : String
deriving DecidableEq

/-- Seven days. -/
def leftMessageWindowMs : Int := 7 * 24 * 60 * 60000

def leftMessageLimit : Nat := 5

/-- One reading of the workspace. -/
structure Snapshot where
  sessions : List Session
  intents : List Intent
  claims : List Claim
  messages : List Message
  receipts : List Receipt

/-- For whom attention is computed, and when. -/
structure Viewer where
  session : Option Session
  participantId : Option Id
  now : Timestamp
  pidIsAlive : Nat → Bool

/-! ## Messages -/

/-- The kind of attention a message with an obligation asks for. -/
def obligationKind : Obligation → Option (AttentionKind × String)
  | .reply => some (.replyRequired, "a reply")
  | .acknowledge => some (.acknowledgementRequired, "acknowledgement")
  | .none => none

def obligationItems (snapshot : Snapshot) (viewer : Viewer) : List AttentionItem :=
  snapshot.receipts.filterMap fun receipt =>
    if viewer.participantId ≠ some receipt.recipientParticipantId
        ∨ receipt.state = .acknowledged then none
    else do
      let message ← snapshot.messages.find? fun m => m.messageId = receipt.messageId
      let asked ← obligationKind message.obligation
      some ⟨asked.1, message.messageId,
        s!"message {message.messageId.val} from {message.fromParticipantId.val} is a "
          ++ s!"{message.kind.word} requiring {asked.2}"⟩

/-- The participants with a session of which `test` says it counts. -/
def presentParticipants (snapshot : Snapshot) (viewer : Viewer) (test : Presence → Bool) :
    List Id :=
  (snapshot.sessions.filter fun s =>
    test (classifySessionPresence s viewer.now viewer.pidIsAlive)).map Session.participantId

def unavailableRecipients (snapshot : Snapshot) (viewer : Viewer) : List AttentionItem :=
  let online := presentParticipants snapshot viewer fun p => p = .online
  let asking := snapshot.messages.filter fun m => viewer.participantId = some m.fromParticipantId
    ∧ m.toParticipantIds.length ≠ 0 ∧ m.obligation ≠ .none
  asking.flatMap fun m =>
    (snapshot.receipts.filter fun r => r.messageId = m.messageId ∧ r.state ≠ .acknowledged
      ∧ r.recipientParticipantId ∉ online).map fun r =>
      ⟨.recipientUnavailable, m.messageId,
        s!"{m.subject} - {r.recipientParticipantId.val} is unavailable"⟩

/-! ## Messages left for ended sessions -/

/-- The left messages that the viewer or another session of its participant was
told about. -/
def noticedLeft (snapshot : Snapshot) (viewer : Viewer) : List String :=
  (viewer.session.toList ++ snapshot.sessions.filter fun s =>
    viewer.participantId = some s.participantId).flatMap Session.noticedLeftMessages

/-- The recipients without a session for whom a message still waits. -/
def waitingFor (snapshot : Snapshot) (viewer : Viewer) (messageId : Id) : List Id :=
  let present := presentParticipants snapshot viewer fun p => p ≠ .offline
  (snapshot.receipts.filter fun r => r.messageId = messageId
    ∧ (r.state = .queued ∨ r.state = .offered) ∧ r.recipientParticipantId ∉ present).map
    Receipt.recipientParticipantId

/-- A message that waits for participants who have gone, and is neither from nor
for the viewer. -/
def qualifies (snapshot : Snapshot) (viewer : Viewer) (m : Message) : Bool :=
  decide (waitingFor snapshot viewer m.messageId ≠ [] ∧ m.toParticipantIds ≠ []
    ∧ viewer.participantId ≠ some m.fromParticipantId
    ∧ (∀ i, viewer.participantId = some i → i ∉ m.toParticipantIds)
    ∧ viewer.now - m.sentAt < leftMessageWindowMs)

/-- The newest messages that qualify. -/
def newestLeft (snapshot : Snapshot) (viewer : Viewer) : List Message :=
  ((snapshot.messages.filter (qualifies snapshot viewer)).insertionSort
    fun left right => right.sentAt ≤ left.sentAt).take leftMessageLimit

def leftItem (snapshot : Snapshot) (viewer : Viewer) (m : Message) : AttentionItem where
  kind := .leftForEndedSession
  sourceId := m.messageId
  summary :=
    let waiting := String.intercalate ", " ((waitingFor snapshot viewer m.messageId).map Id.val)
    s!"{m.kind.word} from {m.fromParticipantId.val} waiting for {waiting}, whose sessions "
      ++ s!"have ended; read it with `acc sync --scope history --message {m.messageId.val}`"

/-- The newest are chosen before those already told are dropped. -/
def leftForEndedSessions (snapshot : Snapshot) (viewer : Viewer) : List AttentionItem :=
  ((newestLeft snapshot viewer).filter fun m =>
    m.messageId.val ∉ noticedLeft snapshot viewer).map (leftItem snapshot viewer)

/-! ## Claims and intents -/

def isCurrentIntent (intent : Intent) : Bool := intent.state ≠ .done

def expiredClaims (snapshot : Snapshot) (viewer : Viewer) : List AttentionItem :=
  match viewer.session with
  | none => []
  | some session =>
      (snapshot.claims.filter fun c => c.ownerSessionId = session.sessionId
        ∧ c.expiresAt ≤ viewer.now).map fun c =>
        ⟨.claimExpired, c.claimId,
          s!"{c.resource} - your claim has run out, and peers can write to it"⟩

/-- The intent that the viewer's session states and has not finished. -/
def ownIntent (snapshot : Snapshot) (session : Session) : Option Intent :=
  snapshot.intents.find? fun i => i.sessionId = session.sessionId ∧ isCurrentIntent i = true

def claimConflicts (snapshot : Snapshot) (viewer : Viewer) : List AttentionItem :=
  match viewer.session with
  | none => []
  | some session =>
      match ownIntent snapshot session with
      | none => []
      | some mine =>
          (snapshot.claims.filter fun c => c.ownerSessionId ≠ session.sessionId
            ∧ isLive c viewer.now = true
            ∧ (mine.resourceHints.any fun hint => overlaps hint c.resource) = true).map fun c =>
            ⟨.claimConflict, c.claimId,
              s!"{c.resource} is claimed by {c.ownerSessionId.val}"⟩

def claimContended (snapshot : Snapshot) (viewer : Viewer) : List AttentionItem :=
  match viewer.session with
  | none => []
  | some session =>
      let peerIntents := snapshot.intents.filter fun i =>
        i.sessionId ≠ session.sessionId ∧ isCurrentIntent i = true
      (snapshot.claims.filter fun c => c.ownerSessionId = session.sessionId
        ∧ isLive c viewer.now = true).flatMap fun c =>
        match peerIntents.find? fun i => i.resourceHints.any fun hint =>
            overlaps hint c.resource with
        | none => []
        | some peer =>
            let participant := ((snapshot.sessions.find? fun s => s.sessionId = peer.sessionId).map
              fun s => s.participantId.val).getD "a peer"
            [⟨.claimContended, c.claimId,
              s!"{c.resource} - {participant} means to work on what you hold"⟩]

/-! ## The whole -/

/-- The reading without the decisions that no longer stand. -/
def Snapshot.current (snapshot : Snapshot) : Snapshot :=
  { snapshot with
    messages := snapshot.messages.filter fun m =>
      isCurrentDecision (decisionView snapshot.messages m) }

/-- By priority, and then by source. -/
def attentionOrder (left right : AttentionItem) : Prop :=
  left.kind.priority < right.kind.priority ∨ (left.kind.priority = right.kind.priority
    ∧ left.sourceId.localeKey ≤ right.sourceId.localeKey)

instance : DecidableRel attentionOrder := fun _ _ => inferInstanceAs (Decidable (_ ∨ _))

def computeAttention (snapshot : Snapshot) (viewer : Viewer) : List AttentionItem :=
  let snapshot := snapshot.current
  (obligationItems snapshot viewer ++ unavailableRecipients snapshot viewer
    ++ claimConflicts snapshot viewer ++ claimContended snapshot viewer
    ++ expiredClaims snapshot viewer ++ leftForEndedSessions snapshot viewer).insertionSort
    attentionOrder

section

variable [LinearOrder ReceiptId]

/-- What `sync` reads. -/
def snapshotOf (w : Workspace) : Snapshot where
  sessions := if isMaterialised w w.workspaceId then w.sessions.list else w.ephemeral.sessions.list
  intents := if isMaterialised w w.workspaceId then w.intents.list else w.ephemeral.intents.list
  claims := w.claims.list
  messages := w.messages.list
  receipts := w.receipts.list

/-- The viewer of a session's turn. -/
def viewerOf (w : Workspace) (sessionId : Id) (now : Timestamp) (pidIsAlive : Nat → Bool) :
    Viewer :=
  let session := locateSession w sessionId none
  ⟨session, session.map Session.participantId, now, pidIsAlive⟩

/-- The attention of a session's turn. -/
def turnAttention (w : Workspace) (sessionId : Id) (now : Timestamp) (pidIsAlive : Nat → Bool) :
    List AttentionItem :=
  computeAttention (snapshotOf w) (viewerOf w sessionId now pidIsAlive)

end

/-! ## Left messages among the items -/

variable {snapshot : Snapshot} {viewer : Viewer}

/-- The kinds of attention that a message with an obligation asks for. -/
def isObligation (item : AttentionItem) : Bool :=
  item.kind = .replyRequired || item.kind = .acknowledgementRequired

section

variable {item : AttentionItem}

theorem obligationItems_kind (h : item ∈ obligationItems snapshot viewer) :
    isObligation item = true := by
  simp only [obligationItems, List.mem_filterMap] at h
  obtain ⟨receipt, _, h⟩ := h
  split at h
  next => cases h
  next =>
    simp only [Option.bind_eq_bind, Option.bind_eq_some_iff] at h
    obtain ⟨message, _, asked, hasked, h⟩ := h
    cases h
    cases hobligation : message.obligation <;> rw [hobligation] at hasked <;> cases hasked <;> rfl

theorem unavailableRecipients_kind (h : item ∈ unavailableRecipients snapshot viewer) :
    item.kind = .recipientUnavailable := by
  simp only [unavailableRecipients, List.mem_flatMap, List.mem_map] at h
  obtain ⟨_, _, _, _, rfl⟩ := h
  rfl

theorem claimConflicts_kind (h : item ∈ claimConflicts snapshot viewer) :
    item.kind = .claimConflict := by
  rw [claimConflicts] at h
  split at h
  next => cases h
  next =>
    split at h
    next => cases h
    next =>
      simp only [List.mem_map] at h
      obtain ⟨_, _, rfl⟩ := h
      rfl

theorem claimContended_kind (h : item ∈ claimContended snapshot viewer) :
    item.kind = .claimContended := by
  rw [claimContended] at h
  split at h
  next => cases h
  next =>
    simp only [List.mem_flatMap] at h
    obtain ⟨_, _, h⟩ := h
    split at h
    next => cases h
    next =>
      rw [List.mem_singleton] at h
      rw [h]

theorem expiredClaims_kind (h : item ∈ expiredClaims snapshot viewer) :
    item.kind = .claimExpired := by
  rw [expiredClaims] at h
  split at h
  next => cases h
  next =>
    simp only [List.mem_map] at h
    obtain ⟨_, _, rfl⟩ := h
    rfl

theorem leftForEndedSessions_kind (h : item ∈ leftForEndedSessions snapshot viewer) :
    item.kind = .leftForEndedSession := by
  obtain ⟨m, -, rfl⟩ := List.mem_map.mp h
  rfl

/-- Nothing else is reported as a left message. -/
theorem kind_ne_left
    (h : item ∈ obligationItems snapshot viewer ++ unavailableRecipients snapshot viewer
      ++ claimConflicts snapshot viewer ++ claimContended snapshot viewer
      ++ expiredClaims snapshot viewer) : item.kind ≠ .leftForEndedSession := by
  simp only [List.mem_append] at h
  rcases h with (((h | h) | h) | h) | h
  · intro hleft
    have hkind := obligationItems_kind h
    rw [isObligation, hleft] at hkind
    cases hkind
  · simp [unavailableRecipients_kind h]
  · simp [claimConflicts_kind h]
  · simp [claimContended_kind h]
  · simp [expiredClaims_kind h]

/-- Nothing else is reported as an obligation. -/
theorem mem_attention (hask : isObligation item = true) :
    item ∈ computeAttention snapshot viewer ↔ item ∈ obligationItems snapshot.current viewer := by
  have hother : ∀ kind, item.kind = kind → kind ≠ .replyRequired →
      kind ≠ .acknowledgementRequired → False := by
    rintro kind rfl hreply hack
    simp [isObligation, hreply, hack] at hask
  rw [computeAttention, (List.perm_insertionSort _ _).mem_iff]
  simp only [List.mem_append]
  constructor
  · rintro (((((h | h) | h) | h) | h) | h)
    · exact h
    · exact (hother _ (unavailableRecipients_kind h) (by simp) (by simp)).elim
    · exact (hother _ (claimConflicts_kind h) (by simp) (by simp)).elim
    · exact (hother _ (claimContended_kind h) (by simp) (by simp)).elim
    · exact (hother _ (expiredClaims_kind h) (by simp) (by simp)).elim
    · exact (hother _ (leftForEndedSessions_kind h) (by simp) (by simp)).elim
  · intro h
    exact .inl (.inl (.inl (.inl (.inl h))))

end

/-- The left messages among items of attention. -/
def leftIds (items : List AttentionItem) : List Id :=
  (items.filter fun item => item.kind = .leftForEndedSession).map AttentionItem.sourceId

def isLeft (item : AttentionItem) : Bool := item.kind = .leftForEndedSession

theorem leftIds_isLeft {attention : List AttentionItem} :
    leftIds (attention.filter isLeft) = leftIds attention := by
  simp [leftIds, isLeft]

/-- Items that are included once are of left messages that are reported once. -/
theorem leftIds_subperm {included attention : List AttentionItem}
    (h : included.Subperm attention) : (leftIds included).Subperm (leftIds attention) := by
  obtain ⟨items, hperm, hsub⟩ := h
  exact ⟨leftIds items, (hperm.filter _).map _, (hsub.filter _).map _⟩

/-- The newest left messages of which the viewer was not told. -/
def untoldLeft (snapshot : Snapshot) (viewer : Viewer) : List Message :=
  (newestLeft snapshot viewer).filter fun m => m.messageId.val ∉ noticedLeft snapshot viewer

/-- The attention reports the untold left messages, and no others as left. -/
theorem leftIds_computeAttention : List.Perm (leftIds (computeAttention snapshot viewer))
    ((untoldLeft snapshot.current viewer).map Message.messageId) := by
  have hsorted := List.perm_insertionSort attentionOrder (obligationItems snapshot.current viewer
    ++ unavailableRecipients snapshot.current viewer ++ claimConflicts snapshot.current viewer
    ++ claimContended snapshot.current viewer ++ expiredClaims snapshot.current viewer
    ++ leftForEndedSessions snapshot.current viewer)
  have hleft : ∀ item ∈ leftForEndedSessions snapshot.current viewer,
      decide (item.kind = .leftForEndedSession) = true :=
    fun item hitem => decide_eq_true (leftForEndedSessions_kind hitem)
  refine ((hsorted.filter _).map _).trans ?_
  rw [List.filter_append, List.filter_eq_nil_iff.mpr fun item hitem => ?_, List.nil_append,
    List.filter_eq_self.mpr hleft, leftForEndedSessions, List.map_map]
  · exact List.Perm.refl _
  · simpa using kind_ne_left hitem

theorem newestLeft_sublist : ∃ messages : List Message,
    List.Perm messages (snapshot.messages.filter (qualifies snapshot viewer)) ∧
      (newestLeft snapshot viewer).Sublist messages :=
  ⟨_, List.perm_insertionSort _ _, List.take_sublist _ _⟩

/-- No left message is reported twice in one attention. -/
theorem leftIds_nodup (h : (snapshot.messages.map Message.messageId).Nodup) :
    (leftIds (computeAttention snapshot viewer)).Nodup := by
  obtain ⟨messages, hperm, hnewest⟩ := @newestLeft_sublist snapshot.current viewer
  have hmessages : (messages.map Message.messageId).Nodup :=
    (hperm.map _).nodup_iff.mpr (h.sublist ((List.filter_sublist.trans List.filter_sublist).map _))
  exact leftIds_computeAttention.nodup_iff.mpr
    (hmessages.sublist ((List.filter_sublist.trans hnewest).map _))

end Acc.Core
