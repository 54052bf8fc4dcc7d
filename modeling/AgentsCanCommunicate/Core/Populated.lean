import AgentsCanCommunicate.Core.FinishRetries
import AgentsCanCommunicate.Core.ReceiptLife
import AgentsCanCommunicate.Core.ReplyObligation

/-!
# Whom a workspace knows

A session acts for a participant, and a message has a sender.  In every reachable
workspace both are participants that are there: whoever opens a session is filed
with it, a promotion takes the participants of the ephemeral area along, and a
prune leaves a participant whom a session or a message that stays still names.

Most calls write neither participants nor the ephemeral area.  What they may do
is `Keeps`, and the invariant is proved for it once.  Opening and materialising
are looked at one by one.
-/

namespace Acc.Core

open Library (Table Keyed Run)

variable [LinearOrder ReceiptId] {w w' w₁ w₂ : Workspace} {ports : Ports}

/-! ## The invariant -/

/-- The workspace record is there. -/
def Durable (w : Workspace) : Prop := isMaterialised w w.workspaceId = true

/-- Sessions and senders are participants that are there. -/
structure Populated (w : Workspace) : Prop where
  sessions : ∀ s ∈ w.sessions, w.participants.get? s.participantId ≠ none
  senders : ∀ m ∈ w.messages, w.participants.get? m.fromParticipantId ≠ none
  alone : ∀ s ∈ w.ephemeral.sessions, w.ephemeral.participants.get? s.participantId ≠ none
  /-- Nothing durable comes before the workspace record. -/
  bare : ¬Durable w → (∀ s, ¬s ∈ w.sessions) ∧ ∀ m, ¬m ∈ w.messages
  /-- No ephemeral session and no ephemeral participant stays after it. -/
  retired : Durable w →
    (∀ s, ¬s ∈ w.ephemeral.sessions) ∧ ∀ p, ¬p ∈ w.ephemeral.participants

theorem populated_initial (workspaceId : Id) : Populated (.initial workspaceId) := by
  constructor
  case bare => exact fun _ => ⟨fun _ => Keyed.mem_empty, fun _ => Keyed.mem_empty⟩
  case retired => exact fun _ => ⟨fun _ => Keyed.mem_empty, fun _ => Keyed.mem_empty⟩
  all_goals
    intro r hr
    exact absurd hr Keyed.mem_empty

/-! ## What most calls keep -/

/-- A write that files nobody: a session is written again for its participant,
and a message is the word of a session that is there. -/
structure Keeps (w w' : Workspace) : Prop where
  workspaceId : w'.workspaceId = w.workspaceId
  workspaces : w'.workspaces = w.workspaces
  participants : w'.participants = w.participants
  sessions : ∀ s' ∈ w'.sessions, ∃ s ∈ w.sessions, s.participantId = s'.participantId
  messages : ∀ m ∈ w'.messages,
    m ∈ w.messages ∨ ∃ s ∈ w.sessions, s.participantId = m.fromParticipantId
  people : w'.ephemeral.participants = w.ephemeral.participants
  alone : ∀ s' ∈ w'.ephemeral.sessions,
    ∃ s ∈ w.ephemeral.sessions, s.participantId = s'.participantId

theorem Keeps.refl (w : Workspace) : Keeps w w :=
  ⟨rfl, rfl, rfl, fun s hs => ⟨s, hs, rfl⟩, fun _ hm => Or.inl hm, rfl, fun s hs => ⟨s, hs, rfl⟩⟩

theorem Keeps.trans (h₁ : Keeps w w₁) (h₂ : Keeps w₁ w₂) : Keeps w w₂ where
  workspaceId := h₂.workspaceId.trans h₁.workspaceId
  workspaces := h₂.workspaces.trans h₁.workspaces
  participants := h₂.participants.trans h₁.participants
  sessions := by
    intro s₂ hs₂
    obtain ⟨s₁, hs₁, heq₂⟩ := h₂.sessions s₂ hs₂
    obtain ⟨s, hs, heq₁⟩ := h₁.sessions s₁ hs₁
    exact ⟨s, hs, heq₁.trans heq₂⟩
  messages := by
    intro m hm
    rcases h₂.messages m hm with hm | ⟨s₁, hs₁, heq₂⟩
    · exact h₁.messages m hm
    · obtain ⟨s, hs, heq₁⟩ := h₁.sessions s₁ hs₁
      exact Or.inr ⟨s, hs, heq₁.trans heq₂⟩
  people := h₂.people.trans h₁.people
  alone := by
    intro s₂ hs₂
    obtain ⟨s₁, hs₁, heq₂⟩ := h₂.alone s₂ hs₂
    obtain ⟨s, hs, heq₁⟩ := h₁.alone s₁ hs₁
    exact ⟨s, hs, heq₁.trans heq₂⟩

theorem Keeps.materialised (h : Keeps w w') : Durable w' ↔ Durable w := by
  rw [Durable, Durable, isMaterialised, isMaterialised, h.workspaces, h.workspaceId]

theorem Keeps.populated (h : Keeps w w') (hw : Populated w) : Populated w' where
  sessions := by
    intro s' hs'
    obtain ⟨s, hs, heq⟩ := h.sessions s' hs'
    rw [h.participants, ← heq]
    exact hw.sessions s hs
  senders := by
    intro m hm
    rw [h.participants]
    rcases h.messages m hm with hm | ⟨s, hs, heq⟩
    · exact hw.senders m hm
    · rw [← heq]
      exact hw.sessions s hs
  alone := by
    intro s' hs'
    obtain ⟨s, hs, heq⟩ := h.alone s' hs'
    rw [h.people, ← heq]
    exact hw.alone s hs
  bare := by
    intro hbare
    obtain ⟨hsessions, hmessages⟩ := hw.bare fun hm => hbare (h.materialised.mpr hm)
    refine ⟨fun s' hs' => ?_, fun m hm => ?_⟩
    · obtain ⟨s, hs, -⟩ := h.sessions s' hs'
      exact hsessions s hs
    · rcases h.messages m hm with hm | ⟨s, hs, -⟩
      · exact hmessages m hm
      · exact hsessions s hs
  retired := by
    intro hdone
    obtain ⟨hsessions, hpeople⟩ := hw.retired (h.materialised.mp hdone)
    refine ⟨fun s' hs' => ?_, h.people ▸ hpeople⟩
    obtain ⟨s, hs, -⟩ := h.alone s' hs'
    exact hsessions s hs

/-! ## Calls about claims, receipts and intents -/

/-- What is not about claims, receipts, durable intents and events. -/
def registry (w : Workspace) :=
  (w.workspaceId, w.workspaces, w.participants, w.sessions, w.messages, w.ephemeral.participants,
    w.ephemeral.sessions)

theorem Keeps.of_registry (h : registry w' = registry w) : Keeps w w' := by
  simp only [registry, Prod.mk.injEq] at h
  obtain ⟨hid, hworkspaces, hparticipants, hsessions, hmessages, hpeople, halone⟩ := h
  refine ⟨hid, hworkspaces, hparticipants, ?_, ?_, hpeople, ?_⟩
  · rw [hsessions]
    exact fun s hs => ⟨s, hs, rfl⟩
  · rw [hmessages]
    exact fun m hm => Or.inl hm
  · rw [halone]
    exact fun s hs => ⟨s, hs, rfl⟩

theorem advanceOwned_registry {session : Session} {messageId : Id} {state : ReceiptState}
    {now : Timestamp} {receipt : Receipt}
    (h : advanceOwned w session messageId state now = .ok (w', receipt)) :
    registry w' = registry w := by
  simp only [advanceOwned, bind_eq_ok] at h
  obtain ⟨_, _, _, _, h⟩ := h
  split at h
  · cases h
    rfl
  · cases h
    rfl

theorem readAll_registry {session : Session} {now : Timestamp} {items : List (Viewed × Receipt)}
    {done read : List (Viewed × Receipt)}
    (h : items.foldlM (readOne session now) (w, done) = .ok (w', read)) :
    registry w' = registry w := by
  induction items generalizing w done with
  | nil =>
      cases h
      rfl
  | cons item items ih =>
      simp only [List.foldlM_cons, bind_eq_ok] at h
      obtain ⟨⟨w₁, done₁⟩, hone, hrest⟩ := h
      rw [ih hrest]
      rw [readOne] at hone
      split at hone
      · cases hone
        rfl
      · simp only [bind_eq_ok, pure_eq_ok, Prod.mk.injEq] at hone
        obtain ⟨⟨_, _⟩, hdone, rfl, _⟩ := hone
        exact advanceOwned_registry hdone

theorem recordOfferSucceeded_registry {input : OfferInput} {receipt : Receipt}
    (h : recordOfferSucceeded w ports input = .ok (w', receipt)) : registry w' = registry w := by
  rcases recordOfferSucceeded_touches h with rfl | ⟨_, _, _, _, _, _, rfl⟩
  · rfl
  · rfl

theorem recordOfferFailed_registry {input : OfferInput} {code : String}
    (h : recordOfferFailed w ports input code = .ok (w', ())) : registry w' = registry w := by
  simp only [recordOfferFailed, bind_eq_ok] at h
  obtain ⟨_, _, h⟩ := h
  have h := Workspace.transaction_eq_ok h
  simp only [bind_eq_ok, pure_eq_ok, Prod.mk.injEq] at h
  obtain ⟨_, _, _, _, rfl, _⟩ := h
  rfl

theorem readInbox_registry {input : ReadInput} {read : List (Viewed × Receipt)}
    (h : readInbox w ports input = .ok (w', read)) : registry w' = registry w := by
  simp only [readInbox, bind_eq_ok] at h
  obtain ⟨_, _, h⟩ := h
  have h := Workspace.transaction_eq_ok h
  simp only [bind_eq_ok] at h
  obtain ⟨_, _, _, _, h⟩ := h
  exact readAll_registry h

theorem acknowledgeMessage_registry {input : SettleInput} {receipt : Receipt}
    (h : acknowledgeMessage w ports input = .ok (w', receipt)) : registry w' = registry w := by
  simp only [acknowledgeMessage, bind_eq_ok] at h
  obtain ⟨_, _, h⟩ := h
  have h := Workspace.transaction_eq_ok h
  simp only [bind_eq_ok, pure_eq_ok, Prod.mk.injEq] at h
  obtain ⟨_, _, _, _, _, _, ⟨_, _⟩, hdone, rfl, _⟩ := h
  exact advanceOwned_registry hdone

theorem acquireTransaction_registry {session : Session} {input : AcquireInput}
    {resources : List String} {batch : Bool} {records : List Claim}
    (h : acquireTransaction w ports session input resources batch = .ok (w', records)) :
    registry w' = registry w := by
  have h := Workspace.transaction_eq_ok h
  simp only [bind_eq_ok, pure_eq_ok, Prod.mk.injEq] at h
  obtain ⟨_, _, _, _, _, _, _, _, rfl, _⟩ := h
  exact foldl_untouched (g := registry) (f := fileClaim ports.now) (fun _ _ => rfl) _ _

theorem renewClaim_registry {input : RenewInput} {record : Claim}
    (h : renewClaim w ports input = .ok (w', record)) : registry w' = registry w := by
  simp only [renewClaim, bind_eq_ok] at h
  obtain ⟨_, _, h⟩ := h
  have h := Workspace.transaction_eq_ok h
  simp only [bind_eq_ok] at h
  obtain ⟨_, _, h⟩ := h
  split at h
  next => cases h
  next =>
    simp only [bind_eq_ok, pure_eq_ok, Prod.mk.injEq] at h
    obtain ⟨_, _, _, _, rfl, _⟩ := h
    rfl

theorem removeClaims_registry {input : ReleaseInput} {selectors : Selectors}
    {authority reason : Option String} {selected : List Claim}
    (h : removeClaims w ports input selectors authority reason = .ok (w', selected)) :
    registry w' = registry w := by
  simp only [removeClaims, bind_eq_ok] at h
  obtain ⟨_, _, h⟩ := h
  have h := Workspace.transaction_eq_ok h
  simp only [bind_eq_ok, pure_eq_ok, Prod.mk.injEq] at h
  obtain ⟨_, _, _, _, _, _, rfl, _⟩ := h
  exact foldl_untouched (g := registry) (f := releaseOne ports.now _ authority reason)
    (fun _ _ => rfl) _ _

theorem setIntent_registry {input : IntentInput} {intent : Intent}
    (h : setIntent w ports input = .ok (w', intent)) : registry w' = registry w := by
  simp only [setIntent, bind_eq_ok] at h
  obtain ⟨_, _, _, _, h⟩ := h
  split at h
  · have h := Workspace.transaction_eq_ok h
    simp only [bind_eq_ok, pure_eq_ok, Prod.mk.injEq] at h
    obtain ⟨_, _, rfl, _⟩ := h
    rfl
  · cases h
    rfl

theorem clearIntent_registry {sessionId generation : Id} {workspaceId : Option Id}
    (h : clearIntent w ports sessionId workspaceId generation = .ok w') :
    registry w' = registry w := by
  simp only [clearIntent, bind_eq_ok] at h
  obtain ⟨_, _, h⟩ := h
  split at h
  · simp only [bind_eq_ok, pure_eq_ok] at h
    obtain ⟨⟨_, _⟩, hdone, rfl⟩ := h
    have hdone := Workspace.transaction_eq_ok hdone
    simp only [bind_eq_ok] at hdone
    obtain ⟨_, _, hdone⟩ := hdone
    split at hdone <;> cases hdone <;> rfl
  · cases h
    rfl

/-! ## A session's own record -/

/-- A durable session is written again for its participant. -/
theorem Keeps.putSession {current next : Session} (hcurrent : current ∈ w.sessions)
    (hsame : next.participantId = current.participantId) : Keeps w (w.putSession next) := by
  refine ⟨rfl, rfl, rfl, ?_, fun _ hm => Or.inl hm, rfl, fun s hs => ⟨s, hs, rfl⟩⟩
  intro s hs
  rcases Keyed.mem_put.mp hs with rfl | ⟨hs, -⟩
  · exact ⟨current, hcurrent, hsame.symm⟩
  · exact ⟨s, hs, rfl⟩

/-- An ephemeral session is written again for its participant. -/
theorem Keeps.putAlone {current next : Session} (hcurrent : current ∈ w.ephemeral.sessions)
    (hsame : next.participantId = current.participantId) :
    Keeps w (w.setEphemeral
      { w.ephemeral with sessions := w.ephemeral.sessions.put next }) := by
  refine ⟨rfl, rfl, rfl, fun s hs => ⟨s, hs, rfl⟩, fun _ hm => Or.inl hm, rfl, ?_⟩
  intro s hs
  rcases Keyed.mem_put.mp hs with rfl | ⟨hs, -⟩
  · exact ⟨current, hcurrent, hsame.symm⟩
  · exact ⟨s, hs, rfl⟩

theorem updateOwn_keeps {sessionId : Id} {change : Session → Result Session} {session : Session}
    (hchange : ∀ s s', change s = .ok s' → s'.participantId = s.participantId)
    (h : updateOwn w sessionId change = .ok (w', session)) : Keeps w w' := by
  rw [updateOwn] at h
  split at h
  next current hcurrent =>
    simp only [bind_eq_ok, pure_eq_ok, Prod.mk.injEq] at h
    obtain ⟨next, hnext, rfl, _⟩ := h
    exact .putAlone (Keyed.mem_of_get? (Option.filter_eq_some_iff.mp hcurrent).1)
      (hchange _ _ hnext)
  next =>
    have h := Workspace.transaction_eq_ok h
    split at h
    next => cases h
    next current hcurrent =>
      simp only [bind_eq_ok, pure_eq_ok, Prod.mk.injEq] at h
      obtain ⟨next, hnext, rfl, _⟩ := h
      exact .putSession (Keyed.mem_of_get? hcurrent) (hchange _ _ hnext)

theorem heartbeatSession_keeps {sessionId generation : Id} {workspaceId : Option Id}
    {session : Session}
    (h : heartbeatSession w ports sessionId workspaceId generation = .ok (w', session)) :
    Keeps w w' := by
  refine updateOwn_keeps ?_ h
  intro s s' hs
  simp only [bind_eq_ok, pure_eq_ok] at hs
  obtain ⟨_, _, rfl⟩ := hs
  rfl

theorem recordNotices_keeps {sessionId generation : Id} {workspaceId : Option Id}
    {messageIds : List String} {session : Session}
    (h : recordNotices w sessionId workspaceId generation messageIds = .ok (w', session)) :
    Keeps w w' := by
  simp only [recordNotices, bind_eq_ok] at h
  obtain ⟨_, _, h⟩ := h
  refine updateOwn_keeps ?_ h
  intro s s' hs
  simp only [bind_eq_ok, pure_eq_ok] at hs
  obtain ⟨_, _, rfl⟩ := hs
  rfl

theorem resumeSession_keeps {sessionId generation : Id} {workspaceId : Option Id}
    {metadata : ResumeInput} {session : Option Session}
    (h : resumeSession w ports sessionId workspaceId generation metadata = .ok (w', session)) :
    Keeps w w' := by
  rw [resumeSession] at h
  split at h
  next resumed hresumed =>
    simp only [bind_eq_ok, pure_eq_ok, Prod.mk.injEq] at h
    obtain ⟨_, _, rfl, _⟩ := h
    obtain ⟨current, hcurrent, hresume⟩ := filter_bind_eq_some hresumed
    exact .putAlone (Keyed.mem_of_get? hcurrent) (resume_sameLife hresume).1.participantId
  next =>
    have h := Workspace.transaction_eq_ok h
    split at h
    next =>
      cases h
      exact .refl _
    next resumed hresumed =>
      simp only [bind_eq_ok, pure_eq_ok, Prod.mk.injEq] at h
      obtain ⟨_, _, rfl, _⟩ := h
      obtain ⟨current, hcurrent, hresume⟩ := Option.bind_eq_some_iff.mp hresumed
      exact .putSession (Keyed.mem_of_get? hcurrent) (resume_sameLife hresume).1.participantId

theorem closeSession_keeps {sessionId generation : Id} {workspaceId : Option Id}
    {endReason : Option String} {session : Session}
    (h : closeSession w ports sessionId workspaceId generation endReason = .ok (w', session)) :
    Keeps w w' := by
  rw [closeSession] at h
  split at h
  next =>
    simp only [bind_eq_ok, pure_eq_ok, Prod.mk.injEq] at h
    obtain ⟨_, _, rfl, _⟩ := h
    refine ⟨rfl, rfl, rfl, fun s hs => ⟨s, hs, rfl⟩, fun _ hm => Or.inl hm, rfl, ?_⟩
    exact fun s hs => ⟨s, (Keyed.mem_remove.mp hs).1, rfl⟩
  next =>
    have h := Workspace.transaction_eq_ok h
    dsimp only at h
    split at h
    next => cases h
    next current hcurrent =>
      simp only [bind_eq_ok, pure_eq_ok, Prod.mk.injEq] at h
      obtain ⟨_, _, rfl, _⟩ := h
      have hput : Keeps w (w.putSession (closed current ports.now endReason)) :=
        .putSession (Keyed.mem_of_get? hcurrent) rfl
      exact hput.trans (.of_registry rfl)

/-! ## Recording -/

/-- A message is recorded for a session that is there. -/
theorem recordMessage_keeps {session : Session} {raw : MessageInput} {now : Timestamp}
    {messageId : Id} {action : String} {done : Recorded}
    (hcurrent : ∀ c, w.sessions.get? session.sessionId = some c → c = session)
    (h : recordMessageInTransaction w session raw now messageId action = .ok (w', done)) :
    Keeps w w' := by
  obtain ⟨hopen, input, _, hcases⟩ := recordMessage_eq_ok h
  rcases hcases with ⟨_, _, rfl, _⟩ | ⟨message, _, _, hmessage, _, _, rfl, _⟩
  · exact .refl _
  · refine ⟨rfl, rfl, rfl, fun s hs => ⟨s, hs, rfl⟩, ?_, rfl, fun s hs => ⟨s, hs, rfl⟩⟩
    intro m hm
    rcases Keyed.mem_put.mp hm with rfl | ⟨hm, -⟩
    · simp only [assertCurrentSession, refuse_eq_ok, not_forall] at hopen
      obtain ⟨c, hc, -⟩ := hopen
      obtain rfl := hcurrent c hc
      exact Or.inr ⟨c, Keyed.mem_of_get? hc, (messageRecord_eq_ok hmessage).sender.symm⟩
    · exact Or.inl hm

/-- A session that was located is the durable one of its id, if there is one. -/
theorem current_of_located (hhome : Homed w) {sessionId : Id} {workspaceId : Option Id}
    {session : Session} (h : locateSession w sessionId workspaceId = some session) :
    ∀ c, w.sessions.get? session.sessionId = some c → c = session := by
  intro c hc
  have hin := sessionIn_of_located hhome h
  rw [← locateSession_sessionId h, sessionIn, hc] at hin
  exact Option.some_inj.mp hin

theorem replyToMessage_keeps {input : ReplyInput} {answer : Message × Receipt} (hhome : Homed w)
    (h : replyToMessage w ports input = .ok (w', answer)) : Keeps w w' := by
  simp only [replyToMessage, bind_eq_ok] at h
  obtain ⟨session, hsession, h⟩ := h
  have hcurrent := current_of_located hhome (requireOpen_eq_ok hsession).1
  have h := Workspace.transaction_eq_ok h
  simp only [bind_eq_ok, pure_eq_ok, Prod.mk.injEq] at h
  obtain ⟨_, _, ⟨w₁, _⟩, hrecorded, ⟨_, _⟩, hdone, rfl, _⟩ := h
  exact (recordMessage_keeps hcurrent hrecorded).trans (.of_registry (advanceOwned_registry hdone))

theorem finishTransaction_keeps {session : Session} {input : FinishInput}
    {outcome : FinishOutcome}
    (hcurrent : ∀ c, w.sessions.get? session.sessionId = some c → c = session)
    (h : finishTransaction w ports session input = .ok (w', outcome)) : Keeps w w' := by
  have h := Workspace.transaction_eq_ok h
  dsimp only at h
  split at h
  next => cases h
  next current hfound =>
    simp only [bind_eq_ok] at h
    obtain ⟨_, _, existing, _, h⟩ := h
    cases existing with
    | some existing =>
        simp only [bind_eq_ok, pure_eq_ok, Prod.mk.injEq] at h
        obtain ⟨_, _, rfl, _⟩ := h
        exact .refl _
    | none =>
        simp only [bind_eq_ok, pure_eq_ok, Prod.mk.injEq] at h
        obtain ⟨_, _, ⟨w₁, recorded⟩, hrecorded, rfl, _⟩ := h
        have hfound := (Option.filter_eq_some_iff.mp hfound).1
        have hmem : current ∈ w₁.sessions := by
          rw [recordMessage_sessions hrecorded]
          exact Keyed.mem_of_get? hfound
        have hreleased : ∀ claims : List Claim, Keeps w₁
            (claims.foldl (releaseFinished ports.now session) w₁) ∧
            current ∈ (claims.foldl (releaseFinished ports.now session) w₁).sessions := by
          intro claims
          refine ⟨.of_registry (foldl_untouched (g := registry)
            (f := releaseFinished ports.now session) (fun _ _ => rfl) _ _), ?_⟩
          rwa [foldl_untouched (g := Workspace.sessions) (f := releaseFinished ports.now session)
            fun _ _ => rfl]
        obtain ⟨hkeeps, hstill⟩ := hreleased
          (w.claims.list.filter fun c => c.ownerSessionId = session.sessionId)
        have hrecord := recordMessage_keeps hcurrent hrecorded
        have hclosed : Keeps _ (Workspace.putSession _
            { current with state := .closed, heartbeatAt := ports.now }) :=
          .putSession hstill rfl
        exact (hrecord.trans hkeeps).trans (hclosed.trans (.of_registry rfl))

/-! ## Opening and materialising -/

/-- A session opens with its participant. -/
theorem Populated.openIn (hw : Populated w) (hdone : Durable w) {now : Timestamp}
    {participant : Participant} {session : Session} {replaced : Option Session}
    (hparticipant : session.participantId = participant.participantId) :
    Populated (Core.openIn w now participant session replaced) := by
  have hknown : ∀ i, (Core.openIn w now participant session replaced).participants.get? i =
      (w.participants.get? i).or ((some participant).filter fun p => p.participantId = i) :=
    fun _ => get?_promoteParticipant
  have hgrows : ∀ i, w.participants.get? i ≠ none →
      (Core.openIn w now participant session replaced).participants.get? i ≠ none := by
    intro i hi
    rw [hknown]
    cases hget : w.participants.get? i with
    | none => exact absurd hget hi
    | some p => simp
  have hsessions : (Core.openIn w now participant session replaced).sessions =
      w.sessions.put session :=
    congrArg (Keyed.put · session)
      (promoteParticipant_other (g := Workspace.sessions) (fun _ _ => rfl) w participant)
  have hmessages : (Core.openIn w now participant session replaced).messages = w.messages :=
    promoteParticipant_other (g := Workspace.messages) (fun _ _ => rfl) w participant
  have hephemeral : (Core.openIn w now participant session replaced).ephemeral = w.ephemeral :=
    promoteParticipant_other (g := Workspace.ephemeral) (fun _ _ => rfl) w participant
  have hstill : Durable (Core.openIn w now participant session replaced) := by
    have hsame : (Core.openIn w now participant session replaced).workspaceId = w.workspaceId :=
      promoteParticipant_other (g := Workspace.workspaceId) (fun _ _ => rfl) w participant
    rw [Durable, hsame]
    exact (promoteParticipant_other (g := fun u => isMaterialised u w.workspaceId)
      (fun _ _ => rfl) w participant).trans hdone
  constructor
  case sessions =>
    intro s hs
    rw [hsessions] at hs
    rcases Keyed.mem_put.mp hs with rfl | ⟨hs, -⟩
    · rw [hknown]
      cases w.participants.get? s.participantId with
      | none => simp [hparticipant, Option.filter]
      | some p => simp
    · exact hgrows _ (hw.sessions s hs)
  case senders =>
    rw [hmessages]
    exact fun m hm => hgrows _ (hw.senders m hm)
  case alone =>
    rw [hephemeral]
    exact hw.alone
  case bare => exact fun hbare => absurd hstill hbare
  case retired =>
    rw [hephemeral]
    exact fun _ => hw.retired hdone

/-- What materialising makes of a workspace: the ephemeral participants are known
now, and no ephemeral session is left. -/
theorem Populated.materialise (hw : Populated w) {descriptor : Option Descriptor}
    {reason : String} {opening : Option Opening} {joined : Bool}
    (hopening : ∀ o, opening = some o →
      o.session.participantId = o.participant.participantId)
    (h : Core.materialise w ports w.workspaceId descriptor reason opening = .ok (w', joined)) :
    Populated w' := by
  have hmessages := untouched_messages.materialise h
  simp only [Core.materialise, bind_eq_ok, pure_eq_ok, Prod.mk.injEq] at h
  obtain ⟨⟨w₁, joined₁⟩, htx, rfl, rfl⟩ := h
  cases joined₁ with
  | false =>
      have htx := Workspace.transaction_eq_ok htx
      dsimp only at htx
      split at htx
      · simp only [bind_eq_ok, pure_eq_ok, Prod.mk.injEq, Bool.true_eq_false, and_false,
          exists_false] at htx
      · cases htx
        exact hw
  | true =>
      have hpromoted := materialiseTransaction_eq_ok htx
      have hknown : ∀ i, w.participants.get? i ≠ none ∨ w.ephemeral.participants.get? i ≠ none →
          w₁.participants.get? i ≠ none := by
        intro i hi
        rw [hpromoted.participants]
        cases hdurable : w.participants.get? i with
        | some p => simp
        | none =>
            cases halone : w.ephemeral.participants.get? i with
            | some p => simp
            | none => exact absurd hi (by simp [hdurable, halone])
      have hdone : Durable w₁ := by
        rw [Durable, hpromoted.workspaceId, hpromoted.materialised]
        simp
      have hretired : ∀ s, ¬s ∈ (retireEphemeral w₁ w.ephemeral).ephemeral.sessions := by
        intro s hs
        obtain ⟨hs, hgone⟩ := Keyed.mem_removeAll.mp hs
        rw [hpromoted.ephemeral] at hs
        exact hgone (List.mem_map_of_mem (Keyed.mem_list.mpr hs))
      have hleft : ∀ p, ¬p ∈ (retireEphemeral w₁ w.ephemeral).ephemeral.participants := by
        intro p hp
        obtain ⟨hp, hgone⟩ := Keyed.mem_removeAll.mp hp
        rw [hpromoted.ephemeral] at hp
        exact hgone (List.mem_map_of_mem (Keyed.mem_list.mpr hp))
      constructor
      case sessions =>
        intro s hs
        have hs : w₁.sessions.get? s.sessionId = some s := Keyed.mem_def.mp hs
        rw [hpromoted.sessions] at hs
        rcases Option.or_eq_some_iff.mp hs with hopened | ⟨-, hs⟩
        · obtain ⟨hsession, -⟩ := Option.filter_eq_some_iff.mp hopened
          obtain ⟨o, ho, rfl⟩ := Option.map_eq_some_iff.mp hsession
          refine fun hnone => ?_
          have hnone : w₁.participants.get? o.session.participantId = none := hnone
          rw [hpromoted.participants, hopening o ho, ho] at hnone
          simp [Option.filter] at hnone
        · refine hknown _ ?_
          rcases Option.or_eq_some_iff.mp hs with hdurable | ⟨-, halone⟩
          · exact Or.inl (hw.sessions s (Keyed.mem_of_get? hdurable))
          · exact Or.inr (hw.alone s (Keyed.mem_of_get? halone))
      case senders =>
        intro m hm
        rw [hmessages] at hm
        exact hknown _ (Or.inl (hw.senders m hm))
      case alone => exact fun s hs => absurd hs (hretired s)
      case bare => exact fun hbare => absurd hdone hbare
      case retired => exact fun _ => ⟨hretired, hleft⟩

theorem Populated.ensureMaterialised (hw : Populated w) {descriptor : Option Descriptor}
    {reason : String}
    (h : Core.ensureMaterialised w ports w.workspaceId descriptor reason = .ok w') :
    Populated w' := by
  rw [Core.ensureMaterialised] at h
  split at h
  · cases h
    exact hw
  · simp only [bind_eq_ok, pure_eq_ok] at h
    obtain ⟨⟨w₁, joined⟩, hdone, rfl⟩ := h
    exact hw.materialise (fun o ho => by cases ho) hdone

/-- The ephemeral writes of a session that opens alone. -/
theorem Populated.openEphemeral (hw : Populated w) (hbare : ¬Durable w) {input : OpenInput}
    {participant : Participant} {session : Session}
    (hparticipant : session.participantId = participant.participantId)
    (h : Core.openEphemeral w ports input participant session = .ok w') : Populated w' := by
  simp only [Core.openEphemeral, bind_eq_ok, pure_eq_ok] at h
  obtain ⟨_, _, rfl⟩ := h
  refine ⟨hw.sessions, hw.senders, ?_, hw.bare, fun hdone => absurd hdone hbare⟩
  intro s hs
  rcases Keyed.mem_put.mp hs with rfl | ⟨hs, -⟩
  · have hkey : ((w.ephemeral.participants.get? participant.participantId).getD
        participant).participantId = s.participantId := by
      rw [hparticipant]
      cases hkept : w.ephemeral.participants.get? participant.participantId with
      | none => rfl
      | some kept => exact Keyed.key_of_get? hkept
    simp [Keyed.get?_put, hkey]
  · exact Keyed.get?_put_ne_none (hw.alone s hs)

theorem Populated.openSession (hw : Populated w) {input : OpenInput} {session : Session}
    (h : Core.openSession w ports input = .ok (w', session)) : Populated w' := by
  simp only [Core.openSession, bind_eq_ok, refuse_eq_ok, not_not] at h
  obtain ⟨_, hid, _, _, _, _, _, _, h⟩ := h
  rw [hid] at h
  split at h
  next hdone =>
    have h := Workspace.transaction_eq_ok h
    simp only [bind_eq_ok, pure_eq_ok, Prod.mk.injEq] at h
    obtain ⟨_, _, rfl, _⟩ := h
    exact hw.openIn hdone rfl
  next hbare =>
    split at h
    · simp only [bind_eq_ok, pure_eq_ok, Prod.mk.injEq] at h
      obtain ⟨⟨_, _⟩, hdone, rfl, _⟩ := h
      refine hw.materialise ?_ hdone
      intro o ho
      cases ho
      rfl
    · simp only [bind_eq_ok, pure_eq_ok, Prod.mk.injEq] at h
      obtain ⟨w₁, hw₁, rfl, _⟩ := h
      exact hw.openEphemeral hbare rfl hw₁

/-! ## Every call -/

/-- A call that materialises first. -/
theorem Populated.ensured (hw : Populated w) (hhome : Homed w) {session : Session}
    {sessionId : Id} {workspaceId : Option Id} {descriptor : Option Descriptor} {reason : String}
    (hlocated : locateSession w sessionId workspaceId = some session)
    (h : Core.ensureMaterialised w ports session.workspaceId descriptor reason = .ok w₁) :
    Populated w₁ ∧ ∀ c, w₁.sessions.get? session.sessionId = some c → c = session := by
  refine ⟨?_, fun c hc => located_current hhome hlocated h hc⟩
  rw [hhome.located hlocated] at h
  exact hw.ensureMaterialised h

theorem call_populated {call : Call} (hhome : Homed w) (hw : Populated w)
    (h : w.call ports call = .ok w') : Populated w' := by
  cases call <;> simp only [Workspace.call, map_eq_ok] at h
  case clearIntent => exact (Keeps.of_registry (clearIntent_registry h)).populated hw
  all_goals obtain ⟨⟨_, _⟩, h, rfl⟩ := h
  case openSession => exact hw.openSession h
  case heartbeatSession => exact (heartbeatSession_keeps h).populated hw
  case recordNotices => exact (recordNotices_keeps h).populated hw
  case resumeSession => exact (resumeSession_keeps h).populated hw
  case closeSession => exact (closeSession_keeps h).populated hw
  case setIntent => exact (Keeps.of_registry (setIntent_registry h)).populated hw
  case acquireClaim | acquireClaims =>
    simp only [Core.acquireClaim, Core.acquireClaims, acquire, bind_eq_ok] at h
    obtain ⟨session, hsession, _, _, w₁, hw₁, htx⟩ := h
    obtain ⟨hensured, -⟩ := hw.ensured hhome (requireClaimOwner_eq_ok hsession) hw₁
    exact (Keeps.of_registry (acquireTransaction_registry htx)).populated hensured
  case renewClaim => exact (Keeps.of_registry (renewClaim_registry h)).populated hw
  case releaseClaims =>
    simp only [Core.releaseClaims, bind_eq_ok] at h
    obtain ⟨_, _, h⟩ := h
    exact (Keeps.of_registry (removeClaims_registry h)).populated hw
  case releaseClaim => exact (Keeps.of_registry (removeClaims_registry h)).populated hw
  case forceReleaseClaim => exact (Keeps.of_registry (removeClaims_registry h)).populated hw
  case sendMessage =>
    simp only [Core.sendMessage, bind_eq_ok] at h
    obtain ⟨session, hsession, w₁, hw₁, htx⟩ := h
    obtain ⟨hensured, hcurrent⟩ := hw.ensured hhome (requireSession_eq_ok hsession).1 hw₁
    have htx := Workspace.transaction_eq_ok htx
    simp only [bind_eq_ok, pure_eq_ok, Prod.mk.injEq] at htx
    obtain ⟨⟨_, _⟩, hdone, rfl, _⟩ := htx
    exact (recordMessage_keeps hcurrent hdone).populated hensured
  case finishSession =>
    simp only [Core.finishSession, bind_eq_ok] at h
    obtain ⟨session, hsession, w₁, hw₁, htx⟩ := h
    obtain ⟨hensured, hcurrent⟩ := hw.ensured hhome (requireSession_eq_ok hsession).1 hw₁
    exact (finishTransaction_keeps hcurrent htx).populated hensured
  case readInbox => exact (Keeps.of_registry (readInbox_registry h)).populated hw
  case acknowledgeMessage =>
    exact (Keeps.of_registry (acknowledgeMessage_registry h)).populated hw
  case replyToMessage => exact (replyToMessage_keeps hhome h).populated hw
  case recordOfferSucceeded =>
    exact (Keeps.of_registry (recordOfferSucceeded_registry h)).populated hw
  case recordOfferFailed =>
    exact (Keeps.of_registry (recordOfferFailed_registry h)).populated hw

/-! ## Runs -/

/-- A participant that goes is named by no session and no message that stays. -/
theorem Populated.prune (hw : Populated w) (hhome : Homed w) (input : PruneInput)
    (budget : Budget) : Populated (Core.prune w ports input budget).1 := by
  obtain ⟨n, events, floor, heq⟩ := @prune_eq _ w ports input budget
  rw [heq]
  have hdone : Durable { removeEntries w (gone w ports input n) with events, floor } ↔
      Durable w := by
    rw [Durable, Durable, isMaterialised, isMaterialised, removeEntries_workspaceId,
      removeEntries_workspaces]
  have hstays : ∀ i, w.participants.get? i ≠ none → .participant i ∉ gone w ports input n →
      (removeEntries w (gone w ports input n)).participants.get? i ≠ none := by
    intro i hi hstays
    obtain ⟨p, hp⟩ := Option.ne_none_iff_exists'.mp hi
    have hkey := Keyed.key_of_get? hp
    have hmem : p ∈ (removeEntries w (gone w ports input n)).participants :=
      mem_participants_removeEntries.mpr ⟨Keyed.mem_of_get? hp, hkey.symm ▸ hstays⟩
    rw [← hkey, Keyed.mem_def.mp hmem]
    exact Option.some_ne_none _
  constructor
  case sessions =>
    intro s hs
    obtain ⟨hs, hkept⟩ := mem_sessions_removeEntries.mp hs
    exact hstays _ (hw.sessions s hs) fun hgone => hkept (session_gone hhome hs hgone)
  case senders =>
    intro m hm
    obtain ⟨hm, hkept⟩ := mem_messages_removeEntries.mp hm
    exact hstays _ (hw.senders m hm) fun hgone =>
      hkept (message_gone hhome hm (List.mem_cons_self ..) hgone)
  case alone =>
    rw [removeEntries_ephemeral]
    exact hw.alone
  case bare =>
    intro hbare
    obtain ⟨hsessions, hmessages⟩ := hw.bare fun hm => hbare (hdone.mpr hm)
    exact ⟨fun s hs => hsessions s (mem_sessions_removeEntries.mp hs).1,
      fun m hm => hmessages m (mem_messages_removeEntries.mp hm).1⟩
  case retired =>
    rw [removeEntries_ephemeral]
    exact fun hm => hw.retired (hdone.mp hm)

theorem Step.populated {action : Action} (h : Step w action w') (hhome : Homed w)
    (hw : Populated w) : Populated w' := by
  cases h with
  | call hcall => exact call_populated hhome hw hcall
  | prune => exact hw.prune hhome _ _
  | @earlier r _ =>
      have hkeeps : Keeps w (w.putReceipt { r with obligation := none }) := .of_registry rfl
      exact hkeeps.populated hw

theorem Reachable.populated (h : Reachable w) : Populated w := by
  obtain ⟨workspaceId, actions, hrun⟩ := h
  have hboth : Homed w ∧ Populated w := by
    refine Run.invariant (I := fun w => Homed w ∧ Populated w) ?_ hrun
      ⟨homed_initial workspaceId, populated_initial workspaceId⟩
    intro s a t hs hstep
    exact ⟨hstep.homed hs.1, hstep.populated hs.1 hs.2⟩
  exact hboth.2

end Acc.Core
