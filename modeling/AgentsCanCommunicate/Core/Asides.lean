import AgentsCanCommunicate.Core.Acts

/-!
# What leaves presence alone

Claims, messages, receipts and offers are written beside presence and intent.
A transaction of theirs appends events of one session, which is there, and no
event that tells of a session's life.
-/

namespace Acc.Core

open Library (Keyed)

section

variable [LinearOrder ReceiptId]

variable {w w' w'' : Workspace} {i : Id}

/-! ## Composition -/

theorem Aside.refl (w : Workspace) : Aside w w :=
  ⟨rfl, rfl, rfl, rfl, rfl, rfl, [], (List.append_nil _).symm, fun _ he => by cases he⟩

theorem Aside.sessionIn_eq (h : Aside w w') : sessionIn w' i = sessionIn w i := by
  rw [sessionIn, sessionIn, h.sessions, h.ephemeral]

theorem Aside.trans (h : Aside w w') (h' : Aside w' w'') : Aside w w'' := by
  obtain ⟨events, hevents, hall⟩ := h.history
  obtain ⟨events', hevents', hall'⟩ := h'.history
  refine ⟨h'.workspaceId.trans h.workspaceId, h'.workspaces.trans h.workspaces,
    h'.participants.trans h.participants, h'.sessions.trans h.sessions,
    h'.intents.trans h.intents, h'.ephemeral.trans h.ephemeral, events ++ events', ?_, ?_⟩
  · rw [hevents', hevents, List.append_assoc]
  · intro e he
    rcases List.mem_append.mp he with he | he
    · exact hall e he
    · obtain ⟨hlife, hpresent⟩ := hall' e he
      rw [h.sessionIn_eq] at hpresent
      exact ⟨hlife, hpresent⟩

/-- A write that appends nothing. -/
theorem Aside.quiet (hid : w'.workspaceId = w.workspaceId) (hworkspaces : w'.workspaces = w.workspaces)
    (hparticipants : w'.participants = w.participants) (hsessions : w'.sessions = w.sessions)
    (hintents : w'.intents = w.intents) (hephemeral : w'.ephemeral = w.ephemeral)
    (hevents : w'.events = w.events) : Aside w w' := by
  refine ⟨hid, hworkspaces, hparticipants, hsessions, hintents, hephemeral, [], ?_, ?_⟩
  · rw [Workspace.history, hevents, List.append_nil]
    rfl
  · intro e he
    cases he

theorem aside_append {e : Event} (hlife : tellsLife e = false)
    (hpresent : (sessionIn w e.actorSessionId).isSome = true) : Aside w (w.append e) := by
  refine ⟨rfl, rfl, rfl, rfl, rfl, rfl, [e], Workspace.history_append, fun e' he' => ?_⟩
  rw [List.mem_singleton] at he'
  subst he'
  exact ⟨hlife, hpresent⟩

/-- Steps taken for one session. -/
theorem aside_foldl {α : Type} {f : Workspace → α → Workspace} {items : List α}
    (hf : ∀ w, (sessionIn w i).isSome = true → ∀ a ∈ items, Aside w (f w a))
    (hpresent : (sessionIn w i).isSome = true) : Aside w (items.foldl f w) := by
  induction items generalizing w with
  | nil => exact .refl w
  | cons a items ih =>
      have hfirst := hf w hpresent a (List.mem_cons_self ..)
      refine hfirst.trans (ih (fun w hw b hb => hf w hw b (List.mem_cons_of_mem _ hb)) ?_)
      rw [hfirst.sessionIn_eq]
      exact hpresent

theorem Bare.absurd {w : Workspace} {i : Id} {c : Session} {p : Prop} (hw : Bare w)
    (hc : w.sessions.get? i = some c) : p := by
  rw [hw.sessions] at hc
  cases hc

/-! ## Claims -/

theorem aside_fileClaim {now : Timestamp} {item : Bool × Claim}
    (hpresent : (sessionIn w item.2.ownerSessionId).isSome = true) :
    Aside w (fileClaim now w item) := by
  have hput : Aside w (w.putClaim item.2) := .quiet rfl rfl rfl rfl rfl rfl rfl
  refine hput.trans (aside_append ?_ hpresent)
  cases item.1 <;> rfl

theorem aside_releaseOne {now : Timestamp} {authority reason : Option String} {existing : Claim}
    (hpresent : (sessionIn w i).isSome = true) :
    Aside w (releaseOne now i authority reason w existing) := by
  have hremove : Aside w (w.removeClaim existing.claimId) := .quiet rfl rfl rfl rfl rfl rfl rfl
  refine hremove.trans (aside_append ?_ hpresent)
  by_cases howner : existing.ownerSessionId = i <;> simp [tellsLife, howner]

theorem aside_releaseFinished {now : Timestamp} {session : Session} {claims : List Claim}
    (hpresent : (sessionIn w session.sessionId).isSome = true) :
    Aside w (claims.foldl (releaseFinished now session) w) := by
  refine aside_foldl (fun w hw claim _ => ?_) hpresent
  have hremove : Aside w (w.removeClaim claim.claimId) := .quiet rfl rfl rfl rfl rfl rfl rfl
  exact hremove.trans (aside_append rfl hw)

/-! ## Messages and receipts -/

/-- A sender's record is the open one of its generation. -/
theorem assertCurrentSession_eq_ok {session : Session} {action : String} {u : Unit}
    (h : assertCurrentSession w session action = .ok u) :
    ∃ c, w.sessions.get? session.sessionId = some c ∧ c.state = .opened ∧
      c.generation = session.generation := by
  rw [assertCurrentSession, refuse_eq_ok] at h
  cases hget : w.sessions.get? session.sessionId with
  | none =>
      refine absurd (fun c hc => ?_) h
      rw [hget] at hc
      cases hc
  | some c =>
      refine ⟨c, rfl, ?_⟩
      by_contra hother
      refine h fun c' hc' => ?_
      rw [hget] at hc'
      cases hc'
      by_cases hopen : c.state = .opened
      · exact Or.inr fun hgeneration => hother ⟨hopen, hgeneration⟩
      · exact Or.inl hopen

theorem aside_recordMessage {session : Session} {raw : MessageInput} {now : Timestamp}
    {messageId : Id} {action : String} {done : Recorded}
    (h : recordMessageInTransaction w session raw now messageId action = .ok (w', done)) :
    Aside w w' := by
  obtain ⟨hcurrent, input, _, hwrites⟩ := recordMessage_eq_ok h
  obtain ⟨c, hc, _, _⟩ := assertCurrentSession_eq_ok hcurrent
  rcases hwrites with ⟨_, _, rfl, _⟩ | ⟨message, recipients, _, hmessage, _, _, rfl, _⟩
  · exact .refl _
  · have hput : Aside w { w with
        messages := w.messages.put message
        receipts := w.receipts.putAll (recipients.map fun i => queuedReceipt message i now) } :=
      .quiet rfl rfl rfl rfl rfl rfl rfl
    refine hput.trans (aside_append (e := ⟨message.workspaceId, message.fromSessionId, now,
      .messageRecorded message.messageId message.threadId recipients⟩) rfl ?_)
    rw [messageRecord_fromSessionId hmessage, sessionIn, hc]
    rfl

theorem aside_advanceOwned {session : Session} {messageId : Id} {state : ReceiptState}
    {now : Timestamp} {receipt : Receipt}
    (hpresent : (sessionIn w session.sessionId).isSome = true)
    (h : advanceOwned w session messageId state now = .ok (w', receipt)) : Aside w w' := by
  simp only [advanceOwned, bind_eq_ok] at h
  obtain ⟨owned, _, nextState, _, h⟩ := h
  split at h
  · cases h
    exact .refl _
  · cases h
    have hput : Aside w (w.putReceipt (advancedReceipt owned.1 owned.2 nextState now)) :=
      .quiet rfl rfl rfl rfl rfl rfl rfl
    exact hput.trans (aside_append rfl hpresent)

theorem aside_readAll {session : Session} {now : Timestamp} {items : List (Viewed × Receipt)}
    {done read : List (Viewed × Receipt)}
    (hpresent : (sessionIn w session.sessionId).isSome = true)
    (h : items.foldlM (readOne session now) (w, done) = .ok (w', read)) : Aside w w' := by
  induction items generalizing w done with
  | nil =>
      cases h
      exact .refl _
  | cons item items ih =>
      simp only [List.foldlM_cons, bind_eq_ok] at h
      obtain ⟨⟨w₁, done₁⟩, hone, hrest⟩ := h
      have hfirst : Aside w w₁ := by
        rw [readOne] at hone
        split at hone
        · cases hone
          exact .refl _
        · simp only [bind_eq_ok, pure_eq_ok, Prod.mk.injEq] at hone
          obtain ⟨⟨_, _⟩, hdone, rfl, _⟩ := hone
          exact aside_advanceOwned hpresent hdone
      refine hfirst.trans (ih ?_ hrest)
      rw [hfirst.sessionIn_eq]
      exact hpresent

/-! ## Offers -/

/-- The target of an offer has a durable record. -/
theorem requireTarget_present {input : OfferInput} {mustBeOpen : Bool} {target : Session}
    (h : requireTarget w input mustBeOpen = .ok target) :
    (sessionIn w target.sessionId).isSome = true ∧ ¬Bare w := by
  rw [requireTarget] at h
  split at h
  next => cases h
  next found hfound =>
    cases h
    have hget := (Option.filter_eq_some_iff.mp hfound).1
    constructor
    · rw [sessionIn, Keyed.key_of_get? hget, hget]
      rfl
    · intro hbare
      exact hbare.absurd hget

theorem aside_recordOfferSucceeded {ports : Ports} {input : OfferInput} {receipt : Receipt}
    (h : recordOfferSucceeded w ports input = .ok (w', receipt)) :
    Aside w w' ∧ (Bare w → w' = w) := by
  simp only [recordOfferSucceeded, bind_eq_ok] at h
  obtain ⟨_, _, h⟩ := h
  have h := Workspace.transaction_eq_ok h
  simp only [bind_eq_ok] at h
  obtain ⟨found, _, target, htarget, h⟩ := h
  obtain ⟨hpresent, hbare⟩ := requireTarget_present htarget
  refine ⟨?_, fun hw => absurd hw hbare⟩
  have hoffered : ∀ next repeated,
      Aside w (offered w ports.now input target next repeated) := by
    intro next repeated
    have hput : Aside w (w.putReceipt next) := .quiet rfl rfl rfl rfl rfl rfl rfl
    exact hput.trans (aside_append rfl hpresent)
  split at h
  · split at h
    · cases h
      exact hoffered _ _
    · cases h
      exact .refl _
  · split at h
    · cases h
      exact hoffered _ _
    · cases h
      exact .refl _

theorem aside_recordOfferFailed {ports : Ports} {input : OfferInput} {safeErrorCode : String}
    {u : Unit} (h : recordOfferFailed w ports input safeErrorCode = .ok (w', u)) :
    Aside w w' ∧ (Bare w → w' = w) := by
  simp only [recordOfferFailed, bind_eq_ok] at h
  obtain ⟨_, _, h⟩ := h
  have h := Workspace.transaction_eq_ok h
  simp only [bind_eq_ok, pure_eq_ok, Prod.mk.injEq] at h
  obtain ⟨_, _, target, htarget, rfl, _⟩ := h
  obtain ⟨hpresent, hbare⟩ := requireTarget_present htarget
  exact ⟨aside_append rfl hpresent, fun hw => absurd hw hbare⟩

end

end Acc.Core
