import AgentsCanCommunicate.Core.Promotion
import AgentsCanCommunicate.Core.Rejections

/-!
# Retries of a finish

A finish answers with the claims it released.  They are gone when it is asked
again, so a retry rebuilds its answer from the event log: it looks for the
message of the finish, for the close that followed it, for the releases between
the two, and for the last event that says what each released claim held.

The log is read page by page, after the transaction of the retry, and the claims
are listed after that.  Others may write in between.
-/

namespace Acc.Core

open Library (Table Keyed Run)

section

variable [LinearOrder ReceiptId]

/-! ## What a retry reads -/

/-- A claim as a finish reports it. -/
structure ReleasedClaim where
  claimId : Id
  resource : String
  mode : ClaimMode
deriving DecidableEq

def projectReleasedClaim (claim : Claim) : ReleasedClaim :=
  ⟨claim.claimId, claim.resource, claim.mode⟩

def retryPageSize : Nat := 256

/-- One page of the log, as the store returns it. -/
def eventsSince (w : Workspace) (workspaceId : Id) (cursor : Option Nat) (limit : Nat) :
    List (Nat × Event) :=
  (w.events.entries.filter fun e =>
    cursor.getD 0 < e.1 ∧ e.2.workspaceId = workspaceId).take limit

/-- The pages from a cursor on, as long as there is something on them. -/
def pagesFrom (w : Workspace) (workspaceId : Id) : Nat → Option Nat → List Event
  | 0, _ => []
  | fuel + 1, cursor =>
      match (eventsSince w workspaceId cursor retryPageSize).getLast? with
      | none => []
      | some last =>
          (eventsSince w workspaceId cursor retryPageSize).map Prod.snd
            ++ pagesFrom w workspaceId fuel (some last.1)

def allEvents (w : Workspace) (workspaceId : Id) : List Event :=
  pagesFrom w workspaceId (w.events.entries.length + 1) none

/-! ## Rebuilding -/

def finishConflict : AccError :=
  ⟨.conflict, "clientMessageId belongs to a different finish generation"⟩

/-- The claim that an event releases. -/
def releasedClaimId (event : Event) : Option Id :=
  match event.payload with
  | .claimReleased claimId _ _ _ => some claimId
  | _ => none

/-- The last that the events say of a claim. -/
def factsOf (events : List Event) (claimId : Id) : Option (Id × String × ClaimMode) :=
  (events.filterMap claimFacts).reverse.find? fun facts => facts.1 = claimId

def claimProjection (events : List Event) (releaseIndex : Nat) : Option ReleasedClaim := do
  let release ← events[releaseIndex]?
  let claimId ← releasedClaimId release
  let facts ← factsOf (events.take (releaseIndex + 1)) claimId
  return ⟨claimId, facts.2.1, facts.2.2⟩

/-- The session's own release of a claim, under no authority. -/
def isOwnRelease (session : Session) (event : Event) : Bool :=
  match event.payload with
  | .claimReleased _ none none _ => event.actorSessionId = session.sessionId
  | _ => false

def correlatedReleaseIndexes (events : List Event) (recordedIndex closedIndex : Nat)
    (session : Session) (message : Message) : Result (List Nat) :=
  match (events[closedIndex]?).map Event.payload with
  | some (.sessionFinished messageId sessionGeneration releasedClaimIds) => do
      refuse (messageId ≠ message.messageId ∨ sessionGeneration ≠ session.generation
        ∨ ¬releasedClaimIds.Nodup) finishConflict
      let between := (events.take closedIndex).drop (recordedIndex + 1)
      refuse (between.length ≠ releasedClaimIds.length
        ∨ between.all (isOwnRelease session) = false) finishConflict
      let actualIds := between.filterMap releasedClaimId
      refuse (actualIds ≠ releasedClaimIds) finishConflict
      return (List.range actualIds.length).map fun offset => recordedIndex + offset + 1
  | _ => .error finishConflict

/-- The session recorded the message. -/
def records (session : Session) (message : Message) (event : Event) : Bool :=
  decide (recordedMessageId event = some message.messageId
    ∧ event.actorSessionId = session.sessionId)

/-- A session opens. -/
def opens (sessionId : Id) (event : Event) : Bool :=
  tellsOpen event && decide (event.actorSessionId = sessionId)

def closes (sessionId : Id) (event : Event) : Bool :=
  tellsClose event && decide (event.actorSessionId = sessionId)

def reconstructFinishRetry (events : List Event) (claims : List Claim) (session : Session)
    (message : Message) : Result (List ReleasedClaim) :=
  match events.findIdx? (records session message) with
  | none => .error finishConflict
  | some recordedIndex => do
      refuse (session.state ≠ .closed) finishConflict
      refuse ((events.drop (recordedIndex + 1)).any (opens session.sessionId) = true)
        finishConflict
      match (events.drop (recordedIndex + 1)).findIdx? (closes session.sessionId) with
      | none => .error finishConflict
      | some closedOffset => do
          let closedIndex := recordedIndex + closedOffset + 1
          let releaseIndexes ← correlatedReleaseIndexes events recordedIndex closedIndex session
            message
          let releasedClaims := releaseIndexes.map (claimProjection events)
          refuse (none ∈ releasedClaims) finishConflict
          refuse (∃ claim ∈ claims, claim.ownerSessionId = session.sessionId) finishConflict
          return releasedClaims.reduceOption

/-- What a finish answers. -/
structure FinishAnswer where
  message : Message
  releasedClaims : List ReleasedClaim
  session : Session

/-- The answer of a finish after its transaction.  A retry reads the log at one
moment, and the claims at a later one. -/
def answerFinish (outcome : FinishOutcome) (logged listed : Workspace) : Result FinishAnswer :=
  if outcome.retry then do
    let workspaceId := outcome.session.workspaceId
    let releasedClaims ← reconstructFinishRetry (allEvents logged workspaceId)
      (listed.claims.list.filter fun c => c.workspaceId = workspaceId) outcome.session
      outcome.message
    return ⟨outcome.message, releasedClaims, outcome.session⟩
  else
    return ⟨outcome.message, outcome.releasedClaims.map projectReleasedClaim, outcome.session⟩

/-! ## The pages amount to the log -/

variable {w w' : Workspace}

omit [LinearOrder ReceiptId] in
/-- Behind the end of a page is what the page left out. -/
theorem filter_lt_getLast {entries : List (Nat × Event)} {last : Nat × Event} {n : Nat}
    (hsorted : entries.Pairwise fun e e' => e.1 < e'.1)
    (hlast : (entries.take n).getLast? = some last) :
    entries.filter (fun e => last.1 < e.1) = entries.drop n := by
  obtain ⟨front, hfront⟩ := List.getLast?_eq_some_iff.mp hlast
  have hsplit : entries = front ++ [last] ++ entries.drop n := by
    rw [← hfront, List.take_append_drop]
  rw [hsplit] at hsorted
  obtain ⟨hbefore, -, hacross⟩ := List.pairwise_append.mp hsorted
  conv_lhs => rw [hsplit]
  rw [List.filter_append, List.filter_eq_nil_iff.mpr, List.filter_eq_self.mpr, List.nil_append]
  · intro e he
    simpa using hacross last (by simp) e he
  · intro e he
    rcases List.mem_append.mp he with he | he
    · have := (List.pairwise_append.mp hbefore).2.2 e he last (by simp)
      simp only [decide_eq_true_eq]
      omega
    · rw [List.mem_singleton.mp he]
      simp

/-- The events of the workspace behind a cursor. -/
def behind (w : Workspace) (workspaceId : Id) (cursor : Nat) : List (Nat × Event) :=
  w.events.entries.filter fun e => cursor < e.1 ∧ e.2.workspaceId = workspaceId

theorem behind_sorted {workspaceId : Id} {cursor : Nat} :
    (behind w workspaceId cursor).Pairwise fun e e' => e.1 < e'.1 :=
  (List.pairwise_map.mp w.events.keys_pairwise).filter _

theorem pagesFrom_eq {workspaceId : Id} {fuel : Nat} {cursor : Option Nat}
    (hfuel : (behind w workspaceId (cursor.getD 0)).length < fuel) :
    pagesFrom w workspaceId fuel cursor =
      (behind w workspaceId (cursor.getD 0)).map Prod.snd := by
  induction fuel generalizing cursor with
  | zero => omega
  | succ fuel ih =>
      have hpage : eventsSince w workspaceId cursor retryPageSize =
          (behind w workspaceId (cursor.getD 0)).take retryPageSize := rfl
      rw [pagesFrom]
      split
      next hnone =>
        rw [hpage, List.getLast?_eq_none_iff, List.take_eq_nil_iff] at hnone
        rw [hnone.resolve_left (by decide)]
        rfl
      next last hlast =>
        rw [hpage] at hlast
        have hrest : behind w workspaceId last.1 =
            (behind w workspaceId (cursor.getD 0)).drop retryPageSize := by
          rw [← filter_lt_getLast behind_sorted hlast, behind, behind, List.filter_filter]
          refine List.filter_congr fun e he => ?_
          have hmem := List.mem_of_getLast? hlast
          have hafter := (List.mem_filter.mp ((List.take_sublist _ _).subset hmem)).2
          simp only [decide_eq_true_eq] at hafter
          rw [Bool.eq_iff_iff]
          simp only [decide_eq_true_eq, Bool.and_eq_true]
          exact ⟨fun h => ⟨h.1, hafter.1.trans h.1, h.2⟩, fun h => ⟨h.1, h.2.2⟩⟩
        have hshort : (behind w workspaceId last.1).length < fuel := by
          have hne : behind w workspaceId (cursor.getD 0) ≠ [] := by
            intro hnil
            rw [hnil] at hlast
            cases hlast
          have hpos := List.length_pos_iff.mpr hne
          rw [hrest, List.length_drop, retryPageSize]
          omega
        rw [@ih (some last.1) hshort, hpage, Option.getD_some, hrest, ← List.map_append,
          List.take_append_drop]

/-! ## What the log says -/

/-- What the log has of the messages and of the claims. -/
structure Logged (w : Workspace) : Prop where
  home : ∀ k e, w.events.get? k = some e → 0 < k ∧ e.workspaceId = w.workspaceId
  recorded : ∀ e ∈ w.history, ∀ i, recordedMessageId e = some i → w.messages.get? i ≠ none
  /-- The last event that says what a claim holds says what it holds now. -/
  claims : ∀ c ∈ w.claims, factsOf w.history c.claimId = some (c.claimId, c.resource, c.mode)
  /-- A sender uses a client id for one message. -/
  sent : ∀ m ∈ w.messages, ∀ m' ∈ w.messages, m.fromParticipantId = m'.fromParticipantId →
    m.clientMessageId = m'.clientMessageId → m = m'

omit [LinearOrder ReceiptId] in
theorem factsOf_append {events rest : List Event} {claimId : Id} :
    factsOf (events ++ rest) claimId = (factsOf rest claimId).or (factsOf events claimId) := by
  rw [factsOf, List.filterMap_append, List.reverse_append, List.find?_append]
  rfl

omit [LinearOrder ReceiptId] in
theorem factsOf_untold {events rest : List Event} {claimId : Id}
    (h : ∀ e ∈ rest, claimFacts e = none) : factsOf (events ++ rest) claimId =
      factsOf events claimId := by
  rw [factsOf_append, factsOf, List.filterMap_eq_nil_iff.mpr h]
  rfl

omit [LinearOrder ReceiptId] in
theorem claimFacts_of_tellsOpen {e : Event} (h : tellsOpen e = true) : claimFacts e = none := by
  cases hpayload : e.payload <;> simp_all [tellsOpen, claimFacts]

theorem logged_initial (workspaceId : Id) : Logged (.initial workspaceId) := by
  constructor
  · intro k e h
    cases h
  · intro e he
    cases he
  · intro c hc
    exact absurd hc Keyed.mem_empty
  · intro m hm
    exact absurd hm Keyed.mem_empty

/-- An event that says nothing of messages and claims. -/
theorem Logged.append (h : Logged w) {e : Event} (he : e.workspaceId = w.workspaceId)
    (hmessage : recordedMessageId e = none) (hclaim : claimFacts e = none) :
    Logged (w.append e) := by
  refine { h with home := ?_, recorded := ?_, claims := ?_ }
  · intro k e' hget
    rw [Workspace.append_events, Table.get?_insert] at hget
    split at hget
    next hk =>
      cases hget
      exact ⟨by omega, he⟩
    next => exact h.home k e' hget
  · intro e' he' i hi
    rw [Workspace.history_append, List.mem_append, List.mem_singleton] at he'
    rcases he' with he' | rfl
    · exact h.recorded e' he' i hi
    · rw [hmessage] at hi
      cases hi
  · intro c hc
    rw [Workspace.history_append, factsOf_untold (by simpa using hclaim)]
    exact h.claims c hc

theorem Logged.message (h : Logged w) (hhome : Homed w) {m : Message} {recipients : List Id}
    {now : Timestamp} (hm : NewMessage w m recipients) :
    Logged (recordedMessage w m recipients now) := by
  have hhistory : (recordedMessage w m recipients now).history = w.history ++
      [⟨m.workspaceId, m.fromSessionId, now,
        .messageRecorded m.messageId m.threadId recipients⟩] := Workspace.history_append (w := w)
  constructor
  · intro k e hget
    rw [recordedMessage, Table.get?_insert] at hget
    split at hget
    next hk =>
      cases hget
      exact ⟨by omega, hm.home⟩
    next => exact h.home k e hget
  · intro e he i hi
    rw [hhistory, List.mem_append, List.mem_singleton] at he
    rcases he with he | rfl
    · exact Keyed.get?_put_ne_none (h.recorded e he i hi)
    · cases hi
      simp [recordedMessage]
  · intro c hc
    rw [hhistory, factsOf_untold (by simp [claimFacts])]
    exact h.claims c hc
  · intro m₁ hm₁ m₂ hm₂ hsender hclient
    rcases Keyed.mem_put.mp hm₁ with rfl | ⟨hold₁, -⟩ <;>
      rcases Keyed.mem_put.mp hm₂ with rfl | ⟨hold₂, -⟩
    · rfl
    · exact absurd hclient.symm
        (hm.unsent m₂ hold₂ ((hhome.messages m₂ hold₂).trans hm.home.symm) hsender.symm)
    · exact absurd hclient
        (hm.unsent m₁ hold₁ ((hhome.messages m₁ hold₁).trans hm.home.symm) hsender)
    · exact h.sent m₁ hold₁ m₂ hold₂ hsender hclient

/-- A claim is filed, with the event that says what it holds. -/
theorem Logged.claim (h : Logged w) {r : Claim} {e : Event} (he : e.workspaceId = w.workspaceId)
    (hfacts : claimFacts e = some (r.claimId, r.resource, r.mode)) :
    Logged ((w.putClaim r).append e) := by
  refine { h with home := ?_, recorded := ?_, claims := ?_ }
  · intro k e' hget
    rw [Workspace.append_events, Table.get?_insert] at hget
    split at hget
    next hk =>
      cases hget
      exact ⟨by omega, he⟩
    next => exact h.home k e' hget
  · intro e' he' i hi
    rw [Workspace.history_append, List.mem_append, List.mem_singleton] at he'
    rcases he' with he' | rfl
    · exact h.recorded e' he' i hi
    · rw [recordedMessageId_of_claimFacts hfacts] at hi
      cases hi
  · intro c hc
    rw [Workspace.history_append, factsOf_append]
    rcases Keyed.mem_put.mp hc with rfl | ⟨hc, hne⟩
    · simp [factsOf, hfacts]
    · have hother : factsOf [e] c.claimId = none := by
        simp [factsOf, hfacts, Ne.symm hne]
      rw [hother]
      exact h.claims c hc

theorem Logged.write (h : Logged w) (hhome : Homed w) (hwrite : Write w w') : Logged w' := by
  cases hwrite with
  | opened _ he hopen _ =>
      exact Logged.append (w := w.putSession _) { h with } he (recordedMessageId_of_tellsOpen hopen)
        (claimFacts_of_tellsOpen hopen)
  | claim _ _ _ he hfacts => exact h.claim he hfacts
  | @renewed c r hc hid _ _ hresource hmode =>
      refine { h with claims := ?_ }
      intro c' hc'
      rcases Keyed.mem_put.mp hc' with rfl | ⟨hc', -⟩
      · rw [hid, hresource, hmode]
        exact h.claims c hc
      · exact h.claims c' hc'
  | release =>
      refine { h with claims := ?_ }
      intro c hc
      exact h.claims c (Keyed.mem_remove.mp hc).1
  | message hm => exact h.message hhome hm
  | event he hplain => exact h.append he hplain.message hplain.claim
  | _ => exact { h with }

theorem Unpruned.logged (h : Unpruned w) : Logged w :=
  h.write_invariant logged_initial (fun _ _ hhome _ hw hwrite => hw.write hhome hwrite)
    fun _ _ _ hw => { hw with }

/-- A retry reads the whole log. -/
theorem allEvents_eq (h : Logged w) : allEvents w w.workspaceId = w.history := by
  have hbehind : behind w w.workspaceId 0 = w.events.entries := by
    rw [behind, List.filter_eq_self]
    intro e he
    simpa using h.home e.1 e.2 (Table.mem_entries.mp he)
  rw [allEvents, pagesFrom_eq (by rw [Option.getD_none, hbehind]; omega), Option.getD_none,
    hbehind]
  rfl

/-! ## After a finish -/

/-- A later workspace: nothing was pruned, and no event opens the session. -/
structure Later (sessionId : Id) (w w' : Workspace) : Prop where
  run : ∃ actions, Run (Library.Where Step fun _ action => action.isPrune = false) w actions w'
  unopened : ∀ e ∈ w'.history.drop w.history.length, opens sessionId e = false

/-- The session is closed, the message is there, and so is whom it is for. -/
structure Ended (session : Session) (toParticipantId : Option String) (message : Message)
    (w : Workspace) : Prop where
  current : ∃ c, w.sessions.get? session.sessionId = some c ∧ SameLife session c ∧
    c.state = .closed
  message : message ∈ w.messages
  addressee : ∀ name, toParticipantId = some name →
    ∃ p ∈ w.participants, p.participantId.val = name
  materialised : isMaterialised w w.workspaceId = true

/-- No claim is the session's. -/
def Unowned (sessionId : Id) (w : Workspace) : Prop :=
  ∀ c ∈ w.claims, c.ownerSessionId ≠ sessionId

variable {session : Session} {sessionId : Id} {toParticipantId : Option String} {message : Message}

/-- A closed session is written again as a closed one. -/
theorem Ended.write (h : Ended session toParticipantId message w) (hwrite : Write w w')
    (hunopened : ∀ e ∈ w'.history.drop w.history.length,
      opens session.sessionId e = false) : Ended session toParticipantId message w' := by
  obtain ⟨c, hc, hsame, hclosed⟩ := h.current
  cases hwrite with
  | workspace => exact { h with materialised := Keyed.isSome_get?_put h.materialised }
  | participant _ hnew =>
      refine { h with addressee := ?_ }
      intro name hname
      obtain ⟨p, hp, hid⟩ := h.addressee name hname
      exact ⟨p, Keyed.mem_put.mpr (Or.inr ⟨hp, Keyed.get?_eq_none.mp hnew p hp⟩), hid⟩
  | @opened r e _ _ hopen hactor =>
      refine { h with current := ⟨c, ?_, hsame, hclosed⟩ }
      have hne : r.sessionId ≠ session.sessionId := by
        intro heq
        have := hunopened e (by rw [Workspace.history_append]; simp [Workspace.history])
        simp [opens, hopen, hactor, heq] at this
      exact (Keyed.get?_put_ne hne).trans hc
  | @session c' r hcurrent hlife _ hstate =>
      by_cases hid : c'.sessionId = session.sessionId
      · rw [hid, hc] at hcurrent
        cases hcurrent
        refine { h with current := ⟨r, ?_, ?_, ?_⟩ }
        · rw [← hid, ← hlife.sessionId]
          exact Keyed.get?_put_self
        · exact ⟨hlife.sessionId.trans hsame.sessionId, hlife.generation.trans hsame.generation,
            hlife.participantId.trans hsame.participantId,
            hlife.workspaceId.trans hsame.workspaceId⟩
        · refine hstate.resolve_right fun hopened => ?_
          rw [hclosed] at hopened
          cases hopened
      · refine { h with current := ⟨c, ?_, hsame, hclosed⟩ }
        exact (Keyed.get?_put_ne (hlife.sessionId ▸ hid)).trans hc
  | message hm =>
      refine { h with message := ?_ }
      exact Keyed.mem_put.mpr (Or.inr ⟨h.message, Keyed.get?_eq_none.mp hm.fresh _ h.message⟩)
  | _ => exact { h with }

/-- A closed session files no claim. -/
theorem Ended.unowned (h : Ended session toParticipantId message w)
    (hw : Unowned session.sessionId w) (hwrite : Write w w') : Unowned session.sessionId w' := by
  obtain ⟨c, hc, hsame, hclosed⟩ := h.current
  cases hwrite with
  | @claim r e s _ howner hopen _ _ =>
      intro c' hc'
      rcases Keyed.mem_put.mp hc' with rfl | ⟨hc', -⟩
      · intro heq
        rw [heq, hc] at howner
        cases howner
        rw [hclosed] at hopen
        cases hopen
      · exact hw c' hc'
  | @renewed c' r hc' _ _ howner _ _ =>
      intro c'' hc''
      rcases Keyed.mem_put.mp hc'' with rfl | ⟨hc'', -⟩
      · rw [howner]
        exact hw c' hc'
      · exact hw c'' hc''
  | release =>
      intro c' hc'
      exact hw c' (Keyed.mem_remove.mp hc').1
  | _ => exact hw

namespace Later

theorem history (h : Later sessionId w w') (hhome : Homed w) (hlinked : Linked w) :
    w.history <+: w'.history := by
  obtain ⟨actions, hrun⟩ := h.run
  exact unpruned_run (I := fun u => w.history <+: u.history)
    (fun _ _ _ _ hu hwrite => hu.trans hwrite.history) (fun _ _ _ hu => hu) hrun hhome hlinked
    List.prefix_rfl

/-- What a write keeps that does not open the session, holds later. -/
theorem keeps {I : Workspace → Prop} (h : Later sessionId w w') (hhome : Homed w)
    (hlinked : Linked w)
    (hwrite : ∀ u u', I u → Write u u' →
      (∀ e ∈ u'.history.drop u.history.length, opens sessionId e = false) → I u')
    (hearlier : ∀ u (r : Receipt), I u → I (u.putReceipt { r with obligation := none }))
    (hw : I w) : I w' := by
  obtain ⟨actions, hrun⟩ := h.run
  have hkept : w.history <+: w'.history ∧
      ((∀ e ∈ w'.history.drop w.history.length, opens sessionId e = false) → I w') := by
    refine unpruned_run (I := fun u => w.history <+: u.history ∧
      ((∀ e ∈ u.history.drop w.history.length, opens sessionId e = false) → I u))
      ?_ ?_ hrun hhome hlinked ⟨List.prefix_rfl, fun _ => hw⟩
    · intro u u' _ _ ⟨hgrows, hu⟩ hstep
      refine ⟨hgrows.trans hstep.history, fun hunopened => ?_⟩
      obtain ⟨events, hevents⟩ := hstep.history
      have hdrop : u'.history.drop w.history.length =
          u.history.drop w.history.length ++ events := by
        rw [← hevents, List.drop_append_of_le_length hgrows.length_le]
      rw [hdrop] at hunopened
      refine hwrite u u' (hu fun e he => hunopened e (List.mem_append_left _ he)) hstep ?_
      intro e he
      rw [← hevents, List.drop_left] at he
      exact hunopened e (List.mem_append_right _ he)
    · intro u r _ ⟨hgrows, hu⟩
      exact ⟨hgrows, fun hunopened => hearlier u r (hu hunopened)⟩
  exact hkept.2 h.unopened

theorem ended (h : Later session.sessionId w w') (hhome : Homed w) (hlinked : Linked w)
    (hw : Ended session toParticipantId message w) : Ended session toParticipantId message w' :=
  h.keeps (I := Ended session toParticipantId message) hhome hlinked
    (fun _ _ hu hwrite hunopened => hu.write hwrite hunopened) (fun _ _ hu => { hu with }) hw

theorem unowned (h : Later session.sessionId w w') (hhome : Homed w) (hlinked : Linked w)
    (hw : Ended session toParticipantId message w) (howned : Unowned session.sessionId w) :
    Unowned session.sessionId w' := by
  have hboth : Ended session toParticipantId message w' ∧ Unowned session.sessionId w' :=
    h.keeps (I := fun u => Ended session toParticipantId message u ∧ Unowned session.sessionId u)
      hhome hlinked
      (fun _ _ hu hwrite hunopened => ⟨hu.1.write hwrite hunopened, hu.1.unowned hu.2 hwrite⟩)
      (fun _ _ hu => ⟨{ hu.1 with }, hu.2⟩) ⟨hw, howned⟩
  exact hboth.2

theorem unpruned (h : Later sessionId w w') (hw : Unpruned w) : Unpruned w' := by
  obtain ⟨workspaceId, before, hbefore⟩ := hw
  obtain ⟨actions, hrun⟩ := h.run
  exact ⟨workspaceId, _, hbefore.append hrun⟩

theorem workspaceId (h : Later sessionId w w') (hhome : Homed w) (hlinked : Linked w) :
    w'.workspaceId = w.workspaceId :=
  h.keeps (I := fun u => u.workspaceId = w.workspaceId) hhome hlinked
    (fun _ _ hu hwrite _ => hwrite.workspaceId.trans hu) (fun _ _ hu => hu) rfl

end Later

/-! ## A longer log -/

variable {events rest : List Event} {claims claims' : List Claim} {session' : Session}
  {released : List ReleasedClaim}

omit [LinearOrder ReceiptId] in
/-- What a retry found when it answers. -/
theorem reconstructFinishRetry_eq_ok :
    reconstructFinishRetry events claims session message = .ok released ↔
      ∃ recordedIndex closedOffset releaseIndexes,
        events.findIdx? (records session message) = some recordedIndex ∧
        session.state = .closed ∧
        (∀ e ∈ events.drop (recordedIndex + 1), opens session.sessionId e = false) ∧
        (events.drop (recordedIndex + 1)).findIdx? (closes session.sessionId) =
          some closedOffset ∧
        correlatedReleaseIndexes events recordedIndex (recordedIndex + closedOffset + 1) session
          message = .ok releaseIndexes ∧
        none ∉ releaseIndexes.map (claimProjection events) ∧
        (∀ c ∈ claims, c.ownerSessionId ≠ session.sessionId) ∧
        (releaseIndexes.map (claimProjection events)).reduceOption = released := by
  rw [reconstructFinishRetry]
  cases hrecorded : events.findIdx? (records session message) with
  | none => simp
  | some recordedIndex =>
      cases hclosed : (events.drop (recordedIndex + 1)).findIdx? (closes session.sessionId) with
      | none => simp [hclosed]
      | some closedOffset =>
          simp [hclosed]

omit [LinearOrder ReceiptId] in
theorem claimProjection_append {i : Nat} (h : claimProjection events i ≠ none) :
    claimProjection (events ++ rest) i = claimProjection events i := by
  have hi : i < events.length := by
    by_contra hlong
    exact h (by rw [claimProjection, List.getElem?_eq_none (by omega)]; rfl)
  rw [claimProjection, claimProjection, List.getElem?_append_left hi,
    List.take_append_of_le_length (by omega)]

omit [LinearOrder ReceiptId] in
theorem correlatedReleaseIndexes_append {recordedIndex closedIndex : Nat}
    (h : closedIndex < events.length) :
    correlatedReleaseIndexes (events ++ rest) recordedIndex closedIndex session message =
      correlatedReleaseIndexes events recordedIndex closedIndex session message := by
  rw [correlatedReleaseIndexes, correlatedReleaseIndexes, List.getElem?_append_left h,
    List.take_append_of_le_length (by omega)]

omit [LinearOrder ReceiptId] in
/-- A retry finds the same in a longer log. -/
theorem reconstructFinishRetry_append (hopened : ∀ e ∈ rest, opens session.sessionId e = false)
    (hunowned : ∀ c ∈ claims', c.ownerSessionId ≠ session.sessionId)
    (h : reconstructFinishRetry events claims session message = .ok released) :
    reconstructFinishRetry (events ++ rest) claims' session message = .ok released := by
  obtain ⟨recordedIndex, closedOffset, releaseIndexes, hrecorded, hstate, hlater, hcloses,
    hcorrelated, hprojected, -, hreleased⟩ := reconstructFinishRetry_eq_ok.mp h
  obtain ⟨hrecordedIndex, -⟩ := List.findIdx?_eq_some_iff_getElem.mp hrecorded
  obtain ⟨hclosedOffset, -⟩ := List.findIdx?_eq_some_iff_getElem.mp hcloses
  rw [List.length_drop] at hclosedOffset
  have hdrop : (events ++ rest).drop (recordedIndex + 1) =
      events.drop (recordedIndex + 1) ++ rest := List.drop_append_of_le_length (by omega)
  have hprojections : releaseIndexes.map (claimProjection (events ++ rest)) =
      releaseIndexes.map (claimProjection events) := by
    refine List.map_congr_left fun i hi => claimProjection_append fun hnone => hprojected ?_
    exact List.mem_map.mpr ⟨i, hi, hnone⟩
  refine reconstructFinishRetry_eq_ok.mpr
    ⟨recordedIndex, closedOffset, releaseIndexes, ?_, hstate, ?_, ?_, ?_, ?_, hunowned, ?_⟩
  · rw [List.findIdx?_append, hrecorded]
    rfl
  · rw [hdrop]
    intro e he
    rcases List.mem_append.mp he with he | he
    · exact hlater e he
    · exact hopened e he
  · rw [hdrop, List.findIdx?_append, hcloses]
    rfl
  · rw [correlatedReleaseIndexes_append (by omega), hcorrelated]
  · rw [hprojections]
    exact hprojected
  · rw [hprojections]
    exact hreleased

omit [LinearOrder ReceiptId] in
/-- A retry looks at the id of its session, the generation and the state. -/
theorem reconstructFinishRetry_congr (hsame : SameLife session session')
    (hstate : session'.state = session.state) :
    reconstructFinishRetry events claims session' message =
      reconstructFinishRetry events claims session message := by
  have hrecords : records session' message = records session message := by
    funext e
    rw [records, records, hsame.sessionId]
  have hrelease : isOwnRelease session' = isOwnRelease session := by
    funext e
    rw [isOwnRelease, isOwnRelease, hsame.sessionId]
  have hcorrelated : ∀ recordedIndex closedIndex,
      correlatedReleaseIndexes events recordedIndex closedIndex session' message =
        correlatedReleaseIndexes events recordedIndex closedIndex session message := by
    intro recordedIndex closedIndex
    rw [correlatedReleaseIndexes, correlatedReleaseIndexes, hrelease, hsame.generation]
  rw [reconstructFinishRetry, reconstructFinishRetry, hrecords, hstate, hsame.sessionId]
  simp only [hcorrelated]

/-! ## The log of a finish -/

/-- The event of a claim that is given up on finishing. -/
def finishRelease (now : Timestamp) (session : Session) (claim : Claim) : Event :=
  ⟨session.workspaceId, session.sessionId, now,
    .claimReleased claim.claimId none none claim.generation⟩

/-- The events of a finish behind that of its message. -/
def finishEvents (now : Timestamp) (session : Session) (message : Message)
    (releasedClaims : List Claim) : List Event :=
  releasedClaims.map (finishRelease now session) ++
    [⟨session.workspaceId, session.sessionId, now,
      .sessionFinished message.messageId session.generation (releasedClaims.map Claim.claimId)⟩]

variable {now : Timestamp} {current : Session} {releasedClaims : List Claim}

theorem foldl_releaseFinished_history :
    (releasedClaims.foldl (releaseFinished now session) w).history =
      w.history ++ releasedClaims.map (finishRelease now session) := by
  induction releasedClaims generalizing w with
  | nil => simp
  | cons c cs ih =>
      rw [List.foldl_cons, ih, releaseFinished, Workspace.history_append]
      simp [finishRelease, Workspace.history]

theorem closeFinished_history :
    (closeFinished w now session current message releasedClaims).history =
      w.history ++ finishEvents now session message releasedClaims := by
  rw [closeFinished, Workspace.history_append, finishEvents, ← List.append_assoc,
    ← foldl_releaseFinished_history]
  rfl

omit [LinearOrder ReceiptId] in
theorem finishRelease_projection {before : List Event} {recorded : Event} {claim : Claim} {i : Nat}
    (hrecorded : claimFacts recorded = none) (hi : releasedClaims[i]? = some claim)
    (hfacts : factsOf before claim.claimId = some (claim.claimId, claim.resource, claim.mode)) :
    claimProjection (before ++ recorded :: finishEvents now session message releasedClaims)
      (before.length + i + 1) = some (projectReleasedClaim claim) := by
  have hlt : i < releasedClaims.length := (List.getElem?_eq_some_iff.mp hi).1
  have hrelease : (before ++ recorded :: finishEvents now session message
      releasedClaims)[before.length + i + 1]? = some (finishRelease now session claim) := by
    rw [List.getElem?_append_right (by omega),
      show before.length + i + 1 - before.length = i + 1 by omega, List.getElem?_cons_succ,
      finishEvents, List.getElem?_append_left (by simpa using hlt), List.getElem?_map, hi]
    rfl
  have htake : (before ++ recorded :: finishEvents now session message releasedClaims).take
      (before.length + i + 1 + 1) =
        before ++ recorded :: (releasedClaims.take (i + 1)).map (finishRelease now session) := by
    rw [List.take_append, List.take_of_length_le (by omega),
      show before.length + i + 1 + 1 - before.length = i + 1 + 1 by omega, List.take_succ_cons,
      finishEvents, List.take_append_of_le_length (by simpa using hlt), List.map_take]
  have huntold : ∀ e ∈ recorded :: (releasedClaims.take (i + 1)).map (finishRelease now session),
      claimFacts e = none := by
    intro e he
    rcases List.mem_cons.mp he with rfl | he
    · exact hrecorded
    · obtain ⟨c, -, rfl⟩ := List.mem_map.mp he
      rfl
  rw [claimProjection, hrelease, htake]
  simp only [Option.bind_eq_bind, Option.bind_some, releasedClaimId, finishRelease]
  rw [factsOf_untold huntold, hfacts]
  rfl

omit [LinearOrder ReceiptId] in
/-- Between the message and the close are the releases. -/
theorem finish_correlated {before : List Event} {recorded : Event}
    (hnodup : (releasedClaims.map Claim.claimId).Nodup) :
    correlatedReleaseIndexes (before ++ recorded :: finishEvents now session message releasedClaims)
      before.length (before.length + releasedClaims.length + 1) session message =
        .ok ((List.range releasedClaims.length).map fun offset => before.length + offset + 1) := by
  have hlength : (before ++ recorded :: releasedClaims.map (finishRelease now session)).length =
      before.length + releasedClaims.length + 1 := by
    simp
    omega
  have hsplit : before ++ recorded :: finishEvents now session message releasedClaims =
      (before ++ recorded :: releasedClaims.map (finishRelease now session)) ++
        [⟨session.workspaceId, session.sessionId, now, .sessionFinished message.messageId
          session.generation (releasedClaims.map Claim.claimId)⟩] := by
    simp [finishEvents]
  have hbetween : (before ++ recorded :: releasedClaims.map (finishRelease now session)).drop
      (before.length + 1) = releasedClaims.map (finishRelease now session) := by
    rw [List.drop_append, List.drop_eq_nil_of_le (by omega)]
    simp
  have hids : (releasedClaims.map (finishRelease now session)).filterMap releasedClaimId =
      releasedClaims.map Claim.claimId := by
    rw [List.filterMap_map, ← List.filterMap_eq_map]
    rfl
  have hown : (releasedClaims.map (finishRelease now session)).all (isOwnRelease session) =
      true := by
    simp [isOwnRelease, finishRelease]
  rw [correlatedReleaseIndexes, hsplit, ← hlength, List.getElem?_concat_length, List.take_left,
    hbetween]
  simp only [Option.map_some, hids, hown]
  simp [hnodup, refuse]

omit [LinearOrder ReceiptId] in
/-- A retry reads off the log of a finish what the finish released. -/
theorem reconstructFinishRetry_finish {before : List Event} {recorded : Event}
    (hmessage : recordedMessageId recorded = some message.messageId)
    (hactor : recorded.actorSessionId = session.sessionId)
    (hfresh : ∀ e ∈ before, recordedMessageId e ≠ some message.messageId)
    (hfacts : ∀ c ∈ releasedClaims,
      factsOf before c.claimId = some (c.claimId, c.resource, c.mode))
    (hnodup : (releasedClaims.map Claim.claimId).Nodup) (hstate : session.state = .closed)
    (hunowned : ∀ c ∈ claims, c.ownerSessionId ≠ session.sessionId) :
    reconstructFinishRetry (before ++ recorded :: finishEvents now session message releasedClaims)
      claims session message = .ok (releasedClaims.map projectReleasedClaim) := by
  have hclaim : claimFacts recorded = none := by
    cases hpayload : recorded.payload <;> simp_all [recordedMessageId, claimFacts]
  have hdrop : (before ++ recorded :: finishEvents now session message releasedClaims).drop
      (before.length + 1) = finishEvents now session message releasedClaims := by
    rw [List.drop_append, List.drop_eq_nil_of_le (by omega)]
    simp
  have hprojections : ((List.range releasedClaims.length).map fun offset =>
      before.length + offset + 1).map (claimProjection
        (before ++ recorded :: finishEvents now session message releasedClaims)) =
      releasedClaims.map fun c => some (projectReleasedClaim c) := by
    refine List.ext_getElem (by simp) fun i hi _ => ?_
    have hi : i < releasedClaims.length := by simpa using hi
    simp only [List.getElem_map, List.getElem_range]
    exact finishRelease_projection hclaim (List.getElem?_eq_getElem hi)
      (hfacts _ (List.getElem_mem hi))
  refine reconstructFinishRetry_eq_ok.mpr
    ⟨before.length, releasedClaims.length, (List.range releasedClaims.length).map fun offset =>
      before.length + offset + 1, ?_, hstate, ?_, ?_, finish_correlated hnodup, ?_, hunowned, ?_⟩
  · rw [List.findIdx?_append, List.findIdx?_eq_none_iff.mpr, List.findIdx?_cons]
    · simp [records, hmessage, hactor]
    · intro e he
      simp [records, hfresh e he]
  · rw [hdrop]
    intro e he
    rcases List.mem_append.mp he with he | he
    · obtain ⟨c, -, rfl⟩ := List.mem_map.mp he
      rfl
    · rw [List.mem_singleton.mp he]
      rfl
  · rw [hdrop, finishEvents, List.findIdx?_append, List.findIdx?_eq_none_iff.mpr]
    · simp [List.findIdx?_cons, closes, tellsClose]
    · intro e he
      obtain ⟨c, -, rfl⟩ := List.mem_map.mp he
      rfl
  · rw [hprojections]
    simp
  · rw [hprojections]
    simp [List.reduceOption]

/-! ## What a finish leaves -/

variable {ports : Ports} {input : FinishInput} {outcome : FinishOutcome}

/-- A session that is located belongs to the workspace that was named. -/
theorem locateSession_workspaceId {workspaceId : Option Id}
    (h : locateSession w sessionId workspaceId = some session) :
    session.workspaceId = workspaceId.getD w.workspaceId := by
  simp only [locateSession] at h
  split at h
  next durable hdurable =>
    cases h
    exact of_decide_eq_true (Option.filter_eq_some_iff.mp hdurable).2
  next => exact of_decide_eq_true (Option.filter_eq_some_iff.mp h).2

/-- A call for a durable object finds the workspace record, or materialises. -/
theorem ensureMaterialised_eq_ok {home : Id} {descriptor : Option Descriptor} {reason : String}
    (h : ensureMaterialised w ports home descriptor reason = .ok w') :
    (isMaterialised w home = true ∧ w' = w) ∨
      (isMaterialised w home = false ∧ ∃ w₂, Promoted w ports.now home reason none w₂ ∧
        w' = retireEphemeral w₂ w.ephemeral) := by
  rw [ensureMaterialised] at h
  split at h
  next hdone =>
    cases h
    exact Or.inl ⟨hdone, rfl⟩
  next hbare =>
    simp only [bind_eq_ok, pure_eq_ok, materialise] at h
    obtain ⟨_, ⟨⟨w₂, joined⟩, htx, rfl⟩, rfl⟩ := h
    have hjoined : joined = true := by
      have htx := Workspace.transaction_eq_ok htx
      simp only [Option.all_none, if_true, bind_eq_ok, pure_eq_ok, Prod.mk.injEq] at htx
      obtain ⟨_, _, _, _, _, hjoined⟩ := htx
      exact hjoined.symm
    subst hjoined
    exact Or.inr ⟨by simpa using hbare, w₂, materialiseTransaction_eq_ok htx, rfl⟩

/-- The durable session after materialising is the one that was located. -/
theorem located_current {workspaceId : Option Id} {descriptor : Option Descriptor}
    {reason : String} (hhome : Homed w)
    (hlocated : locateSession w sessionId workspaceId = some session)
    (h : ensureMaterialised w ports session.workspaceId descriptor reason = .ok w')
    (hcurrent : w'.sessions.get? session.sessionId = some current) : current = session := by
  have hid := locateSession_sessionId hlocated
  have hsource : w'.sessions.get? sessionId = w.sessions.get? sessionId ∨
      w'.sessions.get? sessionId =
        (w.sessions.get? sessionId).or (w.ephemeral.sessions.get? sessionId) := by
    rcases ensureMaterialised_eq_ok h with ⟨-, rfl⟩ | ⟨-, w₂, hpromoted, rfl⟩
    · exact Or.inl rfl
    · exact Or.inr (hpromoted.sessions sessionId)
  rw [hid] at hcurrent
  have hlocal := hhome.located hlocated
  rw [locateSession] at hlocated
  split at hlocated
  next durable hdurable =>
    cases hlocated
    have hget := (Option.filter_eq_some_iff.mp hdurable).1
    rw [hget] at hsource
    rcases hsource with hsource | hsource <;> rw [hsource] at hcurrent <;> cases hcurrent <;> rfl
  next hnone =>
    obtain ⟨hget, hresolved⟩ := Option.filter_eq_some_iff.mp hlocated
    have hfree : w.sessions.get? sessionId = none := by
      cases hdurable : w.sessions.get? sessionId with
      | none => rfl
      | some durable =>
          rw [hdurable, Option.filter_eq_none_iff] at hnone
          have hhomed := hhome.sessions durable (Keyed.mem_of_get? hdurable)
          refine absurd ?_ (hnone durable rfl)
          rw [hhomed]
          rwa [hlocal] at hresolved
    rw [hfree, hget] at hsource
    rcases hsource with hsource | hsource <;> rw [hsource] at hcurrent <;> cases hcurrent
    rfl

/-- What a message has of the session and the input of its finish. -/
structure Sent (session : Session) (input : FinishInput) (message : Message) : Prop where
  sessionId : session.sessionId = input.sessionId
  generation : session.generation = input.generation
  sender : message.fromParticipantId = session.participantId
  fromSessionId : message.fromSessionId = session.sessionId
  clientMessageId : message.clientMessageId = input.clientMessageId
  content : logicalContent message = normalizedContent (finishMessage input)

/-- A finish that was answered: the session is closed, and a retry finds the
message in the records and the released claims in the log. -/
structure FinishKept (session : Session) (input : FinishInput) (message : Message)
    (released : List ReleasedClaim) (w : Workspace) : Prop where
  home : input.workspaceId.getD w.workspaceId = w.workspaceId
  sent : Sent session input message
  ended : Ended session input.toParticipantId message w
  unowned : Unowned session.sessionId w
  told : reconstructFinishRetry w.history [] { session with state := .closed } message =
    .ok released

/-- What later writes do to an answered finish. -/
theorem FinishKept.later (h : FinishKept session input message released w) (hw : Unpruned w)
    (hlater : Later session.sessionId w w') : FinishKept session input message released w' := by
  have hhome := hw.reachable.homed
  have hlinked := hw.reachable.linked
  obtain ⟨rest, hrest⟩ := hlater.history hhome hlinked
  refine ⟨?_, h.sent, hlater.ended hhome hlinked h.ended,
    hlater.unowned hhome hlinked h.ended h.unowned, ?_⟩
  · rw [hlater.workspaceId hhome hlinked]
    exact h.home
  · rw [← hrest]
    refine reconstructFinishRetry_append ?_ (by simp) h.told
    have hunopened := hlater.unopened
    rw [← hrest, List.drop_left] at hunopened
    exact hunopened

theorem resolveAddressees_known
    (hknown : ∀ name, toParticipantId = some name →
      ∃ p ∈ w.participants, p.participantId.val = name) :
    resolveAddressees w toParticipantId.toList session = .ok toParticipantId.toList := by
  cases toParticipantId with
  | none => rfl
  | some name =>
      obtain ⟨p, hp, hid⟩ := hknown name rfl
      have hany : (w.participants.list.any fun p => decide (p.participantId.val = name)) = true :=
        List.any_eq_true.mpr ⟨p, Keyed.mem_list.mpr hp, by simpa using hid⟩
      simp [resolveAddressees, resolveAddressee, hany]

/-- The message a finish prepares. -/
theorem prepareMessage_finish {prepared : MessageInput}
    (hresolved : resolveAddressees w input.toParticipantId.toList session =
      .ok input.toParticipantId.toList)
    (h : prepareMessage w session (finishMessage input) = .ok prepared) :
    prepared = finishMessage input := by
  have hnames : (finishMessage input).toParticipantIds = input.toParticipantId.toList := rfl
  rw [prepareMessage, hnames, hresolved] at h
  simp only [prepareDecisionChange, bind_eq_ok, finishMessage, Except.ok.injEq] at h
  obtain ⟨_, rfl, _, _, h⟩ := h
  simp only [Option.or_none, pure_eq_ok] at h
  exact h.symm

theorem closeFinished_claims :
    (closeFinished w now session current message releasedClaims).claims =
      w.claims.removeAll (releasedClaims.map Claim.claimId) := by
  have hfold : ∀ u : Workspace, (releasedClaims.foldl (releaseFinished now session) u).claims =
      u.claims.removeAll (releasedClaims.map Claim.claimId) := by
    induction releasedClaims with
    | nil => intro u; rfl
    | cons c cs ih =>
        intro u
        rw [List.foldl_cons, ih]
        rfl
  exact hfold w

theorem closeFinished_sessions :
    (closeFinished w now session current message releasedClaims).sessions =
      w.sessions.put { current with state := .closed, heartbeatAt := now } := by
  rw [closeFinished, Workspace.append_sessions, Workspace.putSession_sessions,
    foldl_untouched (g := Workspace.sessions) (f := releaseFinished now session) fun _ _ => rfl]

/-- The transaction of a finish, which finds its message or records it. -/
theorem finishTransaction_eq_ok
    (hresolved : resolveAddressees w input.toParticipantId.toList session =
      .ok input.toParticipantId.toList)
    (h : finishTransaction w ports session input = .ok (w', outcome)) :
    ∃ current, w.sessions.get? session.sessionId = some current ∧
      ((∃ message, Resent w session (finishMessage input) message ∧
          message.fromSessionId = session.sessionId ∧ w' = w ∧
          outcome = ⟨true, message, [], current⟩) ∨
        (∃ message recipients, Prepared w session (finishMessage input) (finishMessage input) ∧
          findMessageRetry w session (finishMessage input) = .ok none ∧
          messageRecord w session (finishMessage input) ports.now (ports.ids .message 0) =
            .ok message ∧
          addressedRecipients w message session = .ok recipients ∧
          w.messages.get? message.messageId = none ∧
          w' = closeFinished (recordedMessage w message recipients ports.now) ports.now session
            current message (w.claims.list.filter fun c =>
              c.ownerSessionId = session.sessionId) ∧
          outcome = ⟨false, message,
            w.claims.list.filter fun c => c.ownerSessionId = session.sessionId,
            { current with state := .closed, heartbeatAt := ports.now }⟩)) := by
  have h := Workspace.transaction_eq_ok h
  dsimp only at h
  split at h
  next => cases h
  next current hcurrent =>
    refine ⟨current, (Option.filter_eq_some_iff.mp hcurrent).1, ?_⟩
    have hnames : (finishMessage input).toParticipantIds = input.toParticipantId.toList := rfl
    rw [hnames, hresolved] at h
    simp only [bind_eq_ok, Except.ok.injEq] at h
    obtain ⟨_, rfl, existing, hexisting, h⟩ := h
    cases existing with
    | some existing =>
        simp only [bind_eq_ok, refuse_eq_ok, not_not, pure_eq_ok, Prod.mk.injEq] at h
        obtain ⟨_, hfrom, rfl, rfl⟩ := h
        exact Or.inl ⟨existing, findMessageRetry_some hexisting, hfrom, rfl, rfl⟩
    | none =>
        simp only [bind_eq_ok, pure_eq_ok, Prod.mk.injEq] at h
        obtain ⟨_, _, ⟨w₁, recorded⟩, hrecorded, rfl, rfl⟩ := h
        obtain ⟨_, prepared, hprepared, hcases⟩ := recordMessage_eq_ok hrecorded
        obtain rfl := prepareMessage_finish hresolved hprepared
        rcases hcases with ⟨message, hfound, -, -⟩ |
          ⟨message, recipients, hretry, hmessage, hrecipients, hfresh, rfl, rfl⟩
        · exact absurd (hexisting.symm.trans hfound) (by simp)
        · exact Or.inr ⟨message, recipients, prepareMessage_eq_ok hprepared, hretry, hmessage,
            hrecipients, hfresh, rfl, rfl⟩

theorem recordMessage_participants {raw : MessageInput} {messageId : Id} {action : String}
    {done : Recorded}
    (h : recordMessageInTransaction w session raw now messageId action = .ok (w', done)) :
    w'.participants = w.participants := by
  obtain ⟨_, _, _, hcases⟩ := recordMessage_eq_ok h
  rcases hcases with ⟨_, _, rfl, _⟩ | ⟨_, _, _, _, _, _, rfl, _⟩
  · rfl
  · rfl

/-- What closing a session and giving up its claims leaves alone. -/
theorem closeFinished_other {β : Type} {g : Workspace → β}
    (hsession : ∀ w r, g (w.putSession r) = g w) (hclaim : ∀ w i, g (w.removeClaim i) = g w)
    (hevent : ∀ w e, g (w.append e) = g w) :
    g (closeFinished w now session current message releasedClaims) = g w := by
  have hrelease : ∀ u c, g (releaseFinished now session u c) = g u := by
    intro u c
    rw [releaseFinished, hevent, hclaim]
  rw [closeFinished, hevent, hsession, foldl_untouched hrelease]

theorem finishTransaction_participants
    (h : finishTransaction w ports session input = .ok (w', outcome)) :
    w'.participants = w.participants := by
  have h := Workspace.transaction_eq_ok h
  dsimp only at h
  split at h
  next => cases h
  next =>
    simp only [bind_eq_ok] at h
    obtain ⟨_, _, existing, _, h⟩ := h
    cases existing with
    | some existing =>
        simp only [bind_eq_ok, pure_eq_ok, Prod.mk.injEq] at h
        rw [h.choose_spec.2.1]
    | none =>
        simp only [bind_eq_ok, pure_eq_ok, Prod.mk.injEq] at h
        obtain ⟨_, _, ⟨w₁, recorded⟩, hrecorded, rfl, -⟩ := h
        rw [closeFinished_other (g := Workspace.participants) (fun _ _ => rfl) (fun _ _ => rfl)
          fun _ _ => rfl, recordMessage_participants hrecorded]

theorem Logged.writes (h : Logged w) (hhome : Homed w) (hwrites : Writes w w') : Logged w' := by
  have hboth : Homed w' ∧ Logged w' := by
    induction hwrites with
    | refl => exact ⟨hhome, h⟩
    | tail _ hone ih => exact ⟨(hone.changes ih.1).homed ih.1, ih.2.write ih.1 hone⟩
  exact hboth.2

/-- The one message of its sender under a client id is found. -/
theorem retryAmong_sent {raw : MessageInput} {candidates : List Id} (hlogged : Logged w)
    (hmem : message ∈ w.messages) (hhome : message.workspaceId = session.workspaceId)
    (hsender : message.fromParticipantId = session.participantId)
    (hclient : message.clientMessageId = raw.clientMessageId)
    (hcontent : logicalContent message = normalizedContent raw)
    (hcandidate : message.messageId ∈ candidates) :
    retryAmong w session raw candidates = .ok (some message) := by
  induction candidates with
  | nil => cases hcandidate
  | cons candidate candidates ih =>
      rw [retryAmong]
      split
      next hnone =>
        refine ih ((List.mem_cons.mp hcandidate).resolve_left fun heq => ?_)
        rw [← heq, Keyed.mem_def.mp hmem, Option.filter_eq_none_iff] at hnone
        exact hnone message rfl (by simp [hhome, hsender, hclient])
      next existing hexisting =>
        obtain ⟨hget, hmatch⟩ := Option.filter_eq_some_iff.mp hexisting
        simp only [decide_eq_true_eq] at hmatch
        obtain rfl := hlogged.sent existing (Keyed.mem_of_get? hget) message hmem
          (hmatch.2.1.trans hsender.symm) (hmatch.2.2.trans hclient.symm)
        rw [if_pos hcontent]

theorem findMessageRetry_sent {raw : MessageInput} (hlogged : Logged w)
    (hmem : message ∈ w.messages) (hhome : message.workspaceId = session.workspaceId)
    (hsender : message.fromParticipantId = session.participantId)
    (hclient : message.clientMessageId = raw.clientMessageId)
    (hcontent : logicalContent message = normalizedContent raw) :
    findMessageRetry w session raw = .ok (some message) :=
  retryAmong_sent hlogged hmem hhome hsender hclient hcontent
    (mem_lookupMessages.mpr
      ⟨message, hmem, messageByClientKey_mem.mpr ⟨hhome, hsender, hclient⟩, rfl⟩)

/-- A retry of an answered finish finds its message and writes nothing. -/
theorem FinishKept.finishSession (h : FinishKept session input message released w)
    (ports : Ports) (hw : Unpruned w) :
    ∃ current, SameLife session current ∧ current.state = .closed ∧
      Core.finishSession w ports input = .ok (w, ⟨true, message, [], current⟩) := by
  obtain ⟨current, hcurrent, hsame, hclosed⟩ := h.ended.current
  have hhome := hw.reachable.homed
  have hlocal : current.workspaceId = w.workspaceId :=
    hhome.sessions current (Keyed.mem_of_get? hcurrent)
  have hid : current.sessionId = session.sessionId := hsame.sessionId
  have hgeneration : current.generation = input.generation :=
    hsame.generation.trans h.sent.generation
  have hlocated : locateSession w input.sessionId input.workspaceId = some current := by
    rw [locateSession, ← h.sent.sessionId, hcurrent, h.home]
    simp [Option.filter, hlocal]
  have hrequired : requireSession w input.sessionId input.workspaceId input.generation "finish"
      false = .ok current := by
    rw [requireSession, hlocated]
    simp [Option.filter, hgeneration]
  have hensured : ensureMaterialised w ports current.workspaceId input.descriptor
      "durable_object" = .ok w := by
    rw [ensureMaterialised, hlocal, if_pos h.ended.materialised]
  have hfound : findMessageRetry w current (finishMessage input) = .ok (some message) :=
    findMessageRetry_sent hw.logged h.ended.message
      ((hhome.messages message h.ended.message).trans hlocal.symm)
      (h.sent.sender.trans hsame.participantId.symm) h.sent.clientMessageId h.sent.content
  have hnames : (finishMessage input).toParticipantIds = input.toParticipantId.toList := rfl
  refine ⟨current, hsame, hclosed, ?_⟩
  rw [Core.finishSession, hrequired]
  simp only [Except.bind, bind, hensured]
  rw [finishTransaction, Workspace.transaction]
  simp only [hid, hcurrent, Option.filter, decide_true, if_true, hnames,
    resolveAddressees_known h.ended.addressee, bind, Except.bind]
  rw [show ({ finishMessage input with toParticipantIds := input.toParticipantId.toList } :
    MessageInput) = finishMessage input from rfl, hfound]
  simp [h.sent.fromSessionId, refuse, pure, Except.pure]

/-- A finish that records its message is answered as it commits. -/
theorem answered_finish {messageId : Id} (recipients : List Id) (hlogged : Logged w)
    (hhome : input.workspaceId.getD w.workspaceId = w.workspaceId)
    (hid : session.sessionId = input.sessionId) (hgeneration : session.generation = input.generation)
    (hmaterialised : isMaterialised w w.workspaceId = true)
    (haddressee : ∀ name, input.toParticipantId = some name →
      ∃ p ∈ w.participants, p.participantId.val = name)
    (hmessage : messageRecord w session (finishMessage input) now messageId = .ok message)
    (hfresh : w.messages.get? message.messageId = none)
    (hreleased : releasedClaims = w.claims.list.filter fun c =>
      c.ownerSessionId = session.sessionId) :
    FinishKept session input message (releasedClaims.map projectReleasedClaim)
      (closeFinished (recordedMessage w message recipients now) now session session message
        releasedClaims) := by
  have hstored := messageRecord_eq_ok hmessage
  have hfrom := messageRecord_fromSessionId hmessage
  have hmine : ∀ c, c ∈ releasedClaims ↔ c ∈ w.claims ∧ c.ownerSessionId = session.sessionId := by
    intro c
    rw [hreleased, List.mem_filter, Keyed.mem_list, decide_eq_true_eq]
  have hrecorded : recordedMessageId ⟨message.workspaceId, message.fromSessionId, now,
      .messageRecorded message.messageId message.threadId recipients⟩ =
        some message.messageId := rfl
  refine ⟨?_, ?_, ⟨?_, ?_, ?_, ?_⟩, ?_, ?_⟩
  · rw [closeFinished_other (g := Workspace.workspaceId) (fun _ _ => rfl) (fun _ _ => rfl)
      fun _ _ => rfl]
    exact hhome
  · exact ⟨hid, hgeneration, hstored.sender, hfrom, hstored.clientMessageId, hstored.content⟩
  · refine ⟨{ session with state := .closed, heartbeatAt := now }, ?_, ⟨rfl, rfl, rfl, rfl⟩, rfl⟩
    rw [closeFinished_sessions]
    exact Keyed.get?_put_self
      (r := ({ session with state := .closed, heartbeatAt := now } : Session))
  · rw [closeFinished_other (g := Workspace.messages) (fun _ _ => rfl) (fun _ _ => rfl)
      fun _ _ => rfl]
    exact Keyed.mem_put.mpr (Or.inl rfl)
  · rw [closeFinished_other (g := Workspace.participants) (fun _ _ => rfl) (fun _ _ => rfl)
      fun _ _ => rfl]
    exact haddressee
  · rw [closeFinished_other (g := fun w => isMaterialised w w.workspaceId) (fun _ _ => rfl)
      (fun _ _ => rfl) fun _ _ => rfl]
    exact hmaterialised
  · intro c hc
    rw [closeFinished_claims, Keyed.mem_removeAll] at hc
    intro howner
    exact hc.2 (List.mem_map_of_mem ((hmine c).mpr ⟨hc.1, howner⟩))
  · rw [closeFinished_history, show (recordedMessage w message recipients now).history =
      w.history ++ [⟨message.workspaceId, message.fromSessionId, now,
        .messageRecorded message.messageId message.threadId recipients⟩] from
          Workspace.history_append (w := w), List.append_assoc, List.singleton_append]
    refine @reconstructFinishRetry_finish { session with state := .closed } _ _ _ _ _ _ hrecorded
      hfrom ?_ ?_ ?_ rfl (by simp)
    · intro e he heq
      exact hlogged.recorded e he _ heq hfresh
    · intro c hc
      exact hlogged.claims c ((hmine c).mp hc).1
    · rw [hreleased]
      exact w.claims.keys_nodup.sublist (List.filter_sublist.map _)

theorem Unpruned.finished (hw : Unpruned w)
    (h : Core.finishSession w ports input = .ok (w', outcome)) : Unpruned w' := by
  have hcall : w.call ports (.finishSession input) = .ok w' := by
    rw [Workspace.call, h]
    rfl
  exact hw.call hcall

/-- What holds once a finish has answered. -/
theorem finishSession_answered {logged listed : Workspace} {answer : FinishAnswer}
    (hw : Unpruned w) (h : finishSession w ports input = .ok (w', outcome))
    (haddressee : ∀ name, input.toParticipantId = some name →
      ∃ p ∈ w'.participants, p.participantId.val = name)
    (hlogged : Later input.sessionId w' logged) (hlisted : Later input.sessionId logged listed)
    (hanswer : answerFinish outcome logged listed = .ok answer) :
    ∃ session, session.sessionId = input.sessionId ∧
      FinishKept session input answer.message answer.releasedClaims listed := by
  have hhome := hw.reachable.homed
  have hcommitted : Unpruned w' := hw.finished h
  have hlater : Unpruned logged := hlogged.unpruned hcommitted
  have hhome' := hcommitted.reachable.homed
  have hlinked' := hcommitted.reachable.linked
  simp only [finishSession, bind_eq_ok] at h
  obtain ⟨session, hsession, w₁, hensured, htx⟩ := h
  obtain ⟨hlocated, hgeneration, -⟩ := requireSession_eq_ok hsession
  have hlocal := hhome.located hlocated
  have hid := locateSession_sessionId hlocated
  have hwrites := ensureMaterialised_writes hhome hlocal hensured
  have hparticipants := finishTransaction_participants htx
  rw [hparticipants] at haddressee
  obtain ⟨current, hcurrent, hcases⟩ :=
    finishTransaction_eq_ok (resolveAddressees_known haddressee) htx
  obtain rfl := located_current hhome hlocated hensured hcurrent
  have hmaterialised : isMaterialised w₁ w₁.workspaceId = true := by
    rw [hwrites.workspaceId, ← hlocal]
    exact ensureMaterialised_record hensured
  have hresolved : input.workspaceId.getD w₁.workspaceId = w₁.workspaceId := by
    rw [hwrites.workspaceId, ← locateSession_workspaceId hlocated, hlocal]
  refine ⟨current, hid, ?_⟩
  rw [← hid] at hlogged hlisted
  rcases hcases with ⟨message, hresent, hfrom, rfl, rfl⟩ |
    ⟨message, recipients, hprepared, -, hmessage, hrecipients, hfresh, rfl, rfl⟩
  · -- The retry of an earlier finish: what it read tells that the session is closed.
    simp only [answerFinish, if_true, bind_eq_ok, pure_eq_ok] at hanswer
    obtain ⟨released, hreconstructed, rfl⟩ := hanswer
    obtain ⟨_, _, _, _, hclosed, _, _, _, _, hunowned, _⟩ :=
      reconstructFinishRetry_eq_ok.mp hreconstructed
    have hended : Ended current input.toParticipantId message w' :=
      ⟨⟨current, hcurrent, ⟨rfl, rfl, rfl, rfl⟩, hclosed⟩, hresent.mem, haddressee, hmaterialised⟩
    have hendedLogged := hlogged.ended hhome' hlinked' hended
    have hendedListed := hlisted.ended hlater.reachable.homed hlater.reachable.linked hendedLogged
    have hhome₂ := (hlisted.unpruned hlater).reachable.homed
    have hlistedId : listed.workspaceId = current.workspaceId := by
      rw [hlisted.workspaceId hlater.reachable.homed hlater.reachable.linked,
        hlogged.workspaceId hhome' hlinked', hwrites.workspaceId, hlocal]
    have hloggedId : logged.workspaceId = current.workspaceId := by
      rw [hlogged.workspaceId hhome' hlinked', hwrites.workspaceId, hlocal]
    rw [← hloggedId, allEvents_eq hlater.logged] at hreconstructed
    obtain ⟨rest, hrest⟩ := hlisted.history hlater.reachable.homed hlater.reachable.linked
    refine ⟨?_, ?_, hendedListed, ?_, ?_⟩
    · rw [hlistedId]
      rwa [hwrites.workspaceId, ← hlocal] at hresolved
    · exact ⟨hid, hgeneration, hresent.sender, hfrom, hresent.clientMessageId, hresent.content⟩
    · intro c hc
      refine hunowned c (List.mem_filter.mpr ⟨Keyed.mem_list.mpr hc, ?_⟩)
      simp [hhome₂.claims c hc, hlistedId]
    · rw [@reconstructFinishRetry_congr current _ _ _ { current with state := .closed }
        ⟨rfl, rfl, rfl, rfl⟩ hclosed.symm, ← hrest]
      refine reconstructFinishRetry_append ?_ (by simp) hreconstructed
      have hunopened := hlisted.unopened
      rw [← hrest, List.drop_left] at hunopened
      exact hunopened
  · cases hanswer
    have hlog := hw.logged.writes hhome hwrites
    have hkept := answered_finish recipients hlog hresolved hid hgeneration hmaterialised
      haddressee hmessage hfresh rfl
    exact (hkept.later hcommitted hlogged).later hlater hlisted

/-- What a retry answers. -/
theorem FinishKept.answer {logged listed : Workspace} (hw : Unpruned logged)
    (hlogged : FinishKept session input message released logged)
    (hlisted : FinishKept session input message released listed) (hsame : SameLife session current)
    (hclosed : current.state = .closed) :
    answerFinish ⟨true, message, [], current⟩ logged listed =
      .ok ⟨message, released, current⟩ := by
  have hlocal : current.workspaceId = logged.workspaceId := by
    obtain ⟨c, hc, hlife, -⟩ := hlogged.ended.current
    rw [hsame.workspaceId, ← hlife.workspaceId]
    exact hw.reachable.homed.sessions c (Keyed.mem_of_get? hc)
  have htold := hlogged.told
  rw [@reconstructFinishRetry_congr current _ _ _ { session with state := .closed } ⟨hsame.sessionId.symm,
      hsame.generation.symm, hsame.participantId.symm, hsame.workspaceId.symm⟩ hclosed.symm]
    at htold
  have hretold := @reconstructFinishRetry_append _ _ _ [] _
    (listed.claims.list.filter fun c => c.workspaceId = current.workspaceId) _
    (by simp) (fun c hc => ?_) htold
  · rw [List.append_nil] at hretold
    simp only [answerFinish, if_true, hlocal, allEvents_eq hw.logged] at hretold ⊢
    rw [hretold]
    rfl
  · rw [hsame.sessionId]
    exact hlisted.unowned c (Keyed.mem_list.mp (List.mem_filter.mp hc).1)

/-- A retry of a finish answers what the finish answered and writes nothing, as
long as nothing is pruned and the session is not opened again. -/
theorem finishSession_retry {logged listed : Workspace} {w₁ w₂ : Workspace} {answer : FinishAnswer}
    (hw : Unpruned w) (h : finishSession w ports input = .ok (w₁, outcome))
    (haddressee : ∀ name, input.toParticipantId = some name →
      ∃ p ∈ w₁.participants, p.participantId.val = name)
    (hlogged : Later input.sessionId w₁ logged) (hlisted : Later input.sessionId logged listed)
    (hanswer : answerFinish outcome logged listed = .ok answer)
    (hlater : Later input.sessionId listed w₂) (ports' : Ports) :
    ∃ outcome', finishSession w₂ ports' input = .ok (w₂, outcome') ∧
      ∀ logged' listed', Later input.sessionId w₂ logged' →
        Later input.sessionId logged' listed' →
        ∃ answer', answerFinish outcome' logged' listed' = .ok answer' ∧
          answer'.message = answer.message ∧
          answer'.releasedClaims = answer.releasedClaims := by
  obtain ⟨session, hid, hkept⟩ :=
    finishSession_answered hw h haddressee hlogged hlisted hanswer
  rw [← hid] at hlogged hlisted hlater
  have hunpruned₁ : Unpruned w₁ := hw.finished h
  have hunprunedListed := hlisted.unpruned (hlogged.unpruned hunpruned₁)
  have hunpruned₂ := hlater.unpruned hunprunedListed
  have hkept₂ := hkept.later hunprunedListed hlater
  obtain ⟨current, hsame, hclosed, hfinish⟩ := hkept₂.finishSession ports' hunpruned₂
  refine ⟨_, hfinish, ?_⟩
  intro logged' listed' hlogged' hlisted'
  rw [← hid] at hlogged' hlisted'
  have hkeptLogged := hkept₂.later hunpruned₂ hlogged'
  have hunprunedLogged := hlogged'.unpruned hunpruned₂
  have hkeptListed := hkeptLogged.later hunprunedLogged hlisted'
  exact ⟨_, hkeptLogged.answer hunprunedLogged hkeptListed hsame hclosed, rfl, rfl⟩

end

/-! ## A finish and its retry -/

/-- A session asks for resources. -/
def sampleAsk (sessionId generation : Id) (mode : ClaimMode) : AcquireInput :=
  ⟨sessionId, none, generation, some mode, some 60, none, "editing", none⟩

/-- Ports under which every claim has an id of its own. -/
def sampleClaimPorts (now : Timestamp) : Ports where
  now := now
  pidIsAlive := fun _ => true
  ids := fun
    | .claim, 0 => ⟨"claim_1", by decide⟩
    | .claim, _ => ⟨"claim_2", by decide⟩
    | _, _ => ⟨"drawn", by decide⟩

/-- Two sessions open, and the first claims two files. -/
def sampleClaimCalls : List (Ports × Call) :=
  [ (samplePorts 0 ⟨"generation_a", generation_a_portable⟩,
      .openSession (sampleOpen ⟨"session_a", session_a_portable⟩ ⟨"ann", ann_portable⟩ "claude")),
    (samplePorts 10 ⟨"generation_b", generation_b_portable⟩,
      .openSession (sampleOpen ⟨"session_b", session_b_portable⟩ ⟨"bob", bob_portable⟩ "codex")),
    (sampleClaimPorts 20, .acquireClaims
      (sampleAsk ⟨"session_a", session_a_portable⟩ ⟨"generation_a", generation_a_portable⟩ .exclusive)
      ["file:b", "file:a"])]

theorem sampleClaims_runs :
    ((Workspace.initial ⟨"workspace_1", home_portable⟩).calls sampleClaimCalls).toOption.isSome =
      true := by decide +kernel

def sampleClaims : Workspace :=
  ((Workspace.initial ⟨"workspace_1", home_portable⟩).calls sampleClaimCalls).toOption.get
    sampleClaims_runs

theorem sampleClaims_unpruned : Unpruned sampleClaims :=
  (Unpruned.initial _).calls (eq_ok_get sampleClaims_runs)

/-- The first session finishes, and hands over to the other participant. -/
def sampleFinish : FinishInput where
  sessionId := ⟨"session_a", session_a_portable⟩
  workspaceId := none
  generation := ⟨"generation_a", generation_a_portable⟩
  clientMessageId := ⟨"finish_1", by decide⟩
  toParticipantId := some "bob"
  goal := "goal"
  status := none
  completed := []
  remaining := []
  blockers := []
  verification := []
  artifacts := []
  descriptor := none

theorem sampleFinish_runs :
    (finishSession sampleClaims (samplePorts 30 ⟨"message_1", by decide⟩) sampleFinish
      ).toOption.isSome = true := by decide +kernel

def sampleFinished : Workspace × FinishOutcome :=
  (finishSession sampleClaims (samplePorts 30 ⟨"message_1", by decide⟩) sampleFinish).toOption.get
    sampleFinish_runs

/-- The other session takes one of the files. -/
def sampleTake : Call :=
  .acquireClaim (sampleAsk ⟨"session_b", session_b_portable⟩
    ⟨"generation_b", generation_b_portable⟩ .shared) "file:a"

theorem sampleTake_runs :
    (sampleFinished.1.call (sampleClaimPorts 40) sampleTake).toOption.isSome = true := by
  decide +kernel

def sampleTaken : Workspace :=
  (sampleFinished.1.call (sampleClaimPorts 40) sampleTake).toOption.get sampleTake_runs

theorem sampleFinish_answers :
    (answerFinish sampleFinished.2 sampleFinished.1 sampleFinished.1).toOption.isSome = true ∧
      (sampleFinished.1.participants.list.any fun p => p.participantId.val = "bob") = true := by
  decide +kernel

/-- A session finishes with two claims, the other takes one of the files under
the same claim id, and the retry still answers both. -/
theorem finishSession_retry_sample :
    ∃ outcome, finishSession sampleTaken (samplePorts 50 ⟨"message_2", by decide⟩) sampleFinish =
        .ok (sampleTaken, outcome) ∧
      ∃ answer, answerFinish outcome sampleTaken sampleTaken = .ok answer ∧
        answer.releasedClaims =
          [⟨⟨"claim_1", by decide⟩, "file:b", .exclusive⟩,
            ⟨⟨"claim_2", by decide⟩, "file:a", .exclusive⟩] := by
  have hrefl : ∀ w, Later sampleFinish.sessionId w w := fun w =>
    ⟨⟨[], .nil w⟩, by simp⟩
  have hstep : Later sampleFinish.sessionId sampleFinished.1 sampleTaken :=
    ⟨⟨_, .single ⟨rfl, .call (eq_ok_get sampleTake_runs)⟩⟩, by decide +kernel⟩
  have haddressee : ∀ name, sampleFinish.toParticipantId = some name →
      ∃ p ∈ sampleFinished.1.participants, p.participantId.val = name := by
    intro name hname
    cases hname
    obtain ⟨p, hp, hid⟩ := List.any_eq_true.mp sampleFinish_answers.2
    exact ⟨p, Keyed.mem_list.mp hp, of_decide_eq_true hid⟩
  obtain ⟨outcome, hretry, hanswers⟩ := finishSession_retry sampleClaims_unpruned
    (eq_ok_get sampleFinish_runs) haddressee (hrefl _) (hrefl _)
    (eq_ok_get sampleFinish_answers.1) hstep (samplePorts 50 ⟨"message_2", by decide⟩)
  obtain ⟨answer, hanswer, -, hreleased⟩ := hanswers _ _ (hrefl _) (hrefl _)
  refine ⟨outcome, hretry, answer, hanswer, hreleased.trans ?_⟩
  decide +kernel

end Acc.Core
