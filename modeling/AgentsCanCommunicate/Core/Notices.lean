import AgentsCanCommunicate.Core.Attention
import AgentsCanCommunicate.Core.Run
import AgentsCanCommunicate.Library.Recent

/-!
# Notices of left messages

A turn of a session computes its attention, projects as much of it as fits, and
records which left messages were shown.  The record of the session keeps the
newest `noticedLeftLimit` of them, and the next attention leaves out what is
kept.

A left message that was told and then pushed out of the record is told again when
the messages newer than it are resolved, and it is one of the newest once more
(`left_announced_twice`).  In every run in which that does not happen a left
message is told once (`left_announced_once`).
-/

namespace Acc.Core

open Library (Run Where Remembers remember)

section

variable [LinearOrder ReceiptId]

/-! ## Turns -/

/-- A session's turns, with what was told so far. -/
structure Turns where
  workspace : Workspace
  /-- The left messages that a projected attention carried, oldest first. -/
  carried : List Id
  /-- Every notice recorded, oldest first. -/
  log : List String
  /-- The notices shown by a turn that has not recorded them yet. -/
  shown : Option (List String)

def Turns.start (w : Workspace) : Turns := ⟨w, [], [], none⟩

/-- What a turn records of the items it included. -/
def noticesOf (attention included : List AttentionItem) : List String :=
  ((included.map AttentionItem.sourceId).filter fun i => i ∈ leftIds attention).map Id.val

theorem noticesOf_isLeft {attention : List AttentionItem} :
    noticesOf attention (attention.filter isLeft) = (leftIds attention).map Id.val := by
  have hall : ((attention.filter isLeft).map AttentionItem.sourceId).filter
      (fun i => i ∈ leftIds attention) = leftIds attention := by
    refine List.filter_eq_self.mpr fun i hi => decide_eq_true hi
  rw [noticesOf, hall]

/-- The notices that the record of a session keeps. -/
def keptNotices (w : Workspace) (sessionId : Id) : Option (List String) :=
  (locateSession w sessionId none).map Session.noticedLeftMessages

/-- A workspace that has not materialised has no durable record of the session. -/
def Placed (w : Workspace) (sessionId : Id) : Prop :=
  isMaterialised w w.workspaceId = true ∨ w.sessions.get? sessionId = none

instance (w : Workspace) (sessionId : Id) : Decidable (Placed w sessionId) :=
  inferInstanceAs (Decidable (_ ∨ _))

/-- What happens between the steps of a turn leaves the notices of the session
alone.  It is neither opened again nor are notices recorded for it elsewhere. -/
def Undisturbed (sessionId : Id) (w w' : Workspace) : Prop :=
  keptNotices w' sessionId = keptNotices w sessionId ∧ Placed w' sessionId

instance (sessionId : Id) (w w' : Workspace) : Decidable (Undisturbed sessionId w w') :=
  inferInstanceAs (Decidable (_ ∧ _))

inductive TurnLabel where
  /-- A call or a prune of anyone. -/
  | between (action : Action)
  /-- The attention is computed, and these items are projected. -/
  | attend (now : Timestamp) (pidIsAlive : Nat → Bool) (included : List AttentionItem)
  /-- The notices that were shown are recorded. -/
  | record

inductive TurnStep (sessionId generation : Id) : Turns → TurnLabel → Turns → Prop where
  | between {s : Turns} {action : Action} {w' : Workspace} :
      Step s.workspace action w' → Undisturbed sessionId s.workspace w' →
      TurnStep sessionId generation s (.between action) { s with workspace := w' }
  | attend {s : Turns} {now : Timestamp} {pidIsAlive : Nat → Bool}
      {included : List AttentionItem} : s.shown = none →
      included.Subperm (turnAttention s.workspace sessionId now pidIsAlive) →
      TurnStep sessionId generation s (.attend now pidIsAlive included)
        { s with
          carried := s.carried ++ leftIds included
          shown := some (noticesOf (turnAttention s.workspace sessionId now pidIsAlive) included) }
  /-- Nothing was shown, so nothing is recorded. -/
  | quiet {s : Turns} : s.shown = some [] →
      TurnStep sessionId generation s .record { s with shown := none }
  | record {s : Turns} {ids : List String} {w' : Workspace} {r : Session} :
      s.shown = some ids → ids ≠ [] →
      recordNotices s.workspace sessionId (some s.workspace.workspaceId) generation ids =
        .ok (w', r) →
      TurnStep sessionId generation s .record
        { s with workspace := w', log := s.log ++ ids, shown := none }

/-- Another session of the participant remembers the message. -/
def PeerRemembers (w : Workspace) (sessionId : Id) (m : Message) : Prop :=
  ∃ c, locateSession w sessionId none = some c ∧ ∃ peer ∈ (snapshotOf w).sessions,
    peer.participantId = c.participantId ∧ m.messageId.val ∈ peer.noticedLeftMessages

/-- Every message among the newest left ones of which the session was told is one
of the last notices it recorded, or another session of its participant remembers
it. -/
def Recalled (sessionId : Id) (s : Turns) : TurnLabel → Prop
  | .attend now pidIsAlive _ =>
      ∀ m ∈ newestLeft (snapshotOf s.workspace).current
          (viewerOf s.workspace sessionId now pidIsAlive),
        m.messageId ∈ s.carried → m.messageId.val ∈ s.log.rtake noticedLeftLimit ∨
          PeerRemembers s.workspace sessionId m
  | _ => True

/-! ## Recording -/

variable {w w' : Workspace} {sessionId generation : Id} {s t : Turns} {label : TurnLabel}

theorem locateSession_durable {c : Session} (hget : w.sessions.get? sessionId = some c)
    (hhome : c.workspaceId = w.workspaceId) : locateSession w sessionId none = some c := by
  rw [locateSession, hget]
  simp [Option.filter, hhome]

theorem locateSession_alone {c : Session} (hnone : w.sessions.get? sessionId = none)
    (hget : w.ephemeral.sessions.get? sessionId = some c) (hhome : c.workspaceId = w.workspaceId) :
    locateSession w sessionId none = some c := by
  rw [locateSession, hnone, hget]
  simp [Option.filter, hhome]

/-- Recording puts the notices into the memory of the session that is located. -/
theorem recordNotices_eq_ok {ids : List String} {r : Session} (hplaced : Placed w sessionId)
    (h : recordNotices w sessionId (some w.workspaceId) generation ids = .ok (w', r)) :
    ∃ c, locateSession w sessionId none = some c ∧ locateSession w' sessionId none = some r ∧
      r.noticedLeftMessages = remember noticedLeftLimit c.noticedLeftMessages ids ∧
      Placed w' sessionId := by
  simp only [recordNotices, bind_eq_ok, refuse_eq_ok] at h
  obtain ⟨_, _, h⟩ := h
  rw [updateOwn] at h
  split at h
  next c hc =>
    obtain ⟨hget, hlone⟩ := Option.filter_eq_some_iff.mp hc
    simp only [assertHolder, assertGeneration, bind_eq_ok, refuse_eq_ok, pure_eq_ok, not_not,
      Option.getD_some, Prod.mk.injEq] at h
    obtain ⟨_, ⟨_, ⟨_, ⟨_, hhome, _⟩, _⟩, rfl⟩, rfl, rfl⟩ := h
    -- The workspace has not materialised, so there is only the ephemeral record.
    have hnone : w.sessions.get? sessionId = none := by
      refine hplaced.resolve_left fun hmat => ?_
      rw [hhome, hmat] at hlone
      cases hlone
    have hkey : c.sessionId = sessionId := Library.Keyed.key_of_get? hget
    refine ⟨c, locateSession_alone hnone hget hhome, locateSession_alone hnone ?_ hhome, rfl,
      Or.inr hnone⟩
    exact (congrArg _ hkey.symm).trans Library.Keyed.get?_put_self
  next =>
    have h := Workspace.transaction_eq_ok h
    split at h
    next => cases h
    next c hget =>
      simp only [assertHolder, assertGeneration, bind_eq_ok, refuse_eq_ok, pure_eq_ok, not_not,
        Option.getD_some, Prod.mk.injEq] at h
      obtain ⟨_, ⟨_, ⟨_, ⟨_, hhome, _⟩, _⟩, rfl⟩, rfl, rfl⟩ := h
      have hkey : c.sessionId = sessionId := Library.Keyed.key_of_get? hget
      refine ⟨c, locateSession_durable hget hhome, locateSession_durable ?_ hhome, rfl, Or.inl ?_⟩
      · exact (congrArg _ hkey.symm).trans Library.Keyed.get?_put_self
      · refine hplaced.resolve_right fun hnone => ?_
        rw [hget] at hnone
        cases hnone

/-! ## Runs -/

/-- What holds after any number of turns: the record of the session remembers the
log, and nothing was carried twice. -/
structure Announced (sessionId : Id) (s : Turns) : Prop where
  kept : ∃ kept, keptNotices s.workspace sessionId = some kept ∧
    Remembers noticedLeftLimit kept s.log
  placed : Placed s.workspace sessionId
  once : s.carried.Nodup

theorem announced_start {c : Session} (hlocated : locateSession w sessionId none = some c)
    (hplaced : Placed w sessionId) : Announced sessionId (.start w) :=
  ⟨⟨_, congrArg _ hlocated, Library.remembers_nil⟩, hplaced, List.nodup_nil⟩

theorem messages_nodup (w : Workspace) :
    ((snapshotOf w).messages.map Message.messageId).Nodup := w.messages.keys_nodup

/-- What the attention reports is remembered by nobody of the participant. -/
theorem not_remembered {c : Session} (hlocated : locateSession w sessionId none = some c)
    {now : Timestamp} {pidIsAlive : Nat → Bool} {i : Id}
    (h : i ∈ leftIds (turnAttention w sessionId now pidIsAlive)) :
    ∃ m ∈ newestLeft (snapshotOf w).current (viewerOf w sessionId now pidIsAlive),
      m.messageId = i ∧ i.val ∉ c.noticedLeftMessages ∧ ¬PeerRemembers w sessionId m := by
  obtain ⟨m, hm, rfl⟩ := List.mem_map.mp (leftIds_computeAttention.mem_iff.mp h)
  obtain ⟨hnewest, hnot⟩ := List.mem_filter.mp hm
  have hnot := of_decide_eq_true hnot
  simp only [noticedLeft, viewerOf, hlocated, List.mem_flatMap, List.mem_append, not_exists,
    not_and] at hnot
  refine ⟨m, hnewest, rfl, hnot c (Or.inl (by simp)), fun hpeer => ?_⟩
  obtain ⟨c', hc', peer, hmem, hsame, hremembers⟩ := hpeer
  rw [hlocated] at hc'
  cases hc'
  refine hnot peer (Or.inr (List.mem_filter.mpr ⟨hmem, ?_⟩)) hremembers
  simp [hsame]

theorem Announced.step (hstep : TurnStep sessionId generation s label t)
    (hrecalled : Recalled sessionId s label) (hs : Announced sessionId s) :
    Announced sessionId t := by
  obtain ⟨kept, hkept, hremembers⟩ := hs.kept
  cases hstep with
  | between _ hundisturbed =>
      exact ⟨⟨kept, hundisturbed.1.trans hkept, hremembers⟩, hundisturbed.2, hs.once⟩
  | quiet _ => exact ⟨hs.kept, hs.placed, hs.once⟩
  | record _ _ hrecord =>
      obtain ⟨c, hc, hr, hnoticed, hplaced⟩ := recordNotices_eq_ok hs.placed hrecord
      rw [keptNotices, hc, Option.map_some, Option.some.injEq] at hkept
      subst hkept
      refine ⟨⟨_, congrArg _ hr, ?_⟩, hplaced, hs.once⟩
      rw [hnoticed]
      exact hremembers.remember
  | @attend now pidIsAlive included _ hincluded =>
      refine ⟨hs.kept, hs.placed, ?_⟩
      have hleft := leftIds_subperm hincluded
      have hnew : (leftIds included).Nodup := by
        obtain ⟨ids, hperm, hsub⟩ := hleft
        exact hperm.nodup_iff.mp ((leftIds_nodup (messages_nodup s.workspace)).sublist hsub)
      refine List.nodup_append'.mpr ⟨hs.once, hnew, fun i hold hi => ?_⟩
      obtain ⟨c, hc, rfl⟩ := Option.map_eq_some_iff.mp hkept
      obtain ⟨m, hm, rfl, hnot, hpeer⟩ := not_remembered hc (hleft.subset hi)
      rcases hrecalled m hm hold with hrecent | hrecalled
      · exact hnot ((List.drop_sublist _ _).subset (hremembers _ le_rfl _ hrecent))
      · exact hpeer hrecalled

/-- In every run of a session's turns in which the newest left messages that it
was told of are still remembered, no left message is carried twice. -/
theorem left_announced_once {labels : List TurnLabel} {c : Session}
    (hlocated : locateSession w sessionId none = some c) (hplaced : Placed w sessionId)
    (hrun : Run (Where (TurnStep sessionId generation) (Recalled sessionId)) (.start w) labels t) :
    t.carried.Nodup :=
  (hrun.invariant (I := Announced sessionId) (fun _ _ _ hs hstep => hs.step hstep.2 hstep.1)
    (announced_start hlocated hplaced)).once

end

namespace Room

/-! ## A room with notes -/

def ann : Id := ⟨"ann", ann_portable⟩

def bob : Id := ⟨"bob", bob_portable⟩

def carl : Id := ⟨"carl", by decide⟩

def dora : Id := ⟨"dora", by decide⟩

def home : Id := ⟨"workspace_1", home_portable⟩

/-- Four sessions open, and one of them ends. -/
def noteRoomCalls : List (Ports × Call) :=
  let opens := fun i : Id => (samplePorts 0 i, Call.openSession (sampleOpen i i "claude"))
  [opens ann, opens bob, opens carl, opens dora,
    (samplePorts 0 carl, .closeSession carl none carl none)]

theorem noteRoom_runs :
    ((Workspace.initial home).calls noteRoomCalls).toOption.isSome = true := by
  decide +kernel

@[irreducible]
def noteRoom : Workspace :=
  ((Workspace.initial home).calls noteRoomCalls).toOption.get noteRoom_runs

theorem noteRoom_reachable : Reachable noteRoom := by
  rw [noteRoom]
  exact (Reachable.initial _).calls (eq_ok_get noteRoom_runs)

/-- The record of a session that opened. -/
def resident (i : Id) : Session where
  sessionId := i
  participantId := i
  workspaceId := home
  generation := i
  harness := "claude"
  state := .opened
  parentSessionId := none
  checkoutRoot := none
  branch := none
  pid := some 7
  enforcement := .advisory
  lifecycle := .manual
  heartbeatCadenceMs := 60000
  startedAt := 0
  heartbeatAt := 0
  noticedLeftMessages := []
  endReason := none

/-- The records of the other three. -/
def others : List Session := [resident bob, { resident carl with state := .closed }, resident dora]

theorem noteRoom_is : noteRoom.workspaceId = home ∧ isMaterialised noteRoom home = true ∧
    noteRoom.ephemeral.sessions.list = [] ∧ noteRoom.newest = 6 ∧ noteRoom.messages.list = [] ∧ noteRoom.receipts.list = [] ∧
    noteRoom.participants.list.map Participant.participantId = [ann, bob, carl, dora] ∧
    noteRoom.sessions.list = resident ann :: others := by
  decide +kernel

/-- A text of one letter, which no device is called. -/
theorem noteText_portable {n : Nat} (h : n < 199) :
    isPortableId (String.ofList (List.replicate (n + 1) 'n')) = true := by
  have hdevices : (windowsDevices.all fun device => device.toList.any (· != 'n')) = true := by
    decide +kernel
  rw [isPortableId, String.toList_ofList, List.replicate_succ]
  simp only [Bool.and_eq_true, List.all_eq_true]
  refine ⟨⟨⟨⟨by decide, ?_⟩, ?_⟩, ?_⟩, ?_⟩
  · intro c hc
    rw [(List.mem_replicate.mp hc).2]
    decide
  · simp only [List.length_replicate, decide_eq_true_eq]
    omega
  · rw [← List.replicate_succ, List.getLast?_replicate]
    simp
  · rw [← List.replicate_succ, isWindowsDevice, Bool.not_eq_true', List.any_eq_false]
    intro device hdevice heq
    obtain ⟨c, hc, hne⟩ := List.any_eq_true.mp (List.all_eq_true.mp hdevices device hdevice)
    rw [beq_iff_eq.mp heq] at hc
    obtain ⟨d, hd, rfl⟩ := List.mem_map.mp hc
    rw [(List.mem_replicate.mp ((List.takeWhile_sublist _).subset hd)).2] at hne
    exact absurd hne (by decide)

/-- The identifier of a note. -/
def noteId (n : Nat) : Id := sampleId (String.ofList (List.replicate (n + 1) 'n'))

theorem noteId_val {n : Nat} (h : n < 199) :
    (noteId n).val = String.ofList (List.replicate (n + 1) 'n') := by
  rw [noteId, sampleId, dif_pos (noteText_portable h)]

theorem noteId_injective {k n : Nat} (hk : k < 199) (hn : n < 199) (h : (noteId k).val = (noteId n).val) :
    k = n := by
  rw [noteId_val hk, noteId_val hn] at h
  have hlength := congrArg List.length (String.ofList_injective h)
  simpa using hlength

/-- Two days after the sessions opened, all of which have been silent since. -/
def later : Timestamp := 2 * hardExpiryMs

/-- The first note is for the one who ended, and the others are for one who has
been silent for long. -/
def noteRecipient (n : Nat) : Id := if n = 0 then carl else dora

theorem noteRecipient_mem (n : Nat) : noteRecipient n = carl ∨ noteRecipient n = dora := by
  rw [noteRecipient]
  split
  next => exact Or.inl rfl
  next => exact Or.inr rfl

def noteInput (n : Nat) : SendInput :=
  ⟨bob, none, bob, sampleMessage (noteId n) [(noteRecipient n).val] .note .none, none⟩

def noteMessage (n : Nat) : Message where
  messageId := noteId n
  threadId := noteId n
  clientMessageId := noteId n
  workspaceId := home
  fromParticipantId := bob
  fromSessionId := bob
  toParticipantIds := [noteRecipient n]
  kind := .note
  obligation := .none
  subject := "subject"
  body := "body"
  inReplyTo := none
  artifacts := []
  handoff := none
  decisionChange := none
  sentAt := later + n

def noteReceipt (n : Nat) : Receipt :=
  queuedReceipt (noteMessage n) (noteRecipient n) (later + n)

/-- What the first session remembers after it was told of `n` notes. -/
def kept : Nat → List String
  | 0 => []
  | n + 1 => remember noticedLeftLimit (kept n) [(noteId n).val]

def watcher (n : Nat) : Session := { resident ann with noticedLeftMessages := kept n }

/-- One more note is there. -/
def sentTo (w : Workspace) (n : Nat) : Workspace :=
  recordedMessage w (noteMessage n) [noteRecipient n] (later + n)

/-- After `n` notes, of each of which the first session was told. -/
def noted : Nat → Workspace
  | 0 => noteRoom
  | n + 1 => (sentTo (noted n) n).putSession (watcher (n + 1))

/-! ### What is there -/

theorem noted_newest {n : Nat} : (noted n).newest = 6 + n := by
  induction n with
  | zero => exact noteRoom_is.2.2.2.1
  | succ n ih =>
      have hsent : (noted (n + 1)).newest = (noted n).newest + 1 := recordedMessage_newest
      omega

theorem noted_workspaceId {n : Nat} : (noted n).workspaceId = home := by
  induction n with
  | zero => exact noteRoom_is.1
  | succ n ih => exact ih

theorem noted_materialised {n : Nat} : isMaterialised (noted n) home = true := by
  induction n with
  | zero => exact noteRoom_is.2.1
  | succ n ih => exact ih

theorem noted_ephemeral {n : Nat} {i : Id} : (noted n).ephemeral.sessions.get? i = none := by
  induction n with
  | zero =>
      refine Library.Keyed.get?_eq_none.mpr fun s hs => ?_
      rw [← Library.Keyed.mem_list, noted, noteRoom_is.2.2.1] at hs
      cases hs
  | succ n ih => exact ih

theorem noted_participants {n : Nat} : (noted n).participants = noteRoom.participants := by
  induction n with
  | zero => rfl
  | succ n ih => exact ih

theorem noted_sessions {n : Nat} {s : Session} :
    s ∈ (noted n).sessions ↔ s = watcher n ∨ s ∈ others := by
  induction n with
  | zero =>
      rw [← Library.Keyed.mem_list, noted, noteRoom_is.2.2.2.2.2.2.2, List.mem_cons]
      rfl
  | succ n ih =>
      have hput : s ∈ (noted (n + 1)).sessions ↔ s ∈ (noted n).sessions.put (watcher (n + 1)) :=
        Iff.rfl
      have hothers : ∀ s ∈ others, s.sessionId ≠ ann := by decide
      rw [hput, Library.Keyed.mem_put, ih]
      constructor
      · rintro (rfl | ⟨rfl | hs, hne⟩)
        · exact Or.inl rfl
        · exact absurd rfl hne
        · exact Or.inr hs
      · rintro (rfl | hs)
        · exact Or.inl rfl
        · exact Or.inr ⟨Or.inr hs, hothers s hs⟩

theorem noted_watcher {n : Nat} : (noted n).sessions.get? ann = some (watcher n) :=
  Library.Keyed.get?_eq_some.mpr ⟨noted_sessions.mpr (Or.inl rfl), rfl⟩

theorem noted_sender {n : Nat} : (noted n).sessions.get? bob = some (resident bob) :=
  Library.Keyed.get?_eq_some.mpr ⟨noted_sessions.mpr (Or.inr (by simp [others])), rfl⟩

theorem noteId_lt_ne {k n : Nat} (h : n < 199) (hk : k < n) : noteId k ≠ noteId n := by
  intro heq
  have := noteId_injective (by omega) h (congrArg Id.val heq)
  omega

theorem noted_messages {n : Nat} (h : n < 199) {m : Message} :
    m ∈ (noted n).messages ↔ ∃ k < n, m = noteMessage k := by
  induction n with
  | zero =>
      rw [← Library.Keyed.mem_list, noted, noteRoom_is.2.2.2.2.1]
      simp
  | succ n ih =>
      have hput : m ∈ (noted (n + 1)).messages ↔ m ∈ (noted n).messages.put (noteMessage n) :=
        Iff.rfl
      rw [hput, Library.Keyed.mem_put, ih (by omega)]
      constructor
      · rintro (rfl | ⟨⟨k, hk, rfl⟩, -⟩)
        · exact ⟨n, by omega, rfl⟩
        · exact ⟨k, by omega, rfl⟩
      · rintro ⟨k, hk, rfl⟩
        rcases Nat.lt_succ_iff_lt_or_eq.mp hk with hlt | rfl
        · exact Or.inr ⟨⟨k, hlt, rfl⟩, noteId_lt_ne (by omega) hlt⟩
        · exact Or.inl rfl

theorem noted_receipts {n : Nat} (h : n < 199) {r : Receipt} :
    r ∈ (noted n).receipts ↔ ∃ k < n, r = noteReceipt k := by
  induction n with
  | zero =>
      rw [← Library.Keyed.mem_list, noted, noteRoom_is.2.2.2.2.2.1]
      simp
  | succ n ih =>
      have hput : r ∈ (noted (n + 1)).receipts ↔ r ∈ (noted n).receipts.put (noteReceipt n) :=
        Iff.rfl
      rw [hput, Library.Keyed.mem_put, ih (by omega)]
      constructor
      · rintro (rfl | ⟨⟨k, hk, rfl⟩, -⟩)
        · exact ⟨n, by omega, rfl⟩
        · exact ⟨k, by omega, rfl⟩
      · rintro ⟨k, hk, rfl⟩
        rcases Nat.lt_succ_iff_lt_or_eq.mp hk with hlt | rfl
        · refine Or.inr ⟨⟨k, hlt, rfl⟩, fun heq => ?_⟩
          exact noteId_lt_ne (by omega) hlt (congrArg ReceiptId.messageId heq)
        · exact Or.inl rfl

/-! ### One more note -/

theorem noted_requires {n : Nat} :
    requireSession (noted n) bob none bob "send a message" true = .ok (resident bob) := by
  rw [requireSession, locateSession_durable noted_sender noted_workspaceId.symm,
    Option.filter_some, if_pos (by decide)]

theorem recipient_known {n k : Nat} : ∃ p ∈ (noted n).participants.list,
    p.participantId = noteRecipient k := by
  rw [noted_participants, ← List.mem_map, noteRoom_is.2.2.2.2.2.2.1]
  rcases noteRecipient_mem k with h | h <;> simp [h]

theorem noted_prepares {n : Nat} :
    prepareMessage (noted n) (resident bob) (noteInput n).message = .ok (noteInput n).message := by
  have hany : ((noted n).participants.list.any fun p =>
      p.participantId.val = (noteRecipient n).val) = true := by
    obtain ⟨p, hp, hid⟩ := recipient_known (n := n) (k := n)
    exact List.any_eq_true.mpr ⟨p, hp, by simp [hid]⟩
  simp [prepareMessage, noteInput, sampleMessage, resolveAddressees, resolveAddressee, hany,
    prepareDecisionChange]

theorem noted_finds {n : Nat} (h : n < 199) :
    findMessageRetry (noted n) (resident bob) (noteInput n).message = .ok none := by
  have hnone : lookupMessages (noted n) .messageByClientKey
      [home.val, bob.val, (noteId n).val] = [] := by
    refine List.eq_nil_iff_forall_not_mem.mpr fun i hi => ?_
    obtain ⟨m, hm, hkey, -⟩ := mem_lookupMessages.mp hi
    obtain ⟨k, hk, rfl⟩ := (noted_messages h).mp hm
    exact noteId_lt_ne h hk (messageByClientKey_mem.mp hkey).2.2
  exact congrArg (retryAmong _ _ _) hnone

theorem noteMessage_valid {n : Nat} : validateMessage (noteMessage n) = .ok () := by
  have hsubject : line "subject" "subject" = .ok () := by decide +kernel
  have hbody : prose "body" "body" = .ok () := by decide +kernel
  simp [validateMessage, noteMessage, hsubject, hbody, listOf, nullable, assertMessageSemantics,
    validObligations]

theorem noted_record {n : Nat} :
    messageRecord (noted n) (resident bob) (noteInput n).message (later + n) (noteId n) =
      .ok (noteMessage n) := by
  have hvalid := noteMessage_valid (n := n)
  rw [noteMessage] at hvalid
  simp only [messageRecord, noteInput, sampleMessage, threadFor, id, List.zipIdx_cons,
    List.zipIdx_nil, List.mapM_cons, List.mapM_nil, (noteRecipient n).portable, dif_pos, bind_eq_ok,
    pure_eq_ok]
  exact ⟨_, rfl, _, ⟨_, rfl, _, rfl, rfl⟩, (), hvalid, rfl⟩

theorem noted_addresses {n : Nat} :
    addressedRecipients (noted n) (noteMessage n) (resident bob) = .ok [noteRecipient n] := by
  have hknown : (noted n).participants.get? (noteRecipient n) ≠ none := by
    obtain ⟨p, hp, hid⟩ := recipient_known (n := n) (k := n)
    intro hnone
    exact Library.Keyed.get?_eq_none.mp hnone p (Library.Keyed.mem_list.mp hp) hid
  simp [addressedRecipients, noteMessage, hknown]

theorem noted_creates {n : Nat} (h : n < 199) :
    createRecords (noted n) (noteMessage n) [noteRecipient n] (later + n) =
      .ok (sentTo (noted n) n) := by
  have hmessage : (noted n).messages.get? (noteMessage n).messageId = none := by
    refine Library.Keyed.get?_eq_none.mpr fun m hm => ?_
    obtain ⟨k, hk, rfl⟩ := (noted_messages h).mp hm
    exact noteId_lt_ne h hk
  have hreceipt : (noted n).receipts.get?
      (queuedReceipt (noteMessage n) (noteRecipient n) (later + n)).receiptId = none := by
    refine Library.Keyed.get?_eq_none.mpr fun r hr heq => ?_
    obtain ⟨k, hk, rfl⟩ := (noted_receipts h).mp hr
    exact noteId_lt_ne h hk (congrArg ReceiptId.messageId heq)
  simp [createRecords, Workspace.createMessage, Workspace.createReceipt, hmessage, hreceipt]
  rfl

theorem noted_records {n : Nat} (h : n < 199) :
    recordMessageInTransaction (noted n) (resident bob) (noteInput n).message (later + n) (noteId n)
      "send a message" = .ok (sentTo (noted n) n, ⟨noteMessage n, [noteRecipient n], true⟩) := by
  have hcurrent : assertCurrentSession (noted n) (resident bob) "send a message" = .ok () := by
    rw [assertCurrentSession, refuse_eq_ok]
    intro hrefused
    rcases hrefused _ noted_sender with hstate | hgeneration
    · exact hstate rfl
    · exact hgeneration rfl
  simp only [recordMessageInTransaction, hcurrent, noted_prepares, noted_finds h, noted_record,
    noted_addresses, noted_creates h, bind, Except.bind, pure, Except.pure]

theorem noted_send {n : Nat} (h : n < 199) :
    sendMessage (noted n) (samplePorts (later + n) (noteId n)) (noteInput n) =
      .ok (sentTo (noted n) n, noteMessage n) := by
  have hnewest : ¬((noted n).newest < (sentTo (noted n) n).newest ∧
      maxSafe < (sentTo (noted n) n).newest) := by
    rw [sentTo, recordedMessage_newest, noted_newest, maxSafe]
    omega
  have hrequires : requireSession (noted n) (noteInput n).sessionId (noteInput n).workspaceId
      (noteInput n).generation "send a message" true = .ok (resident bob) := noted_requires
  have hmaterialised : isMaterialised (noted n) (resident bob).workspaceId = true :=
    noted_materialised
  simp only [sendMessage, hrequires, ensureMaterialised, hmaterialised, if_true,
    Workspace.transaction, samplePorts, noted_records h, refuse, if_neg hnewest, bind, Except.bind,
    pure, Except.pure]

/-! ### A turn -/

theorem kept_eq {n : Nat} (h : n < 199) :
    kept n = ((List.range n).map fun k => (noteId k).val).rtake noticedLeftLimit := by
  induction n with
  | zero => rfl
  | succ n ih =>
      have hnew : (kept n).filter (fun x => x ∉ [(noteId n).val]) = kept n := by
        refine List.filter_eq_self.mpr fun x hx => ?_
        rw [ih (by omega)] at hx
        obtain ⟨k, hk, rfl⟩ := List.mem_map.mp ((List.drop_sublist _ _).subset hx)
        have hne : (noteId k).val ≠ (noteId n).val := fun heq =>
          noteId_lt_ne (by omega) (List.mem_range.mp hk) (Id.val_injective heq)
        simpa using hne
      have hlimit : [(noteId n).val].length ≤ noticedLeftLimit := Nat.le_add_left 1 63
      rw [kept, remember, hnew, ih (by omega), List.range_succ, List.map_append, List.map_cons,
        List.map_nil, Library.rtake_append_of_ge hlimit, Library.rtake_append_of_ge hlimit,
        Library.rtake_rtake (Nat.sub_le _ _)]

/-- A second later, when the notes are told. -/
def attendTime : Timestamp := later + 1000

/-- What a reading has, in which the first `n` notes are there. -/
structure Notes (snapshot : Snapshot) (viewer : Viewer) (n : Nat) : Prop where
  few : n < 199
  messages : ∀ m, m ∈ snapshot.messages ↔ ∃ k < n, m = noteMessage k
  nodup : snapshot.messages.Nodup
  receipts : ∀ r, r ∈ snapshot.receipts ↔ ∃ k < n, r = noteReceipt k
  participant : viewer.participantId = some ann
  now : viewer.now = attendTime

/-- A note is one that was left when its recipient is away. -/
theorem Notes.qualifies {snapshot : Snapshot} {viewer : Viewer} {n k : Nat}
    (h : Notes snapshot viewer n) (hk : k < n) :
    Core.qualifies snapshot viewer (noteMessage k) =
      decide (noteRecipient k ∉ presentParticipants snapshot viewer fun p => p ≠ .offline) := by
  have hfew := h.few
  have hwaiting : waitingFor snapshot viewer (noteId k) ≠ [] ↔
      noteRecipient k ∉ presentParticipants snapshot viewer fun p => p ≠ .offline := by
    simp only [waitingFor, ne_eq, List.map_eq_nil_iff, List.filter_eq_nil_iff, not_forall,
      decide_eq_true_eq, not_not]
    constructor
    · rintro ⟨r, hr, hid, _, haway⟩
      obtain ⟨j, hj, rfl⟩ := (h.receipts r).mp hr
      have hjk : j = k := noteId_injective (by omega) (by omega) (congrArg Id.val hid)
      rw [← hjk]
      exact haway
    · intro haway
      exact ⟨_, (h.receipts _).mpr ⟨k, hk, rfl⟩, rfl, Or.inl rfl, haway⟩
  have hself : ann ∉ [noteRecipient k] := by
    rcases noteRecipient_mem k with heq | heq <;> rw [heq] <;> decide
  have hrecent : viewer.now - (later + k) < leftMessageWindowMs := by
    have hlittle : (1000 : Int) - k < 7 * 24 * 60 * 60000 := by omega
    rw [h.now, attendTime, add_sub_add_left_eq_sub]
    exact hlittle
  rw [Core.qualifies, decide_eq_decide]
  constructor
  · exact fun hall => hwaiting.mp hall.1
  · intro haway
    refine ⟨hwaiting.mpr haway, List.cons_ne_nil _ _, ?_, ?_, hrecent⟩
    · rw [h.participant]
      exact (by decide : some ann ≠ some bob)
    · intro i hi
      rw [h.participant] at hi
      cases hi
      exact hself

/-- The newest notes come first. -/
theorem Notes.newestLeft {snapshot : Snapshot} {viewer : Viewer} {n : Nat}
    (h : Notes snapshot viewer n) {p : Nat → Bool}
    (hp : ∀ k < n, Core.qualifies snapshot viewer (noteMessage k) = p k) :
    Core.newestLeft snapshot viewer =
      (((List.range n).reverse.filter p).map noteMessage).take leftMessageLimit := by
  have hfew := h.few
  have hmem : ∀ m, m ∈ snapshot.messages.filter (Core.qualifies snapshot viewer) ↔
      m ∈ ((List.range n).reverse.filter p).map noteMessage := by
    intro m
    rw [List.mem_filter, h.messages, List.mem_map]
    constructor
    · rintro ⟨⟨k, hk, rfl⟩, hq⟩
      exact ⟨k, List.mem_filter.mpr ⟨by simpa using hk, by rw [← hp k hk, hq]⟩, rfl⟩
    · rintro ⟨k, hk, rfl⟩
      obtain ⟨hk, hpk⟩ := List.mem_filter.mp hk
      have hk : k < n := by simpa using hk
      exact ⟨⟨k, hk, rfl⟩, by rw [hp k hk, hpk]⟩
  have hsorted : (((List.range n).reverse.filter p).map noteMessage).Pairwise
      fun left right => right.sentAt < left.sentAt := by
    refine List.pairwise_map.mpr ((List.pairwise_reverse.mpr ?_).filter _)
    refine List.pairwise_lt_range.imp fun hlt => ?_
    exact add_lt_add_right (Int.ofNat_lt.mpr hlt) later
  rw [Core.newestLeft]
  congr 1
  refine @List.Perm.eq_of_pairwise _ (fun left right : Message => right.sentAt ≤ left.sentAt) _ _
    ?_ ?_ (hsorted.imp le_of_lt) ?_
  · intro a b ha hb hab hba
    obtain ⟨j, -, rfl⟩ := (h.messages _).mp (List.mem_filter.mp (List.mem_insertionSort _ |>.mp ha)).1
    obtain ⟨k, -, rfl⟩ := List.mem_map.mp hb
    have heq : later + (j : Int) = later + k := le_antisymm hba hab
    rw [Int.ofNat_inj.mp (add_left_cancel heq)]
  · have htotal : Std.Total fun left right : Message => right.sentAt ≤ left.sentAt :=
      ⟨fun left right => le_total right.sentAt left.sentAt⟩
    have htrans : IsTrans Message fun left right => right.sentAt ≤ left.sentAt :=
      ⟨fun _ _ _ hab hbc => le_trans hbc hab⟩
    exact List.pairwise_insertionSort _ _
  · refine (List.perm_insertionSort _ _).trans ((List.perm_ext_iff_of_nodup ?_ ?_).mpr hmem)
    · exact h.nodup.filter _
    · exact hsorted.imp fun hlt heq => absurd (heq ▸ hlt) (lt_irrefl _)

/-- A materialised workspace in which the first `n` notes are there. -/
theorem notes_of {w : Workspace} {n j : Nat} (hfew : n < 199) (hhome : w.workspaceId = home)
    (hmessages : ∀ m, m ∈ w.messages ↔ ∃ k < n, m = noteMessage k)
    (hreceipts : ∀ r, r ∈ w.receipts ↔ ∃ k < n, r = noteReceipt k)
    (hwatcher : w.sessions.get? ann = some (watcher j)) :
    Notes (snapshotOf w).current (viewerOf w ann attendTime fun _ => true) n := by
  have hcurrent : (snapshotOf w).current.messages = w.messages.list := by
    refine List.filter_eq_self.mpr fun m _ => ?_
    rw [decisionView_undecided]
    · rfl
    · intro m hm
      obtain ⟨k, -, rfl⟩ := (hmessages m).mp (Library.Keyed.mem_list.mp hm)
      exact (by decide : MessageKind.note ≠ .decision)
  refine ⟨hfew, ?_, ?_, ?_, ?_, rfl⟩
  · intro m
    rw [hcurrent, Library.Keyed.mem_list, hmessages]
  · rw [hcurrent]
    exact w.messages.list_nodup
  · intro r
    exact Library.Keyed.mem_list.trans (hreceipts r)
  · rw [viewerOf, locateSession_durable hwatcher hhome.symm]
    rfl

theorem sessions_of {w : Workspace} (hhome : w.workspaceId = home)
    (hmaterialised : isMaterialised w home = true) :
    (snapshotOf w).current.sessions = w.sessions.list := by
  simp [snapshotOf, Snapshot.current, hhome, hmaterialised]

/-- What is remembered is what the record of the first session says. -/
theorem mem_noticedLeft {w : Workspace} {j : Nat} (hhome : w.workspaceId = home)
    (hmaterialised : isMaterialised w home = true)
    (hwatcher : w.sessions.get? ann = some (watcher j))
    (hothers : ∀ s ∈ w.sessions, s.participantId = ann → s = watcher j) {x : String} :
    x ∈ noticedLeft (snapshotOf w).current (viewerOf w ann attendTime fun _ => true) ↔
      x ∈ kept j := by
  have hviewer : viewerOf w ann attendTime (fun _ => true) =
      ⟨some (watcher j), some ann, attendTime, fun _ => true⟩ := by
    rw [viewerOf, locateSession_durable hwatcher hhome.symm]
    rfl
  rw [noticedLeft, hviewer, sessions_of hhome hmaterialised, List.mem_flatMap]
  constructor
  · rintro ⟨s, hs, hx⟩
    rcases List.mem_append.mp hs with hs | hs
    · rw [List.mem_singleton.mp hs] at hx
      exact hx
    · obtain ⟨hs, hann⟩ := List.mem_filter.mp hs
      rw [hothers s (Library.Keyed.mem_list.mp hs) (by simpa using hann : ann = s.participantId).symm] at hx
      exact hx
  · exact fun hx => ⟨watcher j, List.mem_append_left _ (List.mem_singleton_self _), hx⟩

/-- A session whose participant is the first one is the first session. -/
theorem eq_watcher {n : Nat} {s : Session} (hs : s ∈ (noted n).sessions)
    (hann : s.participantId = ann) : s = watcher n := by
  have hothers : ∀ s ∈ others, s.participantId ≠ ann := by decide
  exact (noted_sessions.mp hs).resolve_right fun hs => hothers s hs hann

/-- Everyone has been silent for too long. -/
theorem noted_offline {n : Nat} {s : Session} (hs : s ∈ (noted n).sessions) :
    classifySessionPresence s attendTime (fun _ => true) = .offline := by
  have hothers : ∀ s ∈ others,
      classifySessionPresence s attendTime (fun _ => true) = .offline := by decide
  rcases noted_sessions.mp hs with rfl | hs
  · rfl
  · exact hothers s hs

theorem sentTo_notes {n : Nat} (h : n + 1 < 199) :
    Notes (snapshotOf (sentTo (noted n) n)).current
      (viewerOf (sentTo (noted n) n) ann attendTime fun _ => true) (n + 1) := by
  refine notes_of h noted_workspaceId (fun m => ?_) (fun r => ?_) noted_watcher
  · exact noted_messages (n := n + 1) h
  · exact noted_receipts (n := n + 1) h

/-- The newest note is told, and of the others no more than four are looked at,
all of which are remembered. -/
theorem attend_sent {n : Nat} (h : n + 1 < 199) :
    leftIds (turnAttention (sentTo (noted n) n) ann attendTime fun _ => true) = [noteId n] := by
  have hnotes := sentTo_notes h
  have hnewest := hnotes.newestLeft (p := fun _ => true) fun k hk => by
    rw [hnotes.qualifies hk, decide_eq_true_eq, presentParticipants,
      sessions_of (w := sentTo (noted n) n) noted_workspaceId noted_materialised]
    intro hpresent
    obtain ⟨s, hs, -⟩ := List.mem_map.mp hpresent
    obtain ⟨hs, honline⟩ := List.mem_filter.mp hs
    exact of_decide_eq_true honline (noted_offline (Library.Keyed.mem_list.mp hs))
  have htold := fun x => mem_noticedLeft (w := sentTo (noted n) n) (x := x) noted_workspaceId
    noted_materialised noted_watcher fun s => eq_watcher
  have huntold : untoldLeft (snapshotOf (sentTo (noted n) n)).current
      (viewerOf (sentTo (noted n) n) ann attendTime fun _ => true) = [noteMessage n] := by
    rw [untoldLeft, hnewest, List.filter_true, List.range_succ, List.reverse_append,
      List.reverse_singleton, List.singleton_append, List.map_cons, leftMessageLimit,
      List.take_succ_cons, List.filter_cons_of_pos, List.filter_eq_nil_iff.mpr]
    · intro m hm
      rw [List.map_reverse, List.take_reverse, List.mem_reverse] at hm
      rw [decide_eq_true_eq, not_not, htold, kept_eq (by omega)]
      have hrecent : m.messageId.val ∈ ((List.range n).map fun k => (noteId k).val).rtake 4 := by
        have hmap := List.mem_map_of_mem (f := fun m : Message => m.messageId.val) hm
        rw [List.map_drop, List.map_map, List.length_map] at hmap
        rw [List.rtake, List.length_map]
        exact hmap
      rw [← Library.rtake_rtake (k := noticedLeftLimit) (by decide)] at hrecent
      exact (List.drop_sublist _ _).subset hrecent
    · rw [decide_eq_true_eq, htold, kept_eq (by omega)]
      intro hagain
      obtain ⟨k, hk, heq⟩ := List.mem_map.mp ((List.drop_sublist _ _).subset hagain)
      exact noteId_lt_ne (by omega) (List.mem_range.mp hk) (Id.val_injective heq)
  have hperm := @leftIds_computeAttention (snapshotOf (sentTo (noted n) n))
    (viewerOf (sentTo (noted n) n) ann attendTime fun _ => true)
  rw [huntold] at hperm
  exact List.perm_singleton.mp hperm

theorem record_sent {n : Nat} (h : n < 199) :
    recordNotices (sentTo (noted n) n) ann (some (sentTo (noted n) n).workspaceId) ann
      [(noteId n).val] = .ok (noted (n + 1), watcher (n + 1)) := by
  have hword : (noteId n).val ≠ "" := by
    rw [noteId_val h, List.replicate_succ]
    simp
  have hephemeral : (sentTo (noted n) n).ephemeral.sessions.get? ann = none := noted_ephemeral
  have hwatcher : (sentTo (noted n) n).sessions.get? ann = some (watcher n) := noted_watcher
  have hhome : (sentTo (noted n) n).workspaceId = home := noted_workspaceId
  have hholds : assertHolder (sentTo (noted n) n) (watcher n) (some home) ann "record notices" =
      .ok () := rfl
  have hstill : ((sentTo (noted n) n).putSession (watcher (n + 1))).newest =
      (sentTo (noted n) n).newest := rfl
  have hword : ¬"" ∈ [(noteId n).val] := by simpa using hword.symm
  simp only [recordNotices, refuse, if_neg hword, updateOwn, hephemeral, Option.filter_none,
    Workspace.transaction, hwatcher, hhome, hholds, bind, Except.bind, pure, Except.pure]
  rw [if_neg fun hgrown => (lt_irrefl _ (hstill ▸ hgrown.1 : _ < _))]
  rfl

/-- The state of the turns after `n` notes were told. -/
def told (n : Nat) : Turns :=
  ⟨noted n, (List.range n).map noteId, (List.range n).map fun k => (noteId k).val, none⟩

/-- The next note is left. -/
theorem told_between {n : Nat} (h : n < 199) : TurnStep ann ann (told n)
    (.between (.call (samplePorts (later + n) (noteId n)) (.sendMessage (noteInput n))))
    { told n with workspace := sentTo (noted n) n } := by
  refine .between (.call ?_) ⟨rfl, Or.inl ?_⟩
  · simp only [Workspace.call, told, noted_send h]
    rfl
  · exact (congrArg (isMaterialised (noted n)) noted_workspaceId).trans noted_materialised

/-- A turn tells of the new note, and records it.  While there are few notes,
every one that was told is remembered. -/
theorem told_turn {n bound : Nat} (h : n + 1 < 199) (hbound : n ≤ bound) : ∃ labels,
    Run (Where (TurnStep ann ann) fun s label => bound ≤ noticedLeftLimit → Recalled ann s label)
      (told n) labels (told (n + 1)) := by
  have hbetween := told_between (n := n) (by omega)
  have hattend : TurnStep ann ann { told n with workspace := sentTo (noted n) n }
      (.attend attendTime (fun _ => true)
        ((turnAttention (sentTo (noted n) n) ann attendTime fun _ => true).filter isLeft)) _ :=
    .attend rfl List.filter_sublist.subperm
  have hrecalled : bound ≤ noticedLeftLimit → Recalled ann
      { told n with workspace := sentTo (noted n) n } (.attend attendTime (fun _ => true)
        ((turnAttention (sentTo (noted n) n) ann attendTime fun _ => true).filter isLeft)) := by
    intro hfew m _ hold
    have hshort : (told n).log.length ≤ noticedLeftLimit := by
      rw [told, List.length_map, List.length_range]
      omega
    obtain ⟨k, hk, heq⟩ := List.mem_map.mp hold
    refine Or.inl ?_
    rw [List.rtake, Nat.sub_eq_zero_of_le hshort, List.drop_zero]
    exact List.mem_map.mpr ⟨k, hk, congrArg Id.val heq⟩
  rw [leftIds_isLeft, noticesOf_isLeft, attend_sent h] at hattend
  have hrecord : TurnStep ann ann ⟨sentTo (noted n) n, (told n).carried ++ [noteId n],
      (told n).log, some [(noteId n).val]⟩ .record _ :=
    .record rfl (List.cons_ne_nil _ _) (record_sent (by omega))
  have hdone : Turns.mk (noted (n + 1)) ((told n).carried ++ [noteId n])
      ((told n).log ++ [(noteId n).val]) none = told (n + 1) := by
    simp [told, List.range_succ]
  rw [hdone] at hrecord
  have hfirst := @Run.single _ _ (Where (TurnStep ann ann) fun s label =>
    bound ≤ noticedLeftLimit → Recalled ann s label) _ _ _ ⟨fun _ => by trivial, hbetween⟩
  exact ⟨_, (hfirst.snoc ⟨hrecalled, hattend⟩).snoc ⟨fun _ => by trivial, hrecord⟩⟩

theorem told_run {n bound : Nat} (h : n < 199) (hbound : n ≤ bound) : ∃ labels,
    Run (Where (TurnStep ann ann) fun s label => bound ≤ noticedLeftLimit → Recalled ann s label)
      (.start noteRoom) labels (told n) := by
  induction n with
  | zero => exact ⟨[], .nil _⟩
  | succ n ih =>
      obtain ⟨before, hbefore⟩ := ih (by omega) (by omega)
      obtain ⟨labels, hturn⟩ := @told_turn n bound h (by omega)
      exact ⟨before ++ labels, hbefore.append hturn⟩

theorem noteRoom_located : locateSession noteRoom ann none = some (watcher 0) :=
  locateSession_durable (w := noted 0) noted_watcher noted_workspaceId.symm

theorem noteRoom_placed : Placed noteRoom ann :=
  Or.inl ((congrArg (isMaterialised (noted 0)) (noted_workspaceId (n := 0))).trans
    noted_materialised)

/-- Sixty-four notes are each told once. -/
theorem left_announced_once_notes : ∃ labels t,
    Run (Where (TurnStep ann ann) (Recalled ann)) (.start noteRoom) labels t ∧
      t.carried.length = 64 ∧ t.carried.Nodup := by
  obtain ⟨labels, hrun⟩ := @told_run 64 64 (by omega) le_rfl
  have hrecalled : Run (Where (TurnStep ann ann) (Recalled ann)) _ labels _ :=
    hrun.imp fun s label t hstep => ⟨hstep.1 le_rfl, hstep.2⟩
  refine ⟨labels, told 64, hrecalled, ?_, ?_⟩
  · rw [told, List.length_map, List.length_range]
  · exact left_announced_once noteRoom_located noteRoom_placed hrecalled

/-! ## A note that is told twice -/

/-- The one who was silent is back. -/
def back (n : Nat) : Workspace :=
  (noted n).putSession { resident dora with heartbeatAt := attendTime }

theorem back_step {n : Nat} : Step (noted n)
    (.call (samplePorts attendTime dora) (.heartbeatSession dora none dora)) (back n) := by
  refine .call ?_
  have hephemeral : (noted n).ephemeral.sessions.get? dora = none := noted_ephemeral
  have hdora : (noted n).sessions.get? dora = some (resident dora) :=
    Library.Keyed.get?_eq_some.mpr ⟨noted_sessions.mpr (Or.inr (by simp [others])), rfl⟩
  have hholds : assertHolder (noted n) (resident dora) none dora "heartbeat" = .ok () := by
    simp only [assertHolder, Option.getD_none, noted_workspaceId]
    rfl
  have hstill : ((noted n).putSession { resident dora with heartbeatAt := attendTime }).newest =
      (noted n).newest := rfl
  simp only [Workspace.call, heartbeatSession, updateOwn, hephemeral, Option.filter_none,
    Workspace.transaction, hdora, hholds, bind, Except.bind, pure, Except.pure, refuse,
    samplePorts]
  rw [if_neg fun hgrown => (lt_irrefl _ (hstill ▸ hgrown.1 : _ < _))]
  rfl

theorem back_sessions {n : Nat} {s : Session} : s ∈ (back n).sessions ↔
    s = { resident dora with heartbeatAt := attendTime } ∨ s = watcher n ∨ s = resident bob ∨
      s = { resident carl with state := .closed } := by
  have hput : s ∈ (back n).sessions ↔
      s ∈ (noted n).sessions.put { resident dora with heartbeatAt := attendTime } := Iff.rfl
  rw [hput, Library.Keyed.mem_put, noted_sessions, others]
  simp only [List.mem_cons, List.not_mem_nil, or_false]
  constructor
  · rintro (rfl | ⟨rfl | rfl | rfl | rfl, hne⟩)
    · exact Or.inl rfl
    · exact Or.inr (Or.inl rfl)
    · exact Or.inr (Or.inr (Or.inl rfl))
    · exact Or.inr (Or.inr (Or.inr rfl))
    · exact absurd rfl hne
  · rintro (rfl | rfl | rfl | rfl)
    · exact Or.inl rfl
    · exact Or.inr ⟨Or.inl rfl, (by decide : ann ≠ dora)⟩
    · exact Or.inr ⟨Or.inr (Or.inl rfl), (by decide : bob ≠ dora)⟩
    · exact Or.inr ⟨Or.inr (Or.inr (Or.inl rfl)), (by decide : carl ≠ dora)⟩

theorem back_watcher {n : Nat} : (back n).sessions.get? ann = some (watcher n) :=
  Library.Keyed.get?_eq_some.mpr ⟨back_sessions.mpr (Or.inr (Or.inl rfl)), rfl⟩

theorem back_present {n : Nat} {i : Id} : i ∈ presentParticipants (snapshotOf (back n)).current
    (viewerOf (back n) ann attendTime fun _ => true) (fun p => p ≠ .offline) ↔ i = dora := by
  rw [presentParticipants, sessions_of (w := back n) noted_workspaceId noted_materialised]
  simp only [List.mem_map, List.mem_filter, Library.Keyed.mem_list, back_sessions]
  constructor
  · rintro ⟨s, ⟨rfl | rfl | rfl | rfl, honline⟩, rfl⟩
    · rfl
    · exact absurd rfl (of_decide_eq_true honline)
    · exact absurd rfl (of_decide_eq_true honline)
    · exact absurd rfl (of_decide_eq_true honline)
  · rintro rfl
    refine ⟨_, ⟨Or.inl rfl, decide_eq_true ?_⟩, rfl⟩
    exact (by decide : classifySessionPresence { resident dora with heartbeatAt := attendTime }
      attendTime (fun _ => true) ≠ .offline)

/-- With her back, the first note is the newest that waits for someone who is
away, and after enough others it is remembered no more. -/
theorem attend_back {n : Nat} (hmany : noticedLeftLimit < n) (h : n < 199) :
    leftIds (turnAttention (back n) ann attendTime fun _ => true) = [noteId 0] := by
  have hnotes : Notes (snapshotOf (back n)).current
      (viewerOf (back n) ann attendTime fun _ => true) n := by
    refine notes_of h noted_workspaceId (fun m => ?_) (fun r => ?_) back_watcher
    · exact noted_messages h
    · exact noted_receipts h
  have hnewest := hnotes.newestLeft (p := fun k => decide (k = 0)) fun k hk => by
    rw [hnotes.qualifies hk, decide_eq_decide, back_present, noteRecipient]
    split
    next hzero => exact iff_of_true (by decide) hzero
    next hzero => exact iff_of_false (fun haway => haway rfl) hzero
  have honly : (List.range n).reverse.filter (fun k => decide (k = 0)) = [0] := by
    obtain ⟨m, rfl⟩ : ∃ m, n = m + 1 := ⟨n - 1, by omega⟩
    rw [List.filter_reverse, List.range_succ_eq_map, List.filter_cons_of_pos (by decide),
      List.filter_eq_nil_iff.mpr]
    · rfl
    · intro k hk
      obtain ⟨j, -, rfl⟩ := List.mem_map.mp hk
      simp
  have hforgotten : (noteId 0).val ∉ kept n := by
    rw [kept_eq h, List.rtake, List.length_map, List.length_range, ← List.map_drop]
    intro hkept
    obtain ⟨k, hk, heq⟩ := List.mem_map.mp hkept
    obtain ⟨i, hi, rfl⟩ := List.mem_iff_getElem.mp hk
    rw [List.length_drop, List.length_range] at hi
    rw [List.getElem_drop, List.getElem_range] at heq
    have := noteId_injective (by omega) (by omega) heq
    omega
  have htold := fun x => mem_noticedLeft (w := back n) (x := x) noted_workspaceId
    noted_materialised back_watcher fun s hs hann => by
      rcases back_sessions.mp hs with rfl | rfl | rfl | rfl
      · exact absurd hann (by decide : dora ≠ ann)
      · rfl
      · exact absurd hann (by decide : bob ≠ ann)
      · exact absurd hann (by decide : carl ≠ ann)
  have huntold : untoldLeft (snapshotOf (back n)).current
      (viewerOf (back n) ann attendTime fun _ => true) = [noteMessage 0] := by
    rw [untoldLeft, hnewest, honly]
    refine List.filter_eq_self.mpr fun m hm => decide_eq_true ?_
    rw [htold, List.mem_singleton.mp hm]
    exact hforgotten
  have hperm := @leftIds_computeAttention (snapshotOf (back n))
    (viewerOf (back n) ann attendTime fun _ => true)
  rw [huntold] at hperm
  exact List.perm_singleton.mp hperm

theorem keptNotices_of {w : Workspace} {n : Nat} (hhome : w.workspaceId = home)
    (hwatcher : w.sessions.get? ann = some (watcher n)) : keptNotices w ann = some (kept n) := by
  rw [keptNotices, locateSession_durable hwatcher hhome.symm]
  rfl

theorem told_back {n : Nat} : TurnStep ann ann (told n)
    (.between (.call (samplePorts attendTime dora) (.heartbeatSession dora none dora)))
    { told n with workspace := back n } := by
  have hbefore := keptNotices_of (w := noted n) noted_workspaceId noted_watcher
  have hafter := keptNotices_of (w := back n) noted_workspaceId back_watcher
  refine .between back_step ⟨hafter.trans hbefore.symm, Or.inl ?_⟩
  exact (congrArg (isMaterialised (noted n)) noted_workspaceId).trans noted_materialised

/-- The note that was told first is told again after sixty-five others. -/
theorem left_announced_twice : ∃ c labels t, Reachable noteRoom ∧
    locateSession noteRoom ann none = some c ∧ Placed noteRoom ann ∧
    Run (TurnStep ann ann) (.start noteRoom) labels t ∧ ¬t.carried.Nodup := by
  obtain ⟨labels, hrun⟩ := @told_run 66 66 (by omega) le_rfl
  have hback := told_back (n := 66)
  have hattend : TurnStep ann ann { told 66 with workspace := back 66 }
      (.attend attendTime (fun _ => true) (turnAttention (back 66) ann attendTime fun _ => true))
      _ := .attend rfl (List.Subperm.refl _)
  rw [attend_back (by decide) (by omega)] at hattend
  refine ⟨_, _, _, noteRoom_reachable, noteRoom_located, noteRoom_placed,
    (hrun.of_where.snoc hback).snoc hattend, fun hnodup => ?_⟩
  have hfirst : noteId 0 ∈ (told 66).carried :=
    List.mem_map_of_mem (List.mem_range.mpr (by omega))
  exact List.disjoint_of_nodup_append hnodup hfirst (List.mem_singleton_self _)

end Room

end Acc.Core
