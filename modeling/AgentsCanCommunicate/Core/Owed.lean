import AgentsCanCommunicate.Core.Attention
import AgentsCanCommunicate.Core.Receipts
import AgentsCanCommunicate.Core.ReplyObligation

/-!
# What a participant owes

Attention, the next turn, the inbox and the status each decide for themselves which messages
still wait for a participant.  They agree: a message is owed when it stands, asks for
something, and its receipt is not acknowledged (`Owed`).
-/

namespace Acc.Core

open Library (Keyed)

/-! ## The next turn -/

structure NextTurnInput where
  participantId : Option Id
  exceptSessionId : Option Id
  repeats : Bool
  now : Timestamp

structure NextTurn where
  queuedMessages : List Viewed
  liveOfferedMessageIds : List Id
  reminderMessageIds : List Id
  roomMessageIds : List Id
  repeatMessages : List Viewed
  repeatOffers : List (Id × String × Timestamp)

/-- The receipt of a participant for a message.  The last one counts. -/
def receiptByMessage (snapshot : Snapshot) (participantId messageId : Id) : Option Receipt :=
  receiptOf (snapshot.receipts.filter fun r => r.recipientParticipantId = participantId).reverse
    messageId

/-- The messages of a participant that stand, oldest first. -/
def eligible (snapshot : Snapshot) (participantId : Id) (exceptSessionId : Option Id) :
    List Viewed :=
  ((snapshot.messages.map fun m => (m, decisionView snapshot.messages m)).filter fun m =>
    isCurrentDecision m.2 && (receiptByMessage snapshot participantId m.1.messageId).isSome
      && some m.1.fromSessionId ≠ exceptSessionId).mergeSort fun a b => oldestFirst a.1 b.1

def nextTurnDelivery (snapshot : Snapshot) (input : NextTurnInput) : NextTurn :=
  match input.participantId with
  | none => ⟨[], [], [], [], [], []⟩
  | some participantId =>
      let receipt (m : Viewed) := receiptByMessage snapshot participantId m.1.messageId
      let inState (states : List ReceiptState) (m : Viewed) : Bool :=
        (receipt m).any fun r => r.state ∈ states
      let eligible := eligible snapshot participantId input.exceptSessionId
      let repeatMessages :=
        if input.repeats then
          eligible.filter fun m => (receipt m).any fun r => dueForRepeat m.1 r input.now
        else []
      let repeating (m : Viewed) : Bool :=
        m.1.messageId ∈ repeatMessages.map fun m => m.1.messageId
      { queuedMessages := eligible.filter (inState [.queued])
        liveOfferedMessageIds := (eligible.filter fun m =>
          m.1.toParticipantIds ≠ [] && inState [.offered] m && !repeating m).map
            fun m => m.1.messageId
        reminderMessageIds := (eligible.filter fun m =>
          m.1.obligation ≠ .none && inState [.offered, .retrieved] m && !repeating m).map
            fun m => m.1.messageId
        roomMessageIds := (eligible.filter fun m => m.1.toParticipantIds = []).map
          fun m => m.1.messageId
        repeatMessages
        repeatOffers := repeatMessages.filterMap fun m => ((receipt m).bind Receipt.offer).map
          fun offer => (m.1.messageId, offer.transport, offer.at_) }

/-! ## The counts of the status -/

structure Unretrieved where
  queued : Nat
  offered : Nat
deriving DecidableEq

def Unretrieved.add (counts : Unretrieved) : ReceiptState → Unretrieved
  | .queued => { counts with queued := counts.queued + 1 }
  | .offered => { counts with offered := counts.offered + 1 }
  | _ => counts

/-- The counts for each recipient, and for all of them under no recipient. -/
def unretrieved (snapshot : Snapshot) : Option Id → Unretrieved :=
  snapshot.receipts.foldl
    (fun tally receipt =>
      if (snapshot.current.messages.any fun m => m.messageId = receipt.messageId)
          ∧ receipt.state ∈ [ReceiptState.queued, .offered] then
        fun key => if key = some receipt.recipientParticipantId ∨ key = none then
          (tally key).add receipt.state else tally key
      else tally)
    fun _ => ⟨0, 0⟩

section

variable [LinearOrder ReceiptId]

variable {w : Workspace} {session : Session} {participantId i : Id} {m : Message} {r : Receipt}

/-! ## One notion of waiting -/

/-- A message that stands, with the receipt by which a participant has it. -/
structure Standing (w : Workspace) (participantId : Id) (m : Message) (r : Receipt) : Prop where
  message : m ∈ w.messages
  current : isCurrentDecision (statusOf w m) = true
  receipt : r ∈ w.receipts
  recipient : r.recipientParticipantId = participantId
  named : r.messageId = m.messageId

/-- A message that a participant still has to do something about. -/
structure Owed (w : Workspace) (participantId : Id) (m : Message) : Prop where
  asks : m.obligation ≠ .none
  open_ : ∃ r, Standing w participantId m r ∧ r.state ≠ .acknowledged

theorem Standing.unique {s : Receipt} (h : Standing w participantId m r)
    (hs : Standing w participantId m s) : r = s := by
  refine Keyed.eq_of_key h.receipt hs.receipt ?_
  rw [Receipt.receiptId, Receipt.receiptId, h.named, hs.named, h.recipient, hs.recipient]

theorem receiptByMessage_eq_some :
    receiptByMessage (snapshotOf w) session.participantId i = some r ↔
      r ∈ w.receipts ∧ r.recipientParticipantId = session.participantId ∧ r.messageId = i := by
  have hmem : ∀ r, r ∈ ((snapshotOf w).receipts.filter fun r =>
      r.recipientParticipantId = session.participantId).reverse ↔
        r ∈ w.receipts ∧ r.recipientParticipantId = session.participantId := by
    intro r
    rw [List.mem_reverse, List.mem_filter, decide_eq_true_eq]
    exact and_congr_left fun _ => Keyed.mem_list
  have hown : OwnReceipts w session ((snapshotOf w).receipts.filter fun r =>
      r.recipientParticipantId = session.participantId).reverse :=
    ⟨fun r hr => ((hmem r).mp hr).1, fun r hr => ((hmem r).mp hr).2⟩
  rw [receiptByMessage, hown.receiptOf, hmem, and_assoc]

/-- The receipt of a message that stands. -/
theorem Standing.receiptByMessage (h : Standing w session.participantId m r) :
    receiptByMessage (snapshotOf w) session.participantId m.messageId = some r :=
  receiptByMessage_eq_some.mpr ⟨h.receipt, h.recipient, h.named⟩

theorem mem_eligible {except : Option Id} {v : Viewed} :
    v ∈ eligible (snapshotOf w) session.participantId except ↔
      v.2 = statusOf w v.1 ∧ (∃ r, Standing w session.participantId v.1 r) ∧
        some v.1.fromSessionId ≠ except := by
  simp only [eligible, List.mem_mergeSort, List.mem_filter, List.mem_map, Bool.and_eq_true,
    decide_eq_true_eq, Option.isSome_iff_exists, receiptByMessage_eq_some]
  constructor
  · rintro ⟨⟨m, hm, rfl⟩, ⟨hcurrent, r, hr, hrecipient, hnamed⟩, hexcept⟩
    exact ⟨rfl, ⟨r, Keyed.mem_list.mp hm, hcurrent, hr, hrecipient, hnamed⟩, hexcept⟩
  · rintro ⟨hstatus, ⟨r, hstanding⟩, hexcept⟩
    refine ⟨⟨v.1, Keyed.mem_list.mpr hstanding.message, Prod.ext rfl hstatus.symm⟩, ⟨?_, ?_⟩,
      hexcept⟩
    · rw [hstatus]
      exact hstanding.current
    · exact ⟨r, hstanding.receipt, hstanding.recipient, hstanding.named⟩

/-! ## The inbox -/

section

variable {size : List InboxItem → Id → Nat} {input : ListInput} {items : List InboxItem}

theorem scanned_distinct : Distinct Prod.fst (scanMessages w (scanReceipts w session)) := by
  refine @distinct_viewed _ w _ fun v hv => ?_
  obtain ⟨hmem, _, hstatus⟩ := mem_scanMessages.mp hv
  exact ⟨hmem, hstatus⟩

/-- What the pages of an inbox show, to the last one. -/
theorem listing_eq (hw : Homed w) (hlinked : Linked w)
    (hsession : locateSession w input.sessionId input.workspaceId = some session)
    (hopen : session.state = .opened) (hgeneration : session.generation = input.generation)
    (hwalk : Walk (inboxPages size w input) input.page none items) :
    items = (pageSelection (scanMessages w (scanReceipts w session)) input.page
      (fun m => isCurrentDecision m.2 &&
        (receiptOf (scanReceipts w session) m.1.messageId).any (listable m.1)) none).map
      fun m => ⟨messageSummary m,
        (receiptOf (scanReceipts w session) m.1.messageId).map publicReceipt⟩ := by
  have hpages : inboxPages size w input = inboxPage size (scanReceipts w session)
      (scanMessages w (scanReceipts w session)) := by
    funext page
    exact listInbox_open hw hlinked hsession hopen hgeneration
  rw [hpages] at hwalk
  exact Walk.items_eq scanned_distinct scanMessages_nodup hwalk
    (show pageAnchor _ { input.page with cursor := none } = .ok none from rfl)

theorem mem_listing {item : InboxItem} (hw : Homed w) (hlinked : Linked w)
    (hsession : locateSession w input.sessionId input.workspaceId = some session)
    (hopen : session.state = .opened) (hgeneration : session.generation = input.generation)
    (hkind : input.page.kind = none)
    (hwalk : Walk (inboxPages size w input) input.page none items) :
    item ∈ items ↔ ∃ m r, Standing w session.participantId m r ∧ listable m r = true ∧
      item = ⟨messageSummary (m, statusOf w m), some (publicReceipt r)⟩ := by
  have hhome := hw.located hsession
  rw [listing_eq hw hlinked hsession hopen hgeneration hwalk, List.mem_map]
  simp only [mem_pageSelection, mem_scanMessages, hkind, Option.all_none, Bool.and_eq_true,
    Option.any_eq_true, ownReceipts_scan.receiptOf, mem_scanReceipts hw hhome]
  constructor
  · rintro ⟨v, ⟨⟨hm, -, hstatus⟩, ⟨hcurrent, r, ⟨⟨hr, hrecipient⟩, hnamed⟩, hlistable⟩, -⟩, rfl⟩
    have hstanding : Standing w session.participantId v.1 r :=
      ⟨hm, hstatus ▸ hcurrent, hr, hrecipient, hnamed⟩
    have hv : v = (v.1, statusOf w v.1) := Prod.ext rfl hstatus
    have hreceipt : receiptOf (scanReceipts w session) v.1.messageId = some r :=
      ownReceipts_scan.receiptOf.mpr ⟨(mem_scanReceipts hw hhome).mpr ⟨hr, hrecipient⟩, hnamed⟩
    refine ⟨v.1, r, hstanding, hlistable, ?_⟩
    rw [hreceipt, ← hv]
    rfl
  · rintro ⟨m, r, hstanding, hlistable, rfl⟩
    have hreceipt : receiptOf (scanReceipts w session) m.messageId = some r :=
      ownReceipts_scan.receiptOf.mpr
        ⟨(mem_scanReceipts hw hhome).mpr ⟨hstanding.receipt, hstanding.recipient⟩, hstanding.named⟩
    have hown := And.intro (And.intro hstanding.receipt hstanding.recipient) hstanding.named
    refine ⟨(m, statusOf w m), ⟨⟨hstanding.message, ⟨r, hown⟩, rfl⟩,
      ⟨hstanding.current, r, hown, hlistable⟩, trivial, fun a ha => by cases ha⟩, ?_⟩
    rw [hreceipt]
    rfl

/-- The listing shows each message once. -/
theorem listing_nodup (hw : Homed w) (hlinked : Linked w)
    (hsession : locateSession w input.sessionId input.workspaceId = some session)
    (hopen : session.state = .opened) (hgeneration : session.generation = input.generation)
    (hwalk : Walk (inboxPages size w input) input.page none items) :
    (items.map fun item => item.message.messageId).Nodup := by
  rw [listing_eq hw hlinked hsession hopen hgeneration hwalk, List.map_map]
  refine (List.nodup_map_iff_inj_on (pageSelection_nodup scanMessages_nodup)).mpr ?_
  intro a ha b hb heq
  exact scanned_distinct a (mem_pageSelection.mp ha).1 b (mem_pageSelection.mp hb).1 heq

omit [LinearOrder ReceiptId] in
/-- Of what asks for something, all is listed that was not acknowledged. -/
theorem listable_iff (hask : m.obligation ≠ .none) :
    listable m r = true ↔ r.state ≠ .acknowledged := by
  rw [listable, decide_eq_true_eq]
  cases r.state <;> simp [hask]

theorem listing_owed {sender : Id} (hw : Homed w) (hlinked : Linked w)
    (hsession : locateSession w input.sessionId input.workspaceId = some session)
    (hopen : session.state = .opened) (hgeneration : session.generation = input.generation)
    (hkind : input.page.kind = none)
    (hwalk : Walk (inboxPages size w input) input.page none items) :
    (∃ item ∈ items, item.message.obligation ≠ .none ∧ item.message.messageId = i ∧
      item.message.fromSessionId = sender) ↔
      ∃ m, Owed w session.participantId m ∧ m.messageId = i ∧ m.fromSessionId = sender := by
  simp only [mem_listing hw hlinked hsession hopen hgeneration hkind hwalk]
  constructor
  · rintro ⟨_, ⟨m, r, hstanding, hlistable, rfl⟩, hask, hid, hsender⟩
    exact ⟨m, ⟨hask, r, hstanding, (listable_iff hask).mp hlistable⟩, hid, hsender⟩
  · rintro ⟨m, ⟨hask, r, hstanding, hstate⟩, hid, hsender⟩
    exact ⟨_, ⟨m, r, hstanding, (listable_iff hask).mpr hstate, rfl⟩, hask, hid, hsender⟩

end

/-! ## Attention -/

theorem mem_current : m ∈ (snapshotOf w).current.messages ↔
    m ∈ w.messages ∧ isCurrentDecision (statusOf w m) = true := by
  rw [Snapshot.current, List.mem_filter]
  exact and_congr_left fun _ => Keyed.mem_list

/-- The message of a receipt is found among those that stand. -/
theorem find_current : ((snapshotOf w).current.messages.find? fun m => m.messageId = i) = some m ↔
    m ∈ w.messages ∧ isCurrentDecision (statusOf w m) = true ∧ m.messageId = i := by
  constructor
  · intro hfind
    obtain ⟨hm, hcurrent⟩ := mem_current.mp (List.mem_of_find?_eq_some hfind)
    exact ⟨hm, hcurrent, by simpa using List.find?_some hfind⟩
  · rintro ⟨hm, hcurrent, hid⟩
    cases hfind : (snapshotOf w).current.messages.find? fun m => m.messageId = i with
    | none =>
        have hnone := List.find?_eq_none.mp hfind m (mem_current.mpr ⟨hm, hcurrent⟩)
        exact absurd hid (by simpa using hnone)
    | some found =>
        have hfound := (mem_current.mp (List.mem_of_find?_eq_some hfind)).1
        have hfoundId : found.messageId = i := by simpa using List.find?_some hfind
        rw [Keyed.eq_of_key hfound hm (hfoundId.trans hid.symm)]

omit [LinearOrder ReceiptId] in
theorem obligationKind_isSome {obligation : Obligation} :
    (∃ asked, obligationKind obligation = some asked) ↔ obligation ≠ .none := by
  cases obligation <;> simp [obligationKind]

theorem attention_owed {viewer : Viewer} (hviewer : viewer.participantId = some participantId) :
    (∃ item ∈ computeAttention (snapshotOf w) viewer, isObligation item = true ∧
      item.sourceId = i) ↔ ∃ m, Owed w participantId m ∧ m.messageId = i := by
  constructor
  · rintro ⟨item, hitem, hask, hid⟩
    rw [mem_attention hask] at hitem
    obtain ⟨r, hr, hshown⟩ := List.mem_filterMap.mp hitem
    split at hshown
    next => cases hshown
    next hopen =>
      simp only [Option.bind_eq_bind, Option.bind_eq_some_iff, find_current] at hshown
      obtain ⟨m, ⟨hm, hcurrent, hnamed⟩, asked, hasked, heq⟩ := hshown
      cases heq
      rw [hviewer, not_or, not_not, Option.some_inj] at hopen
      exact ⟨m, ⟨obligationKind_isSome.mp ⟨asked, hasked⟩, r,
        ⟨hm, hcurrent, Keyed.mem_list.mp hr, hopen.1.symm, hnamed.symm⟩, hopen.2⟩, hid⟩
  · rintro ⟨m, ⟨hask, r, hstanding, hstate⟩, hid⟩
    obtain ⟨asked, hasked⟩ := obligationKind_isSome.mpr hask
    have hfound := find_current.mpr ⟨hstanding.message, hstanding.current, hstanding.named.symm⟩
    have hitem : ∃ item ∈ obligationItems (snapshotOf w).current viewer,
        item.sourceId = m.messageId := by
      simp only [obligationItems, List.mem_filterMap]
      apply Exists.intro
      apply And.intro
      · refine ⟨r, Keyed.mem_list.mpr hstanding.receipt, ?_⟩
        rw [if_neg (by simp [hviewer, hstanding.recipient, hstate]), hfound]
        simp only [Option.bind_eq_bind, Option.bind_some, hasked]
        rfl
      · rfl
    obtain ⟨item, hitem, hsource⟩ := hitem
    have hkind := obligationItems_kind hitem
    exact ⟨item, (mem_attention hkind).mpr hitem, hkind, hsource.trans hid⟩

/-! ## The next turn -/

section

variable {repeats : Bool} {now : Timestamp} {v : Viewed}

/-- The next turn of a session. -/
def turnOf (w : Workspace) (session : Session) (repeats : Bool) (now : Timestamp) : NextTurn :=
  nextTurnDelivery (snapshotOf w)
    ⟨some session.participantId, some session.sessionId, repeats, now⟩

/-- A message of another session that stands, with its receipt. -/
structure Foreign (w : Workspace) (session : Session) (m : Message) (r : Receipt) : Prop
    extends Standing w session.participantId m r where
  other : m.fromSessionId ≠ session.sessionId

theorem mem_filter_eligible {p : Viewed → Receipt → Bool} :
    v ∈ (eligible (snapshotOf w) session.participantId (some session.sessionId)).filter
        (fun m => (receiptByMessage (snapshotOf w) session.participantId m.1.messageId).any (p m)) ↔
      v.2 = statusOf w v.1 ∧ ∃ r, Foreign w session v.1 r ∧ p v r = true := by
  rw [List.mem_filter, mem_eligible, Option.any_eq_true]
  constructor
  · rintro ⟨⟨hstatus, ⟨r, hstanding⟩, hother⟩, s, hs, hp⟩
    rw [hstanding.receiptByMessage] at hs
    cases hs
    exact ⟨hstatus, r, ⟨hstanding, fun heq => hother (congrArg some heq)⟩, hp⟩
  · rintro ⟨hstatus, r, hforeign, hp⟩
    exact ⟨⟨hstatus, ⟨r, hforeign.toStanding⟩, fun heq => hforeign.other (Option.some.inj heq)⟩, r,
      hforeign.toStanding.receiptByMessage, hp⟩

theorem mem_queuedMessages : v ∈ (turnOf w session repeats now).queuedMessages ↔
    v.2 = statusOf w v.1 ∧ ∃ r, Foreign w session v.1 r ∧ r.state = .queued := by
  refine (mem_filter_eligible (p := fun _ r => r.state ∈ [ReceiptState.queued])).trans ?_
  simp

theorem mem_repeatMessages : v ∈ (turnOf w session repeats now).repeatMessages ↔
    v.2 = statusOf w v.1 ∧ ∃ r, Foreign w session v.1 r ∧ repeats = true ∧
      dueForRepeat v.1 r now = true := by
  cases repeats with
  | false =>
      simp [turnOf, nextTurnDelivery]
  | true =>
      refine (mem_filter_eligible (p := fun m r => dueForRepeat m.1 r now)).trans ?_
      simp

theorem repeating_iff (h : Foreign w session m r) :
    m.messageId ∈ (turnOf w session repeats now).repeatMessages.map (fun m => m.1.messageId) ↔
      repeats = true ∧ dueForRepeat m r now = true := by
  simp only [List.mem_map, mem_repeatMessages]
  constructor
  · rintro ⟨v, ⟨-, s, hs, hrepeats, hdue⟩, hid⟩
    have hm : v.1 = m := Keyed.eq_of_key hs.message h.message hid
    rw [hm] at hs hdue
    exact ⟨hrepeats, hs.toStanding.unique h.toStanding ▸ hdue⟩
  · rintro ⟨hrepeats, hdue⟩
    exact ⟨(m, statusOf w m), ⟨rfl, r, h, hrepeats, hdue⟩, rfl⟩

theorem mem_reminderMessageIds : i ∈ (turnOf w session repeats now).reminderMessageIds ↔
    ∃ m r, Foreign w session m r ∧ m.messageId = i ∧ m.obligation ≠ .none ∧
      (r.state = .offered ∨ r.state = .retrieved) ∧
        ¬(repeats = true ∧ dueForRepeat m r now = true) := by
  change i ∈ ((eligible (snapshotOf w) session.participantId (some session.sessionId)).filter
    fun m => m.1.obligation ≠ .none
      && (receiptByMessage (snapshotOf w) session.participantId m.1.messageId).any
        (fun r => r.state ∈ [ReceiptState.offered, .retrieved])
      && !decide (m.1.messageId ∈
        (turnOf w session repeats now).repeatMessages.map fun m => m.1.messageId)).map
        (fun m => m.1.messageId) ↔ _
  simp only [List.mem_map, List.mem_filter, mem_eligible, Bool.and_eq_true, decide_eq_true_eq,
    Option.any_eq_true, Bool.not_eq_true', decide_eq_false_iff_not, List.mem_cons,
    List.not_mem_nil, or_false]
  constructor
  · rintro ⟨v, ⟨⟨-, ⟨r, hstanding⟩, hother⟩, ⟨hask, s, hs, hstate⟩, hrepeating⟩, hid⟩
    rw [hstanding.receiptByMessage] at hs
    cases hs
    have hforeign : Foreign w session v.1 r := ⟨hstanding, fun heq => hother (congrArg some heq)⟩
    exact ⟨v.1, r, hforeign, hid, hask, hstate, fun hdue =>
      hrepeating (List.mem_map.mp ((repeating_iff hforeign).mpr hdue))⟩
  · rintro ⟨m, r, hforeign, hid, hask, hstate, hdue⟩
    refine ⟨(m, statusOf w m), ⟨⟨rfl, ⟨r, hforeign.toStanding⟩, fun heq =>
      hforeign.other (Option.some.inj heq)⟩,
      ⟨hask, r, hforeign.toStanding.receiptByMessage, hstate⟩,
      fun hrepeating => hdue ((repeating_iff hforeign).mp (List.mem_map.mpr hrepeating))⟩, hid⟩

/-- The identifiers of those that ask for something. -/
def asking (messages : List Viewed) : List Id :=
  (messages.filter fun m => m.1.obligation ≠ .none).map fun m => m.1.messageId

def askingIds (w : Workspace) (ids : List Id) : List Id :=
  ids.filter fun i => (w.messages.get? i).any fun m => m.obligation ≠ .none

/-- A message that asks for something, in a state of its receipt. -/
def Asks (w : Workspace) (session : Session) (p : Message → Receipt → Prop) (i : Id) : Prop :=
  ∃ m r, Foreign w session m r ∧ m.messageId = i ∧ m.obligation ≠ .none ∧ p m r

theorem Asks.and {p q : Message → Receipt → Prop} (hp : Asks w session p i)
    (hq : Asks w session q i) : ∃ m r, p m r ∧ q m r := by
  obtain ⟨m, r, hforeign, hid, -, hp⟩ := hp
  obtain ⟨m', r', hforeign', hid', -, hq⟩ := hq
  have hm : m' = m := Keyed.eq_of_key hforeign'.message hforeign.message (hid'.trans hid.symm)
  subst hm
  exact ⟨m', r, hp, hforeign'.toStanding.unique hforeign.toStanding ▸ hq⟩

theorem mem_asking_queued : i ∈ asking (turnOf w session repeats now).queuedMessages ↔
    Asks w session (fun _ r => r.state = .queued) i := by
  simp only [asking, List.mem_map, List.mem_filter, mem_queuedMessages, decide_eq_true_eq]
  constructor
  · rintro ⟨v, ⟨⟨-, r, hforeign, hstate⟩, hask⟩, hid⟩
    exact ⟨v.1, r, hforeign, hid, hask, hstate⟩
  · rintro ⟨m, r, hforeign, hid, hask, hstate⟩
    exact ⟨(m, statusOf w m), ⟨⟨rfl, r, hforeign, hstate⟩, hask⟩, hid⟩

theorem mem_asking_repeat : i ∈ asking (turnOf w session repeats now).repeatMessages ↔
    Asks w session (fun m r => repeats = true ∧ dueForRepeat m r now = true) i := by
  simp only [asking, List.mem_map, List.mem_filter, mem_repeatMessages, decide_eq_true_eq]
  constructor
  · rintro ⟨v, ⟨⟨-, r, hforeign, hdue⟩, hask⟩, hid⟩
    exact ⟨v.1, r, hforeign, hid, hask, hdue⟩
  · rintro ⟨m, r, hforeign, hid, hask, hdue⟩
    exact ⟨(m, statusOf w m), ⟨⟨rfl, r, hforeign, hdue⟩, hask⟩, hid⟩

theorem mem_askingIds_reminder :
    i ∈ askingIds w (turnOf w session repeats now).reminderMessageIds ↔
      Asks w session (fun m r => (r.state = .offered ∨ r.state = .retrieved) ∧
        ¬(repeats = true ∧ dueForRepeat m r now = true)) i := by
  rw [askingIds, List.mem_filter, mem_reminderMessageIds, Asks]
  refine and_iff_left_of_imp ?_
  rintro ⟨m, r, hforeign, rfl, hask, -⟩
  rw [Keyed.mem_def.mp hforeign.message, Option.any_some, decide_eq_true_eq]
  exact hask

/-- The next turn shows what is owed to other sessions: queued, repeated or in a reminder. -/
theorem asks_iff : (Asks w session (fun _ r => r.state = .queued) i ∨
      Asks w session (fun m r => (r.state = .offered ∨ r.state = .retrieved) ∧
        ¬(repeats = true ∧ dueForRepeat m r now = true)) i ∨
      Asks w session (fun m r => repeats = true ∧ dueForRepeat m r now = true) i) ↔
    ∃ m, Owed w session.participantId m ∧ m.messageId = i ∧
      m.fromSessionId ≠ session.sessionId := by
  constructor
  · rintro (⟨m, r, hforeign, hid, hask, hstate⟩ | ⟨m, r, hforeign, hid, hask, hstate, -⟩ |
      ⟨m, r, hforeign, hid, hask, -, hdue⟩)
    · exact ⟨m, ⟨hask, r, hforeign.toStanding, by simp [hstate]⟩, hid, hforeign.other⟩
    · refine ⟨m, ⟨hask, r, hforeign.toStanding, ?_⟩, hid, hforeign.other⟩
      rcases hstate with hstate | hstate <;> simp [hstate]
    · exact ⟨m, ⟨hask, r, hforeign.toStanding, by simp [dueForRepeat_state hdue]⟩, hid,
        hforeign.other⟩
  · rintro ⟨m, ⟨hask, r, hstanding, hstate⟩, hid, hother⟩
    have hforeign : Foreign w session m r := ⟨hstanding, hother⟩
    by_cases hdue : repeats = true ∧ dueForRepeat m r now = true
    · exact .inr (.inr ⟨m, r, hforeign, hid, hask, hdue⟩)
    · cases hr : r.state with
      | queued => exact .inl ⟨m, r, hforeign, hid, hask, hr⟩
      | offered => exact .inr (.inl ⟨m, r, hforeign, hid, hask, .inl hr, hdue⟩)
      | retrieved => exact .inr (.inl ⟨m, r, hforeign, hid, hask, .inr hr, hdue⟩)
      | acknowledged => exact absurd hr hstate

theorem turn_disjoint : [asking (turnOf w session repeats now).queuedMessages,
    askingIds w (turnOf w session repeats now).reminderMessageIds,
    asking (turnOf w session repeats now).repeatMessages].Pairwise List.Disjoint := by
  have hreminder : List.Disjoint (asking (turnOf w session repeats now).queuedMessages)
      (askingIds w (turnOf w session repeats now).reminderMessageIds) := by
    intro i hqueued hreminder
    obtain ⟨m, r, hstate, hother, -⟩ :=
      (mem_asking_queued.mp hqueued).and (mem_askingIds_reminder.mp hreminder)
    rw [hstate] at hother
    simp at hother
  have hrepeat : List.Disjoint (asking (turnOf w session repeats now).queuedMessages)
      (asking (turnOf w session repeats now).repeatMessages) := by
    intro i hqueued hrepeat
    obtain ⟨m, r, hstate, -, hdue⟩ :=
      (mem_asking_queued.mp hqueued).and (mem_asking_repeat.mp hrepeat)
    cases hstate.symm.trans (dueForRepeat_state hdue)
  have hboth : List.Disjoint (askingIds w (turnOf w session repeats now).reminderMessageIds)
      (asking (turnOf w session repeats now).repeatMessages) := by
    intro i hreminder hrepeat
    obtain ⟨m, r, ⟨-, hnot⟩, hdue⟩ :=
      (mem_askingIds_reminder.mp hreminder).and (mem_asking_repeat.mp hrepeat)
    exact hnot hdue
  simp [hreminder, hrepeat, hboth]

end

/-! ## The counts -/

/-- A receipt of a participant in a state, for a message that stands. -/
def counted (w : Workspace) (participantId : Id) (state : ReceiptState) (r : Receipt) : Bool :=
  ((snapshotOf w).current.messages.any fun m => m.messageId = r.messageId)
    && r.recipientParticipantId = participantId && r.state = state

theorem foldl_unretrieved (w : Workspace) (participantId : Id) (receipts : List Receipt)
    (tally : Option Id → Unretrieved) :
    receipts.foldl (fun tally receipt =>
      if ((snapshotOf w).current.messages.any fun m => m.messageId = receipt.messageId)
          ∧ receipt.state ∈ [ReceiptState.queued, .offered] then
        fun key => if key = some receipt.recipientParticipantId ∨ key = none then
          (tally key).add receipt.state else tally key
      else tally) tally (some participantId) =
    ⟨(tally (some participantId)).queued + receipts.countP (counted w participantId .queued),
      (tally (some participantId)).offered +
        receipts.countP (counted w participantId .offered)⟩ := by
  induction receipts generalizing tally with
  | nil => rfl
  | cons r receipts ih =>
      rw [List.foldl_cons, ih, List.countP_cons, List.countP_cons]
      by_cases hcurrent : ((snapshotOf w).current.messages.any fun m =>
          m.messageId = r.messageId) = true
      · by_cases hrecipient : r.recipientParticipantId = participantId
        · cases hstate : r.state <;>
            simp [counted, hcurrent, hrecipient, hstate, Unretrieved.add] <;> omega
        · have hkey : ¬(participantId = r.recipientParticipantId) := fun heq => hrecipient heq.symm
          cases hstate : r.state <;> simp [counted, hcurrent, hrecipient, hkey, hstate]
      · simp [counted, hcurrent]

/-- The status counts the receipts of each participant. -/
theorem unretrieved_eq : unretrieved (snapshotOf w) (some participantId) =
    ⟨w.receipts.list.countP (counted w participantId .queued),
      w.receipts.list.countP (counted w participantId .offered)⟩ := by
  have h := foldl_unretrieved w participantId w.receipts.list fun _ => ⟨0, 0⟩
  simp only [Nat.zero_add] at h
  exact h

theorem counted_iff {state : ReceiptState} : counted w participantId state r = true ↔
    (∃ m ∈ w.messages, isCurrentDecision (statusOf w m) = true ∧ m.messageId = r.messageId) ∧
      r.recipientParticipantId = participantId ∧ r.state = state := by
  simp only [counted, Bool.and_eq_true, List.any_eq_true, decide_eq_true_eq, mem_current, and_assoc]

theorem count_listed {size : List InboxItem → Id → Nat} {input : ListInput}
    {items : List InboxItem} {state : ReceiptState} (hstate : state = .queued ∨ state = .offered)
    (hw : Homed w) (hlinked : Linked w)
    (hsession : locateSession w input.sessionId input.workspaceId = some session)
    (hopen : session.state = .opened) (hgeneration : session.generation = input.generation)
    (hkind : input.page.kind = none)
    (hwalk : Walk (inboxPages size w input) input.page none items) :
    w.receipts.list.countP (counted w session.participantId state) =
      items.countP fun item => item.receipt.any fun r => r.state = state := by
  -- Both count messages, each once.
  have hreceipts : ((w.receipts.list.filter (counted w session.participantId state)).map
      Receipt.messageId).Nodup := by
    refine (List.nodup_map_iff_inj_on (w.receipts.list_nodup.filter _)).mpr ?_
    intro r hr s hs hid
    obtain ⟨hr, hcounted⟩ := List.mem_filter.mp hr
    obtain ⟨hs, hcounted'⟩ := List.mem_filter.mp hs
    refine Keyed.eq_of_key (Keyed.mem_list.mp hr) (Keyed.mem_list.mp hs) ?_
    rw [Receipt.receiptId, Receipt.receiptId, hid, (counted_iff.mp hcounted).2.1,
      (counted_iff.mp hcounted').2.1]
  have hitems : ((items.filter fun item => item.receipt.any fun r => r.state = state).map
      fun item => item.message.messageId).Nodup :=
    (listing_nodup hw hlinked hsession hopen hgeneration hwalk).sublist (List.filter_sublist.map _)
  rw [List.countP_eq_length_filter, List.countP_eq_length_filter,
    ← List.length_map Receipt.messageId,
    ← List.length_map fun item : InboxItem => item.message.messageId]
  refine ((List.perm_ext_iff_of_nodup hreceipts hitems).mpr fun i => ?_).length_eq
  simp only [List.mem_map, List.mem_filter, counted_iff, Keyed.mem_list,
    mem_listing hw hlinked hsession hopen hgeneration hkind hwalk]
  constructor
  · rintro ⟨r, ⟨hr, ⟨m, hm, hcurrent, hid⟩, hrecipient, hr_state⟩, rfl⟩
    refine ⟨_, ⟨⟨m, r, ⟨hm, hcurrent, hr, hrecipient, hid.symm⟩, ?_, rfl⟩, ?_⟩, hid⟩
    · rcases hstate with rfl | rfl <;> simp [listable, hr_state]
    · simpa [publicReceipt] using hr_state
  · rintro ⟨_, ⟨⟨m, r, hstanding, -, rfl⟩, hr_state⟩, rfl⟩
    refine ⟨r, ⟨hstanding.receipt, ⟨m, hstanding.message, hstanding.current, hstanding.named.symm⟩,
      hstanding.recipient, ?_⟩, hstanding.named⟩
    simpa [publicReceipt] using hr_state

/-! ## The law -/

/-- What the views of one state say about an open session and its participant. -/
structure ViewsAgree (w : Workspace) (session : Session) (viewer : Viewer) (repeats : Bool)
    (now : Timestamp) (items : List InboxItem) : Prop where
  attention : ∀ i, (∃ item ∈ computeAttention (snapshotOf w) viewer,
      isObligation item = true ∧ item.sourceId = i) ↔
    ∃ item ∈ items, item.message.obligation ≠ .none ∧ item.message.messageId = i
  disjoint : [asking (turnOf w session repeats now).queuedMessages,
    askingIds w (turnOf w session repeats now).reminderMessageIds,
    asking (turnOf w session repeats now).repeatMessages].Pairwise List.Disjoint
  nextTurn : ∀ i, (i ∈ asking (turnOf w session repeats now).queuedMessages ∨
      i ∈ askingIds w (turnOf w session repeats now).reminderMessageIds ∨
      i ∈ asking (turnOf w session repeats now).repeatMessages) ↔
    ∃ item ∈ items, item.message.obligation ≠ .none ∧ item.message.messageId = i ∧
      item.message.fromSessionId ≠ session.sessionId
  queued : (unretrieved (snapshotOf w) (some session.participantId)).queued =
    items.countP fun item => item.receipt.any fun r => r.state = .queued
  offered : (unretrieved (snapshotOf w) (some session.participantId)).offered =
    items.countP fun item => item.receipt.any fun r => r.state = .offered

/-- For whoever follows the pages of the inbox to the end, all views agree with it. -/
theorem views_agree {size : List InboxItem → Id → Nat} {input : ListInput} {items : List InboxItem}
    {viewer : Viewer} {repeats : Bool} {now : Timestamp} (h : Reachable w)
    (hsession : locateSession w input.sessionId input.workspaceId = some session)
    (hopen : session.state = .opened) (hgeneration : session.generation = input.generation)
    (hkind : input.page.kind = none)
    (hwalk : Walk (inboxPages size w input) input.page none items)
    (hviewer : viewer.participantId = some session.participantId) :
    ViewsAgree w session viewer repeats now items where
  attention i := by
    have howed := fun sender => @listing_owed _ w session i size input items sender h.homed h.linked
      hsession hopen hgeneration hkind hwalk
    rw [attention_owed hviewer]
    constructor
    · rintro ⟨m, hm, hid⟩
      obtain ⟨item, hitem, hask, hid, -⟩ := (howed m.fromSessionId).mpr ⟨m, hm, hid, rfl⟩
      exact ⟨item, hitem, hask, hid⟩
    · rintro ⟨item, hitem, hask, hid⟩
      obtain ⟨m, hm, hid, -⟩ :=
        (howed item.message.fromSessionId).mp ⟨item, hitem, hask, hid, rfl⟩
      exact ⟨m, hm, hid⟩
  disjoint := turn_disjoint
  nextTurn i := by
    have howed := fun sender => @listing_owed _ w session i size input items sender h.homed h.linked
      hsession hopen hgeneration hkind hwalk
    rw [mem_asking_queued, mem_askingIds_reminder, mem_asking_repeat, asks_iff]
    constructor
    · rintro ⟨m, hm, hid, hother⟩
      obtain ⟨item, hitem, hask, hid, hsender⟩ := (howed m.fromSessionId).mpr ⟨m, hm, hid, rfl⟩
      exact ⟨item, hitem, hask, hid, hsender ▸ hother⟩
    · rintro ⟨item, hitem, hask, hid, hother⟩
      obtain ⟨m, hm, hid, hsender⟩ :=
        (howed item.message.fromSessionId).mp ⟨item, hitem, hask, hid, rfl⟩
      exact ⟨m, hm, hid, hsender ▸ hother⟩
  queued := by
    rw [unretrieved_eq]
    exact count_listed (.inl rfl) h.homed h.linked hsession hopen hgeneration hkind hwalk
  offered := by
    rw [unretrieved_eq]
    exact count_listed (.inr rfl) h.homed h.linked hsession hopen hgeneration hkind hwalk

end

/-! ## One question answered and one open -/

/-- The inbox of the session that answered. -/
def sampleInbox : ListInput :=
  ⟨sampleId "session_b", none, sampleId "generation_b", ⟨none, none, none⟩⟩

theorem sampleInbox_located :
    (locateSession sampleAnswered sampleInbox.sessionId none).isSome = true := by decide +kernel

def sampleOwner : Session :=
  (locateSession sampleAnswered sampleInbox.sessionId none).get sampleInbox_located

theorem sampleInbox_lists :
    (listInbox (fun items _ => items.length) sampleAnswered sampleInbox).toOption.isSome =
      true := by decide +kernel

def samplePage : Page InboxItem :=
  (listInbox (fun items _ => items.length) sampleAnswered sampleInbox).toOption.get
    sampleInbox_lists

/-- One of the two questions is still owed. -/
theorem views_agree_answered :
    samplePage.items.map (fun item => item.message.messageId) = [sampleId "message_3"] ∧
      ViewsAgree sampleAnswered sampleOwner
        ⟨none, some sampleOwner.participantId, 50, fun _ => false⟩ true 50 samplePage.items :=
  ⟨by decide +kernel, views_agree sampleAnswered_unpruned.reachable
    (Option.some_get sampleInbox_located).symm (by decide +kernel) (by decide +kernel) rfl
    (.last (eq_ok_get sampleInbox_lists) (by decide +kernel)) rfl⟩

end Acc.Core
