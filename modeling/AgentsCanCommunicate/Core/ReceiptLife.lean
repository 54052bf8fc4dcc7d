import AgentsCanCommunicate.Core.Run

/-!
# The life of a receipt

Offers, reads, acknowledgements and replies move the receipts of a workspace.
`Move` is what can happen to one receipt, each time with the one event that
tells of it, and `Life` is what can happen to it over a run.  Every call is a
list of such writes, so the events about a receipt are the story of its life,
whoever makes the calls and in whatever order.
-/

namespace Acc.Core

open Library (Table Keyed Run)

/-! ## What can happen to a receipt -/

/-- The event says that the receipt was offered, or that it was offered again. -/
def offerEvent (again : Bool) (event : Event) : Bool :=
  match event.payload with
  | .offerSucceeded _ _ _ _ _ repeated => repeated = again
  | _ => false

def failedEvent (event : Event) : Bool :=
  match event.payload with
  | .offerFailed .. => true
  | _ => false

/-- The event is about the receipt. -/
def concerns (i : ReceiptId) (event : Event) : Bool :=
  match event.payload with
  | .messageAdvanced _ messageId recipientId => i = ⟨messageId, recipientId⟩
  | .offerSucceeded messageId recipientId .. => i = ⟨messageId, recipientId⟩
  | .offerFailed messageId recipientId .. => i = ⟨messageId, recipientId⟩
  | _ => false

/-- One change of a receipt, with its event. -/
inductive Move : Receipt → Event → Receipt → Prop where
  /-- The recipient read or settled it. -/
  | advanced {r : Receipt} {m : Message} {state : ReceiptState} {now : Timestamp}
      {workspaceId actor : Id} :
      state = .retrieved ∨ state = .acknowledged → state ∈ receiptNext r.state →
      Move r ⟨workspaceId, actor, now, .messageAdvanced state r.messageId r.recipientParticipantId⟩
        (advancedReceipt m r state now)
  /-- A transport accepted it. -/
  | offered {r : Receipt} {now : Timestamp} {workspaceId actor target generation : Id}
      {transport : String} :
      r.state = .queued →
      Move r ⟨workspaceId, actor, now, .offerSucceeded r.messageId r.recipientParticipantId target
        generation transport false⟩
        { r with state := .offered, updatedAt := now, offer := some ⟨transport, now, none⟩ }
  /-- A live offer that nothing followed was shown again. -/
  | repeated {r : Receipt} {offer : Offer} {now : Timestamp}
      {workspaceId actor target generation : Id} {transport : String} :
      r.state = .offered → r.offer = some offer → liveAndUnrepeated offer = true →
      repeatOfferAfterMs ≤ now - offer.at_ →
      Move r ⟨workspaceId, actor, now, .offerSucceeded r.messageId r.recipientParticipantId target
        generation transport true⟩
        { r with offer := some { offer with repeatedAt := some now } }

/-- A failed offer changes nothing, and has its event. -/
def Failed (r : Receipt) (event : Event) : Prop :=
  failedEvent event = true ∧ concerns r.receiptId event = true

/-- What happened to a receipt, with the events, oldest first. -/
inductive Life : Receipt → List Event → Receipt → Prop where
  | nil {r : Receipt} : Life r [] r
  | moved {r r' r'' : Receipt} {events : List Event} {e : Event} :
      Life r events r' → Move r' e r'' → Life r (events ++ [e]) r''
  | failed {r r' : Receipt} {events : List Event} {e : Event} :
      Life r events r' → Failed r' e → Life r (events ++ [e]) r'

theorem Life.trans {r r' r'' : Receipt} {events events' : List Event} (h : Life r events r')
    (h' : Life r' events' r'') : Life r (events ++ events') r'' := by
  induction h' with
  | nil => rwa [List.append_nil]
  | moved _ hmove ih => exact List.append_assoc _ _ _ ▸ .moved ih hmove
  | failed _ hfailed ih => exact List.append_assoc _ _ _ ▸ .failed ih hfailed

theorem Move.receiptId {r r' : Receipt} {e : Event} (h : Move r e r') :
    r'.receiptId = r.receiptId := by
  cases h <;> rfl

theorem Move.concerns {r r' : Receipt} {e : Event} (h : Move r e r') (i : ReceiptId) :
    Core.concerns i e = decide (i = r.receiptId) := by
  cases h <;> rfl

theorem Move.not_failed {r r' : Receipt} {e : Event} (h : Move r e r') :
    failedEvent e = false := by
  cases h <;> rfl

theorem Move.rank {r r' : Receipt} {e : Event} (h : Move r e r') :
    r.state.rank ≤ r'.state.rank := by
  cases h with
  | advanced _ hnext => exact (rank_lt_of_mem_receiptNext hnext).le
  | offered hqueued => simp [hqueued, ReceiptState.rank]
  | repeated => rfl

theorem Life.receiptId {r r' : Receipt} {events : List Event} (h : Life r events r') :
    r'.receiptId = r.receiptId := by
  induction h with
  | nil => rfl
  | moved _ hmove ih => rw [hmove.receiptId, ih]
  | failed _ _ ih => exact ih

/-! ## The laws of a life -/

/-- An offer was repeated. -/
def Again (r : Receipt) : Prop := ∃ offer, r.offer = some offer ∧ offer.repeatedAt ≠ none

/-- What holds of every life of a receipt that, while queued, has no offer. -/
structure LifeLaws (r₀ : Receipt) (events : List Event) (r : Receipt) : Prop where
  /-- The state never moves down. -/
  rank : r₀.state.rank ≤ r.state.rank
  /-- A receipt is offered once, out of the queue. -/
  offers : (events.filter (offerEvent false)).length ≤ if r₀.state = .queued then 1 else 0
  /-- An offer is repeated once. -/
  repeats : (events.filter (offerEvent true)).length ≤ 1
  repeated : Again r₀ → events.filter (offerEvent true) = []
  /-- A repeat comes while the receipt is offered, long enough after the live
  offer, which is in the events or on the receipt from before. -/
  spaced : ∀ before e after, events = before ++ e :: after → offerEvent true e = true →
    ∃ r', Life r₀ before r' ∧ r'.state = .offered ∧ ∃ offer, r'.offer = some offer ∧
      liveAndUnrepeated offer = true ∧ repeatOfferAfterMs ≤ e.occurredAt - offer.at_ ∧
      (r₀.offer = some offer ∨
        ∃ e' ∈ before, offerEvent false e' = true ∧ e'.occurredAt = offer.at_)
  /-- Repeats and failed offers change neither state nor time. -/
  quiet : (∀ e ∈ events, offerEvent true e = true ∨ failedEvent e = true) →
    r.state = r₀.state ∧ r.updatedAt = r₀.updatedAt
  /-- The extensions are kept. -/
  obligation : ∀ o, r₀.obligation = some o → r.obligation = some o
  offer : ∀ o, r₀.offer = some o → ∃ o', r.offer = some o' ∧ o'.transport = o.transport ∧
    o'.at_ = o.at_ ∧ (o.repeatedAt ≠ none → o' = o)
  others : r.others = r₀.others

section

variable {r₀ r : Receipt} {events : List Event}

theorem Life.rank (h : Life r₀ events r) : r₀.state.rank ≤ r.state.rank := by
  induction h with
  | nil => exact le_rfl
  | moved _ hmove ih => exact ih.trans hmove.rank
  | failed _ _ ih => exact ih

theorem Failed.offerEvent {e : Event} (h : Failed r e) (again : Bool) :
    Core.offerEvent again e = false := by
  obtain ⟨hfailed, -⟩ := h
  rw [failedEvent] at hfailed
  rw [Core.offerEvent]
  cases hpayload : e.payload <;> simp_all

/-- While it is queued, nothing but failed offers happened. -/
theorem Life.queued (h : Life r₀ events r) (hr : r.state = .queued) :
    r = r₀ ∧ ∀ again, events.filter (offerEvent again) = [] := by
  induction h with
  | nil => exact ⟨rfl, fun _ => rfl⟩
  | moved _ hmove ih =>
      cases hmove with
      | advanced _ hnext => exact absurd hr (ne_queued_of_mem_receiptNext hnext)
      | offered => cases hr
      | repeated hoffered =>
          rw [hoffered] at hr
          cases hr
  | failed _ hfailed ih =>
      obtain ⟨heq, hnone⟩ := ih hr
      refine ⟨heq, fun again => ?_⟩
      rw [List.filter_append, hnone again, List.nil_append, List.filter_singleton,
        hfailed.offerEvent]
      rfl

theorem Life.offers (h : Life r₀ events r) :
    (events.filter (offerEvent false)).length ≤ if r₀.state = .queued then 1 else 0 := by
  induction h with
  | nil => simp
  | moved hlife hmove ih =>
      rw [List.filter_append, List.length_append]
      cases hmove with
      | advanced => exact ih
      | offered hqueued =>
          obtain ⟨rfl, hnone⟩ := hlife.queued hqueued
          rw [hnone false, if_pos hqueued]
          exact le_rfl
      | repeated => exact ih
  | failed _ hfailed ih =>
      rw [List.filter_append, List.filter_singleton, hfailed.offerEvent]
      simpa using ih

/-- Repeats are counted by the mark on the offer. -/
theorem Life.repeats (h : Life r₀ events r) :
    events.filter (offerEvent true) = [] ∨
      ((events.filter (offerEvent true)).length = 1 ∧ Again r) := by
  induction h with
  | nil => exact Or.inl rfl
  | moved hlife hmove ih =>
      rw [List.filter_append]
      cases hmove with
      | advanced =>
          rcases ih with hnone | ⟨hone, hagain⟩
          · rw [hnone]
            exact Or.inl rfl
          · exact Or.inr ⟨by simpa [offerEvent] using hone, hagain⟩
      | offered hqueued =>
          left
          rw [(hlife.queued hqueued).2 true]
          rfl
      | @repeated offer now _ _ _ _ _ hoffered hoffer hlive hspaced =>
          right
          -- The offer had no mark, so this is the first repeat.
          have hnone : _ = [] := ih.resolve_right fun hagain => by
            obtain ⟨offer', hoffer', hmark⟩ := hagain.2
            rw [hoffer] at hoffer'
            cases hoffer'
            simp only [liveAndUnrepeated, decide_eq_true_eq] at hlive
            exact hmark hlive.2
          rw [hnone]
          exact ⟨rfl, _, rfl, by simp⟩
  | failed _ hfailed ih =>
      rw [List.filter_append, List.filter_singleton, hfailed.offerEvent]
      simpa using ih

theorem Life.again (h : Life r₀ events r) (hqueued : r₀.state = .queued → r₀.offer = none)
    (hagain : Again r₀) : events.filter (offerEvent true) = [] ∧ Again r := by
  induction h with
  | nil => exact ⟨rfl, hagain⟩
  | moved hlife hmove ih =>
      obtain ⟨hnone, offer, hoffer, hmark⟩ := ih
      rw [List.filter_append, hnone]
      cases hmove with
      | advanced => exact ⟨rfl, offer, hoffer, hmark⟩
      | offered hstate =>
          obtain ⟨rfl, -⟩ := hlife.queued hstate
          rw [hqueued hstate] at hoffer
          cases hoffer
      | repeated hoffered hoffer' hlive hspaced =>
          rw [hoffer] at hoffer'
          cases hoffer'
          simp only [liveAndUnrepeated, decide_eq_true_eq] at hlive
          exact absurd hlive.2 hmark
  | failed _ hfailed ih =>
      rw [List.filter_append, List.filter_singleton, hfailed.offerEvent, ih.1]
      exact ⟨rfl, ih.2⟩

/-- An offer that was not repeated was there before, or its event tells of it. -/
theorem Life.source (h : Life r₀ events r) {offer : Offer} (hoffer : r.offer = some offer)
    (hmark : offer.repeatedAt = none) :
    r₀.offer = some offer ∨
      ∃ e ∈ events, offerEvent false e = true ∧ e.occurredAt = offer.at_ := by
  induction h with
  | nil => exact Or.inl hoffer
  | moved hlife hmove ih =>
      cases hmove with
      | advanced =>
          rcases ih hoffer with hbefore | ⟨e, he, hsource⟩
          · exact Or.inl hbefore
          · exact Or.inr ⟨e, List.mem_append_left _ he, hsource⟩
      | offered =>
          cases hoffer
          exact Or.inr ⟨_, List.mem_append_right _ (List.mem_singleton_self _), rfl, rfl⟩
      | repeated =>
          cases hoffer
          cases hmark
  | failed _ _ ih =>
      rcases ih hoffer with hbefore | ⟨e, he, hsource⟩
      · exact Or.inl hbefore
      · exact Or.inr ⟨e, List.mem_append_left _ he, hsource⟩

/-- A list that ends in an item splits at the end or before it. -/
theorem split_concat {α : Type} {xs before after : List α} {x y : α}
    (h : xs ++ [x] = before ++ y :: after) :
    (after = [] ∧ before = xs ∧ y = x) ∨ ∃ after', after = after' ++ [x] ∧
      xs = before ++ y :: after' := by
  rcases List.eq_nil_or_concat after with rfl | ⟨after', z, rfl⟩
  · obtain ⟨rfl, hy⟩ := List.append_inj' h rfl
    cases hy
    exact Or.inl ⟨rfl, rfl, rfl⟩
  · rw [List.concat_eq_append, ← List.cons_append, ← List.append_assoc] at h
    obtain ⟨hxs, hz⟩ := List.append_inj' h rfl
    cases hz
    exact Or.inr ⟨after', List.concat_eq_append, hxs⟩

theorem Life.spaced (h : Life r₀ events r) :
    ∀ before e after, events = before ++ e :: after → offerEvent true e = true →
    ∃ r', Life r₀ before r' ∧ r'.state = .offered ∧ ∃ offer, r'.offer = some offer ∧
      liveAndUnrepeated offer = true ∧ repeatOfferAfterMs ≤ e.occurredAt - offer.at_ ∧
      (r₀.offer = some offer ∨
        ∃ e' ∈ before, offerEvent false e' = true ∧ e'.occurredAt = offer.at_) := by
  induction h with
  | nil =>
      intro before e after heq
      simp at heq
  | moved hlife hmove ih =>
      intro before e after heq hrepeat
      rcases split_concat heq with ⟨rfl, rfl, rfl⟩ | ⟨after', rfl, hsplit⟩
      · cases hmove with
        | advanced => cases hrepeat
        | offered => cases hrepeat
        | @repeated offer now _ _ _ _ _ hoffered hoffer hlive hspaced =>
            have hmark : offer.repeatedAt = none := by
              simp only [liveAndUnrepeated, decide_eq_true_eq] at hlive
              exact hlive.2
            exact ⟨_, hlife, hoffered, offer, hoffer, hlive, hspaced, hlife.source hoffer hmark⟩
      · exact ih before e after' hsplit hrepeat
  | failed _ hfailed ih =>
      intro before e after heq hrepeat
      rcases split_concat heq with ⟨rfl, rfl, rfl⟩ | ⟨after', rfl, hsplit⟩
      · rw [hfailed.offerEvent] at hrepeat
        cases hrepeat
      · exact ih before e after' hsplit hrepeat

theorem Life.quiet (h : Life r₀ events r)
    (hquiet : ∀ e ∈ events, offerEvent true e = true ∨ failedEvent e = true) :
    r.state = r₀.state ∧ r.updatedAt = r₀.updatedAt := by
  induction h with
  | nil => exact ⟨rfl, rfl⟩
  | moved _ hmove ih =>
      have hbefore := ih fun e he => hquiet e (List.mem_append_left _ he)
      have hlast := hquiet _ (List.mem_append_right _ (List.mem_singleton_self _))
      rw [hmove.not_failed] at hlast
      cases hmove with
      | advanced => simp [offerEvent] at hlast
      | offered => simp [offerEvent] at hlast
      | repeated => exact hbefore
  | failed _ _ ih => exact ih fun e he => hquiet e (List.mem_append_left _ he)

theorem Life.obligation (h : Life r₀ events r) {o : Obligation} (ho : r₀.obligation = some o) :
    r.obligation = some o := by
  induction h with
  | nil => exact ho
  | moved _ hmove ih =>
      cases hmove with
      | advanced => simp [advancedReceipt, ih]
      | offered => exact ih
      | repeated => exact ih
  | failed _ _ ih => exact ih

theorem Life.others (h : Life r₀ events r) : r.others = r₀.others := by
  induction h with
  | nil => rfl
  | moved _ hmove ih =>
      rw [← ih]
      cases hmove <;> rfl
  | failed _ _ ih => exact ih

theorem Life.offer (h : Life r₀ events r) (hqueued : r₀.state = .queued → r₀.offer = none)
    {o : Offer} (ho : r₀.offer = some o) :
    ∃ o', r.offer = some o' ∧ o'.transport = o.transport ∧ o'.at_ = o.at_ ∧
      (o.repeatedAt ≠ none → o' = o) := by
  induction h with
  | nil => exact ⟨o, ho, rfl, rfl, fun _ => rfl⟩
  | moved hlife hmove ih =>
      obtain ⟨o', ho', htransport, hat, hsame⟩ := ih
      cases hmove with
      | advanced => exact ⟨o', ho', htransport, hat, hsame⟩
      | offered hstate =>
          obtain ⟨rfl, -⟩ := hlife.queued hstate
          rw [hqueued hstate] at ho
          cases ho
      | repeated hoffered hoffer hlive hspaced =>
          rw [ho'] at hoffer
          cases hoffer
          refine ⟨_, rfl, htransport, hat, fun hmark => ?_⟩
          cases hsame hmark
          simp only [liveAndUnrepeated, decide_eq_true_eq] at hlive
          exact absurd hlive.2 hmark
  | failed _ _ ih => exact ih

theorem Life.laws (h : Life r₀ events r) (hqueued : r₀.state = .queued → r₀.offer = none) :
    LifeLaws r₀ events r where
  rank := h.rank
  offers := h.offers
  repeats := by
    rcases h.repeats with hnone | hone
    · rw [hnone]
      exact Nat.zero_le _
    · exact hone.1.le
  repeated hagain := (h.again hqueued hagain).1
  spaced := h.spaced
  quiet := h.quiet
  obligation _ := h.obligation
  offer _ := h.offer hqueued
  others := h.others

end

/-! ## What a call does to the receipts -/

section

variable [LinearOrder ReceiptId] {w w' : Workspace} {ports : Ports}

/-- The events about a receipt, oldest first. -/
def receiptEvents (w : Workspace) (i : ReceiptId) : List Event := w.history.filter (concerns i)

/-- One write that moves a receipt, or records an answer. -/
inductive Touch : Workspace → Workspace → Prop where
  | move {w : Workspace} {r r' : Receipt} {e : Event} :
      r ∈ w.receipts → Move r e r' → Touch w ((w.putReceipt r').append e)
  | record {w : Workspace} {m : Message} {recipients : List Id} {now : Timestamp} :
      w.messages.get? m.messageId = none →
      (∀ i ∈ recipients, w.receipts.get? ⟨m.messageId, i⟩ = none) →
      Touch w (recordedMessage w m recipients now)

abbrev Touches : Workspace → Workspace → Prop := Relation.ReflTransGen Touch

theorem recordedMessage_history {m : Message} {recipients : List Id} {now : Timestamp} :
    (recordedMessage w m recipients now).history = w.history ++
      [⟨m.workspaceId, m.fromSessionId, now, .messageRecorded m.messageId m.threadId recipients⟩] :=
  Workspace.history_append (w := w)

/-- Recording a message whose receipts are new leaves those that are there. -/
theorem mem_recordedMessage {m : Message} {recipients : List Id} {now : Timestamp}
    (hnew : ∀ i ∈ recipients, w.receipts.get? ⟨m.messageId, i⟩ = none) {r : Receipt}
    (hr : r ∈ w.receipts) : r ∈ (recordedMessage w m recipients now).receipts := by
  refine Keyed.mem_putAll_of_mem hr fun hmem => ?_
  simp only [List.map_map, List.mem_map, Function.comp_apply] at hmem
  obtain ⟨i, hi, heq⟩ := hmem
  have hnone := hnew i hi
  rw [show (⟨m.messageId, i⟩ : ReceiptId) = r.receiptId from heq, Keyed.mem_def.mp hr] at hnone
  cases hnone

/-- A write of one receipt is a piece of its life, and of no other. -/
theorem Touch.life (h : Touch w w') {r : Receipt} (hr : r ∈ w.receipts) :
    ∃ r' ∈ w'.receipts, ∃ events,
      receiptEvents w' r.receiptId = receiptEvents w r.receiptId ++ events ∧ Life r events r' := by
  cases h with
  | @move s s' e hs hmove =>
      rw [receiptEvents, Workspace.history_append, List.filter_append, List.filter_singleton,
        hmove.concerns]
      by_cases hsame : r.receiptId = s.receiptId
      · cases Keyed.eq_of_key hr hs hsame
        refine ⟨s', Keyed.mem_put.mpr (Or.inl rfl), [e], by simp [receiptEvents], ?_⟩
        exact Life.moved .nil hmove
      · refine ⟨r, Keyed.mem_put.mpr (Or.inr ⟨hr, ?_⟩), [], by simp [hsame, receiptEvents], .nil⟩
        rw [hmove.receiptId]
        exact hsame
  | @record m recipients now hfresh hnew =>
      refine ⟨r, mem_recordedMessage hnew hr, [], ?_, .nil⟩
      rw [receiptEvents, recordedMessage_history, List.filter_append]
      simp [concerns, receiptEvents]

theorem Touches.life (h : Touches w w') {r : Receipt} (hr : r ∈ w.receipts) :
    ∃ r' ∈ w'.receipts, ∃ events,
      receiptEvents w' r.receiptId = receiptEvents w r.receiptId ++ events ∧ Life r events r' := by
  induction h with
  | refl => exact ⟨r, hr, [], by simp, .nil⟩
  | tail _ htouch ih =>
      obtain ⟨r', hr', events, hevents, hlife⟩ := ih
      obtain ⟨r'', hr'', events', hevents', hlife'⟩ := htouch.life hr'
      rw [hlife.receiptId] at hevents'
      exact ⟨r'', hr'', events ++ events', by rw [hevents', hevents, List.append_assoc],
        hlife.trans hlife'⟩

/-! ## Every write shows in the records -/

/-- What grows with every move of a receipt. -/
def weight (r : Receipt) : Nat :=
  2 * r.state.rank + if r.offer.any fun offer => offer.repeatedAt ≠ none then 1 else 0

omit [LinearOrder ReceiptId] in
theorem Move.weight {r r' : Receipt} {e : Event} (h : Move r e r') :
    Core.weight r < Core.weight r' := by
  cases h with
  | advanced _ hnext =>
      have hlt := rank_lt_of_mem_receiptNext hnext
      refine Nat.add_lt_add_right ?_ _
      simp only [advancedReceipt]
      omega
  | offered hqueued =>
      simp only [Core.weight, hqueued, ReceiptState.rank]
      split <;> simp
  | repeated _ hoffer hlive =>
      simp only [liveAndUnrepeated, decide_eq_true_eq] at hlive
      simp [Core.weight, hoffer, hlive.2]

/-- Records only grow. -/
structure Grown (w w' : Workspace) : Prop where
  receipts : ∀ r ∈ w.receipts, ∃ r' ∈ w'.receipts, r'.receiptId = r.receiptId ∧
    weight r ≤ weight r'
  messages : ∀ m ∈ w.messages, m ∈ w'.messages

/-- A record has grown. -/
def Shows (w w' : Workspace) : Prop :=
  (∃ r ∈ w.receipts, ∃ r' ∈ w'.receipts, r'.receiptId = r.receiptId ∧ weight r < weight r') ∨
    ∃ m ∈ w'.messages, m ∉ w.messages

theorem Grown.refl (w : Workspace) : Grown w w :=
  ⟨fun r hr => ⟨r, hr, rfl, le_rfl⟩, fun _ hm => hm⟩

theorem Grown.trans {w₁ w₂ w₃ : Workspace} (h : Grown w₁ w₂) (h' : Grown w₂ w₃) :
    Grown w₁ w₃ := by
  constructor
  · intro r hr
    obtain ⟨r', hr', hid, hle⟩ := h.receipts r hr
    obtain ⟨r'', hr'', hid', hle'⟩ := h'.receipts r' hr'
    exact ⟨r'', hr'', hid'.trans hid, hle.trans hle'⟩
  · intro m hm
    exact h'.messages m (h.messages m hm)

theorem Touch.grown (h : Touch w w') : Grown w w' ∧ Shows w w' := by
  cases h with
  | @move s s' e hs hmove =>
      refine ⟨⟨?_, fun m hm => hm⟩, Or.inl ⟨s, hs, s', Keyed.mem_put.mpr (Or.inl rfl),
        hmove.receiptId, hmove.weight⟩⟩
      intro r hr
      by_cases hsame : r.receiptId = s.receiptId
      · cases Keyed.eq_of_key hr hs hsame
        exact ⟨s', Keyed.mem_put.mpr (Or.inl rfl), hmove.receiptId, hmove.weight.le⟩
      · refine ⟨r, Keyed.mem_put.mpr (Or.inr ⟨hr, ?_⟩), rfl, le_rfl⟩
        rw [hmove.receiptId]
        exact hsame
  | @record m recipients now hfresh hnew =>
      constructor
      · constructor
        · intro r hr
          exact ⟨r, mem_recordedMessage hnew hr, rfl, le_rfl⟩
        · intro m' hm'
          exact Keyed.mem_put.mpr (Or.inr ⟨hm', Keyed.get?_eq_none.mp hfresh m' hm'⟩)
      · refine Or.inr ⟨m, Keyed.mem_put.mpr (Or.inl rfl), fun hm => ?_⟩
        exact Keyed.get?_eq_none.mp hfresh m hm rfl

theorem Touches.grown (h : Touches w w') : Grown w w' ∧ (w' = w ∨ Shows w w') := by
  induction h with
  | refl => exact ⟨Grown.refl w, Or.inl rfl⟩
  | @tail w₁ w₂ _ htouch ih =>
      obtain ⟨hgrown, hshows⟩ := ih
      obtain ⟨hgrown', hshows'⟩ := htouch.grown
      refine ⟨hgrown.trans hgrown', Or.inr ?_⟩
      rcases hshows with rfl | ⟨r, hr, r', hr', hid, hlt⟩ | ⟨m, hm, hnew⟩
      · exact hshows'
      · obtain ⟨r'', hr'', hid', hle⟩ := hgrown'.receipts r' hr'
        exact Or.inl ⟨r, hr, r'', hr'', hid'.trans hid, hlt.trans_le hle⟩
      · exact Or.inr ⟨m, hgrown'.messages m hm, hnew⟩

/-- A list of writes that leaves receipts and messages alone is empty. -/
theorem Touches.silent (h : Touches w w') (hreceipts : w'.receipts = w.receipts)
    (hmessages : w'.messages = w.messages) : w' = w := by
  rcases h.grown.2 with heq | ⟨r, hr, r', hr', hid, hlt⟩ | ⟨m, hm, hnew⟩
  · exact heq
  · rw [hreceipts] at hr'
    cases Keyed.eq_of_key hr' hr hid
    exact absurd hlt (lt_irrefl _)
  · rw [hmessages] at hm
    exact absurd hm hnew

/-! ## The transactions -/

/-- The transaction of a read, of the session its call located. -/
def readTransaction (w : Workspace) (ports : Ports) (session : Session) (input : ReadInput) :
    Result (Workspace × List (Viewed × Receipt)) :=
  w.transaction fun w => do
    let _ ← requireOpen (sessionIn w input.sessionId) input.generation "read the inbox"
    let receipts := readReceipts w session input.messageId
    let selected ← selectRead receipts (messagesFor w session receipts) input.messageId
    selected.foldlM (readOne session ports.now) (w, [])

def acknowledgeTransaction (w : Workspace) (ports : Ports) (session : Session)
    (input : SettleInput) : Result (Workspace × Receipt) :=
  w.transaction fun w => do
    let _ ← requireOpen (sessionIn w input.sessionId) input.generation "acknowledge a message"
    let owned ← requireOwnedReceipt w session input.messageId
    refuse (owned.1.obligation = .reply ∧ owned.2.state ≠ .acknowledged)
      ⟨.conflict, "this message requires a reply; use reply to answer, clarify, or decline"⟩
    let done ← advanceOwned w session input.messageId .acknowledged ports.now
    return (done.1, publicReceipt done.2)

def replyTransaction (w : Workspace) (ports : Ports) (session : Session) (input : ReplyInput) :
    Result (Workspace × (Message × Receipt)) :=
  w.transaction fun w => do
    let original ← requireOwnedReceipt w session input.settle.messageId
    let recorded ← recordMessageInTransaction w session (replyMessage original.1 input) ports.now
      (ports.ids .message 0) "reply to a message"
    let done ← advanceOwned recorded.1 session input.settle.messageId .acknowledged ports.now
    return (done.1, (recorded.2.message, publicReceipt done.2))

/-- A call locates its session, and runs its transaction. -/
theorem readInbox_eq {input : ReadInput} :
    readInbox w ports input =
      (requireOpen (locateSession w input.sessionId input.workspaceId) input.generation
        "read the inbox" >>= fun session => readTransaction w ports session input) := rfl

theorem acknowledgeMessage_eq {input : SettleInput} :
    acknowledgeMessage w ports input =
      (requireOpen (locateSession w input.sessionId input.workspaceId) input.generation
        "acknowledge a message" >>= fun session => acknowledgeTransaction w ports session input) :=
  rfl

theorem replyToMessage_eq {input : ReplyInput} :
    replyToMessage w ports input =
      (requireOpen (locateSession w input.settle.sessionId input.settle.workspaceId)
        input.settle.generation "reply to a message" >>= fun session =>
          replyTransaction w ports session input) := rfl

inductive ReceiptCall where
  | offerSucceeded | offerFailed | read | acknowledge | reply
deriving DecidableEq

/-- One call about receipts.  The session is whatever record the call located
before its transaction. -/
inductive ReceiptStep : Workspace → ReceiptCall → Workspace → Prop where
  | offerSucceeded {w w' : Workspace} {ports : Ports} {input : OfferInput} {receipt : Receipt} :
      recordOfferSucceeded w ports input = .ok (w', receipt) → ReceiptStep w .offerSucceeded w'
  | offerFailed {w w' : Workspace} {ports : Ports} {input : OfferInput} {code : String} :
      recordOfferFailed w ports input code = .ok (w', ()) → ReceiptStep w .offerFailed w'
  | read {w w' : Workspace} {ports : Ports} {session : Session} {input : ReadInput}
      {read : List (Viewed × Receipt)} :
      readTransaction w ports session input = .ok (w', read) → ReceiptStep w .read w'
  | acknowledge {w w' : Workspace} {ports : Ports} {session : Session} {input : SettleInput}
      {receipt : Receipt} :
      acknowledgeTransaction w ports session input = .ok (w', receipt) →
      ReceiptStep w .acknowledge w'
  | reply {w w' : Workspace} {ports : Ports} {session : Session} {input : ReplyInput}
      {answer : Message × Receipt} :
      replyTransaction w ports session input = .ok (w', answer) → ReceiptStep w .reply w'

theorem advanceOwned_touches {session : Session} {messageId : Id} {state : ReceiptState}
    {now : Timestamp} {receipt : Receipt} (hstate : state = .retrieved ∨ state = .acknowledged)
    (h : advanceOwned w session messageId state now = .ok (w', receipt)) : Touches w w' := by
  simp only [advanceOwned, bind_eq_ok] at h
  obtain ⟨owned, howned, nextState, hnext, h⟩ := h
  obtain ⟨-, hreceipt⟩ := requireOwnedReceipt_eq_ok howned
  obtain ⟨rfl, hforward⟩ := advanceReceipt_eq_ok hnext
  split at h
  · simp only [pure_eq_ok, Prod.mk.injEq] at h
    rw [← h.1]
  next hmoves =>
    simp only [pure_eq_ok, Prod.mk.injEq] at h
    obtain ⟨rfl, _⟩ := h
    have hforward := hforward.resolve_left fun heq => hmoves heq.symm
    have hid : owned.2.receiptId = ⟨messageId, session.participantId⟩ := Keyed.key_of_get? hreceipt
    have hmessage : owned.2.messageId = messageId := congrArg ReceiptId.messageId hid
    have hrecipient : owned.2.recipientParticipantId = session.participantId :=
      congrArg ReceiptId.participantId hid
    refine .single (.move (Keyed.mem_of_get? hreceipt) ?_)
    rw [← hmessage, ← hrecipient]
    exact .advanced hstate hforward

theorem readOne_touches {session : Session} {now : Timestamp} {done : List (Viewed × Receipt)}
    {item : Viewed × Receipt} {read : List (Viewed × Receipt)}
    (h : readOne session now (w, done) item = .ok (w', read)) : Touches w w' := by
  rw [readOne] at h
  split at h
  · cases h
    exact .refl
  · simp only [bind_eq_ok, pure_eq_ok, Prod.mk.injEq] at h
    obtain ⟨⟨_, _⟩, hdone, rfl, _⟩ := h
    exact advanceOwned_touches (Or.inl rfl) hdone

theorem readAll_touches {session : Session} {now : Timestamp} {items : List (Viewed × Receipt)}
    {done read : List (Viewed × Receipt)}
    (h : items.foldlM (readOne session now) (w, done) = .ok (w', read)) : Touches w w' := by
  induction items generalizing w done with
  | nil =>
      cases h
      exact .refl
  | cons item items ih =>
      simp only [List.foldlM_cons, bind_eq_ok] at h
      obtain ⟨⟨w₁, done₁⟩, hone, hrest⟩ := h
      exact (readOne_touches hone).trans (ih hrest)

/-- The receipts of a message that was recorded are new. -/
theorem createReceipts_new {message : Message} {recipients : List Id} {now : Timestamp}
    (h : recipients.foldlM (fun w participantId =>
      w.createReceipt (queuedReceipt message participantId now)) w = .ok w') :
    ∀ i ∈ recipients, w.receipts.get? ⟨message.messageId, i⟩ = none := by
  induction recipients generalizing w with
  | nil =>
      intro i hi
      cases hi
  | cons j js ih =>
      simp only [List.foldlM_cons, Workspace.createReceipt, bind_eq_ok, refuse_eq_ok,
        pure_eq_ok, ne_eq, not_not] at h
      obtain ⟨_, ⟨_, hj, rfl⟩, hrest⟩ := h
      intro i hi
      rcases List.mem_cons.mp hi with rfl | hi
      · exact hj
      · have hnone := ih hrest i hi
        rw [Workspace.putReceipt_receipts, Keyed.get?_put] at hnone
        split at hnone
        · cases hnone
        · exact hnone

theorem recordMessage_touches {session : Session} {raw : MessageInput} {now : Timestamp}
    {messageId : Id} {action : String} {done : Recorded}
    (h : recordMessageInTransaction w session raw now messageId action = .ok (w', done)) :
    Touches w w' := by
  simp only [recordMessageInTransaction, bind_eq_ok] at h
  obtain ⟨_, _, input, _, existing, _, h⟩ := h
  cases existing with
  | some message =>
      cases h
      exact .refl
  | none =>
      simp only [bind_eq_ok, pure_eq_ok, Prod.mk.injEq] at h
      obtain ⟨message, _, recipients, _, w₁, hcreate, rfl, rfl⟩ := h
      obtain ⟨hfresh, heq⟩ := createRecords_eq_ok hcreate
      simp only [createRecords, Workspace.createMessage, bind_eq_ok, refuse_eq_ok,
        pure_eq_ok] at hcreate
      obtain ⟨_, ⟨_, _, rfl⟩, _, hreceipts, _⟩ := hcreate
      rw [heq]
      have hnew := createReceipts_new hreceipts
      exact .single (.record hfresh hnew)

/-- The event of an offer of a receipt. -/
def offerOf (input : OfferInput) (target : Session) (now : Timestamp) (r : Receipt)
    (again : Bool) : Event :=
  ⟨r.workspaceId, target.sessionId, now,
    .offerSucceeded r.messageId r.recipientParticipantId input.targetSessionId
      input.targetGeneration input.transport again⟩

theorem recordOfferSucceeded_touches {input : OfferInput} {receipt : Receipt}
    (h : recordOfferSucceeded w ports input = .ok (w', receipt)) :
    w' = w ∨ ∃ r ∈ w.receipts, ∃ e r', Move r e r' ∧ (∃ again, offerEvent again e = true) ∧
      w' = (w.putReceipt r').append e := by
  simp only [recordOfferSucceeded, bind_eq_ok] at h
  obtain ⟨_, _, h⟩ := h
  have h := Workspace.transaction_eq_ok h
  simp only [bind_eq_ok] at h
  obtain ⟨found, hfound, target, htarget, h⟩ := h
  obtain ⟨hmem, hid⟩ := requireOfferableReceipt_eq_ok hfound
  have hmessage : found.2.messageId = input.messageId := congrArg ReceiptId.messageId hid
  have hrecipient : found.2.recipientParticipantId = input.recipientParticipantId :=
    congrArg ReceiptId.participantId hid
  split at h
  · split at h
    next hdue =>
      simp only [pure_eq_ok, Prod.mk.injEq] at h
      obtain ⟨rfl, _⟩ := h
      simp only [dueForRepeat, Bool.decide_and, Bool.and_eq_true, decide_eq_true_eq,
        Option.any_eq_true] at hdue
      obtain ⟨-, hoffered, offer, hoffer, hlive, hspaced⟩ := hdue
      refine Or.inr ⟨found.2, hmem, offerOf input target ports.now found.2 true, _,
        Move.repeated hoffered hoffer hlive hspaced, ⟨true, rfl⟩, ?_⟩
      rw [offered, offerOf, hoffer, hmessage, hrecipient]
      rfl
    next =>
      simp only [pure_eq_ok, Prod.mk.injEq] at h
      exact Or.inl h.1.symm
  · split at h
    next hqueued =>
      simp only [pure_eq_ok, Prod.mk.injEq] at h
      obtain ⟨rfl, _⟩ := h
      refine Or.inr ⟨found.2, hmem, offerOf input target ports.now found.2 false, _,
        Move.offered hqueued, ⟨false, rfl⟩, ?_⟩
      rw [offered, offerOf, hmessage, hrecipient]
    next =>
      simp only [pure_eq_ok, Prod.mk.injEq] at h
      exact Or.inl h.1.symm

/-- A failed offer is one event about a receipt, and nothing else. -/
theorem recordOfferFailed_eq_ok {input : OfferInput} {code : String}
    (h : recordOfferFailed w ports input code = .ok (w', ())) :
    ∃ r ∈ w.receipts, ∃ e, failedEvent e = true ∧
      (∀ i, concerns i e = decide (i = r.receiptId)) ∧ w' = w.append e := by
  simp only [recordOfferFailed, bind_eq_ok] at h
  obtain ⟨_, _, h⟩ := h
  have h := Workspace.transaction_eq_ok h
  simp only [bind_eq_ok, pure_eq_ok, Prod.mk.injEq] at h
  obtain ⟨found, hfound, target, htarget, rfl, _⟩ := h
  obtain ⟨hmem, hid⟩ := requireOfferableReceipt_eq_ok hfound
  refine ⟨found.2, hmem, _, ?_, ?_, rfl⟩
  · rfl
  · intro i
    rw [hid]
    rfl

/-- What a call writes: the one event of a failed offer, or moves and answers. -/
theorem ReceiptStep.writes {call : ReceiptCall} (h : ReceiptStep w call w') :
    (call = .offerFailed ∧ ∃ r ∈ w.receipts, ∃ e, failedEvent e = true ∧
      (∀ i, concerns i e = decide (i = r.receiptId)) ∧ w' = w.append e) ∨
    (call ≠ .offerFailed ∧ Touches w w') := by
  cases h with
  | offerSucceeded h =>
      refine Or.inr ⟨by decide, ?_⟩
      rcases recordOfferSucceeded_touches h with rfl | ⟨r, hr, e, r', hmove, -, rfl⟩
      · exact .refl
      · exact .single (.move hr hmove)
  | offerFailed h => exact Or.inl ⟨rfl, recordOfferFailed_eq_ok h⟩
  | read h =>
      have h := Workspace.transaction_eq_ok h
      simp only [bind_eq_ok] at h
      obtain ⟨_, _, _, _, h⟩ := h
      exact Or.inr ⟨by decide, readAll_touches h⟩
  | acknowledge h =>
      have h := Workspace.transaction_eq_ok h
      simp only [bind_eq_ok, pure_eq_ok, Prod.mk.injEq] at h
      obtain ⟨_, _, _, _, _, _, ⟨_, _⟩, hdone, rfl, _⟩ := h
      exact Or.inr ⟨by decide, advanceOwned_touches (Or.inr rfl) hdone⟩
  | reply h =>
      have h := Workspace.transaction_eq_ok h
      simp only [bind_eq_ok, pure_eq_ok, Prod.mk.injEq] at h
      obtain ⟨_, _, ⟨_, _⟩, hrecorded, ⟨_, _⟩, hdone, rfl, _⟩ := h
      exact Or.inr ⟨by decide,
        (recordMessage_touches hrecorded).trans (advanceOwned_touches (Or.inr rfl) hdone)⟩

/-- A call is a piece of the life of every receipt. -/
theorem ReceiptStep.life {call : ReceiptCall} (h : ReceiptStep w call w') {r : Receipt}
    (hr : r ∈ w.receipts) :
    ∃ r' ∈ w'.receipts, ∃ events,
      receiptEvents w' r.receiptId = receiptEvents w r.receiptId ++ events ∧ Life r events r' := by
  rcases h.writes with ⟨-, r₁, hr₁, e, hfailed, hconcerns, rfl⟩ | ⟨-, htouches⟩
  · refine ⟨r, hr, ?_⟩
    rw [receiptEvents, Workspace.history_append, List.filter_append, List.filter_singleton]
    cases habout : concerns r.receiptId e with
    | true => exact ⟨[e], rfl, .failed .nil ⟨hfailed, habout⟩⟩
    | false => exact ⟨[], rfl, .nil⟩
  · exact htouches.life hr

theorem life_of_run {calls : List ReceiptCall} (h : Run ReceiptStep w calls w') {r : Receipt}
    (hr : r ∈ w.receipts) :
    ∃ r' ∈ w'.receipts, ∃ events,
      receiptEvents w' r.receiptId = receiptEvents w r.receiptId ++ events ∧ Life r events r' := by
  induction h with
  | nil => exact ⟨r, hr, [], by simp, .nil⟩
  | snoc _ hstep ih =>
      obtain ⟨r', hr', events, hevents, hlife⟩ := ih
      obtain ⟨r'', hr'', events', hevents', hlife'⟩ := hstep.life hr'
      rw [hlife.receiptId] at hevents'
      exact ⟨r'', hr'', events ++ events', by rw [hevents', hevents, List.append_assoc],
        hlife.trans hlife'⟩

/-! ## A queued receipt has no offer -/

def Unoffered (w : Workspace) : Prop := ∀ r ∈ w.receipts, r.state = .queued → r.offer = none

theorem Change.unoffered (h : Change w w') (hw : Unoffered w) : Unoffered w' := by
  cases h with
  | message hm =>
      intro r hr hqueued
      rcases Keyed.mem_putAll hr with hnew | ⟨hold, -⟩
      · obtain ⟨i, -, rfl⟩ := List.mem_map.mp hnew
        rfl
      · exact hw r hold hqueued
  | receipt hupdate =>
      intro r hr hqueued
      rcases Keyed.mem_put.mp hr with rfl | ⟨hold, -⟩
      · exact absurd hqueued hupdate.moved
      · exact hw r hold hqueued
  | _ => exact hw

theorem Changes.unoffered (h : Changes w w') (hw : Unoffered w) : Unoffered w' := by
  induction h with
  | refl => exact hw
  | tail _ hchange ih => exact hchange.unoffered ih

theorem Step.unoffered {action : Action} (h : Step w action w') (hhome : Homed w)
    (hw : Unoffered w) : Unoffered w' := by
  cases h with
  | call hcall => exact (call_changes hhome hcall).unoffered hw
  | @prune ports input budget =>
      obtain ⟨n, events, floor, heq⟩ := @prune_eq _ w ports input budget
      rw [heq]
      intro r hr
      exact hw r (mem_receipts_removeEntries.mp hr).1
  | @earlier receipt hreceipt =>
      intro r hr hqueued
      rcases Keyed.mem_put.mp hr with rfl | ⟨hold, -⟩
      · exact hw receipt hreceipt hqueued
      · exact hw r hold hqueued

theorem Reachable.unoffered (h : Reachable w) : Unoffered w := by
  obtain ⟨workspaceId, actions, hrun⟩ := h
  have hinvariant : Homed w ∧ Unoffered w := by
    refine Run.invariant (I := fun w => Homed w ∧ Unoffered w) ?_ hrun ⟨homed_initial _, ?_⟩
    · intro s a t hs hstep
      exact ⟨hstep.homed hs.1, hstep.unoffered hs.1 hs.2⟩
    · intro r hr
      exact absurd hr Keyed.mem_empty
  exact hinvariant.2

/-! ## The lifecycle -/

/-- What one call adds to the log. -/
structure CallLaws (w : Workspace) (call : ReceiptCall) (w' : Workspace) : Prop where
  /-- A failed offer appends its event, and changes no record. -/
  failed : call = .offerFailed → ∃ e, failedEvent e = true ∧ w' = w.append e
  /-- An offer that is recorded, first or again, is one write with one event. -/
  offered : call = .offerSucceeded → w' = w ∨ ∃ r ∈ w.receipts, ∃ e r', Move r e r' ∧
    (∃ again, offerEvent again e = true) ∧ w' = (w.putReceipt r').append e
  /-- Any other call that changes no record appends nothing. -/
  silent : call ≠ .offerFailed → w'.receipts = w.receipts → w'.messages = w.messages → w' = w

theorem ReceiptStep.laws {call : ReceiptCall} (h : ReceiptStep w call w') :
    CallLaws w call w' := by
  constructor
  · intro hcall
    rcases h.writes with ⟨-, r, -, e, hfailed, -, heq⟩ | ⟨hne, -⟩
    · exact ⟨e, hfailed, heq⟩
    · exact absurd hcall hne
  · intro hcall
    cases h with
    | offerSucceeded h => exact recordOfferSucceeded_touches h
    | _ => cases hcall
  · intro hcall hreceipts hmessages
    rcases h.writes with ⟨heq, -⟩ | ⟨-, htouches⟩
    · exact absurd heq hcall
    · exact htouches.silent hreceipts hmessages

/-- Over every run of offers, reads, acknowledgements and replies, what happens
to a receipt is a life, told by one event for each move, and each call appends
what it should. -/
theorem receipt_lifecycle {w₀ : Workspace} {calls : List ReceiptCall} (h₀ : Reachable w₀)
    (hrun : Run ReceiptStep w₀ calls w) {r₀ : Receipt} (hr₀ : r₀ ∈ w₀.receipts) :
    (∃ r ∈ w.receipts, r.receiptId = r₀.receiptId ∧ ∃ events,
      receiptEvents w r₀.receiptId = receiptEvents w₀ r₀.receiptId ++ events ∧
      Life r₀ events r ∧ LifeLaws r₀ events r) ∧
    ∀ call w', ReceiptStep w call w' → CallLaws w call w' := by
  constructor
  · obtain ⟨r, hr, events, hevents, hlife⟩ := life_of_run hrun hr₀
    exact ⟨r, hr, hlife.receiptId, events, hevents, hlife,
      hlife.laws (h₀.unoffered r₀ hr₀)⟩
  · intro call w' hstep
    exact hstep.laws

end

/-! ## One receipt -/

/-- The session that reads in `sampleTalk`. -/
def sampleReader : Session :=
  sessionRecord (sampleOpen (sampleId "session_b") (sampleId "bob") "codex")
    (sampleId "workspace_1") (sampleId "session_b") 10 (sampleId "generation_b")

def sampleRead : Result (Workspace × List (Viewed × Receipt)) :=
  readTransaction sampleTalk (samplePorts 30 (sampleId "unused")) sampleReader
    ⟨sampleId "session_b", none, sampleId "generation_b", none⟩

theorem sampleRead_ok : sampleRead.toOption.isSome = true := by decide +kernel

theorem receipt_lifecycle_read :
    ∃ r₀ ∈ sampleTalk.receipts, ∃ w, Run ReceiptStep sampleTalk [.read] w ∧
      ((∃ r ∈ w.receipts, r.receiptId = r₀.receiptId ∧ ∃ events,
        receiptEvents w r₀.receiptId = receiptEvents sampleTalk r₀.receiptId ++ events ∧
        Life r₀ events r ∧ LifeLaws r₀ events r) ∧
      ∀ call w', ReceiptStep w call w' → CallLaws w call w') := by
  have hreceipt : (sampleTalk.receipts.get?
      ⟨⟨"message_1", by decide⟩, ⟨"bob", by decide⟩⟩).isSome = true := by decide +kernel
  obtain ⟨r₀, hr₀⟩ := Option.isSome_iff_exists.mp hreceipt
  have hmem : r₀ ∈ sampleTalk.receipts := Keyed.mem_of_get? hr₀
  have hrun : Run ReceiptStep sampleTalk [.read] (sampleRead.toOption.get sampleRead_ok).1 :=
    .single (.read (eq_ok_get sampleRead_ok))
  exact ⟨r₀, hmem, _, hrun, receipt_lifecycle sampleTalk_reachable hrun hmem⟩

end Acc.Core
