import AgentsCanCommunicate.Core.Attention
import AgentsCanCommunicate.Core.Changes
import AgentsCanCommunicate.Core.DecisionGroups
import AgentsCanCommunicate.DeliveryRouter.Router

/-!
# What an offer does

Everything is read off the transcript of an offer, so it holds whatever the adapters answer or
throw, and whatever other processes do between two questions.
-/

namespace Acc.DeliveryRouter

open Library (Dialogue Text)
open AdapterSdk.NativeDelivery (evaluateVersionContract OfferKind)
open Acc.Core

/-! ## Transcripts -/

/-- The error of a question that the router does not catch. -/
def thrown : Exchange → Option Thrown
  | ⟨.readReceipt _ _, .error e⟩ => some e
  | ⟨.listLiveSessions _ _, .error e⟩ => some e
  | ⟨.listDeliveryBindings _ _ _, .error e⟩ => some e
  | ⟨.history _, .error e⟩ => some e
  | ⟨.loadAdapter _, .error e⟩ => some e
  | _ => none

/-- The transcript ends with what was thrown. -/
def Throws (said : Transcript) (e : Thrown) : Prop :=
  ∃ before exchange, said = before ++ [exchange] ∧ thrown exchange = some e

def handed : Exchange → Option (DeliveryBinding × Message)
  | ⟨.offerMessage binding message, _⟩ => some (binding, message)
  | _ => none

def recorded : Exchange → Option OfferRecord
  | ⟨.recordOfferSucceeded record, .ok ()⟩ => some record
  | _ => none

def failure : Exchange → Option (OfferRecord × String)
  | ⟨.recordOfferFailed record safeErrorCode, _⟩ => some (record, safeErrorCode)
  | _ => none

def sessionsRead : Exchange → Option (Id × List LiveSession)
  | ⟨.listLiveSessions participantId _, .ok sessions⟩ => some (participantId, sessions)
  | _ => none

def policyRead : Exchange → Option LivePolicy
  | ⟨.readLivePolicy _, .ok (some policy)⟩ => some policy
  | ⟨.readLivePolicy _, _⟩ => some .off
  | _ => none

def historyRead : Exchange → Option Viewed
  | ⟨.history _, .ok viewed⟩ => some viewed
  | _ => none

def receiptRead : Exchange → Option Receipt
  | ⟨.readReceipt _ _, .ok receipt⟩ => some receipt
  | _ => none

/-- The last of what was read. -/
def latest {α : Type} (pick : Exchange → Option α) (said : Transcript) : Option α :=
  (said.filterMap pick).getLast?

/-- Nothing was handed over, and nothing recorded of it. -/
def Quiet (said : Transcript) : Prop :=
  said.filterMap handed = [] ∧ said.filterMap recorded = [] ∧ said.filterMap failure = []

/-! ## What the core answers -/

section

variable [LinearOrder ReceiptId]

def liveSessionsOf (w : Workspace) (pidIsAlive : Nat → Bool) (participantId : Id)
    (now : Timestamp) : List LiveSession :=
  (((snapshotOf w).sessions.filter fun session => session.participantId = participantId
      ∧ classifySessionPresence session now pidIsAlive ≠ .offline).insertionSort
    fun left right => left.sessionId.localeKey ≤ right.sessionId.localeKey).map
    fun session => ⟨session.sessionId, session.generation⟩

/-- The message of an exact reading of the history, with its status. -/
def historyMessage (w : Workspace) (messageId : Id) : Option Viewed :=
  (w.messages.list.map fun m => (m, decisionView w.messages.list m)).find? fun item =>
    item.1.messageId = messageId

/-- The core answers a reading from the store as it is at that moment, and keeps the message. -/
def Honest (message : Message) : Exchange → Prop
  | ⟨.readReceipt messageId recipientParticipantId, .ok receipt⟩ =>
      ∃ w : Workspace, readReceipt w messageId recipientParticipantId = .ok receipt
  | ⟨.listLiveSessions participantId now, .ok sessions⟩ =>
      ∃ (w : Workspace) (pidIsAlive : Nat → Bool),
        sessions = liveSessionsOf w pidIsAlive participantId now
  | ⟨.listDeliveryBindings participantId now includeExpired, .ok bindings⟩ =>
      ∃ s : Shared, bindings = listDeliveryBindings s participantId now includeExpired
  | ⟨.history messageId, .ok viewed⟩ =>
      ∃ w : Workspace, message ∈ w.messages ∧ historyMessage w messageId = some viewed
  | _ => True

/-! ## What a hand-over rests on -/

/-- What was last read allows the message to go to the binding. -/
structure Fenced (participantId : Id) (message : Message) (binding : DeliveryBinding)
    (before : Transcript) : Prop where
  /-- Its session is the only live one of the recipient. -/
  session : latest sessionsRead before =
    some (participantId, [⟨binding.sessionId, binding.generation⟩])
  consent : latest policyRead before = some binding.livePolicy ∧
    permits binding.livePolicy message.kind = true
  /-- No other decision names a decision that is handed over. -/
  head : message.kind = .decision → ∃ status : DecisionStatus,
    latest historyRead before = some (message, some status) ∧ status.isHead = true
  /-- The binding was read last, and only the clock since.  It is of the open generation of a
  session of the recipient and was not given up, and its lease had not run out. -/
  current : ∃ earlier now listed clocks, before =
      earlier ++ ⟨.listDeliveryBindings participantId now false, .ok listed⟩ :: clocks ∧
    (∀ exchange ∈ clocks, ∃ t, exchange = ⟨.now, t⟩) ∧
    ∃ item ∈ listed, binding = { item with livePolicy := binding.livePolicy } ∧
      DeliveryMode.livePush ∈ item.availableModes ∧
      (∃ t : Timestamp, ⟨.now, t⟩ ∈ clocks ∧ t < item.leaseUntil) ∧
      ∃ (s : Shared) (record : Session), item ∈ s.bindings ∧ item.retiredAt = none ∧
        bindingOwner s item = some record ∧ record.participantId = participantId

/-- An outcome says what happened. -/
structure Truthful (participantId : Id) (said : Transcript) (o : Outcome) : Prop where
  recipient : o.recipientParticipantId = participantId
  /-- Offered by a transport is what the core recorded as offered. -/
  offered : (o.outcome = .receipt .offered ∧ o.transport ≠ "durable") ↔
    said.filterMap recorded ≠ []
  /-- What a transport has was accepted, under a version that the contract admits, and the
  outcome does not tell the address. -/
  taken : o.transport ≠ "durable" → ∃ binding message response adapter,
    said.filterMap handed = [(binding, message)] ∧
    ⟨.offerMessage binding message, .ok response⟩ ∈ said ∧ response.accepted = true ∧
    ⟨.loadAdapter binding.adapterId, .ok (some adapter)⟩ ∈ said ∧
    (evaluateVersionContract adapter.toNativeAdapter response.clientVersion none).reasonCode =
      none ∧
    said.filterMap failure = [] ∧ o.transport ≠ binding.opaqueEndpointRef
  /-- What was handed over and is not taken is a failure that the core is told of, under the same
  code and without the address. -/
  refused : ∀ binding message, said.filterMap handed = [(binding, message)] →
    o.transport = "durable" → o.outcome = .receipt .queued ∧ ∃ code transport,
      o.errorCode = some code ∧ code ∈ safeErrors ∧ transport ≠ binding.opaqueEndpointRef ∧
      said.filterMap failure = [(offerRecord binding message participantId transport, code)]
  /-- The core is told of no failure but that of the outcome. -/
  told : ∀ told ∈ said.filterMap failure, o.errorCode = some told.2
  /-- What was not handed over is as its receipt says, or waits for a reason. -/
  kept : said.filterMap handed = [] → o.transport = "durable" ∧
    ((o.errorCode = none ∧ ∃ receipt, latest receiptRead said = some receipt ∧
      o.outcome = .receipt receipt.state) ∨ (o.errorCode ≠ none ∧ o.outcome = .receipt .queued))

end

/-! ## Reading transcripts -/

section

variable {α : Type} {pick : Exchange → Option α} {said before after : Transcript}
  {exchange : Exchange} {p : Id} {message : Message} {binding current : DeliveryBinding}
  {adapter : Adapter} {e : Thrown}

theorem latest_concat :
    latest pick (said ++ [exchange]) = (pick exchange).or (latest pick said) := by
  cases h : pick exchange <;> simp [latest, List.filterMap_append, h]

theorem Quiet.concat (h : Quiet said) (exchange : Exchange) (hhanded : handed exchange = none)
    (hrecorded : recorded exchange = none) (hfailure : failure exchange = none) :
    Quiet (said ++ [exchange]) := by
  obtain ⟨h₁, h₂, h₃⟩ := h
  simp [Quiet, List.filterMap_append, h₁, h₂, h₃, hhanded, hrecorded, hfailure]

theorem throws_concat (said : Transcript) (h : thrown exchange = some e) :
    Throws (said ++ [exchange]) e :=
  ⟨said, exchange, rfl, h⟩

/-! ## Words -/

theorem safeTransport_ne_ref {value : Option String} {ref : String} :
    safeTransport value ref ≠ ref := by
  unfold safeTransport
  split
  next value hvalue =>
    have hfit := (Option.filter_eq_some_iff.mp hvalue).2
    exact (decide_eq_true_eq.mp hfit).2
  next =>
    split
    next href =>
      rw [href]
      decide
    next href => exact fun h => href h.symm

theorem safeTransport_ne_durable {value : Option String} {ref : String} :
    safeTransport value ref ≠ "durable" := by
  unfold safeTransport
  split
  next value hvalue =>
    have hfit := (Option.filter_eq_some_iff.mp hvalue).2
    rw [decide_eq_true_eq, namedLiveTransports] at hfit
    rintro rfl
    exact absurd hfit.1 (by decide)
  next => split <;> decide

theorem sameEndpoint_ref (h : sameEndpoint binding current = true) :
    binding.opaqueEndpointRef = current.opaqueEndpointRef := by
  simp only [sameEndpoint, Bool.and_eq_true, decide_eq_true_eq] at h
  exact h.2.symm

theorem offerRecord_congr {transport : String} (h : sameEndpoint binding current = true) :
    offerRecord current message p transport = offerRecord binding message p transport := by
  simp only [sameEndpoint, Bool.and_eq_true, decide_eq_true_eq] at h
  obtain ⟨⟨⟨⟨hsession, hgeneration⟩, hadapter⟩, hversion⟩, -⟩ := h
  simp [offerRecord, hsession, hgeneration, hadapter, hversion]

/-! ## A hand-over -/

variable {H : Exchange → Prop} {β : Type}

theorem meets_ask {question : Question} {P : Except Thrown question.Answer → Transcript → Prop} :
    (ask question).Meets H P before ↔
      ∀ answer, H ⟨question, answer⟩ → P (.ok answer) (before ++ [⟨question, answer⟩]) :=
  Iff.rfl

theorem meets_ask_bind {question : Question} {f : question.Answer → Talk β}
    {P : Except Thrown β → Transcript → Prop} : (ask question >>= f).Meets H P before ↔
      ∀ answer, H ⟨question, answer⟩ → (f answer).Meets H P (before ++ [⟨question, answer⟩]) :=
  Iff.rfl

theorem orThrow_bind {α : Type} {x : Talk (Except Thrown α)} {f : α → Talk β} :
    orThrow x >>= f = x >>= fun answer => Dialogue.ofExcept answer >>= f :=
  Dialogue.bind_assoc _ _ _

theorem policyFor_bind {f : LivePolicy → Talk β} {P : Except Thrown β → Transcript → Prop}
    (h : ∀ answer policy, policyRead ⟨.readLivePolicy binding, answer⟩ = some policy →
      (f policy).Meets H P (before ++ [⟨.readLivePolicy binding, answer⟩])) :
    (policyFor binding >>= f).Meets H P before := by
  rw [policyFor, bind_assoc, meets_ask_bind]
  rintro (thrown | _ | policy) _
  · exact h _ .off rfl
  · exact h _ .off rfl
  · exact h _ policy rfl

/-- What the router says after a failure. -/
def failed (binding : DeliveryBinding) (message : Message) (p : Id) (transport code : String)
    (told : Except Thrown Unit) (t : Timestamp) : Transcript :=
  [⟨.recordOfferFailed (offerRecord binding message p
      (safeTransport (some transport) binding.opaqueEndpointRef)) code, told⟩, ⟨.now, t⟩,
    ⟨.observe binding.sessionId binding.generation t (some code), ()⟩]

theorem recordFailure_bind {transport code : String} {f : Unit → Talk β}
    {P : Except Thrown β → Transcript → Prop}
    (h : ∀ told t, (f ()).Meets H P (before ++ failed binding message p transport code told t)) :
    (recordFailure binding message p transport code >>= f).Meets H P before := by
  intro told _ t _ answer _
  have hmeets := h told t
  simp only [failed, List.append_assoc, List.cons_append, List.nil_append] at hmeets ⊢
  exact hmeets

theorem observeOffer_bind {code : Option String} {f : Unit → Talk β}
    {P : Except Thrown β → Transcript → Prop}
    (h : ∀ t, (f ()).Meets H P (before ++ [⟨.now, t⟩,
      ⟨.observe binding.sessionId binding.generation t code, ()⟩])) :
    (observeOffer binding code >>= f).Meets H P before := by
  intro t _ answer _
  have hmeets := h t
  simp only [List.append_assoc, List.cons_append, List.nil_append] at hmeets ⊢
  exact hmeets

theorem mem_safeErrors_getD {code : Option String} :
    (code.filter (· ∈ safeErrors)).getD "transport_rejected" ∈ safeErrors := by
  cases h : code.filter (· ∈ safeErrors) with
  | none => decide
  | some code => simpa using (Option.filter_eq_some_iff.mp h).2

/-- The hand-over is the only one, and the outcome is truthful. -/
def Ended (p : Id) (message : Message) (current : DeliveryBinding) (before : Transcript)
    (r : Except Thrown Outcome) (said : Transcript) : Prop :=
  ∃ o answer after, r = .ok o ∧
    said = before ++ ⟨.offerMessage current message, answer⟩ :: after ∧
    after.filterMap handed = [] ∧ Truthful p said o

section

variable {answer : Except Thrown Response}

/-- After a hand-over the transcript tells of that one and of what follows it. -/
theorem handed_of_quiet (h : Quiet before) : (before ++
    ⟨.offerMessage current message, answer⟩ :: after).filterMap handed =
      (current, message) :: after.filterMap handed := by
  simp [List.filterMap_append, h.1, handed]

theorem recorded_of_quiet (h : Quiet before) : (before ++
    ⟨.offerMessage current message, answer⟩ :: after).filterMap recorded =
      after.filterMap recorded := by
  simp [List.filterMap_append, List.filterMap_cons, h.2.1, recorded]

theorem failure_of_quiet (h : Quiet before) : (before ++
    ⟨.offerMessage current message, answer⟩ :: after).filterMap failure =
      after.filterMap failure := by
  simp [List.filterMap_append, List.filterMap_cons, h.2.2, failure]

theorem ended_failed {code transport : String} {told : Except Thrown Unit} {t : Timestamp}
    (more : Transcript) (hquiet : Quiet before) (hmore : Quiet more)
    (hsame : sameEndpoint binding current = true) (hcode : code ∈ safeErrors) :
    Ended p message current before (.ok (durable p code))
      (before ++ ⟨.offerMessage current message, answer⟩ :: (more ++
        failed binding message p transport code told t)) := by
  have hhanded : (more ++ failed binding message p transport code told t).filterMap handed =
      [] := by
    simp [List.filterMap_append, List.filterMap_cons, failed, handed, hmore.1]
  have hrecorded : (more ++ failed binding message p transport code told t).filterMap recorded =
      [] := by
    simp [List.filterMap_append, List.filterMap_cons, failed, recorded, hmore.2.1]
  have hfailure : (more ++ failed binding message p transport code told t).filterMap failure =
      [(offerRecord binding message p
        (safeTransport (some transport) binding.opaqueEndpointRef), code)] := by
    simp [List.filterMap_append, List.filterMap_cons, failed, failure, hmore.2.2]
  refine ⟨_, answer, _, rfl, rfl, hhanded, ?_⟩
  constructor
  case recipient => rfl
  case offered => simp [recorded_of_quiet hquiet, hrecorded, durable, plain]
  case taken => exact fun h => absurd rfl h
  case refused =>
    intro binding' message' hhanded' _
    rw [handed_of_quiet hquiet, hhanded] at hhanded'
    cases hhanded'
    refine ⟨rfl, code, safeTransport (some transport) binding.opaqueEndpointRef, rfl, hcode, ?_, ?_⟩
    · rw [← sameEndpoint_ref hsame]
      exact safeTransport_ne_ref
    · rw [failure_of_quiet hquiet, hfailure, offerRecord_congr hsame]
  case told =>
    rw [failure_of_quiet hquiet, hfailure]
    simp [durable]
  case kept =>
    rw [handed_of_quiet hquiet]
    exact fun h => absurd h (List.cons_ne_nil _ _)

/-- What was accepted is taken, and offered if the core recorded that. -/
theorem ended_taken {response : Response} {o : Outcome} {more : Transcript} (hquiet : Quiet before)
    (hadapter : ⟨.loadAdapter current.adapterId, .ok (some adapter)⟩ ∈ before)
    (haccepted : response.accepted = true)
    (hversion : (evaluateVersionContract adapter.toNativeAdapter response.clientVersion
      none).reasonCode = none) (hhanded : more.filterMap handed = [])
    (hfailure : more.filterMap failure = []) (hrecipient : o.recipientParticipantId = p)
    (htransport : o.transport = safeTransport response.transport current.opaqueEndpointRef)
    (hoffered : o.outcome = .receipt .offered ↔ more.filterMap recorded ≠ []) :
    Ended p message current before (.ok o)
      (before ++ ⟨.offerMessage current message, .ok response⟩ :: more) := by
  have hdurable : o.transport ≠ "durable" := by
    rw [htransport]
    exact safeTransport_ne_durable
  refine ⟨_, _, more, rfl, rfl, hhanded, ?_⟩
  constructor
  case recipient => exact hrecipient
  case offered => rw [recorded_of_quiet hquiet, ← hoffered, and_iff_left hdurable]
  case taken =>
    intro _
    refine ⟨current, message, response, adapter, ?_, by simp, haccepted,
      List.mem_append_left _ hadapter, hversion, ?_, ?_⟩
    · rw [handed_of_quiet hquiet, hhanded]
    · rw [failure_of_quiet hquiet, hfailure]
    · rw [htransport]
      exact safeTransport_ne_ref
  case refused => exact fun _ _ _ h => absurd h hdurable
  case told =>
    rw [failure_of_quiet hquiet, hfailure]
    simp
  case kept =>
    rw [handed_of_quiet hquiet]
    exact fun h => absurd h (List.cons_ne_nil _ _)

end

theorem handOver_meets (hquiet : Quiet before) (hsame : sameEndpoint binding current = true)
    (hadapter : ⟨.loadAdapter current.adapterId, .ok (some adapter)⟩ ∈ before) :
    (handOver message p adapter binding current).Meets H (Ended p message current before)
      before := by
  have hnil : Quiet [] := ⟨rfl, rfl, rfl⟩
  rw [handOver, meets_ask_bind]
  intro answer _
  cases answer with
  | error thrown =>
      exact recordFailure_bind fun told t => by
        simpa using ended_failed [] hquiet hnil hsame (by decide)
  | ok response =>
      dsimp only
      split
      next hrefused =>
        exact recordFailure_bind fun told t => by
          simpa using ended_failed [] hquiet hnil hsame mem_safeErrors_getD
      next haccepted =>
        rw [Bool.not_eq_false] at haccepted
        split
        next hversion =>
          exact recordFailure_bind fun told t => by
            simpa using ended_failed [] hquiet hnil hsame (by decide)
        next hversion =>
          rw [not_not] at hversion
          split
          next hwake =>
            refine observeOffer_bind fun t => ?_
            split
            all_goals
              simp only [List.append_assoc, List.cons_append, List.nil_append]
              refine ended_taken hquiet hadapter haccepted hversion ?_ ?_ rfl ?_ ?_
              all_goals simp [plain, handed, failure, recorded, sameEndpoint_ref hsame]
          next hwake =>
            rw [meets_ask_bind]
            intro told _
            cases told with
            | error thrown =>
                refine recordFailure_bind fun told t => ?_
                simpa using ended_failed [⟨.recordOfferSucceeded _, .error thrown⟩] hquiet
                  ⟨rfl, rfl, rfl⟩ hsame (by decide)
            | ok =>
                refine observeOffer_bind fun t => ?_
                simp only [List.append_assoc, List.cons_append, List.nil_append]
                refine ended_taken hquiet hadapter haccepted hversion ?_ ?_ rfl ?_ ?_
                all_goals simp [plain, handed, failure, recorded, sameEndpoint_ref hsame]

/-! ## Before a hand-over -/

theorem quiet_of_now {clocks : Transcript} (hquiet : Quiet before)
    (hclocks : ∀ exchange ∈ clocks, ∃ t, exchange = ⟨.now, t⟩) : Quiet (before ++ clocks) := by
  have hnone : ∀ {α : Type} (pick : Exchange → Option α), (∀ t, pick ⟨.now, t⟩ = none) →
      clocks.filterMap pick = [] := by
    intro α pick hpick
    refine List.filterMap_eq_nil_iff.mpr fun exchange hmem => ?_
    obtain ⟨t, rfl⟩ := hclocks exchange hmem
    exact hpick t
  obtain ⟨h₁, h₂, h₃⟩ := hquiet
  simp only [Quiet, List.filterMap_append, h₁, h₂, h₃, List.nil_append]
  exact ⟨hnone _ fun _ => rfl, hnone _ fun _ => rfl, hnone _ fun _ => rfl⟩

theorem latest_of_now {clocks : Transcript} (hpick : ∀ t, pick ⟨.now, t⟩ = none)
    (hclocks : ∀ exchange ∈ clocks, ∃ t, exchange = ⟨.now, t⟩) :
    latest pick (before ++ clocks) = latest pick before := by
  have hnone : clocks.filterMap pick = [] := by
    refine List.filterMap_eq_nil_iff.mpr fun exchange hmem => ?_
    obtain ⟨t, rfl⟩ := hclocks exchange hmem
    exact hpick t
  rw [latest, List.filterMap_append, hnone, List.append_nil, latest]

/-- An endpoint is found to be leased by the clock alone. -/
theorem says_stillLeased {item : DeliveryBinding} {r : Except Thrown Bool}
    (h : (stillLeased binding item).Says said r) : ∃ leased, r = .ok leased ∧
      (∀ exchange ∈ said, ∃ t, exchange = ⟨.now, t⟩) ∧
      (leased = true → sameEndpoint binding item = true ∧
        DeliveryMode.livePush ∈ item.availableModes ∧
        ∃ t : Timestamp, ⟨.now, t⟩ ∈ said ∧ t < item.leaseUntil) := by
  unfold stillLeased at h
  split at h
  next hsame =>
    obtain ⟨t, rest, rfl, rfl, rfl⟩ := h
    rw [Bool.and_eq_true, decide_eq_true_eq] at hsame
    exact ⟨_, rfl, by simp, fun ht => ⟨hsame.1, hsame.2, t, by simp, decide_eq_true_eq.mp ht⟩⟩
  next =>
    obtain ⟨rfl, rfl⟩ := h
    exact ⟨_, rfl, by simp, fun h => by cases h⟩

theorem says_leased {item : DeliveryBinding} {r : Except Thrown (DeliveryBinding × Bool)}
    (h : Dialogue.Says (do return (item, ← stillLeased binding item)) said r) :
    ∃ leased, r = .ok (item, leased) ∧ (stillLeased binding item).Says said (.ok leased) := by
  rcases Dialogue.says_bind.mp h with ⟨e, he, -⟩ | ⟨leased, before, after, rfl, hleased, rfl, rfl⟩
  · obtain ⟨leased, hok, -⟩ := says_stillLeased he
    cases hok
  · exact ⟨leased, rfl, by simpa using hleased⟩

/-- The endpoints that are listed, each with whether it is leased. -/
theorem each_leased {listed : List DeliveryBinding} {leased : List (DeliveryBinding × Bool)}
    (h : Dialogue.Each (fun item => do return (item, ← stillLeased binding item)) listed said
      leased) : (∀ exchange ∈ said, ∃ t, exchange = ⟨.now, t⟩) ∧
      ∀ item ∈ leased.filter Prod.snd, item.1 ∈ listed ∧ sameEndpoint binding item.1 = true ∧
        DeliveryMode.livePush ∈ item.1.availableModes ∧
        ∃ t : Timestamp, ⟨.now, t⟩ ∈ said ∧ t < item.1.leaseUntil := by
  induction h with
  | nil => simp
  | cons hsays _ ih =>
      obtain ⟨leased, hok, hasked⟩ := says_leased hsays
      cases hok
      obtain ⟨_, hok, hclocks, hleased⟩ := says_stillLeased hasked
      cases hok
      constructor
      · intro exchange hmem
        exact (List.mem_append.mp hmem).elim (hclocks exchange) (ih.1 exchange)
      · intro item hmem
        obtain ⟨hmem, htrue⟩ := List.mem_filter.mp hmem
        rcases List.mem_cons.mp hmem with rfl | hmem
        · obtain ⟨hsame, hpush, t, ht, hlater⟩ := hleased htrue
          exact ⟨List.mem_cons_self, hsame, hpush, t, List.mem_append_left _ ht, hlater⟩
        · obtain ⟨hlisted, hsame, hpush, t, ht, hlater⟩ := ih.2 item
            (List.mem_filter.mpr ⟨hmem, htrue⟩)
          exact ⟨List.mem_cons_of_mem _ hlisted, hsame, hpush, t, List.mem_append_right _ ht,
            hlater⟩

/-- A hand-over is found at one place. -/
theorem handed_unique {current' : DeliveryBinding} {m : Message} {pre post : Transcript}
    {answer answer' : Except Thrown Response} (hbefore : before.filterMap handed = [])
    (hafter : after.filterMap handed = [])
    (h : before ++ ⟨.offerMessage current message, answer⟩ :: after =
      pre ++ ⟨.offerMessage current' m, answer'⟩ :: post) :
    before = pre ∧ current = current' ∧ message = m ∧ after = post := by
  have hone := congrArg (List.filterMap handed) h
  have hnone : ∀ {said : Transcript}, said.filterMap handed = [] →
      ∀ exchange ∈ said, (handed exchange).isNone = true := by
    intro said hsaid exchange hmem
    simpa using List.filterMap_eq_nil_iff.mp hsaid exchange hmem
  have hpre : pre.filterMap handed = [] := by
    cases hp : pre.filterMap handed with
    | nil => rfl
    | cons first rest => simp [List.filterMap_append, hbefore, hafter, hp, handed] at hone
  have htake := congrArg (List.takeWhile fun exchange => (handed exchange).isNone) h
  rw [List.takeWhile_append_of_pos (hnone hbefore),
    List.takeWhile_append_of_pos (hnone hpre)] at htake
  simp only [List.takeWhile_cons, handed, Option.isNone_some, Bool.false_eq_true, if_false,
    List.append_nil] at htake
  subst htake
  have htail := List.append_cancel_left h
  simp only [List.cons.injEq, Sigma.mk.injEq, Question.offerMessage.injEq] at htail
  exact ⟨rfl, htail.1.1.1, htail.1.1.2, htail.2⟩

variable [LinearOrder ReceiptId] {routed : Message}

/-- The router ended with a truthful outcome, or with what a reading threw.  What it handed over
was fenced, was the only one, and ended with an outcome. -/
def Handled (p : Id) (r : Except Thrown Outcome) (said : Transcript) : Prop :=
  (∀ pre current m answer post, said = pre ++ ⟨.offerMessage current m, answer⟩ :: post →
    Fenced p m current pre ∧ pre.filterMap handed = [] ∧ post.filterMap handed = [] ∧
      ∃ o, r = .ok o) ∧
  match r with
  | .ok o => Truthful p said o
  | .error e => Throws said e

theorem Ended.handled {r : Except Thrown Outcome} (h : Ended p message current before r said)
    (hquiet : Quiet before) (hfenced : Fenced p message current before) : Handled p r said := by
  obtain ⟨o, answer, after, rfl, rfl, hafter, htruthful⟩ := h
  refine ⟨fun pre current' m answer' post hsplit => ?_, htruthful⟩
  obtain ⟨rfl, rfl, rfl, rfl⟩ := handed_unique hquiet.1 hafter hsplit
  exact ⟨hfenced, hquiet.1, hafter, o, rfl⟩

/-- Nothing was handed over. -/
theorem handled_of_quiet {r : Except Thrown Outcome} (hhanded : said.filterMap handed = [])
    (hend : match r with
      | .ok o => Truthful p said o
      | .error e => Throws said e) : Handled p r said := by
  refine ⟨?_, hend⟩
  rintro pre current m answer post rfl
  simp [List.filterMap_append, handed] at hhanded

theorem handled_thrown {r : Except Thrown Outcome} (hquiet : Quiet said)
    (hnone : handed exchange = none) (hthrown : thrown exchange = some e) (hr : r = .error e) :
    Handled p r (said ++ [exchange]) := by
  subst hr
  exact handled_of_quiet (by simp [List.filterMap_append, hquiet.1, hnone])
    (throws_concat _ hthrown)

/-- Without a hand-over, a reason to wait is truthful. -/
theorem handled_waits {o : Outcome} {code : String} (hhanded : said.filterMap handed = [])
    (hrecorded : said.filterMap recorded = [])
    (htold : ∀ told ∈ said.filterMap failure, told.2 = code)
    (hrecipient : o.recipientParticipantId = p) (houtcome : o.outcome = .receipt .queued)
    (htransport : o.transport = "durable") (hcode : o.errorCode = some code) :
    Handled p (.ok o) said :=
  handled_of_quiet hhanded
    { recipient := hrecipient
      offered := by simp [htransport, hrecorded]
      taken := fun h => absurd htransport h
      refused := fun binding message h => by simp [hhanded] at h
      told := fun told htold' => by rw [hcode, htold told htold']
      kept := fun _ => ⟨htransport, .inr ⟨by simp [hcode], houtcome⟩⟩ }

theorem handled_durable {code : String} (hquiet : Quiet said) :
    Handled p (.ok (durable p code)) said :=
  handled_waits hquiet.1 hquiet.2.1 (by simp [hquiet.2.2]) rfl rfl rfl rfl

theorem handled_settled {receipt : Receipt} (hquiet : Quiet said)
    (hread : latest receiptRead said = some receipt)
    (hrecipient : receipt.recipientParticipantId = p) :
    Handled p (.ok (settled receipt)) said :=
  handled_of_quiet hquiet.1
    { recipient := hrecipient
      offered := by simp [settled, plain, hquiet.2.1]
      taken := fun h => absurd rfl h
      refused := fun binding message h => by simp [hquiet.1] at h
      told := by simp [hquiet.2.2]
      kept := fun _ => ⟨rfl, .inl ⟨rfl, receipt, hread, rfl⟩⟩ }

theorem confirm_meets {policy : LivePolicy} (hquiet : Quiet before)
    (hadapter : ⟨.loadAdapter binding.adapterId, .ok (some adapter)⟩ ∈ before)
    (hsession : latest sessionsRead before = some (p, [⟨binding.sessionId, binding.generation⟩]))
    (hpolicy : latest policyRead before = some policy)
    (hpermits : permits policy message.kind = true)
    (hhead : message.kind = .decision → ∃ status : DecisionStatus,
      latest historyRead before = some (message, some status) ∧ status.isHead = true) :
    (confirm message p adapter binding policy).Meets (Honest routed) (Handled p) before := by
  rw [confirm, meets_ask_bind]
  intro now _
  rw [orThrow_bind, meets_ask_bind]
  have hquiet' := hquiet.concat ⟨.now, now⟩ rfl rfl rfl
  rintro (thrown | listed) hlisted
  · exact handled_thrown hquiet' rfl rfl rfl
  rw [Dialogue.ofExcept, Dialogue.done_bind, Dialogue.meets_iff]
  intro said r hsaid hsays
  rcases Dialogue.says_bind.mp hsays with ⟨e, he, -⟩ | ⟨leased, clocks, after, rfl, hleased, hend⟩
  · rcases Dialogue.says_mapM.mp he with ⟨_, hok, -⟩ | ⟨_, _, _, _, _, _, _, -, -, -, -, hfail⟩
    · cases hok
    · obtain ⟨_, hok, -⟩ := says_leased hfail
      cases hok
  rcases Dialogue.says_mapM.mp hleased with ⟨_, hok, heach⟩ | ⟨_, _, _, _, _, _, _, -, herror, -⟩
  swap
  · cases herror
  cases hok
  obtain ⟨hclocks, hfound⟩ := each_leased heach
  have hread := (hquiet'.concat ⟨.listDeliveryBindings p now false, .ok listed⟩
    rfl rfl rfl)
  have hlast := quiet_of_now hread hclocks
  have hthen : ∀ {α : Type} {pick : Exchange → Option α}, (∀ t, pick ⟨.now, t⟩ = none) →
      (∀ answer, pick ⟨.listDeliveryBindings p now false, answer⟩ = none) →
      latest pick (before ++ [⟨.now, now⟩] ++
        [⟨.listDeliveryBindings p now false, .ok listed⟩] ++ clocks) = latest pick before := by
    intro α pick hnow hlist
    rw [latest_of_now hnow hclocks, latest_concat, latest_concat, hnow, hlist]
    rfl
  rw [← List.append_assoc]
  split at hend
  next current hcurrent =>
    obtain ⟨hmem, hsame, hpush, t, ht, hlater⟩ := hfound current (by rw [hcurrent]; simp)
    have hids : current.1.sessionId = binding.sessionId ∧
        current.1.generation = binding.generation ∧ current.1.adapterId = binding.adapterId := by
      simp only [sameEndpoint, Bool.and_eq_true, decide_eq_true_eq] at hsame
      exact ⟨hsame.1.1.1.1, hsame.1.1.1.2, hsame.1.1.2⟩
    have hmeets : (handOver message p adapter binding { current.1 with livePolicy := policy }).Meets
        (Honest routed) (Ended p message { current.1 with livePolicy := policy } _) _ :=
      handOver_meets hlast hsame (by rw [hids.2.2]; simp [hadapter])
    have hended := Dialogue.meets_iff.mp hmeets after r
      (fun exchange hmem => hsaid exchange (List.mem_append_right _ hmem)) hend
    refine hended.handled hlast ?_
    obtain ⟨s, rfl⟩ := hlisted
    obtain ⟨hstored, hlive, record, howner, hparticipant⟩ := mem_listDeliveryBindings hmem
    constructor
    case session =>
      rw [hthen (fun _ => rfl) (fun _ => rfl), hsession, hids.1, hids.2.1]
    case consent => exact ⟨(hthen (fun _ => rfl) fun _ => rfl).trans hpolicy, hpermits⟩
    case head =>
      intro hkind
      obtain ⟨status, hstatus, hishead⟩ := hhead hkind
      exact ⟨status, (hthen (fun _ => rfl) fun _ => rfl).trans hstatus, hishead⟩
    case current =>
      exact ⟨before ++ [⟨.now, now⟩], now, _, clocks, by simp, hclocks, current.1, hmem, rfl, hpush,
        ⟨t, ht, hlater⟩, s, record, hstored, hlive, howner, hparticipant⟩
  next =>
    obtain ⟨rfl, rfl⟩ := hend
    rw [List.append_nil]
    exact handled_durable hlast

/-! ## Readings of the core -/

theorem honest_receipt {messageId : Id} {receipt : Receipt}
    (h : Honest routed ⟨.readReceipt messageId p, .ok receipt⟩) :
    receipt.recipientParticipantId = p := by
  obtain ⟨w, hread⟩ := h
  simp only [readReceipt, bind_eq_ok, pure_eq_ok] at hread
  obtain ⟨found, hfound, rfl⟩ := hread
  exact congrArg ReceiptId.participantId (requireReceipt_eq_ok hfound).2

/-- A decision that is read from the history is the one that is routed, with its status. -/
theorem honest_history {viewed : Viewed} (hkind : routed.kind = .decision)
    (h : Honest routed ⟨.history routed.messageId, .ok viewed⟩) :
    viewed.1 = routed ∧ ∃ status, viewed.2 = some status := by
  obtain ⟨w, hstored, hfound⟩ := h
  have hid := List.find?_some hfound
  obtain ⟨m, hm, rfl⟩ := List.mem_map.mp (List.mem_of_find?_eq_some hfound)
  obtain rfl : m = routed :=
    Library.Keyed.eq_of_key (Library.Keyed.mem_list.mp hm) hstored (decide_eq_true_eq.mp hid)
  exact ⟨rfl, _, decisionView_eq (unique_messages w) hm hkind⟩

/-! ## The recipient -/

theorem recheck_meets (hquiet : Quiet before)
    (hadapter : ⟨.loadAdapter binding.adapterId, .ok (some adapter)⟩ ∈ before) :
    (recheck routed p adapter binding).Meets (Honest routed) (Handled p) before := by
  refine policyFor_bind fun answer policy hpolicy => ?_
  have hquiet₁ := hquiet.concat ⟨.readLivePolicy binding, answer⟩ rfl rfl rfl
  split
  next => exact handled_durable hquiet₁
  next hpermits =>
    rw [meets_ask_bind]
    intro now _
    rw [orThrow_bind, meets_ask_bind]
    have hquiet₂ := hquiet₁.concat ⟨.now, now⟩ rfl rfl rfl
    rintro (thrown | sessions) hsessions
    · exact handled_thrown hquiet₂ rfl rfl rfl
    rw [Dialogue.ofExcept, Dialogue.done_bind]
    have hquiet₃ := hquiet₂.concat ⟨.listLiveSessions p now, .ok sessions⟩ rfl rfl rfl
    split
    next => exact handled_durable hquiet₃
    next =>
      split
      next => exact handled_durable hquiet₃
      next honly =>
        rw [not_not] at honly
        subst honly
        split
        next hkind =>
          rw [orThrow_bind, meets_ask_bind]
          rintro (thrown | viewed) hviewed
          · exact handled_thrown hquiet₃ rfl rfl rfl
          rw [Dialogue.ofExcept, Dialogue.done_bind]
          obtain ⟨hsame, status, hstatus⟩ := honest_history hkind hviewed
          obtain ⟨message, _⟩ := viewed
          obtain rfl : message = routed := hsame
          obtain rfl := hstatus
          have hquiet₄ := hquiet₃.concat ⟨.history message.messageId, .ok (message, some status)⟩
            rfl rfl rfl
          dsimp only
          split
          next hhead =>
            refine confirm_meets hquiet₄ (by simp [hadapter]) ?_ ?_ (by simpa using hpermits)
              fun _ => ⟨status, ?_, hhead⟩
            · rw [latest_concat, latest_concat]
              rfl
            · rw [latest_concat, latest_concat, latest_concat, latest_concat, hpolicy]
              rfl
            · rw [latest_concat]
              rfl
          next =>
            rw [orThrow_bind, meets_ask_bind]
            rintro (thrown | receipt) hreceipt
            · exact handled_thrown hquiet₄ rfl rfl rfl
            refine handled_settled (hquiet₄.concat _ rfl rfl rfl) ?_ (honest_receipt hreceipt)
            rw [latest_concat]
            rfl
        next hkind =>
          refine confirm_meets hquiet₃ (by simp [hadapter]) ?_ ?_ (by simpa using hpermits)
            fun hdecision => absurd hdecision hkind
          · rw [latest_concat]
            rfl
          · rw [latest_concat, latest_concat, latest_concat, hpolicy]
            rfl

/-! ## An expired lease -/

section

variable {dateParse : Text → Option Timestamp}

omit [LinearOrder ReceiptId] in
theorem refreshExpiredBinding_meets (hquiet : Quiet before) :
    (refreshExpiredBinding dateParse adapter binding).Meets H
      (fun r said => ∃ answer, r = .ok answer ∧ Quiet said ∧ before <+: said) before := by
  unfold refreshExpiredBinding
  split
  next => exact ⟨_, rfl, hquiet, List.prefix_refl _⟩
  next =>
    rw [meets_ask_bind]
    intro now _
    rw [meets_ask_bind]
    have hquiet₁ := hquiet.concat ⟨.now, now⟩ rfl rfl rfl
    intro handshake _
    have hquiet₂ := hquiet₁.concat ⟨.refreshNativeSession binding, handshake⟩ rfl rfl rfl
    split
    next => exact ⟨_, rfl, hquiet₂, by simp⟩
    next handshake =>
      split
      next => exact ⟨_, rfl, hquiet₂, by simp⟩
      next leaseUntil _ =>
        rw [meets_ask_bind]
        intro refreshed _
        have hquiet₃ := hquiet₂.concat ⟨.refreshDeliveryBinding binding.sessionId
          binding.generation leaseUntil, refreshed⟩ rfl rfl rfl
        split
        next => exact ⟨_, rfl, hquiet₃, by simp⟩
        next =>
          rw [meets_ask_bind]
          intro stored _
          have hquiet₄ := hquiet₃.concat ⟨.storedBinding binding.sessionId, stored⟩
            rfl rfl rfl
          split
          next => exact ⟨_, rfl, hquiet₄, by simp⟩
          next =>
            split
            next => exact ⟨_, rfl, hquiet₄, by simp⟩
            next => exact ⟨_, rfl, hquiet₄, by simp⟩

/-- The binding has a lease now, or the message waits. -/
def Renewed (p : Id) (before : Transcript) (binding : DeliveryBinding)
    (r : Except Thrown (Except Outcome DeliveryBinding)) (said : Transcript) : Prop :=
  match r with
  | .ok (.ok current) => Quiet said ∧ before <+: said ∧ current.adapterId = binding.adapterId
  | .ok (.error o) => Handled p (.ok o) said
  | .error e => Handled p (.error e) said

theorem renew_meets {now : Timestamp} (hquiet : Quiet before) :
    (renew dateParse routed p now adapter binding).Meets (Honest routed)
      (Renewed p before binding) before := by
  unfold renew
  split
  next => exact ⟨hquiet, List.prefix_refl _, rfl⟩
  next =>
    refine (refreshExpiredBinding_meets hquiet).bind ?_ ?_
    · rintro answer said ⟨_, hok, hquiet₁, hstarts⟩
      cases hok
      split
      next errorCode =>
        split
        next hdenied =>
          refine recordFailure_bind fun told t => ?_
          refine @handled_waits _ _ _ _ errorCode ?_ ?_ ?_ rfl rfl rfl rfl
          · simp [List.filterMap_append, hquiet₁.1, failed, handed]
          · simp [List.filterMap_append, hquiet₁.2.1, failed, recorded]
          · simp [List.filterMap_append, hquiet₁.2.2, failed, failure]
        next =>
          refine observeOffer_bind fun t => ?_
          refine handled_durable ?_
          obtain ⟨h₁, h₂, h₃⟩ := hquiet₁
          simp [Quiet, List.filterMap_append, h₁, h₂, h₃, handed, recorded, failure]
      next =>
        rw [meets_ask_bind]
        intro later _
        rw [orThrow_bind, meets_ask_bind]
        have hquiet₂ := hquiet₁.concat ⟨.now, later⟩ rfl rfl rfl
        rintro (thrown | listed) _
        · exact handled_thrown (r := .error thrown) hquiet₂ rfl rfl rfl
        rw [Dialogue.ofExcept, Dialogue.done_bind]
        have hquiet₃ := hquiet₂.concat ⟨.listDeliveryBindings p later false, .ok listed⟩
          rfl rfl rfl
        split
        next current hcurrent =>
          have hsame : sameEndpoint binding current = true := by
            have hmem : current ∈ listed.filter (sameEndpoint binding) := by rw [hcurrent]; simp
            exact (List.mem_filter.mp hmem).2
          simp only [sameEndpoint, Bool.and_eq_true, decide_eq_true_eq] at hsame
          refine ⟨hquiet₃, hstarts.trans (by simp), hsame.1.1.2⟩
        next => exact handled_durable hquiet₃
    · rintro e said ⟨_, herror, -⟩
      cases herror

/-! ## The bindings of a session -/

omit [LinearOrder ReceiptId] in
theorem says_evaluate {r : Except Thrown Evaluated} (h : (evaluate binding).Says said r) :
    (∃ e, r = .error e ∧ said = [⟨.loadAdapter binding.adapterId, .error e⟩]) ∨
      ∃ found policy, r = .ok ⟨binding, found, policy⟩ ∧ Quiet said ∧
        ⟨.loadAdapter binding.adapterId, .ok found⟩ ∈ said := by
  obtain ⟨loaded, rest, rfl, h⟩ := h
  cases loaded with
  | error e =>
      obtain ⟨rfl, rfl⟩ := h
      exact .inl ⟨e, rfl, rfl⟩
  | ok found =>
      obtain ⟨policy, rest, rfl, h⟩ := h
      refine .inr ?_
      rcases policy with thrown | _ | policy
      all_goals
        obtain ⟨rfl, rfl⟩ := h
        exact ⟨found, _, rfl, ⟨rfl, rfl, rfl⟩, by simp⟩

omit [LinearOrder ReceiptId] in
/-- The bindings are evaluated, each with the adapter that was loaded for it. -/
theorem each_evaluate {bindings : List DeliveryBinding} {evaluated : List Evaluated}
    (h : Dialogue.Each evaluate bindings said evaluated) : Quiet said ∧
      ∀ item ∈ evaluated, ⟨.loadAdapter item.binding.adapterId, .ok item.adapter⟩ ∈ said := by
  induction h with
  | nil => exact ⟨⟨rfl, rfl, rfl⟩, by simp⟩
  | cons hsays _ ih =>
      rcases says_evaluate hsays with ⟨_, herror, -⟩ | ⟨found, policy, hok, hquiet, hmem⟩
      · cases herror
      · cases hok
        obtain ⟨h₁, h₂, h₃⟩ := hquiet
        obtain ⟨⟨h₁', h₂', h₃'⟩, hloaded⟩ := ih
        refine ⟨by simp [Quiet, List.filterMap_append, h₁, h₂, h₃, h₁', h₂', h₃'], ?_⟩
        simp only [List.forall_mem_cons]
        exact ⟨List.mem_append_left _ hmem, fun item hitem => List.mem_append_right _
          (hloaded item hitem)⟩

omit [LinearOrder ReceiptId] in
theorem quiet_append {more : Transcript} (h : Quiet said) (h' : Quiet more) :
    Quiet (said ++ more) := by
  obtain ⟨h₁, h₂, h₃⟩ := h
  obtain ⟨h₁', h₂', h₃'⟩ := h'
  simp [Quiet, List.filterMap_append, h₁, h₂, h₃, h₁', h₂', h₃']

theorem evaluate_meets {bindings : List DeliveryBinding} (hquiet : Quiet before) :
    (bindings.mapM evaluate).Meets H (fun r said => match r with
      | .ok evaluated => Quiet said ∧
          ∀ item ∈ evaluated, ⟨.loadAdapter item.binding.adapterId, .ok item.adapter⟩ ∈ said
      | .error e => Handled p (.error e) said) before := by
  refine Dialogue.meets_iff.mpr fun said r _ hsays => ?_
  rcases Dialogue.says_mapM.mp hsays with ⟨evaluated, rfl, heach⟩ |
    ⟨_, b, _, evaluated, earlier, last, e, -, rfl, rfl, heach, hfail⟩
  · obtain ⟨hsaid, hloaded⟩ := each_evaluate heach
    exact ⟨quiet_append hquiet hsaid, fun item hitem => List.mem_append_right _
      (hloaded item hitem)⟩
  · rcases says_evaluate hfail with ⟨_, herror, rfl⟩ | ⟨_, _, hok, -⟩
    · cases herror
      have hsaid := (each_evaluate heach).1
      rw [← List.append_assoc]
      exact handled_thrown (quiet_append hquiet hsaid) rfl rfl rfl
    · cases hok

theorem withoutLiveTransport_meets {target : LiveSession} (hquiet : Quiet before) :
    (withoutLiveTransport p target).Meets H (Handled p) before := by
  rw [withoutLiveTransport, meets_ask_bind]
  intro found _
  have hquiet₁ := hquiet.concat ⟨.readNativeReason target.sessionId target.generation, found⟩
    rfl rfl rfl
  have hwaits : ∀ {o : Outcome}, o.recipientParticipantId = p → o.outcome = .receipt .queued →
      o.transport = "durable" → o.errorCode = some "no_live_transport" →
      Handled p (.ok o) (before ++
        [⟨.readNativeReason target.sessionId target.generation, found⟩]) := by
    intro o hrecipient houtcome htransport hcode
    exact handled_waits hquiet₁.1 hquiet₁.2.1 (by simp [hquiet₁.2.2]) hrecipient houtcome htransport
      hcode
  split
  next =>
    split
    next => exact hwaits rfl rfl rfl rfl
    next => exact hwaits rfl rfl rfl rfl
  next => exact hwaits rfl rfl rfl rfl

theorem offline_meets (hquiet : Quiet before) : (offline p).Meets H (Handled p) before := by
  rw [offline, meets_ask_bind]
  intro last _
  have hquiet₁ := hquiet.concat ⟨.lastSessionOf p, last⟩ rfl rfl rfl
  split
  next =>
    exact handled_waits hquiet₁.1 hquiet₁.2.1 (by simp [hquiet₁.2.2]) rfl rfl rfl rfl
  next => exact handled_durable hquiet₁

theorem offerToSession_meets {now : Timestamp} {target : LiveSession} (hquiet : Quiet before) :
    (offerToSession dateParse routed p now target).Meets (Honest routed) (Handled p) before := by
  rw [offerToSession, orThrow_bind, meets_ask_bind]
  rintro (thrown | listed) _
  · exact handled_thrown hquiet rfl rfl rfl
  rw [Dialogue.ofExcept, Dialogue.done_bind]
  have hquiet₁ := hquiet.concat ⟨.listDeliveryBindings p now true, .ok listed⟩
    rfl rfl rfl
  dsimp only
  split
  next => exact withoutLiveTransport_meets hquiet₁
  next =>
    refine (evaluate_meets (p := p) hquiet₁).bind ?_ fun e said h => h
    rintro evaluated said ⟨hquiet₂, hloaded⟩
    split
    next => exact handled_durable hquiet₂
    next =>
      split
      next => exact handled_durable hquiet₂
      next =>
        split
        next => exact handled_durable hquiet₂
        next binding adapter policy hcapable =>
          have hmem : ⟨binding, some adapter, policy⟩ ∈ evaluated := by
            have hfound := List.mem_singleton_self (⟨binding, some adapter, policy⟩ : Evaluated)
            rw [← hcapable] at hfound
            exact List.mem_of_mem_filter (List.mem_of_mem_filter (List.mem_of_mem_filter hfound))
          refine (renew_meets hquiet₂).bind ?_ fun e said h => h
          rintro (o | current) said h
          · exact h
          · obtain ⟨hquiet₃, hstarts, hid⟩ := h
            exact recheck_meets hquiet₃ (hstarts.subset (hid ▸ hloaded _ hmem))
        next => exact handled_durable hquiet₂

theorem offerTo_meets {now : Timestamp} :
    (offerTo dateParse routed now p).Meets (Honest routed) (Handled p) [] := by
  have hnil : Quiet [] := ⟨rfl, rfl, rfl⟩
  rw [offerTo, orThrow_bind, meets_ask_bind]
  rintro (thrown | receipt) hreceipt
  · exact handled_thrown hnil rfl rfl rfl
  rw [Dialogue.ofExcept, Dialogue.done_bind]
  have hquiet₁ := hnil.concat ⟨.readReceipt routed.messageId p, .ok receipt⟩ rfl rfl rfl
  split
  next =>
    refine handled_settled hquiet₁ ?_ (honest_receipt hreceipt)
    rw [latest_concat]
    rfl
  next =>
    rw [orThrow_bind, meets_ask_bind]
    rintro (thrown | sessions) _
    · exact handled_thrown hquiet₁ rfl rfl rfl
    rw [Dialogue.ofExcept, Dialogue.done_bind]
    have hquiet₂ := hquiet₁.concat ⟨.listLiveSessions p now, .ok sessions⟩ rfl rfl rfl
    split
    next => exact offline_meets hquiet₂
    next target => exact offerToSession_meets hquiet₂
    next => exact handled_durable hquiet₂

/-! ## All recipients -/

omit [LinearOrder ReceiptId] in
theorem throws_append (said : Transcript) {more : Transcript} (h : Throws more e) :
    Throws (said ++ more) e := by
  obtain ⟨before, exchange, rfl, hthrown⟩ := h
  exact ⟨said ++ before, exchange, (List.append_assoc _ _ _).symm, hthrown⟩

/-- One dialogue for each recipient gives one outcome for each. -/
theorem outcomes_of_each {f : Id → Talk Outcome} {recipients : List Id} {outcomes : List Outcome}
    (hf : ∀ p said o, (∀ exchange ∈ said, Honest routed exchange) → (f p).Says said (.ok o) →
      o.recipientParticipantId = p)
    (hsaid : ∀ exchange ∈ said, Honest routed exchange)
    (h : Dialogue.Each f recipients said outcomes) :
    outcomes.map Outcome.recipientParticipantId = recipients := by
  induction h with
  | nil => rfl
  | cons hsays _ ih =>
      rw [List.forall_mem_append] at hsaid
      rw [List.map_cons, hf _ _ _ hsaid.1 hsays, ih hsaid.2]

theorem outcomes_of_mapM {f : Id → Talk Outcome} {recipients : List Id}
    {r : Except Thrown (List Outcome)}
    (hf : ∀ p, (f p).Meets (Honest routed) (fun r said => match r with
      | .ok o => o.recipientParticipantId = p
      | .error e => Throws said e) [])
    (hsaid : ∀ exchange ∈ said, Honest routed exchange) (h : (recipients.mapM f).Says said r) :
    (∃ outcomes, r = .ok outcomes ∧ outcomes.map Outcome.recipientParticipantId = recipients) ∨
      ∃ e, r = .error e ∧ Throws said e := by
  rcases Dialogue.says_mapM.mp h with ⟨outcomes, rfl, heach⟩ |
    ⟨_, p, _, _, earlier, last, e, -, rfl, rfl, -, hfail⟩
  · refine .inl ⟨outcomes, rfl, outcomes_of_each (fun p said o hhonest hsays => ?_) hsaid heach⟩
    exact Dialogue.meets_iff.mp (hf p) said (.ok o) hhonest hsays
  · refine .inr ⟨e, rfl, throws_append _ ?_⟩
    exact Dialogue.meets_iff.mp (hf p) last (.error e)
      (fun exchange hmem => hsaid exchange (List.mem_append_right _ hmem)) hfail

theorem offerEach_outcomes {r : Except Thrown (List Outcome)}
    (hsaid : ∀ exchange ∈ said, Honest routed exchange)
    (h : (offerEach dateParse routed).Says said r) :
    (∃ outcomes, r = .ok outcomes ∧
      outcomes.map Outcome.recipientParticipantId = routed.toParticipantIds) ∨
      ∃ e, r = .error e ∧ Throws said e := by
  obtain ⟨now, rest, rfl, h⟩ := h
  rw [List.forall_mem_cons] at hsaid
  refine (outcomes_of_mapM (fun p => ?_) hsaid.2 h).imp_right
    fun ⟨e, he, hthrows⟩ => ⟨e, he, throws_append [_] hthrows⟩
  refine offerTo_meets.mono fun r said hhandled => ?_
  cases r with
  | ok o => exact hhandled.2.recipient
  | error e => exact hhandled.2

/-- An offer gives one outcome for each recipient, in their order, whatever the adapters, the
consent and the records of the offers come to.  Only a reading of the core and the loading of an
adapter end it without outcomes. -/
theorem offer_outcomes {r : Except Thrown (List Outcome)}
    (hsaid : ∀ exchange ∈ said, Honest message exchange)
    (h : (offer dateParse message).Says said r) :
    (∃ outcomes, r = .ok outcomes ∧
      outcomes.map Outcome.recipientParticipantId = message.toParticipantIds) ∨
      ∃ e, r = .error e ∧ Throws said e := by
  unfold offer at h
  split at h
  next hnone =>
    obtain ⟨rfl, rfl⟩ := h
    exact .inl ⟨[], rfl, by rw [hnone]; rfl⟩
  next =>
    split at h
    next hkind =>
      obtain ⟨viewed, rest, rfl, h⟩ := h
      rw [List.forall_mem_cons] at hsaid
      rcases viewed with thrown | viewed
      · obtain ⟨rfl, rfl⟩ := h
        exact .inr ⟨thrown, rfl, [], _, rfl, rfl⟩
      · obtain ⟨hsame, status, hstatus⟩ := honest_history hkind hsaid.1
        obtain ⟨stored, _⟩ := viewed
        obtain rfl : stored = message := hsame
        obtain rfl := hstatus
        change Dialogue.Says
          (if status.isHead = true then offerEach dateParse stored else _) rest r at h
        split at h
        next =>
          exact (offerEach_outcomes hsaid.2 h).imp_right
            fun ⟨e, he, hthrows⟩ => ⟨e, he, throws_append [_] hthrows⟩
        next =>
          refine (outcomes_of_mapM (fun p => ?_) hsaid.2 h).imp_right
            fun ⟨e, he, hthrows⟩ => ⟨e, he, throws_append [_] hthrows⟩
          rw [orThrow_bind, meets_ask_bind]
          rintro (thrown | receipt) hreceipt
          · exact throws_concat [] rfl
          · exact honest_receipt hreceipt
    next => exact offerEach_outcomes hsaid h

/-- What is handed over for a recipient is fenced and the only one, and has an outcome. -/
theorem offerTo_fenced {now : Timestamp} {r : Except Thrown Outcome}
    (hsaid : ∀ exchange ∈ said, Honest message exchange)
    (h : (offerTo dateParse message now p).Says said r) {pre post : Transcript}
    {handedMessage : Message} {answer : Except Thrown Response}
    (hhanded : said = pre ++ ⟨.offerMessage binding handedMessage, answer⟩ :: post) :
    Fenced p handedMessage binding pre ∧ pre.filterMap handed = [] ∧ post.filterMap handed = [] ∧
      ∃ o, r = .ok o :=
  (Dialogue.meets_iff.mp offerTo_meets said r hsaid h).1 pre binding handedMessage answer post
      hhanded

/-- The outcome of a recipient says what happened. -/
theorem offerTo_truthful {now : Timestamp} {o : Outcome}
    (hsaid : ∀ exchange ∈ said, Honest message exchange)
    (h : (offerTo dateParse message now p).Says said (.ok o)) : Truthful p said o :=
  (Dialogue.meets_iff.mp offerTo_meets said (.ok o) hsaid h).2

end

end

/-! ## One offer -/

section Sample

/-- A version as it is parsed. -/
def sampleVersion : AdapterSdk.NativeDelivery.StableVersion where
  text := "1.0.0".toList
  triple := (AdapterSdk.Versions.parseStableVersion (some "1.0.0".toList)).getD ⟨0, 0, 0⟩
  parses := by rfl

def sampleContract : AdapterSdk.NativeDelivery.Contract where
  minimum := sampleVersion
  anchors := [⟨sampleVersion, "protocol-1".toList, by decide, none⟩]
  knownBad := []
  activationKinds := []
  offerKind := .message

def sampleAdapter : Adapter where
  client := none
  nativeDelivery := some sampleContract
  livePush := true
  refreshes := true

/-- The endpoint of the session that is asked. -/
def sampleEndpoint : DeliveryBinding where
  sessionId := sampleId "session_b"
  generation := sampleId "generation_b"
  adapterId := sampleId "adapter_1"
  clientVersion := "1.0.0"
  availableModes := [.livePush]
  livePolicy := .actionable
  opaqueEndpointRef := "endpoint"
  leaseUntil := 60000
  retiredAt := none

def sampleShared : Shared := ⟨sampleTalk, Library.Keyed.empty.put sampleEndpoint, []⟩

/-- A store that does not change, an adapter that accepts, and a user who consents. -/
def sampleAnswers (_ : Transcript) : (question : Question) → question.Answer
  | .now => 30
  | .readReceipt messageId recipientParticipantId =>
      (readReceipt sampleTalk messageId recipientParticipantId).mapError fun e => ⟨e.message⟩
  | .listLiveSessions participantId now =>
      .ok (liveSessionsOf sampleTalk (fun _ => true) participantId now)
  | .lastSessionOf _ => .ok none
  | .listDeliveryBindings participantId now includeExpired =>
      .ok (listDeliveryBindings sampleShared participantId now includeExpired)
  | .readNativeReason _ _ => .ok none
  | .loadAdapter _ => .ok (some sampleAdapter)
  | .readLivePolicy _ => .ok (some .all)
  | .refreshNativeSession _ => .error ⟨"offline"⟩
  | .refreshDeliveryBinding _ _ _ => .ok ()
  | .storedBinding _ => .ok none
  | .history _ => .error ⟨"message is not in this workspace's history"⟩
  | .offerMessage _ _ => .ok ⟨true, some "claude-inbox", none, some "1.0.0".toList, false, none⟩
  | .recordOfferSucceeded _ => .ok ()
  | .recordOfferFailed _ _ => .ok ()
  | .observe _ _ _ _ => ()

theorem sampleTalk_asks : (sampleTalk.messages.get? (sampleId "message_1")).isSome = true := by
  decide +kernel

def sampleQuestion : Message :=
  (sampleTalk.messages.get? (sampleId "message_1")).get sampleTalk_asks

theorem sampleAnswers_honest {α : Type} {x : Talk α} {exchange : Exchange}
    (h : exchange ∈ (x.hold sampleAnswers []).1) : Honest sampleQuestion exchange := by
  obtain ⟨before, heq⟩ := Dialogue.mem_hold h
  rw [heq]
  obtain ⟨question, _⟩ := exchange
  cases question with
  | readReceipt messageId recipientParticipantId =>
      simp only [sampleAnswers]
      cases hread : readReceipt sampleTalk messageId recipientParticipantId with
      | ok receipt => exact ⟨sampleTalk, hread⟩
      | error e => trivial
  | listLiveSessions participantId now => exact ⟨sampleTalk, _, rfl⟩
  | listDeliveryBindings participantId now includeExpired => exact ⟨sampleShared, rfl⟩
  | _ => trivial

def sampleOffer : Transcript × Except Thrown Outcome :=
  (offerTo (fun _ => none) sampleQuestion 30 (sampleId "bob")).hold sampleAnswers []

theorem sampleOffer_offered : sampleOffer.2 =
    .ok (plain (sampleId "bob") (.receipt .offered) "claude-inbox") := by decide +kernel

theorem sampleOffer_says : (offerTo (fun _ => none) sampleQuestion 30 (sampleId "bob")).Says
    sampleOffer.1 sampleOffer.2 :=
  Dialogue.says_hold _ _ _

theorem offer_outcomes_offered : (∃ outcomes,
      ((offer (fun _ => none) sampleQuestion).hold sampleAnswers []).2 = .ok outcomes ∧
        outcomes.map Outcome.recipientParticipantId = sampleQuestion.toParticipantIds) ∨
    ∃ e, ((offer (fun _ => none) sampleQuestion).hold sampleAnswers []).2 = .error e ∧
      Throws ((offer (fun _ => none) sampleQuestion).hold sampleAnswers []).1 e :=
  offer_outcomes (fun _ h => sampleAnswers_honest h) (Dialogue.says_hold _ _ _)

/-- The question is handed over once. -/
theorem offerTo_fenced_offered : ∃ pre binding message answer post,
    sampleOffer.1 = pre ++ ⟨.offerMessage binding message, answer⟩ :: post ∧
    Fenced (sampleId "bob") message binding pre ∧ pre.filterMap handed = [] ∧
    post.filterMap handed = [] ∧ ∃ o, sampleOffer.2 = .ok o := by
  have hsome : (sampleOffer.1.filterMap handed).length = 1 := by decide +kernel
  obtain ⟨found, hfound⟩ := List.length_eq_one_iff.mp hsome
  obtain ⟨exchange, hmem, hhanded⟩ := List.mem_filterMap.mp (hfound ▸ List.mem_singleton_self found)
  obtain ⟨question, answer⟩ := exchange
  cases question with
  | offerMessage binding message =>
      obtain ⟨pre, post, hsplit⟩ := List.append_of_mem hmem
      exact ⟨pre, binding, message, answer, post, hsplit,
        offerTo_fenced (fun _ h => sampleAnswers_honest h) sampleOffer_says hsplit⟩
  | _ => cases hhanded

theorem offerTo_truthful_offered : Truthful (sampleId "bob") sampleOffer.1
    (plain (sampleId "bob") (.receipt .offered) "claude-inbox") :=
  offerTo_truthful (fun _ h => sampleAnswers_honest h) (sampleOffer_offered ▸ sampleOffer_says)

end Sample

end Acc.DeliveryRouter
