import AgentsCanCommunicate.Core.Run
import AgentsCanCommunicate.Library.Process

/-!
# Calls as processes

The calls of the core as several processes run them at once.  A call reads the
store without its mutex, and everything that it writes it writes in an ephemeral
update, an ephemeral deletion or a transaction, each atomic under the mutex.
Between two of these any other process may do any of its own, and a process may
be lost at any of them.

The shared state is the workspace with the delivery bindings and a history of
what the calls have done to sessions and intents.  No step reads the history.

A step reads the clock and probes processes at a moment of its own.  The
identifiers a call draws are its own from the start.
-/

namespace Acc.Core

open Library (Keyed Process)

/-! ## Delivery bindings -/

inductive DeliveryMode where
  | nextTurn | livePush | idleWake | busyQueue | replyRoute
deriving DecidableEq

inductive LivePolicy where
  | off | actionable | all
deriving DecidableEq

structure DeliveryBinding where
  sessionId : Id
  generation : Id
  adapterId : Id
  clientVersion : String
  availableModes : List DeliveryMode
  livePolicy : LivePolicy
  opaqueEndpointRef : String
  leaseUntil : Timestamp
  /-- When the session gave the endpoint up. -/
  retiredAt : Option Timestamp
deriving DecidableEq

def validateDeliveryBinding (value : DeliveryBinding) : Result Unit := do
  line value.clientVersion "clientVersion"
  refuse (¬value.availableModes.Nodup) (invalid "availableModes" "must not repeat entries")
  prose value.opaqueEndpointRef "opaqueEndpointRef"

section

variable [LinearOrder ReceiptId]

/-! ## The shared state -/

/-- What a call has done to a session or to its intent. -/
inductive Deed where
  /-- The session was opened with this record. -/
  | opened (session : Session)
  /-- Its holder wrote it again. -/
  | updated (session : Session)
  /-- It was closed with this record, which stays. -/
  | closed (session : Session)
  /-- It was closed while it was alone, and its record is gone. -/
  | closedAlone (session : Session)
  /-- The session of this generation said what it intends. -/
  | intended (generation : Id) (intent : Intent)
  /-- The session said that it intends it no more. -/
  | cleared (sessionId : Id)
deriving DecidableEq

structure Shared where
  workspace : Workspace
  bindings : Keyed DeliveryBinding.sessionId
  /-- The deeds, the latest first. -/
  history : List Deed

def Shared.initial (workspaceId : Id) : Shared := ⟨.initial workspaceId, .empty, []⟩

/-- What a step reads from outside the store. -/
structure Outside where
  now : Timestamp
  pidIsAlive : Nat → Bool

/-- The identifiers a call draws. -/
abbrev Drawn := IdKind → Nat → Id

def Outside.ports (m : Outside) (ids : Drawn) : Ports := ⟨m.now, m.pidIsAlive, ids⟩

/-- Under which session and generation a step is taken. -/
inductive Holder where
  | anyone
  | session (sessionId generation : Id)
  /-- Of a call that closes the session. -/
  | closing (sessionId generation : Id)
deriving DecidableEq

/-- What a step does, as far as the laws tell steps apart. -/
inductive StepKind where
  | look
  | write
  /-- The transaction that materialises. -/
  | materialise
  /-- The deletion of one ephemeral copy after it. -/
  | retire
  /-- The deletion of the intent of a session that was closed alone. -/
  | cleanup
  /-- The transaction that closes a durable session. -/
  | close
  | prune
deriving DecidableEq

structure Tag where
  holder : Holder
  kind : StepKind
deriving DecidableEq

abbrev Program (α : Type) := Process Shared Outside Tag AccError α

namespace Program

/-! ## Steps -/

def refuse (p : Prop) [Decidable p] (e : AccError) : Program Unit :=
  if p then .fail e else .done ()

/-- A reading of the store. -/
def read {α : Type} (h : Holder) (f : Workspace → α) : Program α :=
  .look ⟨h, .look⟩ fun _ s => f s.workspace

/-- A reading of the clock and of what runs. -/
def outside (h : Holder) : Program Outside := .look ⟨h, .look⟩ fun m _ => m

/-- A write under the mutex, and the deeds it does. -/
def store {α : Type} (tag : Tag) (f : Outside → Workspace → Result (Workspace × α))
    (deeds : α → List Deed) : Program α :=
  .atomically tag fun m s => do
    let r ← f m s.workspace
    return ({ s with workspace := r.1, history := deeds r.2 ++ s.history }, r.2)

/-- A write under the mutex that does nothing to a session or its intent. -/
def plain {α : Type} (h : Holder) (f : Outside → Workspace → Result (Workspace × α)) : Program α :=
  store ⟨h, .write⟩ f fun _ => []

/-- `isMaterialised`, read without the mutex. -/
def isMaterialised (h : Holder) (workspaceId : Id) : Program Bool :=
  read h fun w => Core.isMaterialised w workspaceId

/-- `locate`.  The ephemeral record is read first, so that a session that is
promoted in between is found. -/
def locate (h : Holder) (sessionId : Id) (workspaceId : Option Id) : Program (Option Session) := do
  let ephemeral ← read h fun w => (w.ephemeral.sessions.get? sessionId).filter fun s =>
    s.workspaceId = workspaceId.getD w.workspaceId
  let durable ← read h fun w => (w.sessions.get? sessionId).filter fun s =>
    s.workspaceId = workspaceId.getD w.workspaceId
  match durable with
  | some durable => return some durable
  | none => return ephemeral

/-! ## Materialisation -/

/-- An ephemeral record, by its kind and its key. -/
inductive Copy where
  | participant (id : Id)
  | session (id : Id)
  | intent (id : Id)
deriving DecidableEq

end Program

/-- The ephemeral records, in the order they are retired. -/
def Ephemeral.copies (e : Ephemeral) : List Program.Copy :=
  e.participants.list.map (fun r => .participant r.participantId)
    ++ e.sessions.list.map (fun r => .session r.sessionId)
    ++ e.intents.list.map (fun r => .intent r.sessionId)

def Ephemeral.delete (e : Ephemeral) : Program.Copy → Ephemeral
  | .participant i => { e with participants := e.participants.remove i }
  | .session i => { e with sessions := e.sessions.remove i }
  | .intent i => { e with intents := e.intents.remove i }

namespace Program

/-- The deletions after the transaction, one by one. -/
def retire (h : Holder) : List Copy → Program Unit
  | [] => .done ()
  | copy :: copies => do
      store ⟨h, .retire⟩ (fun _ w => .ok (w.setEphemeral (w.ephemeral.delete copy), ()))
        fun _ => []
      retire h copies

/-- The deed of a session that opens in the transaction that materialises. -/
def joinedDeeds (opening : Option Opening) (joined : Bool) : List Deed :=
  if joined then (opening.map fun o => Deed.opened o.session).toList else []

def materialise (h : Holder) (ids : Drawn) (workspaceId : Id) (descriptor : Option Descriptor)
    (reason : String) (opening : Option ((Nat → Bool) → Opening)) : Program Bool := do
  let start ← outside h
  let done ← store ⟨h, .materialise⟩
    (fun m w => do
      let opening := opening.map fun o => o m.pidIsAlive
      let done ← materialiseTransaction w { m.ports ids with now := start.now } workspaceId
        descriptor reason opening
      return (done.1, (w.ephemeral, opening, done.2)))
    fun done => joinedDeeds done.2.1 done.2.2
  if done.2.2 then retire h done.1.copies
  return done.2.2

def ensureMaterialised (h : Holder) (ids : Drawn) (workspaceId : Id)
    (descriptor : Option Descriptor) (reason : String) : Program Unit := do
  let ready ← isMaterialised h workspaceId
  if ready then return ()
  else do
    let _ ← materialise h ids workspaceId descriptor reason none
    return ()

/-! ## Opening -/

/-- `openDurable`.  The event carries the time the call started at. -/
def openDurable (ids : Drawn) (now : Timestamp) (input : OpenInput) (participant : Participant)
    (session : Session) : Program Session :=
  store ⟨.anyone, .write⟩
    (fun m w => Core.openDurable w { m.ports ids with now } input participant session)
    fun session => [.opened session]

/-- The ephemeral copy of the participant, unless the workspace has
materialised. -/
def prepareParticipant (workspaceId : Id) (participant : Participant) : Program Unit :=
  plain .anyone fun _ w =>
    if Core.isMaterialised w workspaceId then .ok (w, ())
    else .ok (w.setEphemeral
      { w.ephemeral with
        participants := w.ephemeral.participants.put
          ((w.ephemeral.participants.get? participant.participantId).getD participant) }, ())

/-- The ephemeral record of the session, unless the workspace has
materialised. -/
def openAlone (workspaceId : Id) (input : OpenInput) (session : Session) :
    Program (Option Session) :=
  store ⟨.anyone, .write⟩
    (fun m w =>
      if Core.isMaterialised w workspaceId then .ok (w, none)
      else do
        assertAvailable input m.pidIsAlive (w.ephemeral.sessions.get? session.sessionId)
        return (w.setEphemeral
          { w.ephemeral with sessions := w.ephemeral.sessions.put session }, some session))
    fun opened => (opened.map Deed.opened).toList

def hasOther (w : Workspace) (sessionId : Id) : Bool :=
  w.ephemeral.sessions.list.any fun s => s.state = .opened ∧ s.sessionId ≠ sessionId

/-- How many ephemeral sessions are open. -/
def liveCount (w : Workspace) : Nat :=
  (w.ephemeral.sessions.list.filter fun s => s.state = .opened).length

/-- A lone session must be able to open and close without leaving a trace. -/
def mustPromote (workspaceId : Id) : Program Bool := do
  let live ← read .anyone liveCount
  if 1 < live then return true else isMaterialised .anyone workspaceId

/-- The part of opening that is for a workspace that has not materialised. -/
def openEphemeral (ids : Drawn) (now : Timestamp) (workspaceId : Id) (input : OpenInput)
    (participant : Participant) (session : Session) : Program Session := do
  prepareParticipant workspaceId participant
  let opened ← openAlone workspaceId input session
  match opened with
  | none => openDurable ids now input participant session
  | some _ => do
      let promoted ← mustPromote workspaceId
      if promoted then do
        let _ ← materialise .anyone ids workspaceId input.descriptor "second_live_session" none
        return session
      else return session

/-- The session opens in the transaction that materialises, if another is live.
The look is taken without the mutex, and the transaction asks again. -/
def openJoining (ids : Drawn) (workspaceId : Id) (input : OpenInput) (participant : Participant)
    (session : Session) : Program Bool := do
  let joining ← read .anyone fun w => hasOther w session.sessionId
  if joining then
    materialise .anyone ids workspaceId input.descriptor "second_live_session"
      (some fun pidIsAlive => ⟨participant, session, assertAvailable input pidIsAlive⟩)
  else return false

def openSession (ids : Drawn) (input : OpenInput) : Program Session := do
  let home ← read .anyone Workspace.workspaceId
  let workspaceId := input.workspaceId.getD home
  refuse (workspaceId ≠ home) ⟨.conflict, "cannot open a session in a different workspace"⟩
  let sessionId := input.sessionId.getD (ids .session 0)
  let existing ← locate .anyone sessionId (some workspaceId)
  let m ← outside .anyone
  .ofExcept (assertAvailable input m.pidIsAlive existing)
  let session := sessionRecord input workspaceId sessionId m.now
    (input.generation.getD (ids .generation 0))
  let participant := participantRecord input workspaceId m.now
  .ofExcept (validateSession session)
  .ofExcept (validateParticipant participant)
  let durable ← isMaterialised .anyone workspaceId
  if durable then openDurable ids m.now input participant session
  else do
    let joined ← openJoining ids workspaceId input participant session
    if joined then return session
    else openEphemeral ids m.now workspaceId input participant session

/-! ## One session's own record -/

/-- The ephemeral record of a lone session, by its holder. -/
def updateAlone (h : Holder) (sessionId : Id)
    (change : Outside → Workspace → Session → Result (Option Session)) : Program (Option Session) :=
  store ⟨h, .write⟩
    (fun m w =>
      match (w.ephemeral.sessions.get? sessionId).filter fun s =>
          !Core.isMaterialised w s.workspaceId with
      | none => .ok (w, none)
      | some current => do
          let next ← change m w current
          match next with
          | none => return (w, none)
          | some next =>
              return (w.setEphemeral
                { w.ephemeral with sessions := w.ephemeral.sessions.put next }, some next))
    fun next => (next.map Deed.updated).toList

/-- The durable record of a session, by its holder. -/
def updateDurable (h : Holder) (sessionId : Id)
    (change : Outside → Workspace → Option Session → Result (Option Session)) :
    Program (Option Session) :=
  store ⟨h, .write⟩
    (fun m w =>
      w.transaction fun w => do
        let next ← change m w (w.sessions.get? sessionId)
        match next with
        | none => return (w, none)
        | some next => return (w.putSession next, some next))
    fun next => (next.map Deed.updated).toList

/-- The ephemeral record, when there is one in a workspace that has not
materialised. -/
def updateSeen (h : Holder) (sessionId : Id)
    (change : Outside → Workspace → Session → Result Session) : Program (Option Session) := do
  let seen ← read h fun w => w.ephemeral.sessions.get? sessionId
  match seen with
  | none => return none
  | some s => do
      let durable ← isMaterialised h s.workspaceId
      if durable then return none
      else updateAlone h sessionId fun m w current => some <$> change m w current

/-- A heartbeat or a note of what was noticed. -/
def updateOwn (h : Holder) (sessionId : Id)
    (change : Outside → Workspace → Session → Result Session) : Program (Option Session) := do
  let ephemeral ← updateSeen h sessionId change
  match ephemeral with
  | some next => return some next
  | none => updateDurable h sessionId fun m w current =>
      match current with
      | none => .error ⟨.conflict, "session is not open"⟩
      | some current => some <$> change m w current

def heartbeatSession (sessionId : Id) (workspaceId : Option Id) (generation : Id) :
    Program (Option Session) :=
  updateOwn (.session sessionId generation) sessionId fun m w current => do
    assertHolder w current workspaceId generation "heartbeat"
    return { current with heartbeatAt := m.now }

def recordNotices (sessionId : Id) (workspaceId : Option Id) (generation : Id)
    (messageIds : List String) : Program (Option Session) := do
  refuse ("" ∈ messageIds) ⟨.usage, "recordNotices requires message ids"⟩
  updateOwn (.session sessionId generation) sessionId fun _ w current => do
    assertHolder w current workspaceId generation "record notices"
    let noticed := (current.noticedLeftMessages.filter fun id => id ∉ messageIds) ++ messageIds
    return { current with
      noticedLeftMessages := noticed.drop (noticed.length - noticedLeftLimit) }

/-- The resumed record, checked before it is written. -/
def resumed (m : Outside) (w : Workspace) (workspaceId : Option Id) (generation : Id)
    (metadata : ResumeInput) (current : Option Session) : Result (Option Session) :=
  match current.bind (resume w m.now workspaceId generation metadata) with
  | none => .ok none
  | some next => do
      validateSession next
      return some next

def resumeSession (sessionId : Id) (workspaceId : Option Id) (generation : Id)
    (metadata : ResumeInput) : Program (Option Session) := do
  let h := Holder.session sessionId generation
  let ephemeral ← updateAlone h sessionId fun m w current =>
    resumed m w workspaceId generation metadata (some current)
  match ephemeral with
  | some next => return some next
  | none => updateDurable h sessionId fun m w current =>
      resumed m w workspaceId generation metadata current

/-! ## Closing -/

/-- The deletion of the ephemeral record, unless the workspace has
materialised. -/
def closeAlone (sessionId : Id) (workspaceId : Option Id) (generation : Id)
    (endReason : Option String) : Program (Option Session) :=
  store ⟨.closing sessionId generation, .write⟩
    (fun m w =>
      match (w.ephemeral.sessions.get? sessionId).filter fun s =>
          !Core.isMaterialised w s.workspaceId with
      | none => .ok (w, none)
      | some current => do
          assertGeneration current generation "close" (workspaceId.getD w.workspaceId)
          return (w.setEphemeral
              { w.ephemeral with sessions := w.ephemeral.sessions.remove sessionId },
            some (Core.closed current m.now endReason)))
    fun done => (done.map Deed.closedAlone).toList

/-- A successor may have appeared since, and its intent stays. -/
def cleanIntent (sessionId generation : Id) : Program Unit :=
  store ⟨.closing sessionId generation, .cleanup⟩
    (fun _ w =>
      if w.ephemeral.sessions.get? sessionId = none then
        .ok (w.setEphemeral
          { w.ephemeral with intents := w.ephemeral.intents.remove sessionId }, ())
      else .ok (w, ()))
    fun _ => []

def closeDurable (sessionId : Id) (workspaceId : Option Id) (generation : Id)
    (endReason : Option String) : Program Session :=
  store ⟨.closing sessionId generation, .close⟩
    (fun m w =>
      w.transaction fun w =>
        match w.sessions.get? sessionId with
        | none => .error ⟨.conflict, "session is not open"⟩
        | some current => do
            assertGeneration current generation "close" (workspaceId.getD w.workspaceId)
            let done := Core.closed current m.now endReason
            return ((w.putSession done).append
              ⟨done.workspaceId, sessionId, m.now, .sessionClosed⟩, done))
    fun done => [.closed done]

def closeSession (sessionId : Id) (workspaceId : Option Id) (generation : Id)
    (endReason : Option String) : Program Session := do
  let alone ← closeAlone sessionId workspaceId generation endReason
  match alone with
  | some done => do
      cleanIntent sessionId generation
      return done
  | none => closeDurable sessionId workspaceId generation endReason

/-! ## Intents -/

def requireOwner (h : Holder) (sessionId : Id) (workspaceId : Option Id) (generation : Id) :
    Program Session := do
  let located ← locate h sessionId workspaceId
  .ofExcept (requireIntentOwner located generation)

/-- The ephemeral intent, unless the workspace has materialised. -/
def intendAlone (h : Holder) (owner : Session) (input : IntentInput) (intent : Intent) :
    Program (Option Intent) :=
  store ⟨h, .write⟩
    (fun _ w =>
      if Core.isMaterialised w owner.workspaceId then .ok (w, none)
      else do
        let _ ← requireIntentOwner (locateSession w input.sessionId (some owner.workspaceId))
          input.generation
        return (w.setEphemeral { w.ephemeral with intents := w.ephemeral.intents.put intent },
          some intent))
    fun written => (written.map (Deed.intended input.generation)).toList

def intendDurable (h : Holder) (now : Timestamp) (owner : Session) (input : IntentInput)
    (intent : Intent) : Program Intent :=
  store ⟨h, .write⟩
    (fun _ w =>
      w.transaction fun w => do
        let _ ← requireIntentOwner (w.sessions.get? input.sessionId) input.generation
        return ((w.putIntent intent).append
          ⟨owner.workspaceId, input.sessionId, now,
            .intentPublished intent.mode intent.state⟩, intent))
    fun intent => [.intended input.generation intent]

/-- The ephemeral intent, in a workspace that has not materialised. -/
def intendSeen (h : Holder) (owner : Session) (input : IntentInput) (intent : Intent) :
    Program (Option Intent) := do
  let durable ← isMaterialised h owner.workspaceId
  if durable then return none else intendAlone h owner input intent

def setIntent (input : IntentInput) : Program Intent := do
  let h := Holder.session input.sessionId input.generation
  let owner ← requireOwner h input.sessionId input.workspaceId input.generation
  let m ← outside h
  let intent : Intent :=
    ⟨input.sessionId, owner.workspaceId, input.summary, input.mode, input.resourceHints,
      input.state, m.now⟩
  .ofExcept (validateIntent intent)
  let written ← intendSeen h owner input intent
  match written with
  | some intent => return intent
  | none => intendDurable h m.now owner input intent

/-- The deletion of the ephemeral intent, unless the workspace has
materialised. -/
def clearAlone (h : Holder) (owner : Session) (sessionId generation : Id) : Program Bool :=
  store ⟨h, .write⟩
    (fun _ w =>
      if w.ephemeral.intents.get? sessionId = none
          ∨ Core.isMaterialised w owner.workspaceId = true then .ok (w, false)
      else do
        let _ ← requireIntentOwner (locateSession w sessionId (some owner.workspaceId)) generation
        return (w.setEphemeral
          { w.ephemeral with intents := w.ephemeral.intents.remove sessionId }, true))
    fun cleared => if cleared then [.cleared sessionId] else []

def clearDurable (h : Holder) (now : Timestamp) (owner : Session) (sessionId generation : Id) :
    Program Bool :=
  store ⟨h, .write⟩
    (fun _ w =>
      w.transaction fun w => do
        let _ ← requireIntentOwner (w.sessions.get? sessionId) generation
        match w.intents.get? sessionId with
        | none => return (w, false)
        | some current =>
            return ((w.putIntent { current with state := .done, updatedAt := now }).append
              ⟨owner.workspaceId, sessionId, now, .intentCleared⟩, true))
    fun cleared => if cleared then [.cleared sessionId] else []

/-- Whether clearing ends with the ephemeral intent. -/
def clearSeen (h : Holder) (owner : Session) (sessionId generation : Id) : Program Bool := do
  let durable ← isMaterialised h owner.workspaceId
  if durable then return false
  else do
    let cleared ← clearAlone h owner sessionId generation
    if cleared then return true
    else do
      -- A missing intent may have been closed away or promoted meanwhile.
      let _ ← requireOwner h sessionId (some owner.workspaceId) generation
      let durable ← isMaterialised h owner.workspaceId
      return !durable

def clearIntent (sessionId : Id) (workspaceId : Option Id) (generation : Id) :
    Program Unit := do
  let h := Holder.session sessionId generation
  let owner ← requireOwner h sessionId workspaceId generation
  let settled ← clearSeen h owner sessionId generation
  if settled then return ()
  else do
    let m ← outside h
    let _ ← clearDurable h m.now owner sessionId generation
    return ()

/-! ## Claims -/

/-- The owner that a claim call located. -/
def requireClaimant (h : Holder) (sessionId : Id) (workspaceId : Option Id) (generation : Id)
    (action : String) : Program Session := do
  let located ← locate h sessionId workspaceId
  .ofExcept (requireClaimOwner located generation action)

def acquire (ids : Drawn) (input : AcquireInput) (resources : List String) (batch : Bool) :
    Program (List Claim) := do
  let h := Holder.session input.sessionId input.generation
  let session ← requireClaimant h input.sessionId input.workspaceId input.generation "claim"
  let resources ← .ofExcept (claimResources resources)
  ensureMaterialised h ids session.workspaceId input.descriptor "durable_object"
  plain h fun m w => acquireTransaction w (m.ports ids) session input resources batch

def renewClaim (ids : Drawn) (input : RenewInput) : Program Claim := do
  let h := Holder.session input.sessionId input.generation
  let session ← requireClaimant h input.sessionId input.workspaceId input.generation "renew"
  plain h fun m w => renewTransaction w (m.ports ids) session input

def removeClaims (ids : Drawn) (input : ReleaseInput) (selectors : Selectors)
    (authority reason : Option String) : Program (List Claim) := do
  let h := Holder.session input.sessionId input.generation
  let session ← requireClaimant h input.sessionId input.workspaceId input.generation "release"
  plain h fun m w => removeTransaction w (m.ports ids) session input selectors authority reason

/-! ## Messages -/

/-- The session that a call about messages located. -/
def requireSender (h : Holder) (sessionId : Id) (workspaceId : Option Id) (generation : Id)
    (action : String) (mustBeOpen : Bool) : Program Session := do
  let located ← locate h sessionId workspaceId
  match located.filter fun s =>
      s.generation = generation ∧ (mustBeOpen = true → s.state = .opened) with
  | none => .fail ⟨.conflict, s!"cannot {action} from this session generation"⟩
  | some located => return located

def sendMessage (ids : Drawn) (input : SendInput) : Program Message := do
  let h := Holder.session input.sessionId input.generation
  let session ← requireSender h input.sessionId input.workspaceId input.generation
    "send a message" true
  ensureMaterialised h ids session.workspaceId input.descriptor "durable_object"
  plain h fun m w => w.transaction fun w => do
    let done ← recordMessageInTransaction w session input.message m.now (ids .message 0)
      "send a message"
    return (done.1, done.2.message)

def finishSession (ids : Drawn) (input : FinishInput) : Program FinishOutcome := do
  let h := Holder.session input.sessionId input.generation
  let session ← requireSender h input.sessionId input.workspaceId input.generation "finish" false
  ensureMaterialised h ids session.workspaceId input.descriptor "durable_object"
  store ⟨h, .write⟩ (fun m w => finishTransaction w (m.ports ids) session input)
    fun outcome => if outcome.retry then [] else [.closed outcome.session]

/-- The reader that an inbox call located. -/
def requireReader (h : Holder) (sessionId : Id) (workspaceId : Option Id) (generation : Id)
    (action : String) : Program Session := do
  let located ← locate h sessionId workspaceId
  .ofExcept (requireOpen located generation action)

def readInbox (input : ReadInput) : Program (List (Viewed × Receipt)) := do
  let h := Holder.session input.sessionId input.generation
  let session ← requireReader h input.sessionId input.workspaceId input.generation
    "read the inbox"
  plain h fun m w => w.transaction fun w => do
    let _ ← requireOpen (sessionIn w input.sessionId) input.generation "read the inbox"
    let receipts := readReceipts w session input.messageId
    let selected ← selectRead receipts (messagesFor w session receipts) input.messageId
    selected.foldlM (readOne session m.now) (w, [])

def acknowledgeMessage (input : SettleInput) : Program Receipt := do
  let h := Holder.session input.sessionId input.generation
  let session ← requireReader h input.sessionId input.workspaceId input.generation
    "acknowledge a message"
  plain h fun m w => w.transaction fun w => do
    let _ ← requireOpen (sessionIn w input.sessionId) input.generation "acknowledge a message"
    let owned ← requireOwnedReceipt w session input.messageId
    Acc.refuse (owned.1.obligation = .reply ∧ owned.2.state ≠ .acknowledged)
      ⟨.conflict, "this message requires a reply; use reply to answer, clarify, or decline"⟩
    let done ← advanceOwned w session input.messageId .acknowledged m.now
    return (done.1, publicReceipt done.2)

def replyToMessage (ids : Drawn) (input : ReplyInput) : Program (Message × Receipt) := do
  let h := Holder.session input.settle.sessionId input.settle.generation
  let session ← requireReader h input.settle.sessionId input.settle.workspaceId
    input.settle.generation "reply to a message"
  plain h fun m w => w.transaction fun w => do
    let original ← requireOwnedReceipt w session input.settle.messageId
    let recorded ← recordMessageInTransaction w session (replyMessage original.1 input) m.now
      (ids .message 0) "reply to a message"
    let done ← advanceOwned recorded.1 session input.settle.messageId .acknowledged m.now
    return (done.1, (recorded.2.message, publicReceipt done.2))

/-! ## Offers -/

def recordOfferSucceeded (ids : Drawn) (input : OfferInput) : Program Receipt :=
  plain .anyone fun m w => Core.recordOfferSucceeded w (m.ports ids) input

def recordOfferFailed (ids : Drawn) (input : OfferInput) (safeErrorCode : String) : Program Unit :=
  plain .anyone fun m w => Core.recordOfferFailed w (m.ports ids) input safeErrorCode

/-! ## Delivery bindings -/

/-- A write of the delivery bindings under the mutex. -/
def bind (h : Holder) (f : Outside → Shared → Result (Keyed DeliveryBinding.sessionId)) :
    Program Unit :=
  .atomically ⟨h, .write⟩ fun m s => do
    let bindings ← f m s
    return ({ s with bindings }, ())

/-- Only the open session of this generation has the endpoint. -/
def requireCurrent (current : Option Session) (generation : Id) : Result Unit :=
  match current.filter fun s => s.state = .opened ∧ s.generation = generation with
  | none => .error ⟨.conflict,
      "cannot publish a delivery binding for anything but this open session generation"⟩
  | some _ => .ok ()

def publishDeliveryBinding (binding : DeliveryBinding) : Program Unit := do
  let h := Holder.session binding.sessionId binding.generation
  let located ← locate h binding.sessionId none
  .ofExcept (requireCurrent located binding.generation)
  let binding := { binding with retiredAt := none }
  .ofExcept (validateDeliveryBinding binding)
  bind h fun _ s => do
    requireCurrent (locateSession s.workspace binding.sessionId none) binding.generation
    return s.bindings.put binding
  let located ← locate h binding.sessionId none
  .ofExcept (requireCurrent located binding.generation)

/-- Retire the endpoint of a generation. -/
def clearDeliveryBinding (sessionId generation : Id) (opaqueEndpointRef : Option String) :
    Program Unit := do
  let seen ← .look ⟨.anyone, .look⟩ fun _ (s : Shared) => s.bindings.get? sessionId
  match seen with
  | none => return ()
  | some seen =>
      if seen.generation = generation ∧ seen.retiredAt ≠ none then return ()
      else bind .anyone fun m s =>
        match s.bindings.get? sessionId with
        | none => .ok s.bindings
        | some current => do
            Acc.refuse (current.generation ≠ generation) ⟨.conflict,
              "cannot publish a delivery binding for anything but this open session generation"⟩
            if (∃ ref, opaqueEndpointRef = some ref ∧ current.opaqueEndpointRef ≠ ref)
                ∨ current.retiredAt ≠ none then
              return s.bindings
            else
              return s.bindings.put { current with leaseUntil := m.now, retiredAt := some m.now }

/-- Extend the lease of an endpoint that is still served. -/
def refreshDeliveryBinding (sessionId generation : Id) (leaseUntil : Timestamp) :
    Program Unit := do
  let located ← locate .anyone sessionId none
  .ofExcept (requireCurrent located generation)
  bind .anyone fun _ s =>
    match s.bindings.get? sessionId with
    | none => .ok s.bindings
    | some current => do
        Acc.refuse (current.generation ≠ generation) ⟨.conflict,
          "cannot publish a delivery binding for anything but this open session generation"⟩
        if current.retiredAt ≠ none then return s.bindings
        else return s.bindings.put { current with leaseUntil }

/-! ## Prune -/

/-- The records first, under a plan decided under the mutex, then the log. -/
def prune (ids : Drawn) (input : PruneInput) (budget : Budget) : Program Bool := do
  let remaining ← store ⟨.anyone, .prune⟩
    (fun m w =>
      let reclaimed := reclaimStateRecords w (planPrune w (m.ports ids) input).entries budget
      .ok (reclaimed.1, reclaimed.2)) fun _ => []
  match input.before with
  | none => return remaining
  | some before => do
      let trimmed ← store ⟨.anyone, .prune⟩ (fun _ w => trimEventLog w before budget) fun _ => []
      return remaining || trimmed

/-- A program whose answer is not looked at. -/
def run {α : Type} (x : Program α) : Program Unit := do
  let _ ← x
  return ()

/-- The process of a call. -/
def call (ids : Drawn) : Call → Program Unit
  | .openSession input => run (openSession ids input)
  | .heartbeatSession sessionId workspaceId generation =>
      run (heartbeatSession sessionId workspaceId generation)
  | .recordNotices sessionId workspaceId generation messageIds =>
      run (recordNotices sessionId workspaceId generation messageIds)
  | .resumeSession sessionId workspaceId generation metadata =>
      run (resumeSession sessionId workspaceId generation metadata)
  | .closeSession sessionId workspaceId generation endReason =>
      run (closeSession sessionId workspaceId generation endReason)
  | .setIntent input => run (setIntent input)
  | .clearIntent sessionId workspaceId generation => clearIntent sessionId workspaceId generation
  | .acquireClaim input resource => run (acquire ids input [resource] false)
  | .acquireClaims input resources => run (acquire ids input resources true)
  | .renewClaim input => run (renewClaim ids input)
  | .releaseClaims input selectors => do
      let selectors ← .ofExcept (releaseSelectors selectors)
      run (removeClaims ids input selectors none none)
  | .releaseClaim input claimId => run (removeClaims ids input (.claimIds [claimId]) none none)
  | .forceReleaseClaim input claimId authority reason =>
      run (removeClaims ids input (.claimIds [claimId]) authority reason)
  | .sendMessage input => run (sendMessage ids input)
  | .finishSession input => run (finishSession ids input)
  | .readInbox input => run (readInbox input)
  | .acknowledgeMessage input => run (acknowledgeMessage input)
  | .replyToMessage input => run (replyToMessage ids input)
  | .recordOfferSucceeded input => run (recordOfferSucceeded ids input)
  | .recordOfferFailed input safeErrorCode => recordOfferFailed ids input safeErrorCode

end Program

/-- What a process is started for. -/
inductive Request where
  | call (ids : Drawn) (call : Call)
  | publishDeliveryBinding (binding : DeliveryBinding)
  | clearDeliveryBinding (sessionId generation : Id) (opaqueEndpointRef : Option String)
  | refreshDeliveryBinding (sessionId generation : Id) (leaseUntil : Timestamp)
  | prune (ids : Drawn) (input : PruneInput) (budget : Budget)

def Request.process : Request → Program Unit
  | .call ids c => Program.call ids c
  | .publishDeliveryBinding binding => Program.publishDeliveryBinding binding
  | .clearDeliveryBinding sessionId generation opaqueEndpointRef =>
      Program.clearDeliveryBinding sessionId generation opaqueEndpointRef
  | .refreshDeliveryBinding sessionId generation leaseUntil =>
      Program.refreshDeliveryBinding sessionId generation leaseUntil
  | .prune ids input budget => Program.run (Program.prune ids input budget)

/-- Whether a process prunes. -/
def Request.isPrune : Request → Bool
  | .prune .. => true
  | _ => false

end

end Acc.Core
