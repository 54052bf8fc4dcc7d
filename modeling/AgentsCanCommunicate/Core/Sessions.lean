import AgentsCanCommunicate.Core.Workspace

/-!
# Sessions, materialisation and intents

A session opens, beats, is resumed and closes under its id and its generation.
While a workspace has one session it keeps presence and intent in the ephemeral
area.  The second live session or the first durable object materialises it:
whatever is ephemeral then is recorded durably in one transaction, and the
ephemeral copies are retired after it.

Each call is given here as it runs when nothing else does: its first look, its
transactions and the ephemeral writes, on one workspace.
-/

namespace Acc.Core

open Library (Table Keyed)

section

variable [LinearOrder ReceiptId]

/-! ## Presence -/

def staleCadenceMultiple : Nat := 3

/-- The left messages one session remembers. -/
def noticedLeftLimit : Nat := 64

def unknownExpiryMs : Int := 30 * 60000

def hardExpiryMs : Int := 24 * 60 * 60000

inductive Presence where
  | online | stale | offline
deriving DecidableEq, Repr

def ageBand (session : Session) (age : Int) : Presence :=
  if age ≤ session.heartbeatCadenceMs * staleCadenceMultiple then .online else .stale

/-- A pid that answers outranks the floor for sessions of which nothing is
known, and nothing outranks a full day of silence. -/
def classifySessionPresence (session : Session) (now : Timestamp) (pidIsAlive : Nat → Bool) :
    Presence :=
  if session.state = .closed then .offline
  else
    let age := now - session.heartbeatAt
    if hardExpiryMs < age then .offline
    else
      match session.pid with
      | some pid => if pidIsAlive pid then ageBand session age else .offline
      | none => if unknownExpiryMs < age then .offline else ageBand session age

/-! ## Finding a session -/

/-- The durable record of the session in the workspace, or its ephemeral one. -/
def locateSession (w : Workspace) (sessionId : Id) (workspaceId : Option Id) : Option Session :=
  let resolved := workspaceId.getD w.workspaceId
  match (w.sessions.get? sessionId).filter fun s => s.workspaceId = resolved with
  | some durable => some durable
  | none => (w.ephemeral.sessions.get? sessionId).filter fun s => s.workspaceId = resolved

def assertGeneration (existing : Session) (generation : Id) (action : String)
    (workspaceId : Id) : Result Unit := do
  refuse (existing.workspaceId ≠ workspaceId)
    ⟨.conflict, "session is not open in this workspace"⟩
  refuse (existing.generation ≠ generation)
    ⟨.conflict, s!"cannot {action} a replaced session generation"⟩

/-! ## Materialisation -/

/-- How a caller describes its workspace. -/
structure Descriptor where
  displayName : Option String
  source : Option WorkspaceSource
  roots : Option (List String)
deriving DecidableEq

/-- A second live session that opens in the transaction that materialises. -/
structure Opening where
  participant : Participant
  session : Session
  assertAvailable : Option Session → Result Unit

theorem bootstrap_portable : isPortableId "session_bootstrap" = true := by decide

def isMaterialised (w : Workspace) (workspaceId : Id) : Bool :=
  (w.workspaces.get? workspaceId).isSome

/-- The workspace record and its event, the first time. -/
def materialiseRecord (w : Workspace) (now : Timestamp) (workspaceId : Id)
    (descriptor : Option Descriptor) (reason : String) : Result Workspace :=
  if isMaterialised w workspaceId then .ok w
  else do
    let actor := (w.ephemeral.sessions.list.getLast?.map Session.sessionId).getD
      ⟨"session_bootstrap", bootstrap_portable⟩
    let record : WorkspaceRecord :=
      { workspaceId
        displayName := (descriptor.bind Descriptor.displayName).getD workspaceId.val
        source := (descriptor.bind Descriptor.source).getD .directory
        roots := (descriptor.bind Descriptor.roots).getD []
        createdAt := now }
    validateWorkspace record
    return (w.putWorkspace record).append ⟨workspaceId, actor, now, .workspaceMaterialised reason⟩

def promoteParticipant (w : Workspace) (record : Participant) : Workspace :=
  if w.participants.get? record.participantId ≠ none then w else w.putParticipant record

def promoteSession (now : Timestamp) (workspaceId : Id) (own : Option Session) (w : Workspace)
    (record : Session) : Workspace :=
  if own = some record ∨ w.sessions.get? record.sessionId ≠ none then w
  else (w.putSession record).append
    ⟨workspaceId, record.sessionId, now, .sessionPromoted record.sessionId⟩

def promoteIntent (now : Timestamp) (workspaceId : Id) (w : Workspace) (record : Intent) :
    Workspace :=
  if w.intents.get? record.sessionId ≠ none then w
  else (w.putIntent record).append
    ⟨workspaceId, record.sessionId, now, .intentPromoted record.sessionId⟩

/-- The records a session opens with, in a transaction. -/
def openIn (w : Workspace) (now : Timestamp) (participant : Participant) (session : Session)
    (replaced : Option Session) : Workspace :=
  ((promoteParticipant w participant).putSession session).append
    ⟨session.workspaceId, session.sessionId, now,
      .sessionOpened (replaced.map Session.generation)⟩

/-- A durable copy of each ephemeral record. -/
def promote (w : Workspace) (now : Timestamp) (workspaceId : Id) (staged : Ephemeral)
    (own : Option Session) : Workspace :=
  let w := staged.participants.list.foldl promoteParticipant w
  let w := staged.sessions.list.foldl (promoteSession now workspaceId own) w
  staged.intents.list.foldl (promoteIntent now workspaceId) w

/-- The session that opens in the transaction that materialises.  An ephemeral
copy of its own is what it replaces. -/
def joinIn (w : Workspace) (now : Timestamp) (own : Option Session) :
    Option Opening → Result Workspace
  | none => .ok w
  | some o => do
      let current := (w.sessions.get? o.session.sessionId).or own
      o.assertAvailable current
      return openIn w now o.participant o.session current

/-- The transaction that materialises: the workspace record, a durable copy of
each ephemeral record, and the session that opens with it.  A session joins only
one that is still live. -/
def materialiseTransaction (w : Workspace) (ports : Ports) (workspaceId : Id)
    (descriptor : Option Descriptor) (reason : String) (opening : Option Opening) :
    Result (Workspace × Bool) :=
  w.transaction fun w => do
    let staged := w.ephemeral
    let joins := opening.all fun o => isMaterialised w workspaceId
      || staged.sessions.list.any fun s => s.state = .opened ∧ s.sessionId ≠ o.session.sessionId
    if joins then do
      let own := opening.bind fun o => staged.sessions.get? o.session.sessionId
      let w ← materialiseRecord w ports.now workspaceId descriptor reason
      let w ← joinIn (promote w ports.now workspaceId staged own) ports.now own opening
      return (w, true)
    else
      return (w, false)

/-- The ephemeral copies are retired once the transaction has committed. -/
def retireEphemeral (w : Workspace) (staged : Ephemeral) : Workspace :=
  w.setEphemeral
    { participants := w.ephemeral.participants.removeAll
        (staged.participants.list.map Participant.participantId)
      sessions := w.ephemeral.sessions.removeAll (staged.sessions.list.map Session.sessionId)
      intents := w.ephemeral.intents.removeAll (staged.intents.list.map Intent.sessionId) }

def materialise (w : Workspace) (ports : Ports) (workspaceId : Id)
    (descriptor : Option Descriptor) (reason : String) (opening : Option Opening) :
    Result (Workspace × Bool) := do
  let done ← materialiseTransaction w ports workspaceId descriptor reason opening
  return (if done.2 then retireEphemeral done.1 w.ephemeral else done.1, done.2)

def ensureMaterialised (w : Workspace) (ports : Ports) (workspaceId : Id)
    (descriptor : Option Descriptor) (reason : String) : Result Workspace :=
  if isMaterialised w workspaceId then .ok w
  else do
    let done ← materialise w ports workspaceId descriptor reason none
    return done.1

/-! ## Opening -/

structure OpenInput where
  sessionId : Option Id
  participantId : Id
  workspaceId : Option Id
  /-- A reserved generation, with which the session must be new. -/
  generation : Option Id
  displayName : Option String
  participantKind : Option ParticipantKind
  harness : String
  parentSessionId : Option Id
  checkoutRoot : Option String
  branch : Option String
  pid : Option Nat
  enforcement : Option Enforcement
  lifecycle : Option Lifecycle
  heartbeatCadenceMs : Nat
  descriptor : Option Descriptor
  /-- A caller's own test of whether a session lives. -/
  probe : Option (Session → Bool)

def sessionRecord (input : OpenInput) (workspaceId sessionId : Id) (now : Timestamp)
    (generation : Id) : Session where
  sessionId := sessionId
  participantId := input.participantId
  workspaceId := workspaceId
  generation := generation
  harness := input.harness
  state := .opened
  parentSessionId := input.parentSessionId
  checkoutRoot := input.checkoutRoot
  branch := input.branch
  pid := input.pid
  enforcement := input.enforcement.getD .advisory
  lifecycle := input.lifecycle.getD .manual
  heartbeatCadenceMs := input.heartbeatCadenceMs
  startedAt := now
  heartbeatAt := now
  noticedLeftMessages := []
  endReason := none

def participantRecord (input : OpenInput) (workspaceId : Id) (now : Timestamp) : Participant where
  participantId := input.participantId
  workspaceId := workspaceId
  displayName := input.displayName.getD input.participantId.val
  kind := input.participantKind.getD .agent
  createdAt := now

/-- Only a closed session, or one whose process is gone, gives up its id. -/
def assertReplaceable (existing : Session) (pidIsAlive : Nat → Bool)
    (probe : Option (Session → Bool)) : Result Unit :=
  let live := probe.getD fun record => record.pid.all pidIsAlive
  refuse (existing.state ≠ .closed ∧ live existing = true)
    ⟨.conflict, "the session id is already live"⟩

def assertAvailable (input : OpenInput) (pidIsAlive : Nat → Bool) : Option Session → Result Unit
  | none => .ok ()
  | some current => do
      refuse (input.generation ≠ none)
        ⟨.conflict, "a reserved generation requires a new session id"⟩
      assertReplaceable current pidIsAlive input.probe

/-- `openDurable`. -/
def openDurable (w : Workspace) (ports : Ports) (input : OpenInput) (participant : Participant)
    (session : Session) : Result (Workspace × Session) :=
  w.transaction fun w => do
    let current := w.sessions.get? session.sessionId
    assertAvailable input ports.pidIsAlive current
    return (openIn w ports.now participant session current, session)

/-- The ephemeral writes of a session that opens alone. -/
def openEphemeral (w : Workspace) (ports : Ports) (input : OpenInput) (participant : Participant)
    (session : Session) : Result Workspace := do
  let kept := (w.ephemeral.participants.get? participant.participantId).getD participant
  assertAvailable input ports.pidIsAlive (w.ephemeral.sessions.get? session.sessionId)
  return w.setEphemeral
    { w.ephemeral with
      participants := w.ephemeral.participants.put kept
      sessions := w.ephemeral.sessions.put session }

def openSession (w : Workspace) (ports : Ports) (input : OpenInput) :
    Result (Workspace × Session) := do
  let workspaceId := input.workspaceId.getD w.workspaceId
  refuse (workspaceId ≠ w.workspaceId)
    ⟨.conflict, "cannot open a session in a different workspace"⟩
  let sessionId := input.sessionId.getD (ports.ids .session 0)
  assertAvailable input ports.pidIsAlive (locateSession w sessionId (some workspaceId))
  let session := sessionRecord input workspaceId sessionId ports.now
    (input.generation.getD (ports.ids .generation 0))
  let participant := participantRecord input workspaceId ports.now
  validateSession session
  validateParticipant participant
  if isMaterialised w workspaceId then
    openDurable w ports input participant session
  else if w.ephemeral.sessions.list.any fun s => s.state = .opened ∧ s.sessionId ≠ sessionId then do
    -- The session it joins is still live under the lock: nothing ran in between.
    let done ← materialise w ports workspaceId input.descriptor "second_live_session"
      (some ⟨participant, session, assertAvailable input ports.pidIsAlive⟩)
    return (done.1, session)
  else do
    let w ← openEphemeral w ports input participant session
    return (w, session)

/-! ## One session's own record -/

/-- A change of one open session by its holder: the ephemeral record of a lone
session, or the durable one. -/
def updateOwn (w : Workspace) (sessionId : Id)
    (change : Session → Result Session) : Result (Workspace × Session) :=
  match (w.ephemeral.sessions.get? sessionId).filter fun s => !isMaterialised w s.workspaceId with
  | some current => do
      let next ← change current
      return (w.setEphemeral { w.ephemeral with sessions := w.ephemeral.sessions.put next }, next)
  | none =>
      w.transaction fun w =>
        match w.sessions.get? sessionId with
        | none => .error ⟨.conflict, "session is not open"⟩
        | some current => do
            let next ← change current
            return (w.putSession next, next)

/-- What `beat` and `note` check before they write. -/
def assertHolder (w : Workspace) (current : Session) (workspaceId : Option Id) (generation : Id)
    (action : String) : Result Unit := do
  assertGeneration current generation action (workspaceId.getD w.workspaceId)
  refuse (current.state ≠ .opened) ⟨.conflict, "session is not open"⟩

def heartbeatSession (w : Workspace) (ports : Ports) (sessionId : Id) (workspaceId : Option Id)
    (generation : Id) : Result (Workspace × Session) :=
  updateOwn w sessionId fun current => do
    assertHolder w current workspaceId generation "heartbeat"
    return { current with heartbeatAt := ports.now }

def recordNotices (w : Workspace) (sessionId : Id) (workspaceId : Option Id) (generation : Id)
    (messageIds : List String) : Result (Workspace × Session) := do
  refuse ("" ∈ messageIds) ⟨.usage, "recordNotices requires message ids"⟩
  updateOwn w sessionId fun current => do
    assertHolder w current workspaceId generation "record notices"
    let noticed := (current.noticedLeftMessages.filter fun id => id ∉ messageIds) ++ messageIds
    return { current with
      noticedLeftMessages := noticed.drop (noticed.length - noticedLeftLimit) }

/-- What a client reports when it resumes. -/
structure ResumeInput where
  pid : Option Nat
  checkoutRoot : Option String
  branch : Option String
  enforcement : Option Enforcement
  lifecycle : Option Lifecycle
  heartbeatCadenceMs : Option Nat
deriving DecidableEq

/-- The resumed record, if the session is still the holder's. -/
def resume (w : Workspace) (now : Timestamp) (workspaceId : Option Id) (generation : Id)
    (metadata : ResumeInput) (current : Session) : Option Session :=
  if current.state ≠ .opened ∨ current.generation ≠ generation
      ∨ current.workspaceId ≠ workspaceId.getD w.workspaceId then none
  else some
    { current with
      pid := metadata.pid
      checkoutRoot := metadata.checkoutRoot.or current.checkoutRoot
      branch := metadata.branch.or current.branch
      enforcement := metadata.enforcement.getD current.enforcement
      lifecycle := metadata.lifecycle.getD current.lifecycle
      heartbeatCadenceMs := metadata.heartbeatCadenceMs.getD current.heartbeatCadenceMs
      heartbeatAt := now }

def resumeSession (w : Workspace) (ports : Ports) (sessionId : Id) (workspaceId : Option Id)
    (generation : Id) (metadata : ResumeInput) : Result (Workspace × Option Session) :=
  match ((w.ephemeral.sessions.get? sessionId).filter fun s =>
      !isMaterialised w s.workspaceId).bind (resume w ports.now workspaceId generation metadata) with
  | some resumed => do
      validateSession resumed
      return (w.setEphemeral { w.ephemeral with sessions := w.ephemeral.sessions.put resumed },
        some resumed)
  | none =>
      w.transaction fun w =>
        match (w.sessions.get? sessionId).bind
            (resume w ports.now workspaceId generation metadata) with
        | none => .ok (w, none)
        | some resumed => do
            validateSession resumed
            return (w.putSession resumed, some resumed)

/-- A client's end reason is a short word of its own. -/
def isEndReason (reason : String) : Bool :=
  match reason.toList with
  | [] => false
  | c :: cs =>
      c.isLower && decide (cs.length ≤ 63)
        && cs.all fun c => c.isLower || c.isDigit || c == '_' || c == '-'

/-- The closed record. -/
def closed (current : Session) (now : Timestamp) (endReason : Option String) : Session :=
  { current with
    state := .closed
    heartbeatAt := now
    endReason := (endReason.filter isEndReason).or current.endReason }

def closeSession (w : Workspace) (ports : Ports) (sessionId : Id) (workspaceId : Option Id)
    (generation : Id) (endReason : Option String) : Result (Workspace × Session) :=
  match (w.ephemeral.sessions.get? sessionId).filter fun s => !isMaterialised w s.workspaceId with
  | some current => do
      assertGeneration current generation "close" (workspaceId.getD w.workspaceId)
      return (w.setEphemeral
        { w.ephemeral with
          sessions := w.ephemeral.sessions.remove sessionId
          intents := w.ephemeral.intents.remove sessionId },
        closed current ports.now endReason)
  | none =>
      w.transaction fun w =>
        match w.sessions.get? sessionId with
        | none => .error ⟨.conflict, "session is not open"⟩
        | some current => do
            assertGeneration current generation "close" (workspaceId.getD w.workspaceId)
            let done := closed current ports.now endReason
            return ((w.putSession done).append
              ⟨done.workspaceId, sessionId, ports.now, .sessionClosed⟩, done)

/-! ## Intents -/

/-- The owner an intent call needs, as found. -/
def requireIntentOwner (current : Option Session) (generation : Id) : Result Session :=
  match current with
  | none => .error ⟨.conflict, "session is not open"⟩
  | some owner => do
      refuse (owner.generation ≠ generation)
        ⟨.conflict, "intent belongs to a replaced session generation"⟩
      refuse (owner.state ≠ .opened) ⟨.conflict, "a closed session cannot publish intent"⟩
      return owner

structure IntentInput where
  sessionId : Id
  workspaceId : Option Id
  generation : Id
  summary : String
  mode : IntentMode
  resourceHints : List String
  state : IntentState
deriving DecidableEq

def setIntent (w : Workspace) (ports : Ports) (input : IntentInput) :
    Result (Workspace × Intent) := do
  let owner ← requireIntentOwner (locateSession w input.sessionId input.workspaceId)
    input.generation
  let intent : Intent :=
    ⟨input.sessionId, owner.workspaceId, input.summary, input.mode, input.resourceHints,
      input.state, ports.now⟩
  validateIntent intent
  if isMaterialised w owner.workspaceId then
    w.transaction fun w => do
      let _ ← requireIntentOwner (w.sessions.get? input.sessionId) input.generation
      return ((w.putIntent intent).append
        ⟨owner.workspaceId, input.sessionId, ports.now,
          .intentPublished intent.mode intent.state⟩, intent)
  else
    return (w.setEphemeral { w.ephemeral with intents := w.ephemeral.intents.put intent }, intent)

def clearIntent (w : Workspace) (ports : Ports) (sessionId : Id) (workspaceId : Option Id)
    (generation : Id) : Result Workspace := do
  let owner ← requireIntentOwner (locateSession w sessionId workspaceId) generation
  if isMaterialised w owner.workspaceId then do
    let done ← w.transaction fun w => do
      let _ ← requireIntentOwner (w.sessions.get? sessionId) generation
      match w.intents.get? sessionId with
      | none => return (w, ())
      | some current =>
          return ((w.putIntent { current with state := .done, updatedAt := ports.now }).append
            ⟨owner.workspaceId, sessionId, ports.now, .intentCleared⟩, ())
    return done.1
  else
    return w.setEphemeral { w.ephemeral with intents := w.ephemeral.intents.remove sessionId }

end

/-! ## A small workspace -/

/-- The identifier of a portable name. -/
def sampleId (name : String) : Id :=
  if h : isPortableId name = true then ⟨name, h⟩ else ⟨"unnamed", by decide⟩

/-- Ports under which every drawn identifier is the same. -/
def samplePorts (now : Timestamp) (drawn : Id) : Ports := ⟨now, fun _ => true, fun _ _ => drawn⟩

/-- A session opens with nothing but its names. -/
def sampleOpen (sessionId participantId : Id) (harness : String) : OpenInput where
  sessionId := some sessionId
  participantId := participantId
  workspaceId := none
  generation := none
  displayName := none
  participantKind := none
  harness := harness
  parentSessionId := none
  checkoutRoot := none
  branch := none
  pid := some 7
  enforcement := none
  lifecycle := none
  heartbeatCadenceMs := 60000
  descriptor := none
  probe := none

theorem home_portable : isPortableId "workspace_1" = true := by decide

theorem ann_portable : isPortableId "ann" = true := by decide

theorem bob_portable : isPortableId "bob" = true := by decide

theorem session_a_portable : isPortableId "session_a" = true := by decide

theorem session_b_portable : isPortableId "session_b" = true := by decide

theorem generation_a_portable : isPortableId "generation_a" = true := by decide

theorem generation_b_portable : isPortableId "generation_b" = true := by decide

/-- Two sessions open in a new workspace, and the second materialises it. -/
def sampleWorkspace : Workspace :=
  let w := Workspace.initial ⟨"workspace_1", home_portable⟩
  let opened := do
    let first ← openSession w (samplePorts 0 ⟨"generation_a", generation_a_portable⟩)
      (sampleOpen ⟨"session_a", session_a_portable⟩ ⟨"ann", ann_portable⟩ "claude")
    openSession first.1 (samplePorts 10 ⟨"generation_b", generation_b_portable⟩)
      (sampleOpen ⟨"session_b", session_b_portable⟩ ⟨"bob", bob_portable⟩ "codex")
  (opened.toOption.map Prod.fst).getD w

example : sampleWorkspace.sessions.list.length = 2 := by decide

example : sampleWorkspace.events.keys = [1, 2, 3] := by decide

/-! ## What presence leaves alone -/

variable [LinearOrder ReceiptId]

/-- An observation of the workspace that no call of this module changes. -/
structure Untouched {β : Type} (g : Workspace → β) : Prop where
  putWorkspace : ∀ w r, g (w.putWorkspace r) = g w
  putParticipant : ∀ w r, g (w.putParticipant r) = g w
  putSession : ∀ w r, g (w.putSession r) = g w
  putIntent : ∀ w r, g (w.putIntent r) = g w
  append : ∀ w e, g (w.append e) = g w
  setEphemeral : ∀ w e, g (w.setEphemeral e) = g w

theorem untouched_workspaceId : Untouched Workspace.workspaceId := by
  constructor <;> intros <;> rfl

theorem untouched_claims : Untouched Workspace.claims := by
  constructor <;> intros <;> rfl

theorem untouched_messages : Untouched Workspace.messages := by
  constructor <;> intros <;> rfl

theorem untouched_receipts : Untouched Workspace.receipts := by
  constructor <;> intros <;> rfl

theorem foldl_untouched {α β : Type} {g : Workspace → β} {f : Workspace → α → Workspace}
    (hf : ∀ w a, g (f w a) = g w) (items : List α) (w : Workspace) :
    g (items.foldl f w) = g w := by
  induction items generalizing w with
  | nil => rfl
  | cons a items ih => rw [List.foldl_cons, ih, hf]

namespace Untouched

variable {β : Type} {g : Workspace → β} {w w' : Workspace} {ports : Ports}

theorem promoteParticipant (hg : Untouched g) (w : Workspace) (r : Participant) :
    g (Core.promoteParticipant w r) = g w := by
  rw [Core.promoteParticipant]
  split
  · rfl
  · exact hg.putParticipant w r

theorem promoteSession (hg : Untouched g) {now : Timestamp} {workspaceId : Id}
    {own : Option Session} (w : Workspace) (r : Session) :
    g (Core.promoteSession now workspaceId own w r) = g w := by
  rw [Core.promoteSession]
  split
  · rfl
  · rw [hg.append, hg.putSession]

theorem promoteIntent (hg : Untouched g) {now : Timestamp} {workspaceId : Id}
    (w : Workspace) (r : Intent) : g (Core.promoteIntent now workspaceId w r) = g w := by
  rw [Core.promoteIntent]
  split
  · rfl
  · rw [hg.append, hg.putIntent]

theorem openIn (hg : Untouched g) {now : Timestamp} {participant : Participant}
    {session : Session} {replaced : Option Session} :
    g (Core.openIn w now participant session replaced) = g w := by
  rw [Core.openIn, hg.append, hg.putSession, hg.promoteParticipant]

theorem materialiseRecord (hg : Untouched g) {now : Timestamp} {workspaceId : Id}
    {descriptor : Option Descriptor} {reason : String}
    (h : Core.materialiseRecord w now workspaceId descriptor reason = .ok w') : g w' = g w := by
  rw [Core.materialiseRecord] at h
  split at h
  · cases h
    rfl
  · simp only [bind_eq_ok, pure_eq_ok] at h
    obtain ⟨_, _, rfl⟩ := h
    rw [hg.append, hg.putWorkspace]

theorem promote (hg : Untouched g) {now : Timestamp} {workspaceId : Id} {staged : Ephemeral}
    {own : Option Session} : g (Core.promote w now workspaceId staged own) = g w := by
  rw [Core.promote, foldl_untouched hg.promoteIntent, foldl_untouched hg.promoteSession,
    foldl_untouched hg.promoteParticipant]

theorem joinIn (hg : Untouched g) {now : Timestamp} {own : Option Session}
    {opening : Option Opening} (h : Core.joinIn w now own opening = .ok w') : g w' = g w := by
  cases opening with
  | none =>
      cases h
      rfl
  | some o =>
      simp only [Core.joinIn, bind_eq_ok, pure_eq_ok] at h
      obtain ⟨_, _, rfl⟩ := h
      exact hg.openIn

theorem materialise (hg : Untouched g) {workspaceId : Id} {descriptor : Option Descriptor}
    {reason : String} {opening : Option Opening} {joined : Bool}
    (h : Core.materialise w ports workspaceId descriptor reason opening = .ok (w', joined)) :
    g w' = g w := by
  simp only [Core.materialise, bind_eq_ok, pure_eq_ok, Prod.mk.injEq] at h
  obtain ⟨⟨w₁, joined₁⟩, htx, rfl, rfl⟩ := h
  have htx := Workspace.transaction_eq_ok htx
  have hw₁ : g w₁ = g w := by
    dsimp only at htx
    split at htx
    · simp only [bind_eq_ok, pure_eq_ok, Prod.mk.injEq] at htx
      obtain ⟨w₂, hrecord, w₃, hjoined, rfl, _⟩ := htx
      rw [hg.joinIn hjoined, hg.promote, hg.materialiseRecord hrecord]
    · simp only [pure_eq_ok, Prod.mk.injEq] at htx
      rw [htx.1]
  split
  · rw [retireEphemeral, hg.setEphemeral, hw₁]
  · exact hw₁

theorem ensureMaterialised (hg : Untouched g) {workspaceId : Id}
    {descriptor : Option Descriptor} {reason : String}
    (h : Core.ensureMaterialised w ports workspaceId descriptor reason = .ok w') : g w' = g w := by
  rw [Core.ensureMaterialised] at h
  split at h
  · cases h
    rfl
  · simp only [bind_eq_ok, pure_eq_ok] at h
    obtain ⟨done, hdone, rfl⟩ := h
    exact hg.materialise hdone

end Untouched

end Acc.Core
