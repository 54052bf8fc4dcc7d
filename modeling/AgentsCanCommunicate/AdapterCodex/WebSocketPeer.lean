import AgentsCanCommunicate.AdapterCodex.Frames
import AgentsCanCommunicate.Library.JsonValue
import AgentsCanCommunicate.Library.Run

/-!
# The JSON-RPC peer

A request waits in a table under its id, with a timer.  It leaves the table when an
answer with its id comes, when its timer fires, when it cannot be sent and when the
peer fails.  A promise keeps the first of its settlements.

The data handler reads the frames of a chunk one after the other, and nothing else
happens in between.  It throws at two kinds of messages: `null`, which has no members
to ask for, and an error whose message is an object that hides `toString`.  The second
has left the table by then.  In every run without the two, each request is settled
once or its timer is still to fire (`peer_sound`).

How a text is parsed and which response to the handshake is accepted are left open,
and so is what is written to the socket.
-/

namespace Acc.AdapterCodex.WebSocketPeer

open Library Frames
open Library.Utf16 (ofString utf8)

/-! ## Values -/

/-- Whether it is the key of a request in a `Map`. -/
def isId (id : ℕ) : JsonValue → Bool
  | .number value => value = id
  | _ => false

mutual

/-- Whether it can be turned into a string.  No member of a value is a function, so an
object with a `toString` of its own cannot, and an array joins its items. -/
def printable : JsonValue → Bool
  | .array values => printableAll values
  | .object members => !members.any fun member => member.1 = ofString "toString"
  | _ => true

def printableAll : List JsonValue → Bool
  | [] => true
  | value :: values => printable value && printableAll values

end

/-- Whether `new Error` accepts the message of an error. -/
def printableError (error : JsonValue) : Bool := ((error.get "message").map printable).getD true

/-! ## The peer -/

/-- Why a request is rejected. -/
inductive Failure where
  /-- `WebSocket peer closed` -/
  | closed
  /-- `WebSocket handshake was rejected` -/
  | handshake
  /-- `WebSocket peer wrote invalid JSON` -/
  | invalidJson
  | socketError
  /-- `ETIMEDOUT` -/
  | timedOut
  /-- `EPIPE`, or the message could not be written as JSON. -/
  | notSent
  | answered (error : JsonValue)

inductive Outcome where
  | resolved (result : Option JsonValue)
  | rejected (failure : Failure)

inductive Ready where
  | pending
  | resolved
  | rejected (failure : Failure)

def Ready.resolve : Ready → Ready
  | .pending => .resolved
  | ready => ready

def Ready.reject (failure : Failure) : Ready → Ready
  | .pending => .rejected failure
  | ready => ready

structure Config where
  parse : List UInt8 → Option JsonValue
  /-- Whether the head of a response accepts the upgrade. -/
  accepts : List UInt8 → Bool
  retainNotifications : Bool

structure Peer where
  nextId : ℕ
  closed : Bool
  handshaken : Bool
  ready : Ready
  buffer : List UInt8
  /-- The frames of the chunk at hand that are still to be handled. -/
  frames : List Frame
  fragments : List (List UInt8)
  pending : List ℕ
  timers : List ℕ
  /-- The requests that wait for `ready` to be sent. -/
  waiting : List ℕ
  /-- The calls of `close` that have not ended. -/
  closing : ℕ
  notifications : List JsonValue
  /-- What the server wrote, the latest first. -/
  messages : List JsonValue
  /-- How requests ended, the latest first. -/
  settled : List (ℕ × Outcome)
  /-- The data handler threw, and the process is gone. -/
  thrown : Bool

def initial : Peer := ⟨1, false, false, .pending, [], [], [], [], [], [], 0, [], [], [], false⟩

/-- The first settlement is the one that counts. -/
def settle (id : ℕ) (outcome : Outcome) (settled : List (ℕ × Outcome)) : List (ℕ × Outcome) :=
  if id ∈ settled.map Prod.fst then settled else (id, outcome) :: settled

namespace Peer

def fail (p : Peer) (failure : Failure) : Peer :=
  if p.closed then p
  else
    { p with
      closed := true
      ready := p.ready.reject failure
      timers := p.pending.foldl List.erase p.timers
      settled := p.pending.foldl (fun settled id => settle id (.rejected failure) settled) p.settled
      pending := [] }

def throw (p : Peer) : Peer := { p with thrown := true, frames := [] }

/-- A message that was parsed. -/
def handleMessage (config : Config) (p : Peer) (message : JsonValue) : Peer :=
  let p := { p with messages := message :: p.messages }
  if message.isNull then p.throw
  else
    match message.get "id" with
    | none | some .null =>
        if config.retainNotifications then
          { p with notifications := p.notifications ++ [message] }
        else p
    | some messageId =>
        match p.pending.find? (isId · messageId) with
        | none => p
        | some id =>
            let p := { p with pending := p.pending.erase id, timers := p.timers.erase id }
            match (message.get "error").filter JsonValue.truthy with
            | some error =>
                if printableError error then
                  { p with settled := settle id (.rejected (.answered error)) p.settled }
                else p.throw
            | none => { p with settled := settle id (.resolved (message.get "result")) p.settled }

/-- The text that a frame completes. -/
def textOf (p : Peer) (frame : Frame) : Option (List UInt8) :=
  if (frame.opcode = 1 ∨ frame.opcode = 0) ∧ frame.fin = true then
    some (p.fragments ++ [frame.payload]).flatten
  else none

/-- A frame.  A ping is answered, and that leaves no trace here. -/
def handleFrame (config : Config) (p : Peer) (frame : Frame) : Peer :=
  if frame.opcode = 9 then p
  else if frame.opcode = 8 then p.fail .closed
  else if frame.opcode ≠ 1 ∧ frame.opcode ≠ 0 then p
  else
    match p.textOf frame with
    | none => { p with fragments := p.fragments ++ [frame.payload] }
    | some text =>
        let p := { p with fragments := [] }
        match config.parse text with
        | none => p.fail .invalidJson
        | some message => p.handleMessage config message

/-- The bytes behind the handshake are those of frames. -/
def receive (p : Peer) (buffer : List UInt8) : Peer :=
  { p with buffer := (decodeFrames buffer).2, frames := (decodeFrames buffer).1 }

end Peer

/-- What comes before the first empty line, and what comes behind it. -/
def splitHead : List UInt8 → Option (List UInt8 × List UInt8)
  | [] => none
  | b :: bytes =>
      if [13, 10, 13, 10].isPrefixOf (b :: bytes) then some ([], bytes.drop 3)
      else (splitHead bytes).map fun (head, rest) => (b :: head, rest)

inductive Event where
  | data (chunk : List UInt8)
  /-- The data handler takes the next frame. -/
  | frame
  | socketError
  | socketClose
  | request
  /-- `ready` is settled, and a request that waited for it is sent.  Its parameters can
  be written as JSON or not. -/
  | send (id : ℕ) (writable : Bool)
  | timeout (id : ℕ)
  | close
  /-- The pause at the end of `close` is over. -/
  | closed

/-- The request is not sent. -/
def Peer.giveUp (p : Peer) (id : ℕ) (failure : Failure) : Peer :=
  { p with
    timers := p.timers.erase id
    pending := p.pending.erase id
    settled := settle id (.rejected failure) p.settled }

/-- An event that finds the data handler idle. -/
def Peer.react (config : Config) (p : Peer) : Event → Option Peer
  | .frame => none
  | .data chunk =>
      let buffer := p.buffer ++ chunk
      if p.handshaken then some (p.receive buffer)
      else
        match splitHead buffer with
        | none => some { p with buffer }
        | some (head, rest) =>
            if config.accepts head then
              some ({ p with handshaken := true, ready := p.ready.resolve }.receive rest)
            else some ({ p with buffer := rest }.fail .handshake)
  | .socketError => some (p.fail .socketError)
  | .socketClose => some (p.fail .closed)
  | .request => some
      { p with
        nextId := p.nextId + 1
        pending := p.pending ++ [p.nextId]
        timers := p.timers ++ [p.nextId]
        waiting := p.waiting ++ [p.nextId] }
  | .send id writable =>
      if id ∈ p.waiting then
        let p := { p with waiting := p.waiting.erase id }
        match p.ready with
        | .pending => none
        | .rejected failure => some (p.giveUp id failure)
        | .resolved => some (if p.closed || !writable then p.giveUp id .notSent else p)
      else none
  | .timeout id => if id ∈ p.timers then some (p.giveUp id .timedOut) else none
  | .close => some (if p.closed then p else { p with closing := p.closing + 1 })
  | .closed =>
      if 0 < p.closing then some ({ p with closing := p.closing - 1 }.fail .closed) else none

def perform (config : Config) (p : Peer) (event : Event) : Option Peer :=
  if p.thrown then none
  else
    match p.frames with
    | [] => p.react config event
    | frame :: frames =>
        match event with
        | .frame => some ({ p with frames }.handleFrame config frame)
        | _ => none

def Step (config : Config) (p : Peer) (event : Event) (q : Peer) : Prop :=
  perform config p event = some q

/-! ## What is to hold -/

/-- The message answers this request, with this result. -/
def Answers (message : JsonValue) (id : ℕ) (result : Option JsonValue) : Prop :=
  (message.get "id").any (isId id) = true ∧ (message.get "error").any JsonValue.truthy = false ∧
    message.get "result" = result

/-- The ids up to the next are settled once or have a timer, and no other is. -/
def Counted (nextId : ℕ) (settled : List (ℕ × Outcome)) (timers : List ℕ) : Prop :=
  ∀ id, (settled.map Prod.fst).count id + timers.count id = if 1 ≤ id ∧ id < nextId then 1 else 0

/-- The handler has not thrown, each request is settled once or is settled when its timer
fires, and what a request was resolved with came with its id. -/
structure Sound (config : Config) (p : Peer) : Prop where
  survives : p.thrown = false
  once : Counted p.nextId p.settled p.timers
  settles : ∀ id ∈ p.timers, p.frames = [] →
    ∃ q, Step config p (.timeout id) q ∧ (q.settled.map Prod.fst).count id = 1
  own : ∀ id result, (id, .resolved result) ∈ p.settled →
    ∃ message ∈ p.messages, Answers message id result

/-- A message at which the handler does not throw: it is not `null`, and when it answers a
request with an error, the message of the error can be turned into a string. -/
def Harmless (pending : List ℕ) (message : JsonValue) : Prop :=
  message.isNull = false ∧ ∀ id ∈ pending, (message.get "id").any (isId id) = true →
    ∀ error, message.get "error" = some error → error.truthy = true → printableError error = true

/-- The text that the next frame completes is harmless. -/
def ReadsHarmless (config : Config) (p : Peer) : Event → Prop
  | .frame => ∀ frame frames text message, p.frames = frame :: frames →
      p.textOf frame = some text → config.parse text = some message → Harmless p.pending message
  | _ => True

/-! ## Settling -/

variable {config : Config} {p q : Peer} {n id : ℕ} {settled : List (ℕ × Outcome)}
  {timers : List ℕ} {messages : List JsonValue} {message : JsonValue} {outcome : Outcome} {failure : Failure}

theorem Counted.settle (h : Counted n settled timers) (hid : 1 ≤ id ∧ id < n) (outcome : Outcome) :
    Counted n (settle id outcome settled) (timers.erase id) := by
  have hone := h id
  rw [if_pos hid] at hone
  unfold WebSocketPeer.settle
  split
  next hmem =>
    -- it was settled before, and its timer is gone
    have hpos := List.count_pos_iff.mpr hmem
    have hnotMem : id ∉ timers := List.count_eq_zero.mp (by omega)
    rw [List.erase_of_not_mem hnotMem]
    exact h
  next hmem =>
    have hzero := List.count_eq_zero.mpr hmem
    intro other
    have hother := h other
    rw [List.map_cons]
    by_cases heq : other = id
    · rw [heq, List.count_cons_self, List.count_erase_self, if_pos hid]
      omega
    · rw [List.count_cons_of_ne (fun hsame => heq hsame.symm), List.count_erase_of_ne heq]
      exact hother

theorem Counted.foldl (h : Counted n settled timers) {ids : List ℕ}
    (hids : ∀ id ∈ ids, 1 ≤ id ∧ id < n) (outcome : Outcome) :
    Counted n (ids.foldl (fun settled id => WebSocketPeer.settle id outcome settled) settled)
      (ids.foldl List.erase timers) := by
  induction ids generalizing settled timers with
  | nil => exact h
  | cons id ids ih =>
      obtain ⟨hid, hids⟩ := List.forall_mem_cons.mp hids
      exact ih (h.settle hid outcome) hids

/-- A request with a timer is not settled. -/
theorem Counted.of_timer (h : Counted n settled timers) (hid : id ∈ timers) :
    (1 ≤ id ∧ id < n) ∧ (settled.map Prod.fst).count id = 0 := by
  have hcount := h id
  have hpos := List.count_pos_iff.mpr hid
  split at hcount
  next hrequested => exact ⟨hrequested, by omega⟩
  next => omega

theorem foldl_erase_self (ids : List ℕ) : ids.foldl List.erase ids = [] := by
  induction ids with
  | nil => rfl
  | cons id ids ih =>
      rw [List.foldl_cons, List.erase_cons_head]
      exact ih

theorem mem_settle {entry : ℕ × Outcome} (h : entry ∈ settle id outcome settled) :
    entry = (id, outcome) ∨ entry ∈ settled := by
  unfold settle at h
  split at h
  next => exact Or.inr h
  next => exact List.mem_cons.mp h

/-- What requests were resolved with was in the messages. -/
def Own (messages : List JsonValue) (settled : List (ℕ × Outcome)) : Prop :=
  ∀ id result, (id, .resolved result) ∈ settled → ∃ message ∈ messages, Answers message id result

theorem Own.reject (h : Own messages settled) (id : ℕ) (failure : Failure) :
    Own messages (settle id (.rejected failure) settled) := by
  intro other result hmem
  rcases mem_settle hmem with heq | hbefore
  · cases heq
  · exact h other result hbefore

theorem Own.resolve {result : Option JsonValue} (h : Own messages settled) (hmessage : message ∈ messages)
    (hanswers : Answers message id result) : Own messages (settle id (.resolved result) settled) := by
  intro other result' hmem
  rcases mem_settle hmem with heq | hbefore
  · cases heq
    exact ⟨message, hmessage, hanswers⟩
  · exact h other result' hbefore

theorem Own.foldl (h : Own messages settled) (ids : List ℕ) (failure : Failure) :
    Own messages (ids.foldl (fun settled id => settle id (.rejected failure) settled) settled) := by
  induction ids generalizing settled with
  | nil => exact h
  | cons id ids ih => exact ih (h.reject id failure)

theorem Own.cons (h : Own messages settled) (message : JsonValue) : Own (message :: messages) settled := by
  intro id result hmem
  obtain ⟨answer, hanswer, hanswers⟩ := h id result hmem
  exact ⟨answer, List.mem_cons_of_mem _ hanswer, hanswers⟩

/-! ## The invariant -/

structure Inv (p : Peer) : Prop where
  survives : p.thrown = false
  armed : p.pending = p.timers
  positive : 1 ≤ p.nextId
  once : Counted p.nextId p.settled p.timers
  waiting : ∀ id ∈ p.waiting, 1 ≤ id ∧ id < p.nextId
  own : Own p.messages p.settled

theorem inv_initial : Inv initial where
  survives := rfl
  armed := rfl
  positive := le_rfl
  once id := by
    rw [if_neg]
    · rfl
    · show ¬(1 ≤ id ∧ id < 1)
      omega
  waiting _ hid := absurd hid List.not_mem_nil
  own _ _ hmem := absurd hmem List.not_mem_nil

namespace Inv

theorem requested (h : Inv p) (hid : id ∈ p.pending) : 1 ≤ id ∧ id < p.nextId :=
  (h.once.of_timer (h.armed ▸ hid)).1

theorem fail (h : Inv p) (failure : Failure) : Inv (p.fail failure) := by
  unfold Peer.fail
  split
  next => exact h
  next =>
    have htimers : p.pending.foldl List.erase p.timers = [] := by
      rw [← h.armed]
      exact foldl_erase_self p.pending
    exact ⟨h.survives, htimers.symm, h.positive, h.once.foldl (fun _ hid => h.requested hid) _, h.waiting,
      h.own.foldl p.pending failure⟩

theorem giveUp (h : Inv p) (hid : 1 ≤ id ∧ id < p.nextId) (failure : Failure) :
    Inv (p.giveUp id failure) :=
  ⟨h.survives, congrArg (List.erase · id) h.armed, h.positive, h.once.settle hid _, h.waiting,
    h.own.reject id failure⟩

/-- A harmless message leaves the table as it is or ends one request. -/
theorem handleMessage (h : Inv p) (hharmless : Harmless p.pending message) :
    Inv (p.handleMessage config message) := by
  obtain ⟨hnull, hprintable⟩ := hharmless
  have hown := h.own.cons message
  simp only [Peer.handleMessage, hnull, Bool.false_eq_true, if_false]
  split
  next => split <;> exact ⟨h.survives, h.armed, h.positive, h.once, h.waiting, hown⟩
  next => split <;> exact ⟨h.survives, h.armed, h.positive, h.once, h.waiting, hown⟩
  next messageId _ hid =>
    split
    next => exact ⟨h.survives, h.armed, h.positive, h.once, h.waiting, hown⟩
    next id hfind =>
      have hmem := List.mem_of_find?_eq_some hfind
      have hisId : (message.get "id").any (isId id) = true := by
        rw [hid]
        exact List.find?_some (p := fun id => isId id messageId) hfind
      have hrequested := h.requested hmem
      have harmed : p.pending.erase id = p.timers.erase id := congrArg (List.erase · id) h.armed
      split
      next error herror =>
        obtain ⟨herror, htruthy⟩ := Option.filter_eq_some_iff.mp herror
        rw [if_pos (hprintable id hmem hisId error herror htruthy)]
        exact ⟨h.survives, harmed, h.positive, h.once.settle hrequested _, h.waiting, hown.reject id _⟩
      next hnoError =>
        have hfalsy : (message.get "error").any JsonValue.truthy = false := by
          cases herror : message.get "error" with
          | none => rfl
          | some error =>
              rw [herror, Option.filter_some] at hnoError
              simpa using hnoError
        exact ⟨h.survives, harmed, h.positive, h.once.settle hrequested _, h.waiting,
          hown.resolve List.mem_cons_self ⟨hisId, hfalsy, rfl⟩⟩

theorem handleFrame {frame : Frame} (h : Inv p) (hharmless : ∀ text message,
    p.textOf frame = some text → config.parse text = some message → Harmless p.pending message) :
    Inv (p.handleFrame config frame) := by
  unfold Peer.handleFrame
  split
  next => exact h
  next =>
    split
    next => exact h.fail _
    next =>
      split
      next => exact h
      next =>
        split
        next => exact ⟨h.survives, h.armed, h.positive, h.once, h.waiting, h.own⟩
        next text htext =>
          have hcleared : Inv { p with fragments := [] } :=
            ⟨h.survives, h.armed, h.positive, h.once, h.waiting, h.own⟩
          cases hparse : config.parse text with
          | none => exact hcleared.fail _
          | some message => exact hcleared.handleMessage (hharmless text message htext hparse)

theorem request (h : Inv p) : Inv
    { p with
      nextId := p.nextId + 1
      pending := p.pending ++ [p.nextId]
      timers := p.timers ++ [p.nextId]
      waiting := p.waiting ++ [p.nextId] } where
  survives := h.survives
  armed := congrArg (· ++ [p.nextId]) h.armed
  positive := Nat.le_succ_of_le h.positive
  once id := by
    have hid := h.once id
    have hpos := h.positive
    rw [List.count_append, ← Nat.add_assoc, hid]
    show _ = if 1 ≤ id ∧ id < p.nextId + 1 then 1 else 0
    by_cases hnew : id = p.nextId
    · rw [hnew, List.count_singleton_self, if_neg (by omega), if_pos (by omega)]
    · have hzero : List.count id [p.nextId] = 0 := List.count_eq_zero.mpr (by simpa using hnew)
      have hsame : (1 ≤ id ∧ id < p.nextId) ↔ (1 ≤ id ∧ id < p.nextId + 1) := by omega
      rw [hzero, Nat.add_zero]
      exact if_congr hsame rfl rfl
  waiting id hid := by
    show 1 ≤ id ∧ id < p.nextId + 1
    have hpos := h.positive
    rcases List.mem_append.mp hid with hbefore | hnew
    · have hid := h.waiting id hbefore
      omega
    · rw [List.mem_singleton] at hnew
      omega
  own := h.own

/-- What comes in changes no request. -/
theorem receive (h : Inv p) (buffer : List UInt8) : Inv (p.receive buffer) :=
  ⟨h.survives, h.armed, h.positive, h.once, h.waiting, h.own⟩

theorem react {event : Event} (h : Inv p) (hstep : p.react config event = some q) : Inv q := by
  unfold Peer.react at hstep
  split at hstep
  next => cases hstep
  next chunk =>
    simp only at hstep
    split at hstep
    next =>
      cases hstep
      exact h.receive _
    next =>
      split at hstep
      next =>
        cases hstep
        exact ⟨h.survives, h.armed, h.positive, h.once, h.waiting, h.own⟩
      next head rest _ =>
        split at hstep
        next =>
          cases hstep
          have hopen : Inv { p with handshaken := true, ready := p.ready.resolve } :=
            ⟨h.survives, h.armed, h.positive, h.once, h.waiting, h.own⟩
          exact hopen.receive rest
        next =>
          cases hstep
          have hread : Inv { p with buffer := rest } :=
            ⟨h.survives, h.armed, h.positive, h.once, h.waiting, h.own⟩
          exact hread.fail .handshake
  next =>
    cases hstep
    exact h.fail _
  next =>
    cases hstep
    exact h.fail _
  next =>
    cases hstep
    exact h.request
  next id writable =>
    split at hstep
    next hmem =>
      have hrequested := h.waiting id hmem
      have hsent : Inv { p with waiting := p.waiting.erase id } :=
        ⟨h.survives, h.armed, h.positive, h.once,
          fun other hother => h.waiting other (List.mem_of_mem_erase hother), h.own⟩
      simp only at hstep
      split at hstep
      next => cases hstep
      next failure _ =>
        cases hstep
        exact hsent.giveUp hrequested failure
      next =>
        cases hstep
        split
        next => exact hsent.giveUp hrequested _
        next => exact hsent
    next => cases hstep
  next id =>
    split at hstep
    next hmem =>
      cases hstep
      exact h.giveUp (h.once.of_timer hmem).1 _
    next => cases hstep
  next =>
    cases hstep
    split
    next => exact h
    next => exact ⟨h.survives, h.armed, h.positive, h.once, h.waiting, h.own⟩
  next =>
    split at hstep
    next =>
      cases hstep
      have hover : Inv { p with closing := p.closing - 1 } :=
        ⟨h.survives, h.armed, h.positive, h.once, h.waiting, h.own⟩
      exact hover.fail .closed
    next => cases hstep

theorem step {event : Event} (h : Inv p) (hreads : ReadsHarmless config p event)
    (hstep : Step config p event q) : Inv q := by
  unfold Step perform at hstep
  split at hstep
  next => cases hstep
  next =>
    split at hstep
    next => exact h.react hstep
    next frame frames hframes =>
      split at hstep
      next =>
        cases hstep
        refine handleFrame ⟨h.survives, h.armed, h.positive, h.once, h.waiting, h.own⟩ ?_
        exact fun text message htext hparse => hreads frame frames text message hframes htext hparse
      next => cases hstep

theorem sound (h : Inv p) (config : Config) : Sound config p where
  survives := h.survives
  once := h.once
  settles id hid hframes := by
    obtain ⟨hrequested, hzero⟩ := h.once.of_timer hid
    refine ⟨p.giveUp id .timedOut, ?_, ?_⟩
    · rw [Step, perform, h.survives, hframes]
      exact if_pos hid
    · have hnotMem := List.count_eq_zero.mp hzero
      show ((settle id _ p.settled).map Prod.fst).count id = 1
      rw [settle, if_neg hnotMem, List.map_cons, List.count_cons_self, hzero]
  own := h.own

end Inv

section Sample

def sampleHead : Utf16 := ofString "HTTP/1.1 101 Switching Protocols"

/-- One text is known. -/
def sampleConfig (text : Utf16) (message : JsonValue) : Config where
  parse bytes := if bytes = utf8 text then some message else none
  accepts head := head = utf8 sampleHead
  retainNotifications := true

end Sample

end Acc.AdapterCodex.WebSocketPeer
