import AgentsCanCommunicate.Core.Told

/-!
# Delivery bindings and generations

A binding is filed under its session and carries the generation that published
it.  The session is another record, written by other processes, so a binding may
outlive the generation it belongs to.  It is then not listed, and no operation of
an older generation touches the binding of a newer one (`Fenced`).

Which generation is the newest is told by the deeds: it is that of the record
with which the session was last opened (`lastOpened`), and the open record of a
session is of this generation (`Chronicled`).
-/

namespace Acc.Core

open Library (Keyed Process System Trace)
open Library.Process (Between Keeps)

section

variable [LinearOrder ReceiptId]

/-! ## Listing -/

/-- A binding of the open generation of its session. -/
structure CurrentBinding where
  binding : DeliveryBinding
  participantId : Id
  reachable : Bool
deriving DecidableEq

/-- The record that makes a binding current. -/
def bindingOwner (s : Shared) (binding : DeliveryBinding) : Option Session :=
  (locateSession s.workspace binding.sessionId none).filter fun record =>
    record.state = .opened ∧ record.generation = binding.generation

def currentBindings (s : Shared) (now : Timestamp) : List CurrentBinding :=
  (s.bindings.list.filterMap fun binding =>
    match bindingOwner s binding with
    | none => none
    | some record =>
        if binding.retiredAt ≠ none then none
        else some ⟨binding, record.participantId, decide (now < binding.leaseUntil)⟩).insertionSort
    fun left right => left.binding.sessionId.localeKey ≤ right.binding.sessionId.localeKey

def listDeliveryBindings (s : Shared) (participantId : Id) (now : Timestamp)
    (includeExpired : Bool) : List DeliveryBinding :=
  ((currentBindings s now).filter fun item =>
    decide (item.participantId = participantId) && (includeExpired || item.reachable)).map
    CurrentBinding.binding

/-! ## Operations -/

/-- What a process runs. -/
inductive ServiceCall where
  | call (ids : Drawn) (call : Call)
  /-- Closing a session also retires its endpoint. -/
  | closeSession (sessionId : Id) (workspaceId : Option Id) (generation : Id)
      (endReason : Option String)
  | publishDeliveryBinding (binding : DeliveryBinding)
  | clearDeliveryBinding (sessionId generation : Id) (opaqueEndpointRef : Option String)
  | refreshDeliveryBinding (sessionId generation : Id) (leaseUntil : Timestamp)

def ServiceCall.process : ServiceCall → Program Unit
  | .call ids c => Program.call ids c
  | .closeSession sessionId workspaceId generation endReason => do
      let _ ← Program.closeSession sessionId workspaceId generation endReason
      Program.clearDeliveryBinding sessionId generation none
  | .publishDeliveryBinding binding => Program.publishDeliveryBinding binding
  | .clearDeliveryBinding sessionId generation opaqueEndpointRef =>
      Program.clearDeliveryBinding sessionId generation opaqueEndpointRef
  | .refreshDeliveryBinding sessionId generation leaseUntil =>
      Program.refreshDeliveryBinding sessionId generation leaseUntil

/-- The session and the generation that an operation on a binding carries. -/
def ServiceCall.carries : ServiceCall → Option (Id × Id)
  | .call .. => none
  | .closeSession sessionId _ generation _ => some (sessionId, generation)
  | .publishDeliveryBinding binding => some (binding.sessionId, binding.generation)
  | .clearDeliveryBinding sessionId generation _ => some (sessionId, generation)
  | .refreshDeliveryBinding sessionId generation _ => some (sessionId, generation)

/-- A process, whose steps say which operation they are of. -/
def ServiceCall.tagged (op : ServiceCall) : Process Shared Outside (ServiceCall × Tag) AccError Unit :=
  op.process.retag fun tag => (op, tag)

/-! ## What a step does to the bindings -/

/-- What one step of an operation makes of the bindings. -/
inductive Rebinds (op : ServiceCall) (s : Shared) : Keyed DeliveryBinding.sessionId → Prop where
  | keep : Rebinds op s s.bindings
  | publish {binding : DeliveryBinding} {current : Session} :
      op = .publishDeliveryBinding binding →
      locateSession s.workspace binding.sessionId none = some current → current.state = .opened →
      current.generation = binding.generation →
      Rebinds op s (s.bindings.put { binding with retiredAt := none })
  | retire {sessionId generation : Id} {current : DeliveryBinding} {now : Timestamp} :
      op.carries = some (sessionId, generation) →
      (∀ leaseUntil, op ≠ .refreshDeliveryBinding sessionId generation leaseUntil) →
      s.bindings.get? sessionId = some current → current.generation = generation →
      current.retiredAt = none →
      Rebinds op s (s.bindings.put { current with leaseUntil := now, retiredAt := some now })
  | refresh {sessionId generation : Id} {current : DeliveryBinding} {leaseUntil : Timestamp} :
      op = .refreshDeliveryBinding sessionId generation leaseUntil →
      s.bindings.get? sessionId = some current → current.generation = generation →
      current.retiredAt = none →
      Rebinds op s (s.bindings.put { current with leaseUntil })

/-- A step of the process that leaves the bindings to the operation. -/
def RebindsBy (op : ServiceCall) (_ : Tag) (s s' : Shared) : Prop := Rebinds op s s'.bindings

namespace Program

variable {α β : Type} {op : ServiceCall} {h : Holder} {s : Shared}

theorem rebinds_idle {tag : Tag} : RebindsBy op tag s s := .keep

theorem always_refuse {p : Prop} [Decidable p] {e : AccError} :
    (refuse p e).Always (RebindsBy op) := by
  rw [refuse]
  split <;> trivial

theorem always_read {f : Workspace → α} : (read h f).Always (RebindsBy op) :=
  .look fun _ => rebinds_idle

theorem always_outside : (outside h).Always (RebindsBy op) := .look fun _ => rebinds_idle

/-- A write of the store is none of the bindings. -/
theorem always_store {tag : Tag} {f : Outside → Workspace → Result (Workspace × α)}
    {deeds : α → List Deed} : (store tag f deeds).Always (RebindsBy op) := by
  refine .atomically (fun _ => rebinds_idle) fun m s s' a hok => ?_
  simp only [bind_eq_ok, pure_eq_ok, Prod.mk.injEq] at hok
  obtain ⟨r, _, rfl, _⟩ := hok
  exact .keep

theorem always_plain {f : Outside → Workspace → Result (Workspace × α)} :
    (plain h f).Always (RebindsBy op) := always_store

theorem always_bind {f : Outside → Shared → Result (Keyed DeliveryBinding.sessionId)}
    (hf : ∀ m s b, f m s = .ok b → Rebinds op s b) : (bind h f).Always (RebindsBy op) := by
  refine .atomically (fun _ => rebinds_idle) fun m s s' a hok => ?_
  simp only [bind_eq_ok, pure_eq_ok, Prod.mk.injEq] at hok
  obtain ⟨b, hb, rfl, _⟩ := hok
  exact hf m s b hb

theorem always_run {x : Program α} (hx : x.Always (RebindsBy op)) :
    (run x).Always (RebindsBy op) := .bind hx fun _ => trivial

theorem always_locate {sessionId : Id} {workspaceId : Option Id} :
    (locate h sessionId workspaceId).Always (RebindsBy op) := by
  refine .bind always_read fun _ => .bind always_read fun durable => ?_
  cases durable <;> trivial

/-! ## Materialisation and opening -/

theorem always_retire {copies : List Copy} : (retire h copies).Always (RebindsBy op) := by
  induction copies with
  | nil => trivial
  | cons copy copies ih => exact .bind always_store fun _ => ih

theorem always_materialise {ids : Drawn} {workspaceId : Id} {descriptor : Option Descriptor}
    {reason : String} {opening : Option ((Nat → Bool) → Opening)} :
    (materialise h ids workspaceId descriptor reason opening).Always (RebindsBy op) := by
  refine .bind always_outside fun _ => .bind always_store fun done => ?_
  split
  · exact .bind always_retire fun _ => trivial
  · trivial

theorem always_ensureMaterialised {ids : Drawn} {workspaceId : Id}
    {descriptor : Option Descriptor} {reason : String} :
    (ensureMaterialised h ids workspaceId descriptor reason).Always (RebindsBy op) := by
  refine .bind always_read fun ready => ?_
  split
  · trivial
  · exact .bind always_materialise fun _ => trivial

theorem always_openEphemeral {ids : Drawn} {now : Timestamp} {workspaceId : Id}
    {input : OpenInput} {participant : Participant} {session : Session} :
    (openEphemeral ids now workspaceId input participant session).Always (RebindsBy op) := by
  refine .bind always_plain fun _ => .bind always_store fun opened => ?_
  cases opened with
  | none => exact always_store
  | some _ =>
      refine .bind (.bind always_read fun live => ?_) fun promoted => ?_
      · split
        · trivial
        · exact always_read
      · split
        · exact .bind always_materialise fun _ => trivial
        · trivial

theorem always_openSession {ids : Drawn} {input : OpenInput} :
    (openSession ids input).Always (RebindsBy op) := by
  refine .bind always_read fun _ => .bind always_refuse fun _ => .bind always_locate fun _ => ?_
  refine .bind always_outside fun _ => .bind .ofExcept fun _ => .bind .ofExcept fun _ => ?_
  refine .bind .ofExcept fun _ => .bind always_read fun durable => ?_
  split
  · exact always_store
  · refine .bind (.bind always_read fun joining => ?_) fun joined => ?_
    · split
      · exact always_materialise
      · trivial
    · split
      · trivial
      · exact always_openEphemeral

/-! ## Sessions and intents -/

theorem always_updateOwn {sessionId : Id}
    {change : Outside → Workspace → Session → Result Session} :
    (updateOwn h sessionId change).Always (RebindsBy op) := by
  have hseen : (updateSeen h sessionId change).Always (RebindsBy op) := by
    refine .bind always_read fun seen => ?_
    cases seen with
    | none => trivial
    | some c =>
        refine .bind always_read fun durable => ?_
        split
        · trivial
        · exact always_store
  refine .bind hseen fun ephemeral => ?_
  cases ephemeral with
  | none => exact always_store
  | some next => trivial

theorem always_resumeSession {sessionId : Id} {workspaceId : Option Id} {generation : Id}
    {metadata : ResumeInput} :
    (resumeSession sessionId workspaceId generation metadata).Always (RebindsBy op) := by
  refine .bind always_store fun ephemeral => ?_
  cases ephemeral with
  | none => exact always_store
  | some next => trivial

theorem always_closeSession {sessionId : Id} {workspaceId : Option Id} {generation : Id}
    {endReason : Option String} :
    (closeSession sessionId workspaceId generation endReason).Always (RebindsBy op) := by
  refine .bind always_store fun alone => ?_
  cases alone with
  | none => exact always_store
  | some done => exact .bind always_store fun _ => trivial

theorem always_requireOwner {sessionId : Id} {workspaceId : Option Id} {generation : Id} :
    (requireOwner h sessionId workspaceId generation).Always (RebindsBy op) :=
  .bind always_locate fun _ => .ofExcept

theorem always_setIntent {input : IntentInput} : (setIntent input).Always (RebindsBy op) := by
  refine .bind always_requireOwner fun _ => .bind always_outside fun _ => ?_
  refine .bind .ofExcept fun _ => .bind (.bind always_read fun durable => ?_) fun written => ?_
  · split
    · trivial
    · exact always_store
  · cases written with
    | none => exact always_store
    | some _ => trivial

theorem always_clearIntent {sessionId : Id} {workspaceId : Option Id} {generation : Id} :
    (clearIntent sessionId workspaceId generation).Always (RebindsBy op) := by
  refine .bind always_requireOwner fun _ => .bind (.bind always_read fun durable => ?_)
    fun settled => ?_
  · split
    · trivial
    · refine .bind always_store fun cleared => ?_
      split
      · trivial
      · exact .bind always_requireOwner fun _ => .bind always_read fun _ => trivial
  · split
    · trivial
    · exact .bind always_outside fun _ => .bind always_store fun _ => trivial

/-! ## Claims and messages -/

theorem always_requireClaimant {sessionId : Id} {workspaceId : Option Id} {generation : Id}
    {action : String} :
    (requireClaimant h sessionId workspaceId generation action).Always (RebindsBy op) :=
  .bind always_locate fun _ => .ofExcept

theorem always_acquire {ids : Drawn} {input : AcquireInput} {resources : List String}
    {batch : Bool} : (acquire ids input resources batch).Always (RebindsBy op) :=
  .bind always_requireClaimant fun _ => .bind .ofExcept fun _ =>
    .bind always_ensureMaterialised fun _ => always_store

theorem always_removeClaims {ids : Drawn} {input : ReleaseInput} {selectors : Selectors}
    {authority reason : Option String} :
    (removeClaims ids input selectors authority reason).Always (RebindsBy op) :=
  .bind always_requireClaimant fun _ => always_store

theorem always_requireSender {sessionId : Id} {workspaceId : Option Id} {generation : Id}
    {action : String} {mustBeOpen : Bool} :
    (requireSender h sessionId workspaceId generation action mustBeOpen).Always
      (RebindsBy op) := by
  refine .bind always_locate fun located => ?_
  split <;> trivial

theorem always_requireReader {sessionId : Id} {workspaceId : Option Id} {generation : Id}
    {action : String} :
    (requireReader h sessionId workspaceId generation action).Always (RebindsBy op) :=
  .bind always_locate fun _ => .ofExcept

/-- No call touches a binding. -/
theorem always_call {ids : Drawn} {c : Call} : (Program.call ids c).Always (RebindsBy op) := by
  cases c with
  | openSession => exact always_run always_openSession
  | heartbeatSession => exact always_run always_updateOwn
  | recordNotices => exact always_run (.bind always_refuse fun _ => always_updateOwn)
  | resumeSession => exact always_run always_resumeSession
  | closeSession => exact always_run always_closeSession
  | setIntent => exact always_run always_setIntent
  | clearIntent => exact always_clearIntent
  | acquireClaim | acquireClaims => exact always_run always_acquire
  | renewClaim => exact always_run (.bind always_requireClaimant fun _ => always_store)
  | releaseClaims => exact .bind .ofExcept fun _ => always_run always_removeClaims
  | releaseClaim | forceReleaseClaim => exact always_run always_removeClaims
  | sendMessage | finishSession =>
      exact always_run (.bind always_requireSender fun _ =>
        .bind always_ensureMaterialised fun _ => always_store)
  | readInbox | acknowledgeMessage | replyToMessage =>
      exact always_run (.bind always_requireReader fun _ => always_store)
  | recordOfferSucceeded => exact always_run always_plain
  | recordOfferFailed =>
      rw [Program.call, recordOfferFailed]
      exact always_plain

/-! ## Operations on bindings -/

theorem always_publishDeliveryBinding {binding : DeliveryBinding}
    (hop : op = .publishDeliveryBinding binding) :
    (publishDeliveryBinding binding).Always (RebindsBy op) := by
  refine .bind always_locate fun _ => .bind .ofExcept fun _ => .bind .ofExcept fun _ => ?_
  refine .bind (always_bind fun m s b hok => ?_) fun _ => .bind always_locate fun _ => .ofExcept
  simp only [bind_eq_ok, pure_eq_ok] at hok
  obtain ⟨_, hcurrent, rfl⟩ := hok
  obtain ⟨c, hc, hgeneration, hopen⟩ := requireCurrent_eq_ok hcurrent
  exact .publish hop hc hopen hgeneration

theorem always_clearDeliveryBinding {sessionId generation : Id} {ref : Option String}
    (hop : op.carries = some (sessionId, generation))
    (hnot : ∀ leaseUntil, op ≠ .refreshDeliveryBinding sessionId generation leaseUntil) :
    (clearDeliveryBinding sessionId generation ref).Always (RebindsBy op) := by
  refine .bind (.look fun _ => rebinds_idle) fun seen => ?_
  cases seen with
  | none => trivial
  | some seen =>
      dsimp only
      split
      · trivial
      · refine always_bind fun m s b hok => ?_
        split at hok
        next =>
          cases hok
          exact .keep
        next current hcurrent =>
          simp only [bind_eq_ok, refuse_eq_ok, not_not] at hok
          obtain ⟨_, hgeneration, hok⟩ := hok
          split at hok
          next =>
            cases hok
            exact .keep
          next hlive =>
            cases hok
            rw [not_or, not_not] at hlive
            exact .retire hop hnot hcurrent hgeneration hlive.2

theorem always_refreshDeliveryBinding {sessionId generation : Id} {leaseUntil : Timestamp}
    (hop : op = .refreshDeliveryBinding sessionId generation leaseUntil) :
    (refreshDeliveryBinding sessionId generation leaseUntil).Always (RebindsBy op) := by
  refine .bind always_locate fun _ => .bind .ofExcept fun _ => always_bind fun m s b hok => ?_
  split at hok
  next =>
    cases hok
    exact .keep
  next current hcurrent =>
    simp only [bind_eq_ok, refuse_eq_ok, not_not] at hok
    obtain ⟨_, hgeneration, hok⟩ := hok
    split at hok
    next =>
      cases hok
      exact .keep
    next hlive =>
      cases hok
      exact .refresh hop hcurrent hgeneration (not_not.mp hlive)

end Program

/-- Every step of an operation is one that the operation may take. -/
theorem always_process {op : ServiceCall} : op.process.Always (RebindsBy op) := by
  cases op with
  | call => exact Program.always_call
  | closeSession =>
      exact .bind Program.always_closeSession fun _ =>
        Program.always_clearDeliveryBinding rfl fun _ heq => by cases heq
  | publishDeliveryBinding => exact Program.always_publishDeliveryBinding rfl
  | clearDeliveryBinding =>
      exact Program.always_clearDeliveryBinding rfl fun _ heq => by cases heq
  | refreshDeliveryBinding => exact Program.always_refreshDeliveryBinding rfl

/-! ## The newest generation -/

/-- The record with which a session was last opened. -/
def lastOpened (i : Id) : List Deed → Option Session
  | [] => none
  | .opened r :: deeds => if r.sessionId = i then some r else lastOpened i deeds
  | .updated _ :: deeds | .closed _ :: deeds | .closedAlone _ :: deeds
  | .intended _ _ :: deeds | .cleared _ :: deeds => lastOpened i deeds

/-- The generation it was opened under, the newest one. -/
def newestGeneration (i : Id) (deeds : List Deed) : Option Id :=
  (lastOpened i deeds).map Session.generation

/-- An open session is of its newest generation. -/
def Chronicled (s : Shared) : Prop :=
  ∀ i c, told i s.history = some c → newestGeneration i s.history = some c.generation

variable {s s' : Shared} {tag : Tag} {op : ServiceCall}

/-- A durable record of an open session is the told one. -/
theorem Held.told_of_durable {i : Id} {c : Session} (hs : Held s)
    (hget : s.workspace.sessions.get? i = some c) (hopen : c.state = .opened) :
    told i s.history = some c := by
  by_cases hmat : Materialised s.workspace
  · rw [(hs.filed hmat).told, hget, filter_open hopen]
  · exact (hs.lone hmat).bare.absurd hget

/-- The session that is located is open exactly as it is told. -/
theorem Held.told_of_located {i : Id} {c : Session} (hs : Held s) (hhome : AtHome s.workspace)
    (hlocated : locateSession s.workspace i none = some c) (hopen : c.state = .opened) :
    told i s.history = some c := by
  cases Program.reads_locateSession hhome hlocated with
  | durable hget => exact hs.told_of_durable hget hopen
  | lone hlone hget => rw [← (hs.lone hlone).told, hget]
  | copy hnone hget =>
      by_cases hmat : Materialised s.workspace
      · -- A copy that is left stands behind a durable record.
        have hpresent : s.workspace.ephemeral.sessions.get? i ≠ none := by
          rw [hget]
          exact Option.some_ne_none c
        exact absurd hnone ((hs.filed hmat).copies (.session i) (mem_copies.mpr hpresent))
      · rw [← (hs.lone hmat).told, hget]

/-- The holder of a session writes it again under its generation. -/
theorem Chronicled.updated {w : Workspace} {b : Keyed DeliveryBinding.sessionId} {h : List Deed}
    {c r : Session} {w' : Workspace} (hs : Chronicled ⟨w, b, h⟩)
    (htold : told c.sessionId h = some c) (hsame : SameLife c r) :
    Chronicled ⟨w', b, .updated r :: h⟩ := by
  intro i c' hc'
  have hnewest : newestGeneration i (.updated r :: h) = newestGeneration i h := rfl
  dsimp only at hc' ⊢
  rw [hnewest]
  rw [told] at hc'
  split at hc'
  next heq =>
    cases hc'
    rw [hsame.generation, ← heq, hsame.sessionId]
    exact hs _ c htold
  next => exact hs i c' hc'

theorem Chronicled.opened {w : Workspace} {b : Keyed DeliveryBinding.sessionId} {h : List Deed}
    {r : Session} {w' : Workspace} (hs : Chronicled ⟨w, b, h⟩) :
    Chronicled ⟨w', b, .opened r :: h⟩ := by
  intro i c hc
  dsimp only at hc ⊢
  rw [told] at hc
  rw [newestGeneration, lastOpened]
  split at hc
  next heq =>
    cases hc
    rw [if_pos heq, Option.map_some]
  next hne =>
    rw [if_neg hne]
    exact hs i c hc

/-- A deed that only ends what is told. -/
theorem Chronicled.of {w w' : Workspace} {b b' : Keyed DeliveryBinding.sessionId}
    {h h' : List Deed} (hs : Chronicled ⟨w, b, h⟩)
    (htold : ∀ i c, told i h' = some c → told i h = some c)
    (hnewest : ∀ i, lastOpened i h' = lastOpened i h) : Chronicled ⟨w', b', h'⟩ := by
  intro i c hc
  rw [newestGeneration, hnewest]
  exact hs i c (htold i c hc)

omit [LinearOrder ReceiptId] in
theorem told_closed {i : Id} {r c : Session} {h : List Deed}
    (hc : (if r.sessionId = i then none else told i h) = some c) : told i h = some c := by
  split at hc
  · cases hc
  · exact hc

theorem Act.chronicled (hact : Act False tag s s') (hheld : Held s) (hs : Chronicled s) :
    Chronicled s' := by
  cases hact with
  | idle | aside | prepare | cleanup | retire | intendAlone | intend | clearAlone | clear =>
      exact hs.of (fun _ _ hc => hc) fun _ => rfl
  | openAlone | openDurable => exact hs.opened
  | updateAlone hlone hget _ hsame =>
      refine hs.updated ?_ hsame
      exact ((hheld.lone hlone).told _).symm.trans hget
  | updateDurable hget hopen hsame => exact hs.updated (hheld.told_of_durable hget hopen) hsame
  | closeAlone | close | finish => exact hs.of (fun _ _ hc => told_closed hc) fun _ => rfl
  | @materialise holder w w' b h now reason opening =>
      cases opening with
      | none => exact hs.of (fun _ _ hc => hc) fun _ => rfl
      | some o => exact hs.opened
  | prune h => exact h.elim

/-! ## Fencing -/

/-- What a step of an operation does to bindings. -/
structure Fenced (op : ServiceCall) (s s' : Shared) : Prop where
  /-- An operation touches no binding but that of the session it carries. -/
  others : ∀ i, (∀ generation, op.carries ≠ some (i, generation)) →
    s'.bindings.get? i = s.bindings.get? i
  /-- With a generation that is not the newest it touches no binding of another. -/
  older : ∀ i generation, op.carries = some (i, generation) →
    newestGeneration i s.history ≠ some generation →
    ∀ binding, s.bindings.get? i = some binding → binding.generation ≠ generation →
    s'.bindings.get? i = some binding
  /-- Refreshing moves the lease and nothing else. -/
  refreshed : ∀ i generation leaseUntil, op = .refreshDeliveryBinding i generation leaseUntil →
    s'.bindings.get? i = s.bindings.get? i ∨
      ∃ binding, s.bindings.get? i = some binding ∧
        s'.bindings.get? i = some { binding with leaseUntil }

omit [LinearOrder ReceiptId] in
/-- A binding that is there was filed under its session. -/
theorem get?_put_binding {t : Keyed DeliveryBinding.sessionId} {current next : DeliveryBinding}
    {i j : Id} (hget : t.get? i = some current) (hkey : next.sessionId = current.sessionId) :
    (t.put next).get? j = if i = j then some next else t.get? j := by
  rw [Keyed.get?_put, hkey, Keyed.key_of_get? hget]
  by_cases hij : i = j <;> simp [hij]

theorem Rebinds.fenced (h : Rebinds op s s'.bindings) (hheld : Held s)
    (hhome : AtHome s.workspace) (hchronicled : Chronicled s) : Fenced op s s' := by
  generalize hbindings : s'.bindings = bindings at h
  cases h with
  | keep =>
      refine ⟨fun i _ => ?_, fun i g _ _ b hb _ => ?_, fun i g l _ => Or.inl ?_⟩
      · rw [hbindings]
      · rw [hbindings, hb]
      · rw [hbindings]
  | @publish binding current hop hlocated hopen hgeneration =>
      have hnewest := hchronicled _ _ (hheld.told_of_located hhome hlocated hopen)
      subst hop
      refine ⟨fun i hi => ?_, fun i g hcarries hold => ?_, fun i g l hop => ?_⟩
      · rw [hbindings]
        refine Keyed.get?_put_ne fun heq => hi binding.generation ?_
        rw [← heq]
        rfl
      · -- The generation that publishes is the open one, so it is the newest.
        cases hcarries
        exact absurd (hgeneration ▸ hnewest) hold
      · cases hop
  | @retire sessionId generation current now hcarries hnot hget hgeneration =>
      have hput := fun j => get?_put_binding (j := j) hget
        (show ({ current with leaseUntil := now, retiredAt := some now } : DeliveryBinding).sessionId
          = current.sessionId from rfl)
      refine ⟨fun i hi => ?_, fun i g hi _ b hb hne => ?_, fun i g l hop => ?_⟩
      · rw [hbindings, hput, if_neg]
        intro heq
        exact hi generation (heq ▸ hcarries)
      · rw [hcarries] at hi
        cases hi
        rw [hget] at hb
        cases hb
        exact absurd hgeneration hne
      · subst hop
        cases hcarries
        exact absurd rfl (hnot l)
  | @refresh sessionId generation current leaseUntil hop hget hgeneration =>
      have hput := fun j => get?_put_binding (j := j) hget
        (show ({ current with leaseUntil } : DeliveryBinding).sessionId = current.sessionId from rfl)
      subst hop
      refine ⟨fun i hi => ?_, fun i g hi _ b hb hne => ?_, fun i g l hop => ?_⟩
      · rw [hbindings, hput, if_neg]
        intro heq
        exact hi generation (heq ▸ rfl)
      · cases hi
        rw [hget] at hb
        cases hb
        exact absurd hgeneration hne
      · cases hop
        exact Or.inr ⟨current, hget, by rw [hbindings, hput, if_pos rfl]⟩

/-! ## Runs -/

/-- The processes of operations, started in any order, each taking its next step
at any moment or lost. -/
abbrev Serves (w : System Shared Outside (ServiceCall × Tag) AccError)
    (label : System.Label ServiceCall Outside) (w' : System Shared Outside (ServiceCall × Tag) AccError) :
    Prop :=
  System.Steps ServiceCall.tagged (fun _ _ _ => True) w label w'

/-- What every step of an operation keeps to. -/
def Serving (tag : ServiceCall × Tag) (s s' : Shared) : Prop :=
  Guarantee False tag.2 s s' ∧ Rebinds tag.1 s s'.bindings

theorem keeps_operation (hs : AtHome s.workspace) :
    op.process.Keeps (fun _ _ _ => True) (Guarantee False) s fun _ _ => True := by
  cases op with
  | call => exact Program.keeps_call hs
  | closeSession =>
      exact .bind ((Program.keeps_closeSession hs).mono fun _ _ _ =>
        Program.keeps_clearDeliveryBinding)
  | publishDeliveryBinding => exact Program.keeps_publishDeliveryBinding hs
  | clearDeliveryBinding => exact Program.keeps_clearDeliveryBinding
  | refreshDeliveryBinding => exact Program.keeps_refreshDeliveryBinding hs

theorem sound_tagged : System.Sound ServiceCall.tagged (fun _ _ _ => True) Serving
    fun s => AtHome s.workspace := by
  intro op s hs
  exact Keeps.retag (p := Prod.snd) (fun _ => rfl) (keeps_operation hs) always_process

structure Served (s : Shared) : Prop where
  home : AtHome s.workspace
  held : Held s
  chronicled : Chronicled s

theorem Served.step {t : ServiceCall × Tag} (h : Serving t s s') (hs : Served s) : Served s' :=
  ⟨h.1.act.atHome hs.home, h.1.act.held not_false hs.held, h.1.act.chronicled hs.held hs.chronicled⟩

theorem served_initial (workspaceId : Id) : Served (.initial workspaceId) := by
  refine ⟨⟨fun _ _ hc => ?_, fun _ _ hc => ?_⟩, held_initial workspaceId, fun _ _ hc => ?_⟩
  · cases hc
  · cases hc
  · cases hc

theorem mem_listDeliveryBindings {participantId : Id} {now : Timestamp} {includeExpired : Bool}
    {binding : DeliveryBinding}
    (h : binding ∈ listDeliveryBindings s participantId now includeExpired) :
    binding ∈ s.bindings ∧ binding.retiredAt = none ∧ ∃ record,
      bindingOwner s binding = some record ∧ record.participantId = participantId := by
  simp only [listDeliveryBindings, currentBindings, List.mem_map, List.mem_filter,
    List.mem_insertionSort, List.mem_filterMap, Keyed.mem_list] at h
  obtain ⟨item, ⟨⟨b, hb, hitem⟩, hfits⟩, rfl⟩ := h
  split at hitem
  next => cases hitem
  next record howner =>
    split at hitem
    next => cases hitem
    next hlive =>
      cases hitem
      simp only [Bool.and_eq_true, decide_eq_true_eq] at hfits
      exact ⟨hb, not_not.mp hlive, record, howner, hfits.1⟩

/-- In every run a listed binding is that of the open session of its newest
generation and is not retired, and every step is fenced. -/
theorem deliveryBindings_fenced {workspaceId : Id}
    {visited : List (System Shared Outside (ServiceCall × Tag) AccError)}
    {w : System Shared Outside (ServiceCall × Tag) AccError}
    (hrun : Trace Serves (System.idle (.initial workspaceId)) visited w) :
    (∀ participantId now includeExpired,
      ∀ binding ∈ listDeliveryBindings w.shared participantId now includeExpired,
        binding.retiredAt = none ∧
        newestGeneration binding.sessionId w.shared.history = some binding.generation ∧
        ∃ record, told binding.sessionId w.shared.history = some record ∧
          record.state = .opened ∧ record.generation = binding.generation ∧
          record.participantId = participantId) ∧
    ∀ label w', Serves w label w' →
      (w.tag label = none → w'.shared = w.shared) ∧
      ∀ op tag, w.tag label = some (op, tag) → Fenced op w.shared w'.shared := by
  have hI : ∀ (t : ServiceCall × Tag) u u', True → Serving t u u' → AtHome u.workspace →
      AtHome u'.workspace := fun _ _ _ _ h hu => h.1.act.atHome hu
  obtain ⟨hkept, -, -⟩ := System.kept sound_tagged hI (served_initial workspaceId).home hrun
  have hserved : Served w.shared := System.invariant sound_tagged hI
    (served_initial workspaceId).home (fun _ _ _ _ h hu => hu.step h) (served_initial workspaceId)
    hrun
  refine ⟨fun participantId now includeExpired binding hmem => ?_,
    fun label w' hstep => ⟨fun htag => ?_, fun op tag htag => ?_⟩⟩
  · obtain ⟨-, hlive, record, howner, hparticipant⟩ := mem_listDeliveryBindings hmem
    obtain ⟨hlocated, hfits⟩ := Option.filter_eq_some_iff.mp howner
    rw [decide_eq_true_eq] at hfits
    have htold := hserved.held.told_of_located hserved.home hlocated hfits.1
    refine ⟨hlive, ?_, record, htold, hfits.1, hfits.2, hparticipant⟩
    rw [hserved.chronicled _ _ htold, hfits.2]
  · exact System.shared_of_tag_none hstep.1 htag
  · exact (hkept.guarantee hstep htag).2.fenced hserved.held hserved.home hserved.chronicled

end

/-! ## A small run -/

/-- The endpoint of the first session. -/
def sampleBinding : DeliveryBinding where
  sessionId := ⟨"session_a", session_a_portable⟩
  generation := ⟨"generation_a", generation_a_portable⟩
  adapterId := ⟨"adapter_1", by decide⟩
  clientVersion := "1.2.3"
  availableModes := [.livePush]
  livePolicy := .actionable
  opaqueEndpointRef := "endpoint"
  leaseUntil := 60000
  retiredAt := none

/-- A session opens, its endpoint is published, and an older generation tries to
retire it. -/
def sampleServing : List (System.Label ServiceCall Outside) :=
  let m : Outside := ⟨0, fun _ => true⟩
  .start 0 (.call (fun _ _ => ⟨"generation_a", generation_a_portable⟩) (.openSession
      (sampleOpen ⟨"session_a", session_a_portable⟩ ⟨"ann", ann_portable⟩ "claude")))
    :: List.replicate 10 (.act 0 m)
    ++ .start 1 (.publishDeliveryBinding sampleBinding) :: List.replicate 5 (.act 1 m)
    ++ .start 2 (.clearDeliveryBinding ⟨"session_a", session_a_portable⟩
      ⟨"generation_0", by decide⟩ none)
    :: List.replicate 2 (.act 2 m)

def sampleServed : Option (System Shared Outside (ServiceCall × Tag) AccError) :=
  System.perform ServiceCall.tagged (System.idle (.initial ⟨"workspace_1", home_portable⟩)) sampleServing

/-- The older generation retires nothing. -/
theorem deliveryBindings_fenced_stale : ∃ w, sampleServed = some w ∧
    listDeliveryBindings w.shared ⟨"ann", ann_portable⟩ 5 false = [sampleBinding] ∧
    (∀ binding ∈ listDeliveryBindings w.shared ⟨"ann", ann_portable⟩ 5 false,
      binding.retiredAt = none ∧
      newestGeneration binding.sessionId w.shared.history = some binding.generation) ∧
    ∀ label w', Serves w label w' → ∀ op tag, w.tag label = some (op, tag) →
      Fenced op w.shared w'.shared := by
  have hlist : (sampleServed.map fun w => listDeliveryBindings w.shared ⟨"ann", ann_portable⟩ 5 false) =
      some [sampleBinding] := by decide +kernel
  obtain ⟨w, hw, hlist⟩ := Option.map_eq_some_iff.mp hlist
  obtain ⟨visited, hrun⟩ := System.perform_trace hw
  obtain ⟨hlisted, hsteps⟩ := deliveryBindings_fenced hrun
  refine ⟨w, hw, hlist, fun binding hbinding => ?_, fun label w' hstep => (hsteps label w' hstep).2⟩
  obtain ⟨hlive, hnewest, -⟩ := hlisted _ _ _ binding hbinding
  exact ⟨hlive, hnewest⟩

end Acc.Core
