import AgentsCanCommunicate.Library.Actors

/-!
# Update maintenance

A maintenance job stops a client service, activates the target of the job while
nothing holds the old generation, and starts the service again.  A request files
the job and launches a worker for it, or launches one again when the recorded
worker is dead.  A worker writes its checkpoints into the job record, one before
the vendor command that stops the service, so that the worker after a crash knows
that the service may have been stopped.

Workers and requests are the actors.  Three locks are used: one for the life of a
worker, one for admission, which a request holds from its last reading to its last
writing, and the one of the updaters, of which nothing matters here but that it
may be held by another.
-/

namespace Acc.ManagedRuntime.Maintenance

open Library (Scene Role Deed)

/-! ## The records -/

inductive Status where
  | waiting
  | stopping
  | refreshing
  | restarting
  | recovery
  | completed
  | failed
  | cancelled
deriving DecidableEq

/-- It is one of `MAINTENANCE_ACTIVE`. -/
def Status.active : Status → Bool
  | waiting | stopping | refreshing | restarting | recovery => true
  | completed | failed | cancelled => false

/-- The control record; `ready` is its phase. -/
structure Control (ρ : Type) where
  active : ρ
  pending : Option ρ
  home : String
  targets : List String
  auto : Bool
  pin : Option String
  ready : Bool
deriving DecidableEq

/-- What `maintenanceRecipe` reads of a control record. -/
structure Recipe (ρ : Type) where
  active : ρ
  pending : Option ρ
  home : String
  targets : List String
  auto : Bool
  pin : Option String
deriving DecidableEq

def maintenanceRecipe {ρ : Type} (c : Control ρ) : Recipe ρ :=
  ⟨c.active, c.pending, c.home, c.targets, c.auto, c.pin⟩

inductive Waiting where
  | callerExit
  | updateWorker
  | otherProcesses (processes : Nat)
  | serviceBusy (busyThreads queuedRequests : Option Nat)
deriving DecidableEq

/-- The maintenance record, of its one service the adapter. -/
structure Job (ι ρ : Type) where
  id : ι
  status : Status
  target : ρ
  recipe : Recipe ρ
  adapterId : String
  deadline : Nat
  callerPid : Nat
  workerPid : Option Nat
  attempted : List String
  reasonCode : Option String
  waiting : Option Waiting
deriving DecidableEq

/-- What happened: a job was filed, `stopForMaintenance` was called for it or answered that
no stop was attempted, `startAfterMaintenance` succeeded, a generation became active. -/
inductive Event (ι ρ : Type) where
  | filed (id : ι)
  | stop (id : ι)
  | declined (id : ι)
  | started (id : ι)
  | active (generation : ρ)
deriving DecidableEq

/-- What the processes share, with the holders of the locks and the newest event first. -/
structure Shared (κ ι ρ : Type) where
  record : Option (Job ι ρ)
  control : Control ρ
  workerLock : Option κ
  admission : Option κ
  log : List (Event ι ρ)

/-! ## The phases -/

/-- What an activation gave, and the reason code it is restored with. -/
structure Result where
  activated : Bool
  reasonCode : Option String
  reason : Option String
deriving DecidableEq

/-- Where a worker stands that works on a job.  `pending` says that it activates a pending
generation, and `guarded` that the activation runs `beforeActivation`. -/
inductive Stage (ρ : Type) where
  | recovering
  | rechecked
  | looping
  | attempting (pending : Bool)
  | activating (before : Recipe ρ) (guarded : Bool)
  | fenced (pending : Bool)
  | stopping (pending : Bool)
  | stopped (pending : Bool)
  | declining (reasonCode : Option String) (busyThreads queuedRequests : Option Nat)
  | refreshing (pending guarded : Bool)
  | applying (guarded : Bool)
  | deferring (waiting : Waiting)
  | refusing (reasonCode : String)
  | cancelling (reasonCode : String)
  | restoring (result : Result)
  | starting (result : Result)
  | restarted (result : Result)

inductive Phase (ι ρ : Type) where
  /-- A worker that has no lock yet. -/
  | arriving
  /-- A worker with the lock of the workers. -/
  | entered
  | working (job : Job ι ρ) (stage : Stage ρ)
  | asking
  /-- A request that found an active job. -/
  | joining
  /-- A request that was consented to. -/
  | approved (adapterId : String)
  | admitted (adapterId : String)
  | filing (adapterId : String)
  | launching (job : Job ι ρ)
  | spawning (job : Job ι ρ)
  | publishing (job : Job ι ρ) (workerPid : Nat)
  | done

/-- What a process is started with. -/
inductive Own (ι ρ : Type) where
  | worker (pid : Nat) (jobId : Option ι)
  | request (pid : Nat) (control : Control ρ)
  /-- Another command, with the control record it writes. -/
  | command (pid : Nat) (control : Control ρ)

def Own.pid {ι ρ : Type} : Own ι ρ → Nat
  | worker pid _ | request pid _ | command pid _ => pid

/-- The answers of `stopForMaintenance`. -/
inductive StopAnswer where
  | ok
  /-- It was not attempted. -/
  | declined (reasonCode : Option String) (busyThreads queuedRequests : Option Nat)
  | failed (reasonCode : Option String)
  | throws (reasonCode : Option String)

inductive Input (ι : Type) where
  | go
  | takeWorkerLock
  | takeAdmission
  /-- A lock was not had in time. -/
  | lockHeld
  | throws (reasonCode : Option String)
  | wake (now : Nat) (confirmedDead : Nat → Bool)
  | report (confirmedDead : Nat → Bool)
  /-- Other processes hold the old generation. -/
  | blocked (processes : Nat)
  /-- The answers of `inspectMaintenance`. -/
  | busy (busyThreads queuedRequests : Option Nat)
  | unready
  | ready
  | stopped (answer : StopAnswer)
  /-- The integrations were not all refreshed. -/
  | incomplete
  /-- The answers of `startAfterMaintenance`. -/
  | started
  | failed (reasonCode : Option String)
  | consent (adapterId : String)
  | declines
  | file (id : ι) (deadline : Nat)
  | spawned (pid : Nat)
  | notSpawned

/-! ## A worker -/

section Model

variable {κ ι ρ : Type}

namespace Shared

def save (s : Shared κ ι ρ) (job : Job ι ρ) : Shared κ ι ρ := { s with record := some job }

/-- The last write of a worker. -/
def finish (s : Shared κ ι ρ) (job : Job ι ρ) : Shared κ ι ρ :=
  { s with
    record := some job
    workerLock := none }

def release (s : Shared κ ι ρ) : Shared κ ι ρ := { s with admission := none }

def note (s : Shared κ ι ρ) (event : Event ι ρ) : Shared κ ι ρ := { s with log := event :: s.log }

end Shared

/-- What is thrown inside the locks. -/
inductive Thrown where
  | deferred (waiting : Waiting)
  | lockHeld
  | refused (reasonCode : Option String)

def Thrown.reasonCode : Thrown → Option String
  | refused reasonCode => reasonCode
  | _ => none

/-- The `catch` of the loop. -/
def caught (job : Job ι ρ) (error : Thrown) : Stage ρ :=
  if job.attempted = [] then
    match error with
    | .deferred waiting => .deferring waiting
    | .lockHeld => .deferring .updateWorker
    | .refused reasonCode => .refusing (reasonCode.getD "maintenance_failed")
  else .restoring ⟨false, some (error.reasonCode.getD "maintenance_failed"), none⟩

/-- What a recovery goes on with when nothing was activated and nothing says why. -/
def interrupted (activated : Bool) : Stage ρ :=
  .restoring ⟨activated, some "maintenance_interrupted", none⟩

/-- How a worker goes on after an error of the activation. -/
def thrown (guarded : Bool) (job : Job ι ρ) (error : Thrown) : Stage ρ :=
  if guarded then caught job error else interrupted false

/-- How a worker goes on after a result of the activation. -/
def returned (guarded : Bool) (job : Job ι ρ) (activated : Bool) (reason : Option String) :
    Stage ρ :=
  if guarded then
    if job.attempted = [] then .cancelling (reason.getD "update_state_changed")
    else .restoring ⟨activated, none, reason⟩
  else .restoring ⟨activated, some (reason.getD "maintenance_interrupted"), reason⟩

variable [DecidableEq ρ]

/-- The control record says that the target of the job is active. -/
def Control.activated (c : Control ρ) (target : ρ) : Bool :=
  c.pending.isNone && decide (c.active = target) && c.ready

/-- The part of `beforeActivation` up to the checkpoint. -/
def beforeActivation (s : Shared κ ι ρ) (job : Job ι ρ) (pending : Bool) (input : Input ι) :
    Option (Shared κ ι ρ × Phase ι ρ) :=
  if maintenanceRecipe s.control ≠ job.recipe then
    some (s.release, .working job (caught job (.refused (some "update_state_changed"))))
  else
    match input with
    | .blocked processes =>
        some (s.release, .working job (caught job (.deferred (.otherProcesses processes))))
    | .busy busyThreads queuedRequests =>
        some (s.release,
          .working job (caught job (.deferred (.serviceBusy busyThreads queuedRequests))))
    | .unready =>
        some (s.release, .working job (caught job (.refused (some "service_readiness_changed"))))
    | .throws reasonCode => some (s.release, .working job (caught job (.refused reasonCode)))
    | .ready =>
        let job := { job with status := .stopping, attempted := [job.adapterId], waiting := none }
        some (s.save job, .working job (.stopping pending))
    | _ => none

/-- How `beforeActivation` goes on with the answer of `stopForMaintenance`. -/
def stopAnswered (s : Shared κ ι ρ) (job : Job ι ρ) (pending : Bool) :
    StopAnswer → Shared κ ι ρ × Phase ι ρ
  | .ok =>
      let job := { job with status := .refreshing }
      (s.save job, .working job (.refreshing pending true))
  | .declined reasonCode busyThreads queuedRequests =>
      (s.note (.declined job.id), .working job (.declining reasonCode busyThreads queuedRequests))
  | .failed reasonCode =>
      (s.release,
        .working job (caught job (.refused (some (reasonCode.getD "service_stop_failed")))))
  | .throws reasonCode => (s.release, .working job (caught job (.refused reasonCode)))

/-- `runMaintenance` of a worker with its locks on a job. -/
def work (k : κ) (s : Shared κ ι ρ) (job : Job ι ρ) :
    Stage ρ → Input ι → Option (Shared κ ι ρ × Phase ι ρ)
  -- a crash after the checkpoint can mean either side of the vendor command
  | .recovering, .go =>
      some (s, .working job
        (if s.control.activated job.target then interrupted true
        else if maintenanceRecipe s.control = job.recipe then .rechecked
        else interrupted false))
  | .recovering, .throws _ => some (s, .working job (interrupted false))
  | .rechecked, .go =>
      some (s, .working job
        (if s.control.pending = none then returned false job false (some "no_pending_update")
        else .activating (maintenanceRecipe s.control) false))
  | .rechecked, .lockHeld | .rechecked, .throws _ => some (s, .working job (interrupted false))
  | .looping, .wake now confirmedDead =>
      some (s, .working job
        (if maintenanceRecipe s.control ≠ job.recipe then .cancelling "update_state_changed"
        else if job.deadline < now then .cancelling "idle_wait_expired"
        else if !confirmedDead job.callerPid then .deferring .callerExit
        else .attempting s.control.pending.isSome))
  | .attempting true, .go =>
      some (s, .working job
        (if s.control.pending = none then returned true job false (some "no_pending_update")
        else .activating (maintenanceRecipe s.control) true))
  | .attempting false, .takeAdmission =>
      some ({ s with admission := some k }, .working job (.fenced false))
  | .attempting _, .lockHeld => some (s, .working job (caught job .lockHeld))
  | .attempting _, .throws reasonCode => some (s, .working job (caught job (.refused reasonCode)))
  | .activating before guarded, .takeAdmission =>
      if maintenanceRecipe s.control ≠ before then
        some (s, .working job (returned guarded job false (some "state_changed")))
      else
        some ({ s with admission := some k },
          .working job (if guarded then .fenced true else .refreshing true false))
  | .activating _ guarded, .lockHeld => some (s, .working job (thrown guarded job .lockHeld))
  | .activating _ guarded, .throws reasonCode =>
      some (s, .working job (thrown guarded job (.refused reasonCode)))
  | .fenced pending, input => beforeActivation s job pending input
  | .stopping pending, .go => some (s.note (.stop job.id), .working job (.stopped pending))
  | .stopped pending, .stopped answer => some (stopAnswered s job pending answer)
  | .declining reasonCode busyThreads queuedRequests, .go =>
      let job := { job with status := .waiting, attempted := [] }
      let error := if reasonCode = some "service_busy" then
          Thrown.deferred (.serviceBusy busyThreads queuedRequests)
        else .refused (some (reasonCode.getD "service_stop_failed"))
      some ((s.save job).release, .working job (caught job error))
  | .refreshing false guarded, .go =>
      some (s.release, .working job (returned guarded job true none))
  | .refreshing true guarded, .go =>
      some ({ s with control := { s.control with ready := false } },
        .working job (.applying guarded))
  | .refreshing true guarded, .blocked _ =>
      some (s.release, .working job (returned guarded job false (some "processes_active")))
  | .refreshing _ guarded, .throws reasonCode =>
      some (s.release, .working job (thrown guarded job (.refused reasonCode)))
  | .applying guarded, .go =>
      s.control.pending.map fun generation =>
        (({ s with control := { s.control with
              active := generation
              pending := none
              ready := true } }.note (.active generation)).release,
          .working job (returned guarded job true none))
  | .applying guarded, .incomplete =>
      some (s.release, .working job (returned guarded job false (some "refresh_failed")))
  | .applying guarded, .throws reasonCode =>
      some (s.release, .working job (thrown guarded job (.refused reasonCode)))
  | .deferring waiting, .go =>
      -- it saves what it waits for when that has changed
      let job := { job with waiting := some waiting }
      some (s.save job, .working job .looping)
  | .refusing reasonCode, .go =>
      some (s.finish { job with status := .failed, reasonCode := some reasonCode }, .done)
  | .cancelling reasonCode, .go =>
      some (s.finish { job with status := .cancelled, reasonCode := some reasonCode }, .done)
  | .restoring result, .go =>
      let job := { job with status := .restarting, reasonCode := result.reasonCode }
      some (s.save job, .working job (.starting result))
  | .starting result, .started => some (s.note (.started job.id), .working job (.restarted result))
  | .starting _, .failed reasonCode =>
      some (s.finish { job with
        status := .recovery
        reasonCode := some (reasonCode.getD "service_start_failed") }, .done)
  | .starting _, .throws _ =>
      some (s.finish { job with
        status := .recovery
        reasonCode := some "service_start_failed" }, .done)
  | .restarted result, .go =>
      some (s.finish { job with
        status := if result.activated then .completed else .failed
        reasonCode := if result.activated then none
          else some ((result.reasonCode.or result.reason).getD "update_incomplete") }, .done)
  | _, _ => none

/-! ## Requests -/

/-- The record of a request that was consented to. -/
def newJob (control : Control ρ) (adapterId : String) (pid : Nat) (id : ι) (deadline : Nat) :
    Job ι ρ where
  id
  status := .waiting
  target := control.pending.getD control.active
  recipe := maintenanceRecipe control
  adapterId
  deadline
  callerPid := pid
  workerPid := none
  attempted := []
  reasonCode := none
  waiting := none

/-- The end of a request, which lets go of the admission. -/
def answer (s : Shared κ ι ρ) : Option (Shared κ ι ρ × Phase ι ρ) := some (s.release, .done)

/-- `requestMaintenance` with `launch`. -/
def request (k : κ) (pid : Nat) (control : Control ρ) (s : Shared κ ι ρ) :
    Phase ι ρ → Input ι → Option (Shared κ ι ρ × Phase ι ρ)
  | .asking, .consent adapterId =>
      some (s, if (s.record.map (·.status.active)).getD false then .joining
        else .approved adapterId)
  | .asking, .declines =>
      some (s, if (s.record.map (·.status.active)).getD false then .joining else .done)
  | .joining, .takeAdmission =>
      match s.record with
      | some latest =>
          if latest.status.active then
            some ({ s with admission := some k }, .launching latest)
          else some (s, .done)
      | none => some (s, .done)
  | .approved adapterId, .takeAdmission =>
      some ({ s with admission := some k }, .admitted adapterId)
  | .joining, .lockHeld | .approved _, .lockHeld => some (s, .done)
  | .admitted adapterId, .go =>
      if (s.record.map (·.status.active)).getD false then answer s
      else if maintenanceRecipe s.control ≠ maintenanceRecipe control then answer s
      else some (s, .filing adapterId)
  | .filing adapterId, .file id deadline =>
      let job := newJob s.control adapterId pid id deadline
      some ((s.save job).note (.filed id), .launching job)
  | .launching job, .report confirmedDead =>
      match job.workerPid with
      | some workerPid => if confirmedDead workerPid then some (s, .spawning job) else answer s
      | none => some (s, .spawning job)
  | .spawning job, .spawned workerPid => some (s, .publishing job workerPid)
  | .spawning job, .notSpawned =>
      answer (s.save { job with
        status := if job.attempted = [] then .failed else .recovery
        reasonCode := some "maintenance_worker_start_failed" })
  | .publishing job workerPid, .go => answer (s.save { job with workerPid := some workerPid })
  | _, _ => none

variable [DecidableEq ι]

/-- One step of a process. -/
def next (k : κ) (own : Own ι ρ) (phase : Phase ι ρ) (input : Input ι) (s : Shared κ ι ρ) :
    Option (Shared κ ι ρ × Phase ι ρ) :=
  match own, phase with
  | .worker _ _, .arriving =>
      match input with
      | .takeWorkerLock => some ({ s with workerLock := some k }, .entered)
      | .lockHeld => some (s, .done)
      | _ => none
  | .worker pid jobId, .entered =>
      match input, s.record with
      -- it waits for the admission lock, and reads and writes under it
      | .takeAdmission, some job =>
          if (jobId.map (decide <| · = job.id)).getD true && job.status.active then
            let job := { job with workerPid := some pid }
            some (s.save job,
              .working job (if job.attempted = [] then .looping else .recovering))
          else some ({ s with workerLock := none }, .done)
      | .takeAdmission, none | .lockHeld, _ => some ({ s with workerLock := none }, .done)
      | _, _ => none
  | .worker _ _, .working job stage => work k s job stage input
  | .request pid control, phase => request k pid control s phase input
  | _, _ => none

/-- Any number of workers and requests, and the writes of other commands. -/
def processes : Role κ (Shared κ ι ρ) (Own ι ρ) (Phase ι ρ) (Input ι) where
  start _ own s :=
    match own with
    | .worker _ _ => some (s, .arriving)
    | .request _ _ => some (s, .asking)
    | .command _ control => some ({ s with control }.note (.active control.active), .done)
  next := next

end Model

end Acc.ManagedRuntime.Maintenance
