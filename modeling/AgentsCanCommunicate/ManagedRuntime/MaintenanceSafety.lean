import AgentsCanCommunicate.ManagedRuntime.Maintenance

/-!
# Update maintenance restores the service it stopped

The checkpoint that a stop is attempted is durable before the vendor command.  A job
is therefore *owed* a start from the moment its service may have been stopped, and as
long as it is owed one its record stays active and says so, whoever crashes.

A worker's copy of the job is the record as long as the worker lives.  A request may
write an older copy back, but only of a job whose worker has died, and only one that
agrees with the record on what was attempted.
-/

namespace Acc.ManagedRuntime.Maintenance

open Library (Actor Scene Role Deed Run Where)

/-! ## What is claimed -/

section Log

variable {ι ρ : Type} [DecidableEq ι]

/-- The last call of `stopForMaintenance` for the job has not answered that no stop was
attempted. -/
def stopPending (id : ι) : List (Event ι ρ) → Bool
  | [] => false
  | .stop i :: log => decide (i = id) || stopPending id log
  | .declined i :: log => !decide (i = id) && stopPending id log
  | .filed _ :: log | .started _ :: log | .active _ :: log => stopPending id log

/-- A stop may have been attempted for the job, and no start has succeeded since. -/
def owed (id : ι) : List (Event ι ρ) → Bool
  | [] => false
  | .stop i :: log => decide (i = id) || owed id log
  | .declined i :: log | .started i :: log => !decide (i = id) && owed id log
  | .filed _ :: log | .active _ :: log => owed id log

/-- A stop is called again only if the call before it answered that none was attempted. -/
def StopsOnce : List (Event ι ρ) → Prop
  | [] => True
  | .stop id :: log => stopPending id log = false ∧ StopsOnce log
  | .filed _ :: log | .declined _ :: log | .started _ :: log | .active _ :: log => StopsOnce log

theorem stopPending_of_owed {id : ι} {log : List (Event ι ρ)} (h : owed id log = true) :
    stopPending id log = true := by
  induction log with
  | nil => cases h
  | cons event log ih =>
      cases event with
      | stop i => simpa [stopPending] using (by simpa [owed] using h : i = id ∨ _).imp_right ih
      | declined i =>
          simp only [owed, Bool.and_eq_true] at h
          simp [stopPending, h.1, ih h.2]
      | started i =>
          simp only [owed, Bool.and_eq_true] at h
          exact ih h.2
      | filed i => exact ih h
      | active generation => exact ih h

end Log

section Safety

variable {κ ι ρ : Type} [DecidableEq ι]

abbrev Machine (κ ι ρ : Type) := Scene κ (Shared κ ι ρ) (Own ι ρ) (Phase ι ρ)

/-- No living process has the lock. -/
def Free (s : Machine κ ι ρ) (holder : Option κ) : Prop := ∀ k ∈ holder, ∀ a, ¬s.Runs k a

/-- The locks are exclusive and reports of death truthful, and the id of a new job is new.
Other commands write the control record under the admission lock, though not between what a
recovering worker reads and the activation that reads it again. -/
def Sound (s : Machine κ ι ρ) : Deed κ (Own ι ρ) (Input ι) → Prop
  | .turn _ .takeWorkerLock => Free s s.shared.workerLock
  | .turn _ .takeAdmission => Free s s.shared.admission
  | .turn _ (.report confirmedDead) => ∀ k a, s.Runs k a → confirmedDead a.own.pid = false
  | .turn _ (.file id _) => .filed id ∉ s.shared.log
  | .start _ (.command _ _) => Free s s.shared.admission ∧
      ∀ k a job, s.Runs k a → a.phase ≠ .working job .rechecked
  | _ => True

/-! ## The invariant -/

def Recipe.target {ρ : Type} (recipe : Recipe ρ) : ρ := recipe.pending.getD recipe.active

/-- What holds of the record and the log, whoever runs. -/
structure Consistent (s : Shared κ ι ρ) : Prop where
  active_of_owed : ∀ id, owed id s.log = true →
    ∃ job, s.record = some job ∧ job.id = id ∧ job.status.active = true
  attempted : ∀ job, s.record = some job → job.attempted = [] → stopPending job.id s.log = false
  filed : ∀ id, stopPending id s.log = true → .filed id ∈ s.log
  recorded : ∀ job, s.record = some job → .filed job.id ∈ s.log
  target : ∀ job, s.record = some job → job.target = job.recipe.target
  active : .active s.control.active ∈ s.log
  completed : ∀ job, s.record = some job → job.status = .completed → .active job.target ∈ s.log
  once : StopsOnce s.log

/-- It is the same job with the same worker. -/
structure Agrees (job job' : Job ι ρ) : Prop where
  id : job'.id = job.id
  target : job'.target = job.target
  recipe : job'.recipe = job.recipe
  workerPid : job'.workerPid = job.workerPid

/-- The worker holds the admission lock. -/
def Stage.holds : Stage ρ → Bool
  | fenced _ | stopping _ | stopped _ | declining .. | refreshing .. | applying _ => true
  | _ => false

/-- No stop is attempted as far as the worker knows. -/
def Stage.fresh : Stage ρ → Bool
  | looping | attempting _ | fenced _ | deferring _ | refusing _ | cancelling _ => true
  | activating _ guarded => guarded
  | _ => false

/-- The control record is the one the job was filed for. -/
def Matches (s : Shared κ ι ρ) (job : Job ι ρ) (pending : Bool) : Prop :=
  maintenanceRecipe s.control = job.recipe ∧ pending = job.recipe.pending.isSome

/-- What a worker knows at a stage. -/
def Stage.Knows (s : Shared κ ι ρ) (job : Job ι ρ) : Stage ρ → Prop
  | rechecked => maintenanceRecipe s.control = job.recipe
  | attempting pending | fenced pending => pending = job.recipe.pending.isSome
  | activating before guarded =>
      job.recipe.pending.isSome = true ∧ (guarded = false → before = job.recipe)
  | stopping pending => stopPending job.id s.log = false ∧ Matches s job pending
  | stopped pending | refreshing pending _ => Matches s job pending
  | applying _ => Matches s job true
  | declining .. => stopPending job.id s.log = false
  | restoring result | starting result => result.activated = true → .active job.target ∈ s.log
  | restarted result => owed job.id s.log = false ∧
      (result.activated = true → .active job.target ∈ s.log)
  | recovering | looping | deferring _ | refusing _ | cancelling _ => True

/-- What holds of a worker on a job. -/
structure Works (s : Shared κ ι ρ) (k : κ) (pid : Nat) (job : Job ι ρ) (stage : Stage ρ) :
    Prop where
  lock : s.workerLock = some k
  record : s.record = some job
  active : job.status.active = true
  workerPid : job.workerPid = some pid
  fresh : stage.fresh = true ↔ job.attempted = []
  holds : stage.holds = true → s.admission = some k
  knows : stage.Knows s job

/-- What a request has read is the record, but for what a worker may write meanwhile. -/
def Latest (s : Shared κ ι ρ) (latest : Job ι ρ) : Prop :=
  latest.status.active = true ∧ ∃ job, s.record = some job ∧ Agrees job latest ∧
    (job.attempted = [] ↔ latest.attempted = [])

/-- What holds of a process. -/
def Holds (s : Shared κ ι ρ) (k : κ) (pid : Nat) : Phase ι ρ → Prop
  | .entered => s.workerLock = some k
  | .working job stage => Works s k pid job stage
  | .admitted _ => s.admission = some k
  | .filing _ => s.admission = some k ∧ ∀ job, s.record = some job → job.status.active = false
  | .launching latest | .spawning latest | .publishing latest _ =>
      s.admission = some k ∧ Latest s latest
  | .arriving | .asking | .joining | .approved _ | .done => True

/-- It found the worker of the job dead. -/
def Phase.replaces : Phase ι ρ → Bool
  | spawning _ | publishing .. => true
  | _ => false

def Phase.isWorking : Phase ι ρ → Bool
  | working .. => true
  | _ => false

omit [DecidableEq ι] in
theorem Phase.isWorking_of_replaces {phase : Phase ι ρ} (h : phase.replaces = true) :
    phase.isWorking = false := by
  cases phase <;> first | rfl | cases h

structure Inv (s : Machine κ ι ρ) : Prop where
  consistent : Consistent s.shared
  holds : ∀ k a, s.Runs k a → Holds s.shared k a.own.pid a.phase
  idle : ∀ k a k' b, s.Runs k a → s.Runs k' b → a.phase.replaces = true →
    b.phase.isWorking = false

/-! ## What a write keeps -/

variable {s s' : Shared κ ι ρ} {job job' latest : Job ι ρ} {k : κ} {pid : Nat}

omit [DecidableEq ι] in
theorem Agrees.refl (job : Job ι ρ) : Agrees job job := ⟨rfl, rfl, rfl, rfl⟩

omit [DecidableEq ι] in
theorem Agrees.trans {job'' : Job ι ρ} (h : Agrees job job') (h' : Agrees job' job'') :
    Agrees job job'' :=
  ⟨h'.id.trans h.id, h'.target.trans h.target, h'.recipe.trans h.recipe,
    h'.workerPid.trans h.workerPid⟩

omit [DecidableEq ι] in
theorem Agrees.symm (h : Agrees job job') : Agrees job' job :=
  ⟨h.id.symm, h.target.symm, h.recipe.symm, h.workerPid.symm⟩

namespace Consistent

/-- Nothing was written that it is about. -/
theorem congr (h : Consistent s) (hrecord : s'.record = s.record)
    (hactive : s'.control.active = s.control.active) (hlog : s'.log = s.log) : Consistent s' where
  active_of_owed := by rw [hlog, hrecord]; exact h.active_of_owed
  attempted := by rw [hlog, hrecord]; exact h.attempted
  filed := by rw [hlog]; exact h.filed
  recorded := by rw [hlog, hrecord]; exact h.recorded
  target := by rw [hrecord]; exact h.target
  active := by rw [hlog, hactive]; exact h.active
  completed := by rw [hlog, hrecord]; exact h.completed
  once := by rw [hlog]; exact h.once

/-- The record of a job is written again. -/
theorem write (h : Consistent s) (job' : Job ι ρ) (hrecord : s.record = some job)
    (hid : job'.id = job.id) (htarget : job'.target = job.target)
    (hrecipe : job'.recipe = job.recipe)
    (hactive : job'.status.active = true ∨ owed job.id s.log = false)
    (hattempted : job'.attempted = [] → stopPending job.id s.log = false)
    (hcompleted : job'.status = .completed → .active job.target ∈ s.log)
    (hrecord' : s'.record = some job') (hcontrol : s'.control.active = s.control.active)
    (hlog : s'.log = s.log) : Consistent s' where
  active_of_owed id howed := by
    rw [hlog] at howed
    obtain ⟨_, hread, rfl, -⟩ := h.active_of_owed id howed
    obtain rfl := Option.some.inj (hrecord.symm.trans hread)
    refine ⟨job', hrecord', hid, hactive.resolve_right fun hnot => ?_⟩
    rw [howed] at hnot
    cases hnot
  attempted written hread hnone := by
    obtain rfl := Option.some.inj (hrecord'.symm.trans hread)
    rw [hlog, hid]
    exact hattempted hnone
  filed := by rw [hlog]; exact h.filed
  recorded written hread := by
    obtain rfl := Option.some.inj (hrecord'.symm.trans hread)
    rw [hlog, hid]
    exact h.recorded job hrecord
  target written hread := by
    obtain rfl := Option.some.inj (hrecord'.symm.trans hread)
    rw [htarget, hrecipe]
    exact h.target job hrecord
  active := by rw [hlog, hcontrol]; exact h.active
  completed written hread hstatus := by
    obtain rfl := Option.some.inj (hrecord'.symm.trans hread)
    rw [hlog, htarget]
    exact hcompleted hstatus
  once := by rw [hlog]; exact h.once

/-- A generation becomes active. -/
theorem activate {generation : ρ} (h : Consistent s) (hrecord : s'.record = s.record)
    (hactive : s'.control.active = generation) (hlog : s'.log = .active generation :: s.log) :
    Consistent s' where
  active_of_owed := by rw [hlog, hrecord]; exact h.active_of_owed
  attempted := by rw [hlog, hrecord]; exact h.attempted
  filed id hstop := by
    rw [hlog] at hstop ⊢
    exact List.mem_cons_of_mem _ (h.filed id hstop)
  recorded job hread := by
    rw [hlog]
    exact List.mem_cons_of_mem _ (h.recorded job (hrecord ▸ hread))
  target := by rw [hrecord]; exact h.target
  active := by
    rw [hlog, hactive]
    exact List.mem_cons_self ..
  completed job hread hstatus := by
    rw [hlog]
    exact List.mem_cons_of_mem _ (h.completed job (hrecord ▸ hread) hstatus)
  once := by rw [hlog]; exact h.once

/-- `stopForMaintenance` is called for the job, with the checkpoint in its record. -/
theorem stop (h : Consistent s) (hrecord : s.record = some job)
    (hactive : job.status.active = true) (hattempted : job.attempted ≠ [])
    (hpending : stopPending job.id s.log = false) : Consistent (s.note (.stop job.id)) where
  active_of_owed id howed := by
    simp only [Shared.note, owed, Bool.or_eq_true, decide_eq_true_eq] at howed
    obtain rfl | howed := howed
    · exact ⟨job, hrecord, rfl, hactive⟩
    · exact h.active_of_owed id howed
  attempted written hread hnone := by
    obtain rfl := Option.some.inj (hrecord.symm.trans hread)
    exact absurd hnone hattempted
  filed id hstop := by
    refine List.mem_cons_of_mem _ ?_
    simp only [Shared.note, stopPending, Bool.or_eq_true, decide_eq_true_eq] at hstop
    obtain rfl | hstop := hstop
    · exact h.recorded job hrecord
    · exact h.filed id hstop
  recorded written hread := List.mem_cons_of_mem _ (h.recorded written hread)
  target := h.target
  active := List.mem_cons_of_mem _ h.active
  completed written hread hstatus := List.mem_cons_of_mem _ (h.completed written hread hstatus)
  once := ⟨hpending, h.once⟩

/-- It answers that it attempted nothing, or a start succeeds. -/
theorem settle {event : Event ι ρ} (h : Consistent s)
    (hevent : event = .declined job.id ∨ event = .started job.id) : Consistent (s.note event) where
  active_of_owed id howed := by
    refine h.active_of_owed id ?_
    obtain rfl | rfl := hevent <;>
    · simp only [Shared.note, owed, Bool.and_eq_true] at howed
      exact howed.2
  attempted written hread hnone := by
    have hpending := h.attempted written hread hnone
    obtain rfl | rfl := hevent <;> simp [Shared.note, stopPending, hpending]
  filed id hstop := by
    refine List.mem_cons_of_mem _ (h.filed id ?_)
    obtain rfl | rfl := hevent
    · simp only [Shared.note, stopPending, Bool.and_eq_true] at hstop
      exact hstop.2
    · exact hstop
  recorded written hread := List.mem_cons_of_mem _ (h.recorded written hread)
  target := h.target
  active := List.mem_cons_of_mem _ h.active
  completed written hread hstatus := List.mem_cons_of_mem _ (h.completed written hread hstatus)
  once := by obtain rfl | rfl := hevent <;> exact h.once

/-- A new job is filed in the place of a finished one. -/
theorem file (h : Consistent s) (hfinished : ∀ job, s.record = some job → job.status.active = false)
    (hnew : .filed job.id ∉ s.log) (hactive : job.status.active = true)
    (htarget : job.target = job.recipe.target) :
    Consistent ((s.save job).note (.filed job.id)) where
  active_of_owed id howed := by
    obtain ⟨job, hread, -, hjob⟩ := h.active_of_owed id howed
    rw [hfinished job hread] at hjob
    cases hjob
  attempted written hread hnone := by
    obtain rfl := Option.some.inj hread
    exact Bool.eq_false_iff.mpr fun hstop => hnew (h.filed _ hstop)
  filed id hstop := List.mem_cons_of_mem _ (h.filed id hstop)
  recorded written hread := by
    obtain rfl := Option.some.inj hread
    exact List.mem_cons_self ..
  target written hread := by
    obtain rfl := Option.some.inj hread
    exact htarget
  active := List.mem_cons_of_mem _ h.active
  completed written hread hstatus := by
    obtain rfl := Option.some.inj hread
    rw [hstatus] at hactive
    cases hactive
  once := h.once

end Consistent

/-! ## Where a worker goes on -/

/-- A worker may go on at the stage without the admission lock. -/
structure Leaves (s : Shared κ ι ρ) (job : Job ι ρ) (stage : Stage ρ) : Prop where
  fresh : stage.fresh = true ↔ job.attempted = []
  free : stage.holds = false
  knows : stage.Knows s job

theorem caught_leaves (s : Shared κ ι ρ) (job : Job ι ρ) (error : Thrown) :
    Leaves s job (caught job error) := by
  unfold caught
  split
  next hnone =>
    cases error <;> exact ⟨by simp [Stage.fresh, hnone], rfl, trivial⟩
  next hsome => exact ⟨by simp [Stage.fresh, hsome], rfl, nofun⟩

theorem interrupted_leaves {activated : Bool} (hattempted : job.attempted ≠ [])
    (hactive : activated = true → .active job.target ∈ s.log) :
    Leaves s job (interrupted activated) :=
  ⟨by simp [interrupted, Stage.fresh, hattempted], rfl, hactive⟩

theorem thrown_leaves {guarded : Bool} (hguarded : guarded = false → job.attempted ≠ [])
    (error : Thrown) : Leaves s job (thrown guarded job error) := by
  unfold thrown
  cases guarded with
  | true => exact caught_leaves s job error
  | false => exact interrupted_leaves (hguarded rfl) nofun

theorem returned_leaves {guarded activated : Bool} {reason : Option String}
    (hguarded : guarded = false → job.attempted ≠ [])
    (hactive : activated = true → .active job.target ∈ s.log) :
    Leaves s job (returned guarded job activated reason) := by
  unfold returned
  cases guarded with
  | true =>
      rw [if_pos rfl]
      split
      next hnone => exact ⟨by simp [Stage.fresh, hnone], rfl, trivial⟩
      next hsome => exact ⟨by simp [Stage.fresh, hsome], rfl, hactive⟩
  | false => exact ⟨by simp [Stage.fresh, hguarded rfl], rfl, hactive⟩

/-- What a step of a worker does. -/
structure Worked (s s' : Shared κ ι ρ) (k : κ) (pid : Nat) (job : Job ι ρ) (stage : Stage ρ)
    (input : Input ι) (phase : Phase ι ρ) : Prop where
  consistent : Consistent s'
  holds : Holds s' k pid phase
  worker : phase = .done ∨ phase.isWorking = true
  record : ∃ job', s'.record = some job' ∧ Agrees job job' ∧
    (stage.holds = false → (job.attempted = [] ↔ job'.attempted = []))
  admission : stage.holds = true ∨ input = .takeAdmission ∨ s'.admission = s.admission

variable {stage stage' : Stage ρ} {input : Input ι}

/-- A step that only reads. -/
theorem worked_stay (hc : Consistent s) (hw : Works s k pid job stage) (h : Leaves s job stage') :
    Worked s s k pid job stage input (.working job stage') where
  consistent := hc
  holds := ⟨hw.lock, hw.record, hw.active, hw.workerPid, h.fresh, by simp [h.free], h.knows⟩
  worker := .inr rfl
  record := ⟨job, hw.record, .refl job, fun _ => Iff.rfl⟩
  admission := .inr (.inr rfl)

/-- A step that lets go of the admission lock. -/
theorem worked_release (hc : Consistent s) (hw : Works s k pid job stage)
    (hholds : stage.holds = true) (h : Leaves s job stage') :
    Worked s s.release k pid job stage input (.working job stage') where
  consistent := hc.congr rfl rfl rfl
  holds := ⟨hw.lock, hw.record, hw.active, hw.workerPid, h.fresh, by simp [h.free], h.knows⟩
  worker := .inr rfl
  record := ⟨job, hw.record, .refl job, fun _ => Iff.rfl⟩
  admission := .inl hholds

/-- A step that takes the admission lock. -/
theorem worked_admit (hc : Consistent s) (hw : Works s k pid job stage)
    (hfresh : stage'.fresh = true ↔ job.attempted = []) (hknows : stage'.Knows s job) :
    Worked s { s with admission := some k } k pid job stage .takeAdmission
      (.working job stage') where
  consistent := hc.congr rfl rfl rfl
  holds := ⟨hw.lock, hw.record, hw.active, hw.workerPid, hfresh, fun _ => rfl, hknows⟩
  worker := .inr rfl
  record := ⟨job, hw.record, .refl job, fun _ => Iff.rfl⟩
  admission := .inr (.inl rfl)

/-- A checkpoint. -/
theorem worked_save (hc : Consistent s) (hw : Works s k pid job stage) (hagrees : Agrees job job')
    (hactive : job'.status.active = true)
    (hattempted : job'.attempted = [] → stopPending job.id s.log = false)
    (hkept : stage.holds = false → (job.attempted = [] ↔ job'.attempted = []))
    (hcontrol : s'.control = s.control) (hlog : s'.log = s.log)
    (hlock : s'.workerLock = s.workerLock)
    (hadmission : stage.holds = true ∨ s'.admission = s.admission)
    (hrecord : s'.record = some job') (hfresh : stage'.fresh = true ↔ job'.attempted = [])
    (hholds : stage'.holds = true → s'.admission = some k) (hknows : stage'.Knows s' job') :
    Worked s s' k pid job stage input (.working job' stage') where
  consistent := by
    refine hc.write job' hw.record hagrees.id hagrees.target hagrees.recipe (.inl hactive)
      hattempted ?_ hrecord (by rw [hcontrol]) hlog
    intro hcompleted
    rw [hcompleted] at hactive
    cases hactive
  holds := ⟨hlock.trans hw.lock, hrecord, hactive, hagrees.workerPid.trans hw.workerPid, hfresh,
    hholds, hknows⟩
  worker := .inr rfl
  record := ⟨job', hrecord, hagrees, hkept⟩
  admission := hadmission.imp_right .inr

/-- The last write of a worker, when nothing is owed or the record stays active. -/
theorem worked_finish (hc : Consistent s) (hw : Works s k pid job stage) (hagrees : Agrees job job')
    (hactive : job'.status.active = true ∨ owed job.id s.log = false)
    (hattempted : job'.attempted = job.attempted)
    (hcompleted : job'.status = .completed → .active job.target ∈ s.log) :
    Worked s (s.finish job') k pid job stage input .done where
  consistent := by
    refine hc.write job' hw.record hagrees.id hagrees.target hagrees.recipe hactive ?_ hcompleted
      rfl rfl rfl
    rw [hattempted]
    exact hc.attempted job hw.record
  holds := trivial
  worker := .inl rfl
  record := ⟨job', rfl, hagrees, fun _ => by rw [hattempted]⟩
  admission := .inr (.inr rfl)

/-- A job with nothing attempted is owed nothing. -/
theorem Works.settled (hw : Works s k pid job stage) (hc : Consistent s)
    (hfresh : stage.fresh = true) : owed job.id s.log = false := by
  refine Bool.eq_false_iff.mpr fun howed => ?_
  have hpending := hc.attempted job hw.record (hw.fresh.mp hfresh)
  rw [stopPending_of_owed howed] at hpending
  cases hpending

theorem Works.attempted (hw : Works s k pid job stage)
    (hfresh : stage.fresh = false) : job.attempted ≠ [] := by
  intro hnone
  rw [hw.fresh.mpr hnone] at hfresh
  cases hfresh

variable [DecidableEq ρ] {phase : Phase ι ρ}

theorem beforeActivation_worked {pending : Bool} (hc : Consistent s)
    (hw : Works s k pid job (.fenced pending))
    (h : beforeActivation s job pending input = some (s', phase)) :
    Worked s s' k pid job (.fenced pending) input phase := by
  have hnone : job.attempted = [] := hw.fresh.mp rfl
  have hpending : pending = job.recipe.pending.isSome := hw.knows
  unfold beforeActivation at h
  split at h
  · cases h
    exact worked_release hc hw rfl (caught_leaves s job _)
  next hrecipe =>
    push Not at hrecipe
    split at h
    case h_5 =>
      cases h
      exact worked_save hc hw ⟨rfl, rfl, rfl, rfl⟩ rfl nofun nofun rfl rfl rfl (.inl rfl) rfl
        ⟨nofun, nofun⟩ (fun _ => hw.holds rfl)
        ⟨hc.attempted job hw.record hnone, hrecipe, hpending⟩
    case h_6 => cases h
    all_goals
      cases h
      exact worked_release hc hw rfl (caught_leaves s job _)

omit [DecidableEq ρ] in
theorem stopAnswered_worked {pending : Bool} {answer : StopAnswer} (hc : Consistent s)
    (hw : Works s k pid job (.stopped pending)) :
    Worked s (stopAnswered s job pending answer).1 k pid job (.stopped pending) (.stopped answer)
      (stopAnswered s job pending answer).2 := by
  have hsome := hw.attempted rfl
  cases answer with
  | ok =>
      exact worked_save hc hw ⟨rfl, rfl, rfl, rfl⟩ rfl (fun hnone => absurd hnone hsome) nofun rfl
        rfl rfl (.inl rfl) rfl ⟨nofun, fun hnone => absurd hnone hsome⟩ (fun _ => hw.holds rfl) hw.knows
  | declined reasonCode busyThreads queuedRequests =>
      exact
        { consistent := hc.settle (.inl rfl)
          holds := ⟨hw.lock, hw.record, hw.active, hw.workerPid, hw.fresh, fun _ => hw.holds rfl,
            by simp [Stage.Knows, stopAnswered, Shared.note, stopPending]⟩
          worker := .inr rfl
          record := ⟨job, hw.record, .refl job, fun _ => Iff.rfl⟩
          admission := .inl rfl }
  | failed reasonCode => exact worked_release hc hw rfl (caught_leaves s job _)
  | throws reasonCode => exact worked_release hc hw rfl (caught_leaves s job _)

omit [DecidableEq ρ] in
theorem Consistent.target_active (hc : Consistent s) (hrecord : s.record = some job)
    (hrecipe : maintenanceRecipe s.control = job.recipe) (hpending : job.recipe.pending = none) :
    .active job.target ∈ s.log := by
  have htarget : job.target = s.control.active := by
    rw [hc.target job hrecord, Recipe.target, hpending, ← hrecipe]
    rfl
  rw [htarget]
  exact hc.active

theorem Consistent.activated_mem (hc : Consistent s) {target : ρ}
    (h : s.control.activated target = true) : .active target ∈ s.log := by
  simp only [Control.activated, Bool.and_eq_true, decide_eq_true_eq] at h
  rw [← h.1.2]
  exact hc.active

/-- Every step of a worker keeps what holds, and changes nothing of another job. -/
theorem work_worked (hc : Consistent s) (hw : Works s k pid job stage)
    (h : work k s job stage input = some (s', phase)) :
    Worked s s' k pid job stage input phase := by
  cases stage with
  | recovering =>
      have hsome := hw.attempted rfl
      cases input with
      | go =>
          cases h
          refine worked_stay hc hw ?_
          split
          next hactivated => exact interrupted_leaves hsome fun _ => hc.activated_mem hactivated
          next =>
            split
            next hrecipe => exact ⟨by simp [Stage.fresh, hsome], rfl, hrecipe⟩
            next => exact interrupted_leaves hsome nofun
      | throws reasonCode =>
          cases h
          exact worked_stay hc hw (interrupted_leaves hsome nofun)
      | _ => cases h
  | rechecked =>
      have hsome := hw.attempted rfl
      cases input with
      | go =>
          cases h
          refine worked_stay hc hw ?_
          split
          · exact returned_leaves (fun _ => hsome) nofun
          next hpending =>
            have hrecipe : maintenanceRecipe s.control = job.recipe := hw.knows
            refine ⟨by simp [Stage.fresh, hsome], rfl, ?_, fun _ => hrecipe⟩
            rw [← hrecipe]
            exact Option.isSome_iff_ne_none.mpr hpending
      | lockHeld | throws reasonCode =>
          cases h
          exact worked_stay hc hw (interrupted_leaves hsome nofun)
      | _ => cases h
  | looping =>
      have hnone : job.attempted = [] := hw.fresh.mp rfl
      cases input with
      | wake now confirmedDead =>
          cases h
          refine worked_stay hc hw ?_
          split
          · exact ⟨by simp [Stage.fresh, hnone], rfl, trivial⟩
          next hrecipe =>
            push Not at hrecipe
            split
            · exact ⟨by simp [Stage.fresh, hnone], rfl, trivial⟩
            · split
              · exact ⟨by simp [Stage.fresh, hnone], rfl, trivial⟩
              · refine ⟨by simp [Stage.fresh, hnone], rfl, ?_⟩
                rw [Stage.Knows, ← hrecipe]
                rfl
      | _ => cases h
  | attempting pending =>
      have hnone : job.attempted = [] := hw.fresh.mp rfl
      have hpending : pending = job.recipe.pending.isSome := hw.knows
      cases input with
      | go =>
          cases pending with
          | true =>
              cases h
              refine worked_stay hc hw ?_
              split
              · exact returned_leaves nofun nofun
              · exact ⟨by simp [Stage.fresh, hnone], rfl, hpending.symm, nofun⟩
          | false => cases h
      | takeAdmission =>
          cases pending with
          | true => cases h
          | false =>
              cases h
              exact worked_admit hc hw (by simp [Stage.fresh, hnone]) hpending
      | lockHeld | throws reasonCode =>
          cases pending <;>
          · cases h
            exact worked_stay hc hw (caught_leaves s job _)
      | _ => cases pending <;> cases h
  | activating before guarded =>
      have hguarded : guarded = false → job.attempted ≠ [] := fun hfalse => hw.attempted hfalse
      cases input with
      | takeAdmission =>
          simp only [work] at h
          split at h
          · cases h
            refine worked_stay hc hw (returned_leaves hguarded ?_)
            nofun
          next hrecipe =>
            push Not at hrecipe
            obtain ⟨hpending, hbefore⟩ := hw.knows
            cases guarded with
            | true =>
                cases h
                exact worked_admit hc hw hw.fresh hpending.symm
            | false =>
                cases h
                exact worked_admit hc hw hw.fresh ⟨hrecipe.trans (hbefore rfl), hpending.symm⟩
      | lockHeld | throws reasonCode =>
          cases h
          exact worked_stay hc hw (thrown_leaves hguarded _)
      | _ => cases h
  | fenced pending => exact beforeActivation_worked hc hw h
  | stopping pending =>
      cases input with
      | go =>
          cases h
          obtain ⟨hstop, hmatches⟩ := hw.knows
          exact
            { consistent := hc.stop hw.record hw.active (hw.attempted rfl) hstop
              holds := ⟨hw.lock, hw.record, hw.active, hw.workerPid, hw.fresh, hw.holds, hmatches⟩
              worker := .inr rfl
              record := ⟨job, hw.record, .refl job, fun _ => Iff.rfl⟩
              admission := .inl rfl }
      | _ => cases h
  | stopped pending =>
      cases input with
      | stopped answer =>
          have hanswered : Worked s (stopAnswered s job pending answer).1 k pid job
              (.stopped pending) (.stopped answer) (stopAnswered s job pending answer).2 :=
            stopAnswered_worked hc hw
          rw [Option.some.inj (h : some (stopAnswered s job pending answer) = some (s', phase))]
            at hanswered
          exact hanswered
      | _ => cases h
  | declining reasonCode busyThreads queuedRequests =>
      cases input with
      | go =>
          cases h
          have hleaves := caught_leaves
            (s.save { job with status := .waiting, attempted := [] }).release
            { job with status := .waiting, attempted := [] }
            (if reasonCode = some "service_busy" then
              Thrown.deferred (.serviceBusy busyThreads queuedRequests)
            else .refused (some (reasonCode.getD "service_stop_failed")))
          exact worked_save hc hw ⟨rfl, rfl, rfl, rfl⟩ rfl (fun _ => hw.knows) nofun rfl rfl rfl
            (.inl rfl) rfl hleaves.fresh (by simp [hleaves.free]) hleaves.knows
      | _ => cases h
  | refreshing pending guarded =>
      have hsome := hw.attempted rfl
      obtain ⟨hrecipe, hpending⟩ := hw.knows
      cases input with
      | go =>
          cases pending with
          | true =>
              cases h
              exact
                { consistent := hc.congr rfl rfl rfl
                  holds := ⟨hw.lock, hw.record, hw.active, hw.workerPid, hw.fresh, hw.holds,
                    hrecipe, hpending⟩
                  worker := .inr rfl
                  record := ⟨job, hw.record, .refl job, fun _ => Iff.rfl⟩
                  admission := .inl rfl }
          | false =>
              cases h
              refine worked_release hc hw rfl (returned_leaves (fun _ => hsome) fun _ => ?_)
              refine hc.target_active hw.record hrecipe ?_
              exact Option.isSome_eq_false_iff.mp hpending.symm |> Option.isNone_iff_eq_none.mp
      | blocked processes =>
          cases pending with
          | true =>
              cases h
              refine worked_release hc hw rfl (returned_leaves (fun _ => hsome) ?_)
              nofun
          | false => cases h
      | throws reasonCode =>
          cases pending <;>
          · cases h
            exact worked_release hc hw rfl (thrown_leaves (fun _ => hsome) _)
      | _ => cases pending <;> cases h
  | applying guarded =>
      have hsome := hw.attempted rfl
      obtain ⟨hrecipe, hpending⟩ := hw.knows
      cases input with
      | go =>
          simp only [work] at h
          obtain ⟨generation, hgeneration, h⟩ := Option.map_eq_some_iff.mp h
          cases h
          have htarget : job.target = generation := by
            rw [hc.target job hw.record, Recipe.target, ← hrecipe, maintenanceRecipe, hgeneration]
            rfl
          have hactive : Event.active job.target
              ∈ (.active generation :: s.log : List (Event ι ρ)) := by
            rw [htarget]
            exact List.mem_cons_self ..
          have hleaves : Leaves (({ s with control := { s.control with
                active := generation
                pending := none
                ready := true } }.note (.active generation)).release) job
              (returned guarded job true none) :=
            returned_leaves (fun _ => hsome) fun _ => hactive
          exact
            { consistent := hc.activate rfl rfl rfl
              holds := ⟨hw.lock, hw.record, hw.active, hw.workerPid, hleaves.fresh,
                by simp [hleaves.free], hleaves.knows⟩
              worker := .inr rfl
              record := ⟨job, hw.record, .refl job, fun _ => Iff.rfl⟩
              admission := .inl rfl }
      | incomplete =>
          cases h
          refine worked_release hc hw rfl (returned_leaves (fun _ => hsome) ?_)
          nofun
      | throws reasonCode =>
          cases h
          exact worked_release hc hw rfl (thrown_leaves (fun _ => hsome) _)
      | _ => cases h
  | deferring waiting =>
      cases input with
      | go =>
          cases h
          exact worked_save hc hw ⟨rfl, rfl, rfl, rfl⟩ hw.active (hc.attempted job hw.record)
            (fun _ => Iff.rfl) rfl rfl rfl (.inr rfl) rfl hw.fresh nofun trivial
      | _ => cases h
  | refusing reasonCode =>
      cases input with
      | go =>
          cases h
          exact worked_finish hc hw ⟨rfl, rfl, rfl, rfl⟩ (.inr (hw.settled hc rfl)) rfl nofun
      | _ => cases h
  | cancelling reasonCode =>
      cases input with
      | go =>
          cases h
          exact worked_finish hc hw ⟨rfl, rfl, rfl, rfl⟩ (.inr (hw.settled hc rfl)) rfl nofun
      | _ => cases h
  | restoring result =>
      cases input with
      | go =>
          cases h
          exact worked_save hc hw ⟨rfl, rfl, rfl, rfl⟩ rfl (hc.attempted job hw.record)
            (fun _ => Iff.rfl) rfl rfl rfl (.inr rfl) rfl hw.fresh nofun hw.knows
      | _ => cases h
  | starting result =>
      cases input with
      | started =>
          cases h
          exact
            { consistent := hc.settle (.inr rfl)
              holds := ⟨hw.lock, hw.record, hw.active, hw.workerPid, hw.fresh, nofun,
                by simp [Shared.note, owed], fun hactivated =>
                  List.mem_cons_of_mem _ (hw.knows hactivated)⟩
              worker := .inr rfl
              record := ⟨job, hw.record, .refl job, fun _ => Iff.rfl⟩
              admission := .inr (.inr rfl) }
      | failed reasonCode | throws reasonCode =>
          cases h
          exact worked_finish hc hw ⟨rfl, rfl, rfl, rfl⟩ (.inl rfl) rfl nofun
      | _ => cases h
  | restarted result =>
      obtain ⟨hsettled, hactive⟩ := hw.knows
      cases input with
      | go =>
          cases h
          refine worked_finish hc hw ⟨rfl, rfl, rfl, rfl⟩ (.inr hsettled) rfl fun hcompleted => ?_
          refine hactive (by_contra fun hnot => ?_)
          rw [if_neg hnot] at hcompleted
          cases hcompleted
      | _ => cases h

/-! ## Requests -/

/-- What a step of a request does. -/
structure Requested (s s' : Shared κ ι ρ) (k : κ) (pid : Nat) (phase : Phase ι ρ)
    (input : Input ι) (phase' : Phase ι ρ) : Prop where
  consistent : Consistent s'
  holds : Holds s' k pid phase'
  request : phase'.isWorking = false
  lock : s'.workerLock = s.workerLock
  control : s'.control = s.control
  kept : s'.record = s.record ∧ s'.log = s.log ∨ phase.replaces = true ∧ s'.log = s.log ∨
    ∃ adapterId, phase = .filing adapterId
  admission : s.admission = some k ∨ input = .takeAdmission ∨ s'.admission = s.admission
  replaces : phase'.replaces = true → phase.replaces = true ∨
    ∃ latest confirmedDead, phase = .launching latest ∧ input = .report confirmedDead ∧
      ∀ workerPid, latest.workerPid = some workerPid → confirmedDead workerPid = true
  record : ∀ job, s.record = some job → ∃ job', s'.record = some job' ∧
    (job'.id = job.id ∨ job.status.active = false ∧ ∃ deadline, input = .file job'.id deadline)

variable {phase' : Phase ι ρ} {control : Control ρ}

omit [DecidableEq ρ] in
/-- A step of a request that writes nothing, and may take the lock or let go of it. -/
theorem requested_of_kept (hc : Consistent s) (hlock : s'.workerLock = s.workerLock)
    (hrecord : s'.record = s.record) (hlog : s'.log = s.log) (hcontrol : s'.control = s.control)
    (hholds : Holds s' k pid phase') (hrequest : phase'.isWorking = false)
    (hadmission : s.admission = some k ∨ input = .takeAdmission ∨ s'.admission = s.admission)
    (hreplaces : phase'.replaces = true → phase.replaces = true ∨
      ∃ latest confirmedDead, phase = .launching latest ∧ input = .report confirmedDead ∧
        ∀ workerPid, latest.workerPid = some workerPid → confirmedDead workerPid = true) :
    Requested s s' k pid phase input phase' where
  consistent := hc.congr hrecord (by rw [hcontrol]) hlog
  holds := hholds
  request := hrequest
  lock := hlock
  control := hcontrol
  kept := .inl ⟨hrecord, hlog⟩
  admission := hadmission
  replaces := hreplaces
  record job hread := ⟨job, hrecord.trans hread, .inl rfl⟩

omit [DecidableEq ρ] in
/-- A request writes what it has read of the job back, and is done. -/
theorem requested_write (hc : Consistent s) (hadmission : s.admission = some k)
    (hlatest : Latest s latest) (hreplaces : phase.replaces = true) (hid : job'.id = latest.id)
    (htarget : job'.target = latest.target) (hrecipe : job'.recipe = latest.recipe)
    (hattempted : job'.attempted = latest.attempted)
    (hactive : job'.status.active = true ∨ latest.attempted = [])
    (hcompleted : job'.status ≠ .completed) :
    Requested s (s.save job').release k pid phase input .done := by
  obtain ⟨-, job, hread, hagrees, hsame⟩ := hlatest
  refine
    { consistent := hc.write job' hread (hid.trans hagrees.id) (htarget.trans hagrees.target)
        (hrecipe.trans hagrees.recipe) (hactive.imp_right fun hnone => ?_) (fun hnone => ?_)
        (fun h => absurd h hcompleted) rfl rfl rfl
      holds := trivial
      request := rfl
      lock := rfl
      control := rfl
      kept := .inr (.inl ⟨hreplaces, rfl⟩)
      admission := .inl hadmission
      replaces := nofun
      record := fun old hold => ⟨job', rfl, .inl ?_⟩ }
  · refine Bool.eq_false_iff.mpr fun howed => ?_
    have hpending := hc.attempted job hread (hsame.mpr hnone)
    rw [stopPending_of_owed howed] at hpending
    cases hpending
  · exact hc.attempted job hread (hsame.mpr (hattempted ▸ hnone))
  · obtain rfl := Option.some.inj (hread.symm.trans hold)
    exact hid.trans hagrees.id

omit [DecidableEq ι] [DecidableEq ρ] in
theorem active_record (h : (s.record.map (·.status.active)).getD false = false)
    (hread : s.record = some job) : job.status.active = false := by
  simpa [hread] using h

/-- Every step of a request keeps what holds. -/
theorem request_requested (hc : Consistent s) (hh : Holds s k pid phase)
    (hnew : ∀ id deadline, input = .file id deadline → .filed id ∉ s.log)
    (h : request k pid control s phase input = some (s', phase')) :
    Requested s s' k pid phase input phase' := by
  cases phase with
  | asking =>
      cases input with
      | consent adapterId | declines =>
          cases h
          split <;> exact requested_of_kept hc rfl rfl rfl rfl trivial rfl (.inr (.inr rfl)) nofun
      | _ => cases h
  | joining =>
      cases input with
      | takeAdmission =>
          simp only [request] at h
          split at h
          next latest hread =>
            split at h
            next hactive =>
              cases h
              exact requested_of_kept hc rfl rfl rfl rfl
                ⟨rfl, hactive, latest, hread, .refl latest, Iff.rfl⟩ rfl (.inr (.inl rfl)) nofun
            next =>
              cases h
              exact requested_of_kept hc rfl rfl rfl rfl trivial rfl (.inr (.inr rfl)) nofun
          next =>
            cases h
            exact requested_of_kept hc rfl rfl rfl rfl trivial rfl (.inr (.inr rfl)) nofun
      | lockHeld =>
          cases h
          exact requested_of_kept hc rfl rfl rfl rfl trivial rfl (.inr (.inr rfl)) nofun
      | _ => cases h
  | approved adapterId =>
      cases input with
      | takeAdmission =>
          cases h
          exact requested_of_kept hc rfl rfl rfl rfl rfl rfl (.inr (.inl rfl)) nofun
      | lockHeld =>
          cases h
          exact requested_of_kept hc rfl rfl rfl rfl trivial rfl (.inr (.inr rfl)) nofun
      | _ => cases h
  | admitted adapterId =>
      cases input with
      | go =>
          simp only [request, answer] at h
          split at h
          · cases h
            exact requested_of_kept hc rfl rfl rfl rfl trivial rfl (.inl hh) nofun
          next hfinished =>
            split at h
            · cases h
              exact requested_of_kept hc rfl rfl rfl rfl trivial rfl (.inl hh) nofun
            · cases h
              exact requested_of_kept hc rfl rfl rfl rfl
                ⟨hh, fun job hread => active_record (Bool.eq_false_iff.mpr hfinished) hread⟩ rfl
                (.inl hh) nofun
      | _ => cases h
  | filing adapterId =>
      obtain ⟨hadmission, hfinished⟩ := hh
      cases input with
      | file id deadline =>
          cases h
          exact
            { consistent := hc.file hfinished (hnew id deadline rfl) rfl rfl
              holds := ⟨hadmission, rfl, _, rfl, .refl _, Iff.rfl⟩
              request := rfl
              lock := rfl
              control := rfl
              kept := .inr (.inr ⟨adapterId, rfl⟩)
              admission := .inl hadmission
              replaces := nofun
              record := fun job hread =>
                ⟨_, rfl, .inr ⟨hfinished job hread, deadline, rfl⟩⟩ }
      | _ => cases h
  | launching latest =>
      cases input with
      | report confirmedDead =>
          simp only [request] at h
          split at h
          next workerPid hpid =>
            split at h
            next hdead =>
              cases h
              refine requested_of_kept hc rfl rfl rfl rfl hh rfl (.inl hh.1) fun _ => .inr ?_
              refine ⟨latest, confirmedDead, rfl, rfl, fun pid' hpid' => ?_⟩
              rw [← Option.some.inj (hpid.symm.trans hpid'), hdead]
            next =>
              cases h
              exact requested_of_kept hc rfl rfl rfl rfl trivial rfl (.inl hh.1) nofun
          next hpid =>
            cases h
            refine requested_of_kept hc rfl rfl rfl rfl hh rfl (.inl hh.1) fun _ => .inr ?_
            exact ⟨latest, confirmedDead, rfl, rfl, fun pid' hpid' => by simp [hpid] at hpid'⟩
      | _ => cases h
  | spawning latest =>
      cases input with
      | spawned workerPid =>
          cases h
          exact requested_of_kept hc rfl rfl rfl rfl hh rfl (.inl hh.1) fun _ => .inl rfl
      | notSpawned =>
          cases h
          refine requested_write hc hh.1 hh.2 rfl rfl rfl rfl rfl ?_ ?_
          · by_cases hnone : latest.attempted = []
            · exact .inr hnone
            · exact .inl (by simp [hnone, Status.active])
          · dsimp only
            split <;> (intro hcompleted; cases hcompleted)
      | _ => cases h
  | publishing latest workerPid =>
      cases input with
      | go =>
          cases h
          refine requested_write hc hh.1 hh.2 rfl rfl rfl rfl rfl (.inl hh.2.1) fun hcompleted => ?_
          have hactive := hh.2.1
          rw [show latest.status = .completed from hcompleted] at hactive
          cases hactive
      | _ => cases h
  | _ => cases h

/-! ## What others may rely on -/

variable {k' : κ} {pid' : Nat}

omit [DecidableEq ρ] in
/-- A worker knows something about the control record and the log. -/
theorem Stage.knows_congr (hcontrol : s'.control = s.control) (hlog : s'.log = s.log) :
    stage.Knows s' job = stage.Knows s job := by
  cases stage <;> simp only [Stage.Knows, Matches, hcontrol, hlog]

omit [DecidableEq ρ] in
/-- A step that leaves the record and a process's own locks alone. -/
theorem Holds.frame (h : Holds s k pid phase)
    (hlock : s.workerLock = some k → s'.workerLock = some k)
    (hadmission : s.admission = some k → s'.admission = some k) (hrecord : s'.record = s.record)
    (hcontrol : s'.control = s.control) (hlog : s'.log = s.log) : Holds s' k pid phase := by
  cases phase with
  | entered => exact hlock h
  | working job stage =>
      refine ⟨hlock h.lock, hrecord.trans h.record, h.active, h.workerPid, h.fresh,
        fun hholds => hadmission (h.holds hholds), ?_⟩
      rw [Stage.knows_congr hcontrol hlog]
      exact h.knows
  | admitted adapterId => exact hadmission h
  | filing adapterId => exact ⟨hadmission h.1, fun job hread => h.2 job (hrecord ▸ hread)⟩
  | launching latest | spawning latest | publishing latest workerPid =>
      obtain ⟨hholds, hactive, job, hread, hagrees⟩ := h
      exact ⟨hadmission hholds, hactive, job, hrecord.trans hread, hagrees⟩
  | arriving | asking | joining | approved adapterId | done => trivial

omit [DecidableEq ρ] in
/-- A process without locks relies on nothing. -/
theorem Holds.elsewhere (h : Holds s k pid phase) (hlock : s.workerLock ≠ some k)
    (hadmission : s.admission ≠ some k) : Holds s' k pid phase := by
  cases phase with
  | entered => exact absurd h hlock
  | working job stage => exact absurd h.lock hlock
  | admitted adapterId => exact absurd h hadmission
  | filing adapterId => exact absurd h.1 hadmission
  | launching latest | spawning latest | publishing latest workerPid =>
      exact absurd h.1 hadmission
  | arriving | asking | joining | approved adapterId | done => trivial

omit [DecidableEq ρ] in
/-- A step of a worker leaves the others what they rely on. -/
theorem Worked.others {phase' : Phase ι ρ} (h : Worked s s' k pid job stage input phase')
    (hw : Works s k pid job stage) (hne : k' ≠ k) (hh : Holds s k' pid' phase)
    (hadmission : s.admission = some k' → s'.admission = some k')
    (hreplaces : phase.replaces = false) : Holds s' k' pid' phase := by
  have hlock : s.workerLock ≠ some k' := by
    rw [hw.lock]
    exact fun hsame => hne (Option.some.inj hsame).symm
  cases phase with
  | entered => exact absurd hh hlock
  | working job' stage' => exact absurd hh.lock hlock
  | admitted adapterId => exact hadmission hh
  | filing adapterId =>
      have hfinished := hh.2 job hw.record
      rw [hw.active] at hfinished
      cases hfinished
  | launching latest =>
      obtain ⟨hholds, hactive, job', hread, hagrees, hsame⟩ := hh
      obtain rfl := Option.some.inj (hw.record.symm.trans hread)
      obtain ⟨written, hwritten, hagrees', hkept⟩ := h.record
      have hfree : stage.holds = false := by
        refine Bool.eq_false_iff.mpr fun hstage => hne ?_
        exact Option.some.inj (hholds.symm.trans (hw.holds hstage))
      exact ⟨hadmission hholds, hactive, written, hwritten, hagrees'.symm.trans hagrees,
        (hkept hfree).symm.trans hsame⟩
  | spawning latest | publishing latest workerPid => cases hreplaces
  | arriving | asking | joining | approved adapterId | done => trivial

omit [DecidableEq ρ] in
/-- A step of a request leaves the others what they rely on. -/
theorem Requested.others {phase phase' other : Phase ι ρ}
    (h : Requested s s' k pid phase input phase') (hself : Holds s k pid phase) (hne : k' ≠ k)
    (hh : Holds s k' pid' other)
    (hadmission : s.admission = some k' → s'.admission = some k')
    (hidle : phase.replaces = true → other.isWorking = false) : Holds s' k' pid' other := by
  obtain ⟨hrecord, hlog⟩ | hwrites := h.kept
  · exact hh.frame (fun hlock => h.lock.trans hlock) hadmission hrecord h.control hlog
  -- who writes holds the admission, so the others do not, and no worker works
  have hmine : s.admission = some k := by
    obtain ⟨hreplaces, -⟩ | ⟨adapterId, rfl⟩ := hwrites
    · cases phase <;> first | exact hself.1 | cases hreplaces
    · exact hself.1
  have hnot : s.admission ≠ some k' := by
    rw [hmine]
    exact fun hsame => hne (Option.some.inj hsame).symm
  cases other with
  | entered => exact h.lock.trans hh
  | working job stage =>
      obtain ⟨hreplaces, -⟩ | ⟨adapterId, rfl⟩ := hwrites
      · cases hidle hreplaces
      · have hfinished := hself.2 job hh.record
        rw [hh.active] at hfinished
        cases hfinished
  | admitted adapterId => exact absurd hh hnot
  | filing adapterId => exact absurd hh.1 hnot
  | launching latest | spawning latest | publishing latest workerPid => exact absurd hh.1 hnot
  | arriving | asking | joining | approved adapterId | done => trivial

omit [DecidableEq ρ] in
/-- Another command writes the control record when nobody relies on it. -/
theorem Holds.command {control : Control ρ} (hh : Holds s k pid phase)
    (hadmission : s.admission ≠ some k) (hrechecked : ∀ job, phase ≠ .working job .rechecked) :
    Holds ({ s with control }.note (.active control.active)) k pid phase := by
  cases phase with
  | entered => exact hh
  | working job stage =>
      have hfree : stage.holds = false := Bool.eq_false_iff.mpr fun h => hadmission (hh.holds h)
      refine ⟨hh.lock, hh.record, hh.active, hh.workerPid, hh.fresh, hh.holds, ?_⟩
      have hknows := hh.knows
      cases stage with
      | rechecked => exact absurd rfl (hrechecked job)
      | fenced | stopping | stopped | declining | refreshing | applying => cases hfree
      | restoring result | starting result =>
          exact fun hactivated => List.mem_cons_of_mem _ (hknows hactivated)
      | restarted result =>
          exact ⟨hknows.1, fun hactivated => List.mem_cons_of_mem _ (hknows.2 hactivated)⟩
      | attempting | activating | recovering | looping | deferring | refusing | cancelling =>
          exact hknows
  | admitted adapterId => exact absurd hh hadmission
  | filing adapterId => exact absurd hh.1 hadmission
  | launching latest | spawning latest | publishing latest workerPid =>
      exact absurd hh.1 hadmission
  | arriving | asking | joining | approved adapterId | done => trivial

/-! ## Every step of every process -/

variable [DecidableEq κ] {m t : Machine κ ι ρ} {own : Own ι ρ} {phase' : Phase ι ρ}

omit [DecidableEq ρ] in
/-- What has to be seen of a step. -/
theorem Inv.set (h : Inv m) (hc : Consistent s') (hself : Holds s' k own.pid phase')
    (hothers : ∀ k' b, k' ≠ k → m.Runs k' b → Holds s' k' b.own.pid b.phase)
    (hreplaces : phase'.replaces = true → ∀ k' b, k' ≠ k → m.Runs k' b → b.phase.isWorking = false)
    (hworking : phase'.isWorking = true → ∀ k' b, k' ≠ k → m.Runs k' b →
      b.phase.replaces = false) : Inv (m.set k s' ⟨own, phase', true⟩) where
  consistent := hc
  holds k' b hb := by
    obtain ⟨rfl, rfl⟩ | ⟨hne, hactor⟩ := Scene.actors_set hb.1
    · exact hself
    · exact hothers k' b hne ⟨hactor, hb.2⟩
  idle k₁ a k₂ b ha hb hphase := by
    obtain ⟨rfl, rfl⟩ | ⟨hne₁, ha'⟩ := Scene.actors_set ha.1
    · obtain ⟨rfl, rfl⟩ | ⟨hne₂, hb'⟩ := Scene.actors_set hb.1
      · exact Phase.isWorking_of_replaces hphase
      · exact hreplaces hphase k₂ b hne₂ ⟨hb', hb.2⟩
    · obtain ⟨rfl, rfl⟩ | ⟨hne₂, hb'⟩ := Scene.actors_set hb.1
      · refine Bool.eq_false_iff.mpr fun hworks => ?_
        rw [hworking hworks k₁ a hne₁ ⟨ha', ha.2⟩] at hphase
        cases hphase
      · exact h.idle k₁ a k₂ b ⟨ha', ha.2⟩ ⟨hb', hb.2⟩ hphase

omit [DecidableEq ι] [DecidableEq ρ] [DecidableEq κ] in
/-- A lock that nobody holds is not of a living process. -/
theorem Free.ne {holder : Option κ} {b : Actor (Own ι ρ) (Phase ι ρ)} (h : Free m holder)
    (hb : m.Runs k b) : holder ≠ some k := by
  rintro rfl
  exact h k rfl b hb

/-- The first steps of a worker. -/
theorem Inv.arrive (h : Inv m) {jobId : Option ι}
    (hactor : m.actors k = some ⟨.worker pid jobId, phase, true⟩)
    (hphase : phase = .arriving ∨ phase = .entered) (hsound : Sound m (.turn k input))
    (hnext : next k (.worker pid jobId) phase input m.shared = some (s', phase')) :
    Inv (m.set k s' ⟨.worker pid jobId, phase', true⟩) := by
  have hruns : m.Runs k ⟨.worker pid jobId, phase, true⟩ := ⟨hactor, rfl⟩
  have hself : Holds m.shared k pid phase := h.holds k _ hruns
  obtain rfl | rfl := hphase
  · cases input with
    | takeWorkerLock =>
        cases hnext
        refine h.set (h.consistent.congr rfl rfl rfl) rfl (fun k' b hne hb => ?_) nofun nofun
        exact (h.holds k' b hb).frame (fun hlock => absurd hlock (Free.ne hsound hb)) id rfl rfl rfl
    | lockHeld =>
        cases hnext
        exact h.set h.consistent trivial (fun k' b _ hb => h.holds k' b hb) nofun nofun
    | _ => cases hnext
  -- it has the lock of the workers, so no other worker has gone as far
  have hlock : m.shared.workerLock = some k := hself
  have hothers : ∀ k' b, k' ≠ k → m.Runs k' b → m.shared.workerLock ≠ some k' := by
    intro k' b hne _
    rw [hlock]
    exact fun hsame => hne (Option.some.inj hsame).symm
  have hleft : Inv (m.set k { m.shared with workerLock := none }
      ⟨.worker pid jobId, .done, true⟩) := by
    refine h.set (h.consistent.congr rfl rfl rfl) trivial (fun k' b hne hb => ?_) nofun nofun
    exact (h.holds k' b hb).frame (fun hsame => absurd hsame (hothers k' b hne hb)) id rfl rfl rfl
  cases input with
  | takeAdmission =>
      simp only [next] at hnext
      split at hnext
      next job _ hread =>
        split at hnext
        next hactive =>
          cases hnext
          simp only [Bool.and_eq_true] at hactive
          refine h.set ?_ ?_ (fun k' b hne hb => ?_) nofun fun _ k' b _ hb => ?_
          · refine h.consistent.write { job with workerPid := some pid } hread rfl rfl rfl
              (.inl hactive.2) (h.consistent.attempted job hread) (fun hcompleted => ?_) rfl rfl rfl
            exact h.consistent.completed job hread hcompleted
          · refine ⟨hlock, rfl, hactive.2, rfl, ?_, ?_, ?_⟩ <;> split <;>
              simp_all [Stage.fresh, Stage.holds, Stage.Knows]
          · exact (h.holds k' b hb).elsewhere (hothers k' b hne hb) (Free.ne hsound hb)
          · refine Bool.eq_false_iff.mpr fun hreplaces => ?_
            have hb' := h.holds k' b hb
            obtain ⟨own, other, alive⟩ := b
            cases other with
            | spawning latest | publishing latest workerPid =>
                exact absurd hb'.1 (Free.ne hsound hb)
            | _ => cases hreplaces
        next =>
          cases hnext
          exact hleft
      next =>
        cases hnext
        exact hleft
      all_goals contradiction
  | lockHeld =>
      cases hnext
      exact hleft
  | _ => cases hnext

theorem Inv.work (h : Inv m) (hactor : m.actors k = some ⟨own, .working job stage, true⟩)
    (hsound : Sound m (.turn k input))
    (hwork : work k m.shared job stage input = some (s', phase')) :
    Inv (m.set k s' ⟨own, phase', true⟩) := by
  have hruns : m.Runs k ⟨own, .working job stage, true⟩ := ⟨hactor, rfl⟩
  have hw : Works m.shared k own.pid job stage := h.holds k _ hruns
  have hworked := work_worked h.consistent hw hwork
  have hidle : ∀ k' b, m.Runs k' b → b.phase.replaces = false := by
    intro k' b hb
    refine Bool.eq_false_iff.mpr fun hreplaces => ?_
    cases h.idle k' b k _ hb hruns hreplaces
  refine h.set hworked.consistent hworked.holds (fun k' b hne hb => ?_) (fun hreplaces => ?_)
    fun _ k' b _ hb => hidle k' b hb
  · refine hworked.others hw hne (h.holds k' b hb) (fun hadmission => ?_) (hidle k' b hb)
    obtain hholds | rfl | hsame := hworked.admission
    · exact absurd (Option.some.inj (hadmission.symm.trans (hw.holds hholds))) hne
    · exact absurd hadmission (Free.ne hsound hb)
    · exact hsame.trans hadmission
  · obtain rfl | hworking := hworked.worker
    · cases hreplaces
    · rw [Phase.isWorking_of_replaces hreplaces] at hworking
      cases hworking

theorem Inv.request {control : Control ρ} (h : Inv m)
    (hactor : m.actors k = some ⟨.request pid control, phase, true⟩)
    (hsound : Sound m (.turn k input))
    (hrequest : request k pid control m.shared phase input = some (s', phase')) :
    Inv (m.set k s' ⟨.request pid control, phase', true⟩) := by
  have hruns : m.Runs k ⟨.request pid control, phase, true⟩ := ⟨hactor, rfl⟩
  have hself : Holds m.shared k pid phase := h.holds k _ hruns
  have hrequested := request_requested h.consistent hself
    (by rintro id deadline rfl; exact hsound) hrequest
  refine h.set hrequested.consistent hrequested.holds (fun k' b hne hb => ?_)
    (fun hreplaces k' b hne hb => ?_) fun hworking => ?_
  · refine hrequested.others hself hne (h.holds k' b hb) (fun hadmission => ?_)
      fun hreplaces => h.idle k _ k' b hruns hb hreplaces
    obtain hmine | rfl | hsame := hrequested.admission
    · exact absurd (Option.some.inj (hadmission.symm.trans hmine)) hne
    · exact absurd hadmission (Free.ne hsound hb)
    · exact hsame.trans hadmission
  · obtain hreplaced | ⟨latest, confirmedDead, rfl, rfl, hdead⟩ := hrequested.replaces hreplaces
    · exact h.idle k _ k' b hruns hb hreplaced
    · obtain ⟨own, other, alive⟩ := b
      cases other with
      | working job stage =>
          -- its worker would be the one that is recorded, and that one is dead
          have hw : Works m.shared k' own.pid job stage := h.holds k' _ hb
          obtain ⟨-, -, job', hread, hagrees, -⟩ := hself
          obtain rfl := Option.some.inj (hw.record.symm.trans hread)
          have hreported := hdead own.pid (hagrees.workerPid.trans hw.workerPid)
          rw [hsound k' _ hb] at hreported
          cases hreported
      | _ => rfl
  · rw [hrequested.request] at hworking
    cases hworking

theorem Inv.step {d : Deed κ (Own ι ρ) (Input ι)} (h : Inv m) (hsound : Sound m d)
    (hstep : processes.Step m d t) : Inv t := by
  cases d with
  | start k own =>
      obtain ⟨-, ⟨s', phase⟩, hdone, rfl⟩ := Role.step_start hstep
      cases own with
      | worker pid jobId | request pid control =>
          cases hdone
          exact h.set h.consistent trivial (fun k' b _ hb => h.holds k' b hb) nofun nofun
      | command pid control =>
          cases hdone
          refine h.set (h.consistent.activate rfl rfl rfl) trivial (fun k' b _ hb => ?_) nofun nofun
          exact (h.holds k' b hb).command (Free.ne hsound.1 hb) fun job => hsound.2 k' b job hb
  | turn k input =>
      obtain ⟨own, phase, ⟨s', phase'⟩, hactor, hdone, rfl⟩ := Role.step_turn hstep
      change next k own phase input m.shared = some (s', phase') at hdone
      cases own with
      | worker pid jobId =>
          cases phase with
          | arriving => exact h.arrive hactor (.inl rfl) hsound hdone
          | entered => exact h.arrive hactor (.inr rfl) hsound hdone
          | working job stage => exact h.work hactor hsound hdone
          | _ => cases hdone
      | request pid control => exact h.request hactor hsound hdone
      | command pid control => cases hdone
  | crash k =>
      obtain ⟨a, hactor, rfl⟩ := Role.step_crash hstep
      have hruns : ∀ k' b, (m.set k m.shared { a with alive := false }).Runs k' b →
          m.Runs k' b := by
        intro k' b hb
        obtain ⟨rfl, rfl⟩ | ⟨-, hother⟩ := Scene.actors_set hb.1
        · cases hb.2
        · exact ⟨hother, hb.2⟩
      exact
        { consistent := h.consistent
          holds := fun k' b hb => h.holds k' b (hruns k' b hb)
          idle := fun k₁ a₁ k₂ a₂ h₁ h₂ => h.idle k₁ a₁ k₂ a₂ (hruns _ _ h₁) (hruns _ _ h₂) }

/-- No write of a process changes the record of another job, but that a new one is filed in
the place of one that is finished. -/
theorem Inv.same_job {d : Deed κ (Own ι ρ) (Input ι)} (h : Inv m) (hsound : Sound m d)
    (hstep : processes.Step m d t) (hread : m.shared.record = some job) :
    ∃ job', t.shared.record = some job' ∧ (job'.id = job.id ∨
      job.status.active = false ∧ ∃ k deadline, d = .turn k (.file job'.id deadline)) := by
  cases d with
  | start k own =>
      obtain ⟨-, ⟨s', phase⟩, hdone, rfl⟩ := Role.step_start hstep
      cases own <;> cases hdone <;> exact ⟨job, hread, .inl rfl⟩
  | turn k input =>
      obtain ⟨own, phase, ⟨s', phase'⟩, hactor, hdone, rfl⟩ := Role.step_turn hstep
      change next k own phase input m.shared = some (s', phase') at hdone
      have hself := h.holds k _ ⟨hactor, rfl⟩
      cases own with
      | worker pid jobId =>
          cases phase with
          | working job₁ stage =>
              have hw : Works m.shared k pid job₁ stage := hself
              obtain ⟨written, hwritten, hagrees, -⟩ :=
                (work_worked h.consistent hw hdone).record
              obtain rfl := Option.some.inj (hread.symm.trans hw.record)
              exact ⟨written, hwritten, .inl hagrees.id⟩
          | arriving =>
              cases input <;> cases hdone <;> exact ⟨job, hread, .inl rfl⟩
          | entered =>
              cases input with
              | takeAdmission =>
                  simp only [next, hread] at hdone
                  split at hdone <;> cases hdone
                  · exact ⟨_, rfl, .inl rfl⟩
                  · exact ⟨job, rfl, .inl rfl⟩
              | lockHeld =>
                  cases hdone
                  exact ⟨job, hread, .inl rfl⟩
              | _ => cases hdone
          | _ => cases hdone
      | request pid control =>
          have hrequested := request_requested h.consistent hself
            (by rintro id deadline rfl; exact hsound) hdone
          obtain ⟨job', hwritten, hsame | ⟨hfinished, deadline, rfl⟩⟩ := hrequested.record job hread
          · exact ⟨job', hwritten, .inl hsame⟩
          · exact ⟨job', hwritten, .inr ⟨hfinished, k, deadline, rfl⟩⟩
      | command pid control => cases hdone
  | crash k =>
      obtain ⟨a, hactor, rfl⟩ := Role.step_crash hstep
      exact ⟨job, hread, .inl rfl⟩

/-- Nobody runs, and no job was filed yet. -/
structure Fresh (m : Machine κ ι ρ) : Prop where
  idle : ∀ k a, ¬m.Runs k a
  record : m.shared.record = none
  log : m.shared.log = [.active m.shared.control.active]

omit [DecidableEq ρ] [DecidableEq κ] in
theorem Fresh.inv (h : Fresh m) : Inv m where
  consistent :=
    { active_of_owed := by simp [h.log, owed]
      attempted := by simp [h.record]
      filed := by simp [h.log, stopPending]
      recorded := by simp [h.record]
      target := by simp [h.record]
      active := by simp [h.log]
      completed := by simp [h.record]
      once := by simp [h.log, StopsOnce] }
  holds k a ha := absurd ha (h.idle k a)
  idle k a _ _ ha := absurd ha (h.idle k a)

/-! ## A later request resumes the job -/

/-- The lock is held by nobody but by the dead. -/
def Abandoned (m : Machine κ ι ρ) (holder : Option κ) : Prop :=
  ∀ k ∈ holder, ∃ a, m.actors k = some a ∧ a.alive = false

/-- A request for the job by a process, and the worker it launches, which is about to start
the service again. -/
def Resumes (m : Machine κ ι ρ) (job : Job ι ρ) : Prop :=
  ∀ requester worker requestPid workerPid control, m.actors requester = none →
    m.actors worker = none → requester ≠ worker → Abandoned m m.shared.admission →
    Abandoned m m.shared.workerLock → (∀ pid, job.workerPid = some pid → pid ≠ requestPid ∧
      ∀ k a, m.Runs k a → a.own.pid ≠ pid) →
    ∃ deeds t, Run (Where processes.Step Sound) m
        (.start requester (.request requestPid control) :: deeds) t ∧
      ∃ job' result, t.shared.record = some job' ∧ job'.id = job.id ∧
        t.Runs worker ⟨.worker workerPid (some job.id), .working job' (.starting result), true⟩

variable {a : Actor (Own ι ρ) (Phase ι ρ)} {shared shared' : Shared κ ι ρ}
variable {deeds : List (Deed κ (Own ι ρ) (Input ι))}

/-- A run of one process, one step further. -/
theorem turn (input : Input ι)
    (hrun : Run (Where processes.Step Sound) m deeds (m.set k shared ⟨own, phase, true⟩))
    (hsound : Sound (m.set k shared ⟨own, phase, true⟩) (.turn k input))
    (hnext : next k own phase input shared = some (shared', phase')) :
    Run (Where processes.Step Sound) m (deeds ++ [.turn k input])
      (m.set k shared' ⟨own, phase', true⟩) := by
  refine .snoc hrun ⟨hsound, ?_⟩
  simp [Role.Step, Role.perform, processes, hnext]

omit [DecidableEq ι] [DecidableEq ρ] in
/-- An abandoned lock can be had by who was started after it was taken. -/
theorem Abandoned.free {holder : Option κ} (h : Abandoned m holder) (hnone : m.actors k = none) :
    Free (m.set k shared a) holder := by
  intro k' hk' b hb
  obtain ⟨c, hc, hdead⟩ := h k' hk'
  obtain ⟨rfl, rfl⟩ | ⟨-, hactor⟩ := Scene.actors_set hb.1
  · rw [hc] at hnone
    cases hnone
  · obtain rfl := Option.some.inj (hc.symm.trans hactor)
    rw [hb.2] at hdead
    cases hdead

omit [DecidableEq ι] [DecidableEq ρ] in
theorem Abandoned.set {holder : Option κ} (h : Abandoned m holder) (hnone : m.actors k = none) :
    Abandoned (m.set k shared a) holder := by
  intro k' hk'
  obtain ⟨c, hc, hdead⟩ := h k' hk'
  refine ⟨c, ?_, hdead⟩
  rw [Scene.set_other, hc]
  rintro rfl
  rw [hc] at hnone
  cases hnone

/-- A request joins an active job whose worker is dead, and records the worker it launches. -/
theorem relaunched (requestPid : Nat) (control : Control ρ) (workerPid : Nat)
    (hread : m.shared.record = some job) (hactive : job.status.active = true)
    (hnone : m.actors k = none) (hadmission : Abandoned m m.shared.admission)
    (hdead : ∀ pid, job.workerPid = some pid → pid ≠ requestPid ∧
      ∀ k a, m.Runs k a → a.own.pid ≠ pid) :
    ∃ deeds, Run (Where processes.Step Sound) m
      (.start k (.request requestPid control) :: deeds)
      (m.set k { m.shared with
        record := some { job with workerPid := some workerPid }
        admission := none } ⟨.request requestPid control, .done, true⟩) := by
  have hstart : Run (Where processes.Step Sound) m [.start k (.request requestPid control)]
      (m.set k m.shared ⟨.request requestPid control, .asking, true⟩) :=
    .single ⟨trivial, by simp [Role.Step, Role.perform, hnone, processes]⟩
  let report : Nat → Bool := fun pid => job.workerPid = some pid
  let held : Shared κ ι ρ := { m.shared with admission := some k }
  have hjoin : Run (Where processes.Step Sound) m _
      (m.set k m.shared ⟨.request requestPid control, .joining, true⟩) :=
    turn .declines hstart trivial (by simp [next, request, hread, hactive])
  have hlaunch : Run (Where processes.Step Sound) m _
      (m.set k held ⟨.request requestPid control, .launching job, true⟩) :=
    turn .takeAdmission hjoin (hadmission.free hnone)
      (by simp [next, request, hread, hactive, held])
  have htruthful : ∀ k' a, (m.set k held ⟨.request requestPid control, .launching job, true⟩).Runs
      k' a → report a.own.pid = false := by
    intro k' a ha
    refine Bool.eq_false_iff.mpr fun hreported => ?_
    obtain ⟨hne, hnot⟩ := hdead a.own.pid (of_decide_eq_true hreported)
    obtain ⟨rfl, rfl⟩ | ⟨-, hactor⟩ := Scene.actors_set ha.1
    · exact hne rfl
    · exact hnot k' a ⟨hactor, ha.2⟩ rfl
  have hspawn : Run (Where processes.Step Sound) m _
      (m.set k held ⟨.request requestPid control, .spawning job, true⟩) :=
    turn (.report report) hlaunch htruthful
      (by cases hpid : job.workerPid <;> simp [next, request, hpid, report])
  have hpublish : Run (Where processes.Step Sound) m _
      (m.set k held ⟨.request requestPid control, .publishing job workerPid, true⟩) :=
    turn (.spawned workerPid) hspawn trivial rfl
  exact ⟨_, turn .go hpublish trivial rfl⟩

/-- A worker that finds a stop attempted goes on to start the service again. -/
theorem restarts (workerPid : Nat) (hread : m.shared.record = some job)
    (hactive : job.status.active = true) (hattempted : job.attempted ≠ [])
    (hnone : m.actors k = none) (hadmission : Abandoned m m.shared.admission)
    (hlock : Abandoned m m.shared.workerLock) :
    ∃ deeds t, Run (Where processes.Step Sound) m deeds t ∧
      ∃ job' result, t.shared.record = some job' ∧ job'.id = job.id ∧
        t.Runs k ⟨.worker workerPid (some job.id), .working job' (.starting result), true⟩ := by
  let launched : Job ι ρ := { job with workerPid := some workerPid }
  let restarting : Job ι ρ := { launched with
    status := .restarting
    reasonCode := some "maintenance_interrupted" }
  let held : Shared κ ι ρ := { m.shared with workerLock := some k }
  have hstart : Run (Where processes.Step Sound) m [.start k (.worker workerPid (some job.id))]
      (m.set k m.shared ⟨.worker workerPid (some job.id), .arriving, true⟩) :=
    .single ⟨trivial, by simp [Role.Step, Role.perform, hnone, processes]⟩
  have harrive : Run (Where processes.Step Sound) m _
      (m.set k held ⟨.worker workerPid (some job.id), .entered, true⟩) :=
    turn .takeWorkerLock hstart (hlock.free hnone) rfl
  have henter : Run (Where processes.Step Sound) m _
      (m.set k (held.save launched)
        ⟨.worker workerPid (some job.id), .working launched .recovering, true⟩) :=
    turn .takeAdmission harrive (hadmission.free hnone)
      (by simp [next, held, hread, hactive, hattempted, launched])
  have hrecover : Run (Where processes.Step Sound) m _
      (m.set k (held.save launched)
        ⟨.worker workerPid (some job.id), .working launched (interrupted false), true⟩) :=
    turn (.throws none) henter trivial rfl
  have hrestore : Run (Where processes.Step Sound) m _
      (m.set k (held.save restarting) ⟨.worker workerPid (some job.id),
        .working restarting (.starting ⟨false, some "maintenance_interrupted", none⟩), true⟩) :=
    turn .go hrecover trivial rfl
  exact ⟨_, _, hrestore, restarting, _, rfl, rfl, Scene.set_self, rfl⟩

/-- What is owed a start says so in an active record, which a later request resumes. -/
theorem Inv.resumes (h : Inv m) (hread : m.shared.record = some job)
    (howed : owed job.id m.shared.log = true) : Resumes m job := by
  intro requester worker requestPid workerPid control hrequester hworker hne hadmission hlock hdead
  obtain ⟨job', hread', -, hactive⟩ := h.consistent.active_of_owed job.id howed
  obtain rfl := Option.some.inj (hread.symm.trans hread')
  have hattempted : job.attempted ≠ [] := by
    intro hnone
    have hpending := h.consistent.attempted job hread hnone
    rw [stopPending_of_owed howed] at hpending
    cases hpending
  obtain ⟨deeds, hrun⟩ := relaunched requestPid control workerPid hread hactive hrequester
    hadmission hdead
  let launched : Job ι ρ := { job with workerPid := some workerPid }
  let left := m.set requester { m.shared with
    record := some launched
    admission := none } ⟨.request requestPid control, .done, true⟩
  have hread₂ : left.shared.record = some launched := rfl
  obtain ⟨deeds', t, hrun', hstarting⟩ := restarts workerPid hread₂ hactive hattempted
    ((Scene.set_other hne.symm).trans hworker) (fun _ => nofun) (hlock.set hrequester)
  exact ⟨deeds ++ deeds', t, hrun.append hrun', hstarting⟩

/-! ## The claim -/

/-- In every run of workers and requests, a stop is called again only if the call before it
attempted none; a job that is over is owed no start, and one that is owed a start has an
active record that a later request resumes; a job is completed only if its target was
activated; and no write changes the record of another job. -/
theorem maintenance_restores (hfresh : Fresh m)
    (hrun : Run (Where processes.Step Sound) m deeds t) :
    StopsOnce t.shared.log ∧
    (∀ job, t.shared.record = some job → job.status.active = false →
      owed job.id t.shared.log = false) ∧
    (∀ id, owed id t.shared.log = true → ∃ job, t.shared.record = some job ∧ job.id = id ∧
      job.status.active = true ∧ Resumes t job) ∧
    (∀ job, t.shared.record = some job → job.status = .completed →
      .active job.target ∈ t.shared.log) ∧
    (∀ d u job, Where processes.Step Sound t d u → t.shared.record = some job →
      ∃ job', u.shared.record = some job' ∧ (job'.id = job.id ∨
        job.status.active = false ∧ ∃ k deadline, d = .turn k (.file job'.id deadline))) := by
  have hinv : Inv t := hrun.invariant (fun _ _ _ h hstep => h.step hstep.1 hstep.2) hfresh.inv
  refine ⟨hinv.consistent.once, ?_, ?_, hinv.consistent.completed, ?_⟩
  · intro job hread hover
    refine Bool.eq_false_iff.mpr fun howed => ?_
    obtain ⟨job', hread', -, hactive⟩ := hinv.consistent.active_of_owed job.id howed
    obtain rfl := Option.some.inj (hread.symm.trans hread')
    rw [hactive] at hover
    cases hover
  · intro id howed
    obtain ⟨job, hread, rfl, hactive⟩ := hinv.consistent.active_of_owed id howed
    exact ⟨job, hread, rfl, hactive, hinv.resumes hread howed⟩
  · intro d u job hstep hread
    exact hinv.same_job hstep.1 hstep.2 hread

end Safety

namespace Example

def control : Control Nat := ⟨1, some 2, "/home", ["codex"], true, none, true⟩

def machine : Machine Nat Nat Nat := ⟨⟨none, control, none, none, [.active 1]⟩, fun _ => none⟩

def requester : Own Nat Nat := .request 100 control

def worker : Own Nat Nat := .worker 200 (some 7)

/-- The record once the request is done. -/
def requested : Job Nat Nat := { newJob control "codex" 100 7 900 with workerPid := some 200 }

def filed : Shared Nat Nat Nat := ⟨some requested, control, none, none, [.filed 7, .active 1]⟩

/-- The record with the checkpoint. -/
def attempted : Job Nat Nat := { requested with status := .stopping, attempted := ["codex"] }

def stopped : Shared Nat Nat Nat :=
  ⟨some attempted, control, some 1, some 1, [.stop 7, .filed 7, .active 1]⟩

theorem request_run : ∃ deeds, Run (Where processes.Step Sound) machine deeds
    (machine.set 0 filed ⟨requester, .done, true⟩) := by
  have hstart : Run (Where processes.Step Sound) machine [.start 0 requester]
      (machine.set 0 machine.shared ⟨requester, .asking, true⟩) := .single ⟨trivial, rfl⟩
  have hconsent := turn (.consent "codex") hstart trivial rfl
  have hadmit := turn .takeAdmission hconsent (fun _ => nofun) rfl
  have hsame := turn .go hadmit trivial rfl
  have hfile := turn (.file 7 900) hsame (by simp [Sound, machine]) rfl
  have hreport := turn (.report fun _ => false) hfile (fun _ _ _ => rfl) rfl
  have hspawn := turn (.spawned 200) hreport trivial rfl
  exact ⟨_, turn .go hspawn trivial rfl⟩

/-- The worker that was launched calls `stopForMaintenance`. -/
theorem stop_run : ∃ deeds, Run (Where processes.Step Sound) machine deeds
    ((machine.set 0 filed ⟨requester, .done, true⟩).set 1 stopped
      ⟨worker, .working attempted (.stopped true), true⟩) := by
  obtain ⟨deeds, hrequest⟩ := request_run
  have hstart : Run (Where processes.Step Sound) (machine.set 0 filed ⟨requester, .done, true⟩)
      [.start 1 worker] ((machine.set 0 filed ⟨requester, .done, true⟩).set 1 filed
        ⟨worker, .arriving, true⟩) := .single ⟨trivial, rfl⟩
  have harrive := turn .takeWorkerLock hstart (fun _ => nofun) rfl
  have henter := turn .takeAdmission harrive (fun _ => nofun) rfl
  have hwake := turn (.wake 0 fun _ => true) henter trivial rfl
  have hattempt := turn .go hwake trivial rfl
  have hadmit := turn .takeAdmission hattempt (fun _ => nofun) rfl
  have hready := turn .ready hadmit trivial rfl
  exact ⟨_, hrequest.append (turn .go hready trivial rfl)⟩

theorem maintenance_restores_stopped :
    ∃ deeds t, Run (Where processes.Step Sound) machine deeds t ∧ owed 7 t.shared.log = true ∧
      ∃ job, t.shared.record = some job ∧ job.status.active = true ∧ Resumes t job := by
  obtain ⟨deeds, hrun⟩ := stop_run
  have hfresh : Fresh machine := ⟨(fun _ _ h => nomatch h.1), rfl, rfl⟩
  obtain ⟨job, hread, -, hactive, hresumes⟩ := (maintenance_restores hfresh hrun).2.2.1 7 rfl
  exact ⟨deeds, _, hrun, rfl, job, hread, hactive, hresumes⟩

end Example

end Acc.ManagedRuntime.Maintenance
