import AgentsCanCommunicate.Installer.NativeActivation
import AgentsCanCommunicate.Library.Visits

/-!
# Sender grants follow the receivers

A sender that sandboxes its shell needs a loopback grant as long as the live policy
of some receiver declares a loopback listener.  A run writes the senders it installs
for the policies it plans to leave, and refreshes the installed senders it does not
name when what was recorded has changed the declaration.

The two agree when the run leaves what it planned.  When a receiver fails after a
sender was written for it, or a sender is named and then skipped, the grant is not
the one the records call for (`grants_follow_receivers`).
-/

namespace Acc.Cli

open Library (Run Where visit)
open Acc.Installer.NativeActivation (LivePolicy Activation Recorded Request nativeActivation
  retainedActivation recordedActivation)

/-! ## Records and plans -/

/-- The record of an install. -/
structure Install (ν : Type) where
  version : ν
  deliveryPolicy : LivePolicy
  nativeActivation : Option (Activation Recorded)
deriving DecidableEq

/-- The native permission units in a sender's config. -/
inductive Units where
  | absent
  | customized
  /-- They are ACC's, with the loopback grant or without. -/
  | owned (loopback : Bool)
deriving DecidableEq

/-- What an adapter declares: its loopback listener under the live policies, and whether
it refreshes the permissions of a sandboxed sender. -/
structure Adapter (ι : Type) where
  inboundLoopback : Option ((ι → LivePolicy) → Bool)
  refreshesSender : Bool

/-- An adapter on the machine: its record, its permission units, whether the user's own
part of its config is a policy of its own, and whether its last install or refresh
failed. -/
structure Client (ν : Type) where
  installed : Option (Install ν)
  units : Units
  custom : Bool
  failed : Bool
deriving DecidableEq

/-- How an operation or a refresh ends; one that fails may have written its config. -/
inductive Outcome where
  | succeeds
  | fails (written : Bool)
deriving DecidableEq

/-- What an operation does; `current` when the rest of the sender's profile is already as
it would be written. -/
inductive Change (ν : Type) where
  | install (request : Request) (version : ν) (current : Bool)
  | uninstall
deriving DecidableEq

structure Operation (ι ν : Type) where
  adapterId : ι
  change : Change ν
  outcome : Outcome
deriving DecidableEq

/-- A run: the adapters it names, the operations on those it does not skip, and for each
sender whether a refresh would find the rest of its profile current, and how it would
end. -/
structure RunOf (ι ν : Type) where
  named : List ι
  operations : List (Operation ι ν)
  refreshed : ι → Bool × Outcome

/-- The plan has one operation for an adapter, all of one action, and only for those
that are named. -/
structure RunOf.Planned {ι ν : Type} (run : RunOf ι ν) : Prop where
  nodup : (run.operations.map (·.adapterId)).Nodup
  named : ∀ o ∈ run.operations, o.adapterId ∈ run.named
  action : (∀ o ∈ run.operations, o.change = .uninstall) ∨
    ∀ o ∈ run.operations, o.change ≠ .uninstall

section Model

variable {ι ν : Type} [DecidableEq ι]
variable (all : List ι) (adapter : ι → Adapter ι) (supported : ν → Bool)

def livePolicyOf (install : Install ν) : LivePolicy := install.deliveryPolicy

def activated (activation : Option (Activation Recorded)) : LivePolicy :=
  (activation.map (·.livePolicy)).getD .off

/-- What one record says in `recordedLivePolicies`. -/
def recordedLivePolicy : Option (Install ν) → LivePolicy
  | some install =>
      if livePolicyOf install = .off then .off else activated install.nativeActivation
  | none => .off

def recordedLivePolicies (s : ι → Client ν) (a : ι) : LivePolicy :=
  recordedLivePolicy (s a).installed

/-- What a planned operation leaves behind. -/
def plannedLivePolicy (previous : Option (Install ν)) : Change ν → LivePolicy
  | .install request _ _ =>
      ((nativeActivation request).map (·.livePolicy)).getD
        (activated (retainedActivation (previous.bind (·.nativeActivation)) request))
  | .uninstall => .off

/-- Some adapter declares a loopback listener. -/
def receiverLoopback (livePolicies : ι → LivePolicy) : Bool :=
  all.any fun a => (adapter a).inboundLoopback.any fun declares => declares livePolicies

/-- The policies that operations leave when they all succeed. -/
def policiesAfter (s : ι → Client ν) (operations : List (Operation ι ν)) : ι → LivePolicy :=
  visit (·.adapterId) (fun o _ => plannedLivePolicy (s o.adapterId).installed o.change)
    (recordedLivePolicies s) operations

/-! ## Applying -/

/-- `prepareLivePermissions`, of what matters to the loopback grant. -/
def prepareLivePermissions (client : Client ν) (requested supported current loopback : Bool) :
    Units :=
  match client.units with
  | .customized => .customized
  | .absent =>
      if requested && supported && !client.custom then .owned loopback else .absent
  | .owned granted =>
      let configured := current && granted == loopback
      let stale := supported && !configured && !client.custom
      if !requested && !stale then .owned granted
      else if !supported then .owned granted
      else if configured then .owned granted
      else if client.custom then .absent
      else .owned loopback

/-- `removeLivePermissions`. -/
def removeLivePermissions : Units → Units
  | .owned _ => .absent
  | units => units

/-- The units after a config was to be written. -/
def Outcome.write (before prepared : Units) : Outcome → Units
  | succeeds | fails true => prepared
  | fails false => before

/-- An operation of `applyPlan`, with the declaration of the planned policies. -/
def applyOperation (planned : Bool) (o : Operation ι ν) (client : Client ν) : Client ν :=
  match o.change with
  | .install request version current =>
      let prepared := if (adapter o.adapterId).refreshesSender then
          prepareLivePermissions client (request.delivery ≠ .off) (supported version) current
            planned
        else client.units
      { client with
        units := o.outcome.write client.units prepared
        failed := o.outcome ≠ .succeeds
        installed := if o.outcome = .succeeds then
            some ⟨version, request.delivery,
              recordedActivation (client.installed.bind (·.nativeActivation)) request⟩
          else client.installed }
  | .uninstall =>
      { client with
        units := o.outcome.write client.units (removeLivePermissions client.units)
        installed := if o.outcome = .succeeds then none else client.installed }

/-- `refreshSenderPermissions`, which touches nothing but units that are owned. -/
def refreshSenderPermissions (client : Client ν) (record : Install ν) (current loopback : Bool) :
    Units :=
  match client.units with
  | .owned _ =>
      prepareLivePermissions client (livePolicyOf record ≠ .off) (supported record.version) current
        loopback
  | units => units

/-- What `refreshSenders` does with one adapter. -/
def refreshSender (run : RunOf ι ν) (loopback : Bool) (a : ι) (client : Client ν) : Client ν :=
  match client.installed with
  | some record =>
      if (adapter a).refreshesSender && decide (a ∉ run.named) then
        let prepared :=
          refreshSenderPermissions supported client record (run.refreshed a).1 loopback
        { client with
          units := (run.refreshed a).2.write client.units prepared
          failed := (run.refreshed a).2 ≠ .succeeds }
      else client
  | none => client

def applyPlan (s : ι → Client ν) (run : RunOf ι ν) : ι → Client ν :=
  visit (·.adapterId)
    (applyOperation adapter supported
      (receiverLoopback all adapter (policiesAfter s run.operations)))
    s run.operations

def refreshSenders (run : RunOf ι ν) (s : ι → Client ν) : ι → Client ν :=
  visit id
    (refreshSender adapter supported run (receiverLoopback all adapter (recordedLivePolicies s)))
    s all

/-- `runInstallCommand`, from the plan on. -/
def runInstallCommand (s : ι → Client ν) (run : RunOf ι ν) : ι → Client ν :=
  let left := applyPlan all adapter supported s run
  if receiverLoopback all adapter (recordedLivePolicies left)
      ≠ receiverLoopback all adapter (recordedLivePolicies s) then
    refreshSenders all adapter supported run left
  else left

def Step (s : ι → Client ν) (run : RunOf ι ν) (t : ι → Client ν) : Prop :=
  run.Planned ∧ t = runInstallCommand all adapter supported s run

/-! ## What is claimed, and when it holds -/

/-- Nothing was installed yet. -/
def Fresh (s : ι → Client ν) : Prop :=
  ∀ a, (s a).installed = none ∧ (∀ granted, (s a).units ≠ .owned granted) ∧ (s a).failed = false

/-- The declaration that the records make. -/
def declared (s : ι → Client ν) : Bool := receiverLoopback all adapter (recordedLivePolicies s)

/-- A sender has ACC's units, with the grant or without, at a supported recorded version. -/
def Client.Grants (client : Client ν) (granted : Bool) : Prop :=
  (∃ record, client.installed = some record ∧ supported record.version) ∧
    client.units = .owned granted

/-- Such a sender holds the grant exactly when the recorded policies declare a receiver. -/
def Follows (s : ι → Client ν) (a : ι) : Prop :=
  ∀ granted, (s a).Grants supported granted → granted = declared all adapter s

/-- The declaration that the plan predicts. -/
def declaredByPlan (s : ι → Client ν) (run : RunOf ι ν) : Bool :=
  receiverLoopback all adapter (policiesAfter s run.operations)

/-- The declaration once the operations that succeed are recorded. -/
def declaredAfter (s : ι → Client ν) (run : RunOf ι ν) : Bool :=
  receiverLoopback all adapter
    (policiesAfter s (run.operations.filter fun o => o.outcome = .succeeds))

/-- The run refreshes the sender. -/
def Refreshes (s : ι → Client ν) (run : RunOf ι ν) (a : ι) : Prop :=
  declaredAfter all adapter s run ≠ declared all adapter s ∧ a ∉ run.named

/-- The sender's own install or refresh fails in the run. -/
def Fails (s : ι → Client ν) (run : RunOf ι ν) (a : ι) : Prop :=
  (∃ o ∈ run.operations, o.adapterId = a ∧ o.change ≠ .uninstall ∧ o.outcome ≠ .succeeds) ∨
    Refreshes all adapter s run a ∧ (run.refreshed a).2 ≠ .succeeds

/-- The run leaves the sender's config as it is: it skips the sender, or fails to uninstall
it, and does not refresh it. -/
def Untouched (s : ι → Client ν) (run : RunOf ι ν) (a : ι) : Prop :=
  (∀ o ∈ run.operations, o.adapterId = a → o.change = .uninstall ∧ o.outcome = .fails false) ∧
    ¬ Refreshes all adapter s run a

/-- What the plan predicted is left wherever a sender is written for it, and nothing changes
for the senders the run leaves as they are. -/
structure Foreseen (s : ι → Client ν) (run : RunOf ι ν) : Prop where
  /-- A sender that is installed with ACC's units is written for what the run leaves. -/
  written : ∀ o ∈ run.operations, (adapter o.adapterId).refreshesSender → o.outcome = .succeeds →
    ∀ request version current, o.change = .install request version current → supported version →
      (s o.adapterId).custom = false → (s o.adapterId).units ≠ .customized →
      ((s o.adapterId).units = .absent → request.delivery ≠ .off) →
      declaredByPlan all adapter s run = declaredAfter all adapter s run
  untouched : ∀ a, (adapter a).refreshesSender → Untouched all adapter s run a →
    (s a).failed = false → (∃ granted, (s a).Grants supported granted) →
    declaredAfter all adapter s run = declared all adapter s

/-- A sender whose last install or refresh failed is written again, or has the grant that
the run calls for. -/
def Retried (s : ι → Client ν) (run : RunOf ι ν) : Prop :=
  ∀ a, (adapter a).refreshesSender → Untouched all adapter s run a → (s a).failed = true →
    ∀ granted, (s a).Grants supported granted → granted = declaredAfter all adapter s run

/-- No policy of the user's own is around ACC's units. -/
def Client.Plain (client : Client ν) : Prop :=
  ∀ granted, client.units = .owned granted → client.custom = false

/-- The invariant of a run: each sender whose last install or refresh did not fail follows
the receivers. -/
structure Inv (s : ι → Client ν) : Prop where
  plain : ∀ a, (s a).Plain
  follows : ∀ a, (adapter a).refreshesSender → (s a).failed = false →
    Follows all adapter supported s a

/-! ## What a run records -/

variable {all adapter supported}
variable {s t : ι → Client ν} {run : RunOf ι ν} {o : Operation ι ν} {a : ι}

omit [DecidableEq ι] in
theorem recordedLivePolicy_applyOperation (planned : Bool) (client : Client ν) :
    recordedLivePolicy (applyOperation adapter supported planned o client).installed
      = if o.outcome = .succeeds then plannedLivePolicy client.installed o.change
        else recordedLivePolicy client.installed := by
  unfold applyOperation
  split
  next request version current hchange =>
    dsimp only
    split
    · rw [hchange, plannedLivePolicy, recordedLivePolicy, livePolicyOf, recordedActivation]
      by_cases hoff : request.delivery = .off
      · simp [hoff, nativeActivation, retainedActivation, activated]
        split <;> simp
      · cases hnative : nativeActivation request with
        | none => simp [hoff]
        | some activation => simp [hoff, activated]
    · rfl
  next hchange =>
    dsimp only
    split
    · rw [hchange]
      rfl
    · rfl

omit [DecidableEq ι] in
theorem RunOf.Planned.filter (hrun : run.Planned) (p : Operation ι ν → Bool) :
    ((run.operations.filter p).map (·.adapterId)).Nodup :=
  hrun.nodup.sublist (List.filter_sublist.map _)

/-- An adapter with no operation keeps its policy. -/
theorem policiesAfter_of_notMem {operations : List (Operation ι ν)}
    (h : ∀ o ∈ operations, o.adapterId ≠ a) :
    policiesAfter s operations a = recordedLivePolicies s a := by
  rw [policiesAfter]
  refine Library.visit_of_notMem fun hmem => ?_
  obtain ⟨o, ho, ha⟩ := List.mem_map.mp hmem
  exact h o ho ha

theorem policiesAfter_of_mem {operations : List (Operation ι ν)}
    (hnodup : (operations.map (·.adapterId)).Nodup) (ho : o ∈ operations) :
    policiesAfter s operations o.adapterId
      = plannedLivePolicy (s o.adapterId).installed o.change := by
  rw [policiesAfter]
  exact Library.visit_of_mem hnodup ho

/-- An adapter with no operation is left as it was. -/
theorem applyPlan_of_notMem (h : ∀ o ∈ run.operations, o.adapterId ≠ a) :
    applyPlan all adapter supported s run a = s a := by
  rw [applyPlan]
  refine Library.visit_of_notMem fun hmem => ?_
  obtain ⟨o, ho, ha⟩ := List.mem_map.mp hmem
  exact h o ho ha

/-- The operation on an adapter decides what becomes of it. -/
theorem applyPlan_of_mem (hrun : run.Planned) (ho : o ∈ run.operations) :
    applyPlan all adapter supported s run o.adapterId
      = applyOperation adapter supported (declaredByPlan all adapter s run) o (s o.adapterId) := by
  rw [applyPlan]
  exact Library.visit_of_mem hrun.nodup ho

/-- The records that a plan leaves are those of the operations that succeed. -/
theorem recordedLivePolicies_applyPlan (hrun : run.Planned) :
    recordedLivePolicies (applyPlan all adapter supported s run)
      = policiesAfter s (run.operations.filter fun o => o.outcome = .succeeds) := by
  funext a
  rw [recordedLivePolicies]
  by_cases h : ∃ o ∈ run.operations, o.adapterId = a
  · obtain ⟨o, ho, rfl⟩ := h
    rw [applyPlan_of_mem hrun ho, recordedLivePolicy_applyOperation]
    split
    next hsucceeds =>
      have hmem : o ∈ run.operations.filter fun o => o.outcome = .succeeds :=
        List.mem_filter.mpr ⟨ho, decide_eq_true hsucceeds⟩
      rw [policiesAfter_of_mem (hrun.filter _) hmem]
    next hfails =>
      rw [policiesAfter_of_notMem, recordedLivePolicies]
      intro o' ho' hid
      obtain ⟨ho', hsucceeds⟩ := List.mem_filter.mp ho'
      rw [List.inj_on_of_nodup_map hrun.nodup ho' ho hid] at hsucceeds
      exact hfails (of_decide_eq_true hsucceeds)
  · rw [applyPlan_of_notMem fun o ho ha => h ⟨o, ho, ha⟩,
      policiesAfter_of_notMem fun o ho ha => h ⟨o, (List.mem_filter.mp ho).1, ha⟩,
      recordedLivePolicies]

theorem declared_applyPlan (hrun : run.Planned) :
    declared all adapter (applyPlan all adapter supported s run)
      = declaredAfter all adapter s run := by
  rw [declared, recordedLivePolicies_applyPlan hrun, declaredAfter]

@[simp] theorem refreshSender_installed (loopback : Bool) (client : Client ν) :
    (refreshSender adapter supported run loopback a client).installed = client.installed := by
  unfold refreshSender
  split
  · split <;> rfl
  · rfl

theorem refreshSenders_installed (a : ι) :
    (refreshSenders all adapter supported run s a).installed = (s a).installed :=
  Library.visit_induction (P := fun a (client : Client ν) => client.installed = (s a).installed)
    (fun _ => rfl) (fun _ _ _ h => by rw [refreshSender_installed, h, id]) a

theorem recordedLivePolicies_refreshSenders :
    recordedLivePolicies (refreshSenders all adapter supported run s) = recordedLivePolicies s := by
  funext a
  rw [recordedLivePolicies, refreshSenders_installed, recordedLivePolicies]

/-! ## What becomes of an adapter -/

theorem refreshSenders_apply (hall : all.Nodup) (hmem : a ∈ all) :
    refreshSenders all adapter supported run s a
      = refreshSender adapter supported run (declared all adapter s) a (s a) := by
  have hnodup : (all.map id).Nodup := by rwa [List.map_id]
  rw [refreshSenders]
  exact Library.visit_of_mem hnodup hmem

theorem runInstallCommand_eq (hrun : run.Planned) :
    runInstallCommand all adapter supported s run
      = if declaredAfter all adapter s run ≠ declared all adapter s then
          refreshSenders all adapter supported run (applyPlan all adapter supported s run)
        else applyPlan all adapter supported s run := by
  have hdeclared : declared all adapter (applyPlan all adapter supported s run)
      = declaredAfter all adapter s run := declared_applyPlan hrun
  rw [← hdeclared]
  rfl

/-- The declaration after a run is that of the operations that succeed. -/
theorem declared_runInstallCommand (hrun : run.Planned) :
    declared all adapter (runInstallCommand all adapter supported s run)
      = declaredAfter all adapter s run := by
  rw [runInstallCommand_eq hrun]
  split
  · rw [declared, recordedLivePolicies_refreshSenders, ← declared, declared_applyPlan hrun]
  · exact declared_applyPlan hrun

/-- What a run makes of an adapter, once its operation is done. -/
theorem runInstallCommand_apply (hall : all.Nodup) (hmem : a ∈ all) (hrun : run.Planned) :
    runInstallCommand all adapter supported s run a
      = if declaredAfter all adapter s run ≠ declared all adapter s then
          refreshSender adapter supported run (declaredAfter all adapter s run) a
            (applyPlan all adapter supported s run a)
        else applyPlan all adapter supported s run a := by
  rw [runInstallCommand_eq hrun]
  split
  · rw [refreshSenders_apply hall hmem, declared_applyPlan hrun]
  · rfl

omit [DecidableEq ι] in
/-- Units that are prepared for a sender are without a policy of its own, and at a supported
version they are written for the declaration. -/
theorem prepareLivePermissions_owned {client : Client ν} {requested supported current loopback
    granted : Bool} (hplain : client.Plain)
    (h : prepareLivePermissions client requested supported current loopback = .owned granted) :
    client.custom = false ∧ (supported = true → granted = loopback) ∧
      client.units ≠ .customized ∧ (client.units = .absent → requested = true) := by
  unfold prepareLivePermissions at h
  cases hunits : client.units with
  | customized =>
      rw [hunits] at h
      cases h
  | absent =>
      rw [hunits] at h
      dsimp only at h
      split at h
      next hwritten =>
        cases h
        simp_all
      next => cases h
  | owned before =>
      have hcustom := hplain before hunits
      rw [hunits] at h
      simp only [hcustom, Bool.not_false, Bool.and_true] at h
      refine ⟨hcustom, fun hsupported => ?_, by simp, by simp⟩
      subst hsupported
      cases hconfigured : current && before == loopback <;> simp_all

theorem Outcome.write_owned {outcome : Outcome} {before prepared : Units} {granted : Bool}
    (h : outcome.write before prepared = .owned granted) :
    prepared = .owned granted ∨ before = .owned granted ∧ outcome = .fails false := by
  match outcome with
  | .succeeds | .fails true => exact .inl h
  | .fails false => exact .inr ⟨h, rfl⟩

theorem removeLivePermissions_ne_owned (units : Units) (granted : Bool) :
    removeLivePermissions units ≠ .owned granted := by
  cases units <;> simp [removeLivePermissions]

omit [DecidableEq ι] in
theorem applyOperation_plain {planned : Bool} {client : Client ν} (hplain : client.Plain) :
    (applyOperation adapter supported planned o client).Plain := by
  intro granted h
  unfold applyOperation at h ⊢
  split at h
  next =>
    dsimp only at h ⊢
    obtain hprepared | ⟨hbefore, -⟩ := Outcome.write_owned h
    · split at hprepared
      · exact (prepareLivePermissions_owned hplain hprepared).1
      · exact hplain _ hprepared
    · exact hplain _ hbefore
  next =>
    dsimp only at h ⊢
    obtain hremoved | ⟨hbefore, -⟩ := Outcome.write_owned h
    · exact absurd hremoved (removeLivePermissions_ne_owned _ _)
    · exact hplain _ hbefore

omit [DecidableEq ι] in
/-- A sender with ACC's units after its operation was written for the plan's declaration,
failed, or was not uninstalled. -/
theorem applyOperation_grants {planned granted : Bool} {client : Client ν}
    (hplain : client.Plain) (hsender : (adapter o.adapterId).refreshesSender)
    (h : (applyOperation adapter supported planned o client).Grants supported granted) :
    (∃ request version current, o.change = .install request version current ∧
      (o.outcome ≠ .succeeds ∨ o.outcome = .succeeds ∧ supported version ∧
        client.custom = false ∧ client.units ≠ .customized ∧
        (client.units = .absent → request.delivery ≠ .off) ∧ granted = planned)) ∨
    o.change = .uninstall ∧ o.outcome = .fails false := by
  obtain ⟨⟨record, hinstalled, hsupported⟩, hunits⟩ := h
  unfold applyOperation at hinstalled hunits
  split at hinstalled
  next request version current hchange =>
    rw [hchange] at hunits
    dsimp only at hinstalled hunits
    refine .inl ⟨request, version, current, hchange, ?_⟩
    by_cases hsucceeds : o.outcome = .succeeds
    · rw [if_pos hsucceeds, Option.some.injEq] at hinstalled
      subst hinstalled
      rw [hsucceeds, if_pos hsender] at hunits
      obtain ⟨hcustom, hloopback, hcustomized, hrequested⟩ :=
        prepareLivePermissions_owned hplain hunits
      exact .inr ⟨hsucceeds, hsupported, hcustom, hcustomized,
        fun habsent => of_decide_eq_true (hrequested habsent), hloopback hsupported⟩
    · exact .inl hsucceeds
  next hchange =>
    rw [hchange] at hunits
    obtain hremoved | ⟨-, hfails⟩ := Outcome.write_owned hunits
    · exact absurd hremoved (removeLivePermissions_ne_owned _ _)
    · exact .inr ⟨hchange, hfails⟩

omit [DecidableEq ι] in
theorem applyOperation_failed {planned : Bool} {client : Client ν}
    (hchange : o.change ≠ .uninstall) (hfails : o.outcome ≠ .succeeds) :
    (applyOperation adapter supported planned o client).failed = true := by
  unfold applyOperation
  split
  · exact decide_eq_true hfails
  next huninstall => exact absurd huninstall hchange

omit [DecidableEq ι] in
/-- An uninstall that fails before it writes changes nothing. -/
theorem applyOperation_eq_self {planned : Bool} {client : Client ν}
    (hchange : o.change = .uninstall) (hfails : o.outcome = .fails false) :
    applyOperation adapter supported planned o client = client := by
  simp [applyOperation, hchange, hfails, Outcome.write]

omit [DecidableEq ι] in
theorem refreshSenderPermissions_owned {client : Client ν} {record : Install ν}
    {current loopback granted : Bool} (hplain : client.Plain)
    (h : refreshSenderPermissions supported client record current loopback = .owned granted) :
    client.custom = false ∧ (supported record.version → granted = loopback) := by
  unfold refreshSenderPermissions at h
  split at h
  next => exact (prepareLivePermissions_owned hplain h).imp id fun h => h.1
  next units hne => exact absurd h (hne granted)

/-- A refresh prepares the units of the senders that are not named. -/
theorem refreshSender_eq {loopback : Bool} {client : Client ν} {record : Install ν}
    (hinstalled : client.installed = some record) (hsender : (adapter a).refreshesSender)
    (hnamed : a ∉ run.named) :
    refreshSender adapter supported run loopback a client =
      { client with
        units := (run.refreshed a).2.write client.units
          (refreshSenderPermissions supported client record (run.refreshed a).1 loopback)
        failed := (run.refreshed a).2 ≠ .succeeds } := by
  simp [refreshSender, hinstalled, hsender, hnamed]

theorem refreshSender_eq_self {loopback : Bool} {client : Client ν}
    (h : client.installed = none ∨ (adapter a).refreshesSender = false ∨ a ∈ run.named) :
    refreshSender adapter supported run loopback a client = client := by
  unfold refreshSender
  split
  next record hinstalled =>
    obtain h | h | h := h <;> simp_all
  next => rfl

theorem refreshSender_plain {loopback : Bool} {client : Client ν} (hplain : client.Plain) :
    (refreshSender adapter supported run loopback a client).Plain := by
  by_cases h : client.installed = none ∨ (adapter a).refreshesSender = false ∨ a ∈ run.named
  · rwa [refreshSender_eq_self h]
  · push Not at h
    obtain ⟨hinstalled, hsender, hnamed⟩ := h
    obtain ⟨record, hinstalled⟩ := Option.ne_none_iff_exists'.mp hinstalled
    rw [refreshSender_eq hinstalled (Bool.eq_true_of_not_eq_false hsender) hnamed]
    intro granted howned
    obtain hprepared | ⟨hbefore, -⟩ := Outcome.write_owned howned
    · exact (refreshSenderPermissions_owned hplain hprepared).1
    · exact hplain _ hbefore

/-- A sender with ACC's units that is refreshed has the grant as it is declared, or failed. -/
theorem refreshSender_grants {loopback granted : Bool} {client : Client ν}
    (hplain : client.Plain) (hsender : (adapter a).refreshesSender) (hnamed : a ∉ run.named)
    (h : (refreshSender adapter supported run loopback a client).Grants supported granted) :
    granted = loopback ∨ (run.refreshed a).2 ≠ .succeeds ∧
      (refreshSender adapter supported run loopback a client).failed = true := by
  obtain ⟨⟨record, hinstalled, hsupported⟩, hunits⟩ := h
  rw [refreshSender_installed] at hinstalled
  rw [refreshSender_eq hinstalled hsender hnamed] at hunits ⊢
  obtain hprepared | ⟨-, hfails⟩ := Outcome.write_owned hunits
  · exact .inl ((refreshSenderPermissions_owned hplain hprepared).2 hsupported)
  · exact .inr ⟨by simp [hfails], by simp [hfails]⟩

/-! ## A run -/

theorem applyPlan_plain (h : ∀ a, (s a).Plain) (a : ι) :
    (applyPlan all adapter supported s run a).Plain :=
  Library.visit_induction (P := fun _ (client : Client ν) => client.Plain) h
    (fun _ _ _ hplain => applyOperation_plain hplain) a

theorem runInstallCommand_plain (hall : all.Nodup) (hmem : ∀ a, a ∈ all) (hrun : run.Planned)
    (h : ∀ a, (s a).Plain) (a : ι) : (runInstallCommand all adapter supported s run a).Plain := by
  rw [runInstallCommand_apply hall (hmem a) hrun]
  split
  · exact refreshSender_plain (applyPlan_plain h a)
  · exact applyPlan_plain h a

/-- After a run that leaves what its plan foresaw, a sender with ACC's units failed in it, has
the grant as it is declared, or was left as it was. -/
theorem runInstallCommand_grants {granted : Bool} (hall : all.Nodup) (hmem : ∀ a, a ∈ all)
    (hrun : run.Planned) (hforeseen : Foreseen all adapter supported s run)
    (hplain : ∀ a, (s a).Plain) (hsender : (adapter a).refreshesSender)
    (h : (runInstallCommand all adapter supported s run a).Grants supported granted) :
    granted = declaredAfter all adapter s run ∨
      Fails all adapter s run a ∧ (runInstallCommand all adapter supported s run a).failed = true ∨
      Untouched all adapter s run a ∧ runInstallCommand all adapter supported s run a = s a := by
  rw [runInstallCommand_apply hall (hmem a) hrun] at h ⊢
  by_cases hrefreshes : Refreshes all adapter s run a
  · rw [if_pos hrefreshes.1] at h ⊢
    obtain hgranted | ⟨hfails, hfailed⟩ :=
      refreshSender_grants (applyPlan_plain hplain a) hsender hrefreshes.2 h
    · exact .inl hgranted
    · exact .inr (.inl ⟨.inr ⟨hrefreshes, hfails⟩, hfailed⟩)
  -- no refresh changes what the operations left
  have hleft : (if declaredAfter all adapter s run ≠ declared all adapter s then
      refreshSender adapter supported run (declaredAfter all adapter s run) a
        (applyPlan all adapter supported s run a)
      else applyPlan all adapter supported s run a) = applyPlan all adapter supported s run a := by
    split
    next hflip =>
      exact refreshSender_eq_self (.inr (.inr (by_contra fun hnamed => hrefreshes ⟨hflip, hnamed⟩)))
    next => rfl
  rw [hleft] at h ⊢
  by_cases ho : ∃ o ∈ run.operations, o.adapterId = a
  · obtain ⟨o, ho, rfl⟩ := ho
    rw [applyPlan_of_mem hrun ho] at h ⊢
    obtain ⟨request, version, current, hchange, hinstall⟩ | ⟨hchange, hfails⟩ :=
      applyOperation_grants (hplain _) hsender h
    · have hne : o.change ≠ .uninstall := by simp [hchange]
      obtain hfails | ⟨hsucceeds, hsupported, hcustom, hcustomized, hrequested, hgranted⟩ :=
        hinstall
      · exact .inr (.inl ⟨.inl ⟨o, ho, rfl, hne, hfails⟩, applyOperation_failed hne hfails⟩)
      · rw [hgranted]
        exact .inl (hforeseen.written o ho hsender hsucceeds request version current hchange
          hsupported hcustom hcustomized hrequested)
    · refine .inr (.inr ⟨⟨fun o' ho' hid => ?_, hrefreshes⟩, applyOperation_eq_self hchange hfails⟩)
      rw [List.inj_on_of_nodup_map hrun.nodup ho' ho hid]
      exact ⟨hchange, hfails⟩
  · have hnone : ∀ o ∈ run.operations, o.adapterId ≠ a := fun o hmem hid => ho ⟨o, hmem, hid⟩
    exact .inr (.inr ⟨⟨fun o hmem hid => absurd hid (hnone o hmem), hrefreshes⟩,
      applyPlan_of_notMem hnone⟩)

omit [DecidableEq ι] in
theorem Fresh.inv (h : Fresh s) : Inv all adapter supported s where
  plain a granted howned := absurd howned ((h a).2.1 granted)
  follows a _ _ _ hgrants := absurd hgrants.2 ((h a).2.1 _)

/-- A sender that the run leaves as it was, and that followed the receivers, follows them. -/
theorem Inv.untouched {granted : Bool} (hinv : Inv all adapter supported s)
    (hforeseen : Foreseen all adapter supported s run) (hsender : (adapter a).refreshesSender)
    (huntouched : Untouched all adapter s run a) (hfailed : (s a).failed = false)
    (h : (s a).Grants supported granted) : granted = declaredAfter all adapter s run := by
  rw [hforeseen.untouched a hsender huntouched hfailed ⟨granted, h⟩]
  exact hinv.follows a hsender hfailed granted h

theorem Inv.runInstallCommand (hall : all.Nodup) (hmem : ∀ a, a ∈ all) (hrun : run.Planned)
    (hforeseen : Foreseen all adapter supported s run) (hinv : Inv all adapter supported s) :
    Inv all adapter supported (runInstallCommand all adapter supported s run) where
  plain := runInstallCommand_plain hall hmem hrun hinv.plain
  follows a hsender hfailed granted h := by
    rw [declared_runInstallCommand hrun]
    obtain hgranted | ⟨-, hfails⟩ | ⟨huntouched, hself⟩ :=
      runInstallCommand_grants hall hmem hrun hforeseen hinv.plain hsender h
    · exact hgranted
    · exact absurd hfails (by simp [hfailed])
    · rw [hself] at h hfailed
      exact hinv.untouched hforeseen hsender huntouched hfailed h

/-- In every sequence of runs that leave what they foresaw, every sender whose last install or
refresh did not fail follows the receivers; and when a run also writes again the senders whose
last one failed, every sender that does not fail in that run. -/
theorem grants_follow_receivers {s₀ : ι → Client ν} {runs : List (RunOf ι ν)} (hall : all.Nodup)
    (hmem : ∀ a, a ∈ all) (hfresh : Fresh s₀)
    (hruns : Run (Where (Step all adapter supported) (Foreseen all adapter supported)) s₀ runs s)
    (hstep : Where (Step all adapter supported) (Foreseen all adapter supported) s run t) :
    (∀ a, (adapter a).refreshesSender → (t a).failed = false → Follows all adapter supported t a) ∧
    (Retried all adapter supported s run → ∀ a, (adapter a).refreshesSender →
      ¬ Fails all adapter s run a → Follows all adapter supported t a) := by
  have hinv : Inv all adapter supported s := by
    refine hruns.invariant (fun u run u' hinv hstep => ?_) hfresh.inv
    obtain ⟨hforeseen, hrun, rfl⟩ := hstep
    exact hinv.runInstallCommand hall hmem hrun hforeseen
  obtain ⟨hforeseen, hrun, rfl⟩ := hstep
  refine ⟨(hinv.runInstallCommand hall hmem hrun hforeseen).follows, ?_⟩
  intro hretried a hsender hnot granted h
  rw [declared_runInstallCommand hrun]
  obtain hgranted | ⟨hfails, -⟩ | ⟨huntouched, hself⟩ :=
    runInstallCommand_grants hall hmem hrun hforeseen hinv.plain hsender h
  · exact hgranted
  · exact absurd hfails hnot
  · rw [hself] at h
    cases hfailed : (s a).failed with
    | true => exact hretried a hsender huntouched hfailed granted h
    | false => exact hinv.untouched hforeseen hsender huntouched hfailed h

end Model

/-! ## One sender and one receiver -/

inductive AdapterId where
  | codex
  | kimi
deriving DecidableEq

namespace AdapterId

/-- Codex is a sender; Kimi declares its listener while its live delivery is activated. -/
def adapter : AdapterId → Adapter AdapterId
  | codex => ⟨none, true⟩
  | kimi => ⟨some fun livePolicies => livePolicies kimi ≠ .off, false⟩

/-- Of the minor versions that are used here. -/
def supported (version : Nat) : Bool := 153 < version

def fresh (_ : AdapterId) : Client Nat := ⟨none, .absent, false, false⟩

theorem fresh_fresh : Fresh fresh :=
  fun _ => ⟨rfl, fun granted => by simp [fresh], rfl⟩

def actionable : Request := ⟨.actionable, ["contract"], some ("contract", [])⟩

/-- Both are installed with live delivery, and Kimi's install ends with the outcome. -/
def installBoth (outcome : Outcome) : RunOf AdapterId Nat where
  named := [codex, kimi]
  operations :=
    [⟨codex, .install actionable 154 false, .succeeds⟩,
      ⟨kimi, .install actionable 20 false, outcome⟩]
  refreshed _ := (false, .succeeds)

def uninstallKimi : RunOf AdapterId Nat where
  named := [kimi]
  operations := [⟨kimi, .uninstall, .succeeds⟩]
  refreshed _ := (false, .succeeds)

/-- The machine once a run is done. -/
def ran (s : AdapterId → Client Nat) (run : RunOf AdapterId Nat) : AdapterId → Client Nat :=
  runInstallCommand [codex, kimi] adapter supported s run

theorem installBoth_planned (outcome : Outcome) : (installBoth outcome).Planned :=
  ⟨by simp [installBoth], by simp [installBoth], .inr (by simp [installBoth])⟩

theorem uninstallKimi_planned : uninstallKimi.Planned := ⟨by decide, by decide, .inl (by decide)⟩

theorem installBoth_foreseen :
    Foreseen [codex, kimi] adapter supported fresh (installBoth .succeeds) where
  written _ _ _ _ _ _ _ _ _ _ _ _ := by decide +kernel
  untouched a _ _ _ hgrants := by
    obtain ⟨granted, -, hunits⟩ := hgrants
    cases a <;> cases hunits

theorem uninstallKimi_foreseen :
    Foreseen [codex, kimi] adapter supported (ran fresh (installBoth .succeeds)) uninstallKimi where
  written o ho hsender := by
    obtain rfl := List.mem_singleton.mp ho
    cases hsender
  untouched a hsender huntouched := by
    cases a with
    | codex => exact absurd ⟨by decide +kernel, by decide⟩ huntouched.2
    | kimi => cases hsender

theorem grants_follow_receivers_uninstall :
    Follows [codex, kimi] adapter supported
        (ran (ran fresh (installBoth .succeeds)) uninstallKimi) codex ∧
      (ran fresh (installBoth .succeeds) codex).units = .owned true ∧
      (ran (ran fresh (installBoth .succeeds)) uninstallKimi codex).units = .owned false := by
  have hinstalled : Where (Step [codex, kimi] adapter supported)
      (Foreseen [codex, kimi] adapter supported) fresh (installBoth .succeeds)
      (ran fresh (installBoth .succeeds)) :=
    ⟨installBoth_foreseen, installBoth_planned _, rfl⟩
  refine ⟨?_, by decide +kernel, by decide +kernel⟩
  exact (grants_follow_receivers (by decide) (by rintro (_ | _) <;> decide) fresh_fresh
    (.single hinstalled) ⟨uninstallKimi_foreseen, uninstallKimi_planned, rfl⟩).1 codex rfl
    (by decide +kernel)

/-- Codex is written for Kimi's listener, and then Kimi's install fails. -/
theorem grants_do_not_follow :
    ∃ t, Run (Step [codex, kimi] adapter supported) fresh [installBoth (.fails false)] t ∧
      (adapter codex).refreshesSender ∧ (t codex).failed = false ∧
      ¬ Fails [codex, kimi] adapter fresh (installBoth (.fails false)) codex ∧
      ¬ Follows [codex, kimi] adapter supported t codex := by
  refine ⟨ran fresh (installBoth (.fails false)), .single ⟨installBoth_planned _, rfl⟩, rfl,
    by decide +kernel, ?_, fun h => ?_⟩
  · rintro (⟨o, ho, hid, -, hfails⟩ | ⟨⟨-, hnamed⟩, -⟩)
    · fin_cases ho
      · exact hfails rfl
      · cases hid
    · exact hnamed (by decide)
  · have hgranted := h true ⟨⟨⟨154, .actionable, _⟩, rfl, by decide⟩, by decide +kernel⟩
    exact absurd hgranted (by decide +kernel)

end AdapterId

end Acc.Cli
