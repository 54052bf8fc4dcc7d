import AgentsCanCommunicate.Library.Run

/-!
# Services that an activation starts

An install of one adapter plans an activation, takes back what the recorded one
has and the planned one does not, starts the services that are planned and not
running, and records what it has activated over the previous record.  What is
recorded as created is what may be stopped.

An operation may end at any step.  A command that fails, or in which the operation
dies, may have done its work or not.
-/

namespace Acc.Installer.NativeActivation

open Library (Run Where)

structure Command where
  executable : String
  args : List String
deriving DecidableEq

inductive LivePolicy where
  | off
  | actionable
  | all
deriving DecidableEq

/-- A mechanism of a plan that was accepted, which has no shell bootstrap. -/
inductive Mechanism where
  | nativeConfig (artifactIds : List String)
  | nativeService (serviceId : String) (preExisting : Bool) (applyCommand teardownCommand : Option Command)
deriving DecidableEq

/-- A mechanism as it is recorded. -/
inductive Recorded where
  | nativeConfig (artifactIds : List String)
  | nativeService (serviceId : String) (createdByAcc : Bool) (teardownCommand : Option Command)
deriving DecidableEq

structure Activation (μ : Type) where
  livePolicy : LivePolicy
  protocolContract : String
  mechanisms : List μ
deriving DecidableEq

/-! ## Planning -/

/-- What a person asks for and what detection says: the delivery policy, the
contracts the adapter declares, and its contract and plan when it is eligible. -/
structure Request where
  delivery : LivePolicy
  declared : List String
  native : Option (String × List Mechanism)
deriving DecidableEq

def effectiveLivePolicy (r : Request) : LivePolicy := if r.native.isSome then r.delivery else .off

/-- The activation that an install makes. -/
def nativeActivation (r : Request) : Option (Activation Mechanism) :=
  match r.native with
  | some (contract, mechanisms) =>
      if r.delivery = .off then none else some ⟨r.delivery, contract, mechanisms⟩
  | none => none

/-- The recorded activation, when a failed probe may keep it. -/
def retainedActivation (previous : Option (Activation Recorded)) (r : Request) :
    Option (Activation Recorded) :=
  previous.filter fun p => r.delivery ≠ .off && r.native.isNone &&
    decide (p.protocolContract ∈ r.declared) && p.livePolicy = r.delivery

/-- The mechanisms are of one kind and name the same thing. -/
def matchesPlanned : Recorded → Mechanism → Bool
  | .nativeService serviceId .., .nativeService planned .. => serviceId = planned
  | .nativeConfig artifactIds, .nativeConfig planned =>
      artifactIds.insertionSort (· ≤ ·) = planned.insertionSort (· ≤ ·)
  | _, _ => false

def planActivationRetirements (previous : Option (Activation Recorded))
    (desired : Option (Activation Mechanism)) : List Recorded :=
  (previous.elim [] (·.mechanisms)).filter fun old =>
    !(desired.elim [] (·.mechanisms)).any fun next => matchesPlanned old next

def retirements (previous : Option (Activation Recorded)) (r : Request) : List Recorded :=
  match retainedActivation previous r with
  | some _ => []
  | none => planActivationRetirements previous (nativeActivation r)

/-! ## Applying -/

def Mechanism.isConfig : Mechanism → Bool
  | nativeConfig _ => true
  | nativeService .. => false

/-- `ordered`: the config before the services. -/
def ordered (mechanisms : List Mechanism) : List Mechanism :=
  mechanisms.filter (·.isConfig) ++ mechanisms.filter fun m => !m.isConfig

/-- What `applyNativeActivation` records of a mechanism. -/
def Mechanism.recorded : Mechanism → Recorded
  | nativeConfig artifactIds => .nativeConfig artifactIds
  | nativeService serviceId preExisting applyCommand teardownCommand =>
      .nativeService serviceId (!preExisting && applyCommand.isSome) teardownCommand

/-- The mechanisms of an install, in the order they are applied. -/
def applied (r : Request) : List Mechanism :=
  (nativeActivation r).elim [] fun activation => ordered activation.mechanisms

/-- What an install records. -/
def recordedActivation (previous : Option (Activation Recorded)) (r : Request) :
    Option (Activation Recorded) :=
  match nativeActivation r with
  | some activation => some { activation with mechanisms := (applied r).map (·.recorded) }
  | none => retainedActivation previous r

/-- The recorded activation, the services that are running, and what was done: what
was started with a teardown command and was not torn down since, the services that
were ever activated, those of them that were running then, and those that were ever
torn down. -/
structure Machine where
  nativeActivation : Option (Activation Recorded)
  running : Finset String
  started : Finset (String × Command)
  activated : Finset String
  prior : Finset String
  tornDown : Finset String

namespace Machine

def mechanisms (s : Machine) : List Recorded := s.nativeActivation.elim [] (·.mechanisms)

/-- `deactivateNative` of one mechanism. -/
def retire (s : Machine) : Recorded → Machine
  | .nativeService serviceId true (some _) =>
      { s with
        running := s.running.erase serviceId
        started := s.started.filter fun entry => entry.1 ≠ serviceId
        tornDown := insert serviceId s.tornDown }
  | .nativeService .. | .nativeConfig _ => s

/-- `applyNativeActivation` of one mechanism. -/
def activate (s : Machine) : Mechanism → Machine
  | .nativeConfig _ => s
  | .nativeService serviceId preExisting applyCommand teardownCommand =>
      let s := { s with
        activated := insert serviceId s.activated
        prior := if serviceId ∉ s.activated ∧ serviceId ∈ s.running then insert serviceId s.prior
          else s.prior }
      if !preExisting && applyCommand.isSome then
        { s with
          running := insert serviceId s.running
          started := teardownCommand.elim s.started fun command =>
            insert (serviceId, command) s.started }
      else s

end Machine

/-- How an operation ends: with its record, after the last command, or in one of the
commands, which may have taken effect. -/
inductive Ending where
  /-- Before the first command. -/
  | early
  | retiring (done : Nat) (took : Bool)
  | applying (done : Nat) (took : Bool)
  | unrecorded
  | recorded
deriving DecidableEq

inductive Event where
  | install (r : Request) (ending : Ending)
  | uninstall (ending : Ending)
  /-- Somebody else starts a service. -/
  | starts (serviceId : String)
deriving DecidableEq

/-- The first ones, and the one after them if it took effect. -/
def reached {α : Type} (l : List α) (done : Nat) (took : Bool) : List α :=
  l.take done ++ if took then (l.drop done).take 1 else []

/-- The mechanisms that are retired before an operation ends. -/
def Ending.retired (ending : Ending) (l : List Recorded) : List Recorded :=
  match ending with
  | early => []
  | retiring done took => reached l done took
  | applying .. | unrecorded | recorded => l

/-- The mechanisms that are applied before an operation ends. -/
def Ending.activated (ending : Ending) (l : List Mechanism) : List Mechanism :=
  match ending with
  | early | retiring .. => []
  | applying done took => reached l done took
  | unrecorded | recorded => l

def install (s : Machine) (r : Request) (ending : Ending) : Machine :=
  let retired := (ending.retired (retirements s.nativeActivation r)).foldl Machine.retire s
  let s' := (ending.activated (applied r)).foldl Machine.activate retired
  if ending = .recorded then
    { s' with nativeActivation := recordedActivation s.nativeActivation r }
  else s'

def uninstall (s : Machine) (ending : Ending) : Machine :=
  let s' := (ending.retired (planActivationRetirements s.nativeActivation none)).foldl
    Machine.retire s
  if ending = .recorded then { s' with nativeActivation := none } else s'

def perform (s : Machine) : Event → Machine
  | .install r ending => install s r ending
  | .uninstall ending => uninstall s ending
  | .starts serviceId => { s with running := insert serviceId s.running }

/-- Detection reports a service as pre-existing exactly when it is running. -/
def Mechanism.Truthful (running : Finset String) : Mechanism → Prop
  | nativeService serviceId preExisting _ _ => preExisting = decide (serviceId ∈ running)
  | nativeConfig _ => True

def Truthful (s : Machine) : Event → Prop
  | .install r _ => ∀ native ∈ r.native, ∀ m ∈ native.2, m.Truthful s.running
  | .uninstall _ | .starts _ => True

def Step (s : Machine) (e : Event) (t : Machine) : Prop := Truthful s e ∧ t = perform s e

/-- Nothing was ever activated. -/
def Machine.fresh (running : Finset String) : Machine := ⟨none, running, ∅, ∅, ∅, ∅⟩

/-! ## The law -/

/-- What ACC started and has not torn down is recorded with its teardown command. -/
def Owned (s : Machine) : Prop :=
  ∀ serviceId command, (serviceId, command) ∈ s.started →
    .nativeService serviceId true (some command) ∈ s.mechanisms

/-- No service that was running before it was first activated was ever torn down. -/
def Spared (s : Machine) : Prop := ∀ serviceId ∈ s.prior, serviceId ∉ s.tornDown

/-- The mechanism starts a service that has a teardown command. -/
def Mechanism.startsWith : Mechanism → Option (String × Command)
  | nativeService serviceId false (some _) (some command) => some (serviceId, command)
  | nativeService .. | nativeConfig _ => none

def Mechanism.service : Mechanism → Option String
  | nativeService serviceId .. => some serviceId
  | nativeConfig _ => none

/-- The install activates no service that ACC started and has not torn down. -/
def Anew (s : Machine) (r : Request) : Prop :=
  ∀ m ∈ applied r, ∀ serviceId ∈ m.service, ∀ entry ∈ s.started, entry.1 ≠ serviceId

/-- What the mechanisms start is on record as created, with its teardown command. -/
def OnRecord (s : Machine) (l : List Mechanism) : Prop :=
  ∀ m ∈ l, ∀ entry ∈ m.startsWith, .nativeService entry.1 true (some entry.2) ∈ s.mechanisms

/-- An install that is recorded activates nothing that is still ACC's to stop, and one
that is not recorded starts nothing that is not. -/
def Keeps (s : Machine) : Event → Prop
  | .install r .recorded => Anew s r
  | .install r ending => OnRecord s (ending.activated (applied r))
  | .uninstall _ | .starts _ => True

/-! ## What the commands do -/

section Commands

variable {s t : Machine} {l : List Recorded} {planned : List Mechanism} {serviceId : String}

/-- What retiring a list of mechanisms leaves. -/
structure Retired (l : List Recorded) (s t : Machine) : Prop where
  nativeActivation : t.nativeActivation = s.nativeActivation
  activated : t.activated = s.activated
  prior : t.prior = s.prior
  sub : t.running ⊆ s.running
  running : ∀ serviceId ∈ s.running,
    serviceId ∈ t.running ∨ ∃ command, .nativeService serviceId true (some command) ∈ l
  started : ∀ entry ∈ t.started,
    entry ∈ s.started ∧ ∀ command, .nativeService entry.1 true (some command) ∉ l
  tornDown : ∀ serviceId ∈ t.tornDown,
    serviceId ∈ s.tornDown ∨ ∃ command, .nativeService serviceId true (some command) ∈ l
  stopped : ∀ serviceId command, .nativeService serviceId true (some command) ∈ l →
    serviceId ∉ t.running

theorem retire_retired (m : Recorded) : Retired [m] s (s.retire m) := by
  unfold Machine.retire
  split
  next stopped command =>
    refine ⟨rfl, rfl, rfl, Finset.erase_subset _ _, ?_, ?_, ?_, ?_⟩
    · intro serviceId hrunning
      by_cases heq : serviceId = stopped
      · exact Or.inr ⟨command, by simp [heq]⟩
      · exact Or.inl (Finset.mem_erase.mpr ⟨heq, hrunning⟩)
    · intro entry hentry
      obtain ⟨hbefore, hne⟩ := Finset.mem_filter.mp hentry
      refine ⟨hbefore, fun command' hmem => hne ?_⟩
      have heq := List.mem_singleton.mp hmem
      injection heq
    · intro serviceId htorn
      rcases Finset.mem_insert.mp htorn with rfl | htorn
      · exact Or.inr ⟨command, List.mem_singleton_self _⟩
      · exact Or.inl htorn
    · intro serviceId command' hmem
      cases List.mem_singleton.mp hmem
      exact Finset.notMem_erase _ _
  next serviceId' created teardown hnot =>
    have hnone : ∀ serviceId command, .nativeService serviceId true (some command) ∉
        [Recorded.nativeService serviceId' created teardown] := by
      intro serviceId command hmem
      cases List.mem_singleton.mp hmem
      exact hnot _ rfl rfl
    exact ⟨rfl, rfl, rfl, Finset.Subset.refl _, fun _ h => Or.inl h, fun _ h => ⟨h, hnone _⟩,
      fun _ h => Or.inl h, fun _ _ hmem => absurd hmem (hnone _ _)⟩
  next artifactIds =>
    have hnone : ∀ serviceId command, .nativeService serviceId true (some command) ∉
        [Recorded.nativeConfig artifactIds] := by
      intro serviceId command hmem
      cases List.mem_singleton.mp hmem
    exact ⟨rfl, rfl, rfl, Finset.Subset.refl _, fun _ h => Or.inl h, fun _ h => ⟨h, hnone _⟩,
      fun _ h => Or.inl h, fun _ _ hmem => absurd hmem (hnone _ _)⟩

theorem foldl_retire : Retired l s (l.foldl Machine.retire s) := by
  induction l generalizing s with
  | nil =>
      exact ⟨rfl, rfl, rfl, Finset.Subset.refl _, fun _ h => Or.inl h,
        fun _ h => ⟨h, fun _ => List.not_mem_nil⟩, fun _ h => Or.inl h,
        fun _ _ h => absurd h List.not_mem_nil⟩
  | cons m l ih =>
      have hone : Retired [m] s (s.retire m) := retire_retired m
      have hrest : Retired l (s.retire m) (l.foldl Machine.retire (s.retire m)) := ih
      have hhead : ∀ {serviceId command}, .nativeService serviceId true (some command) ∈ [m] →
          .nativeService serviceId true (some command) ∈ m :: l := by
        intro serviceId command hmem
        rw [List.mem_singleton.mp hmem]
        exact List.mem_cons_self
      refine ⟨hrest.nativeActivation.trans hone.nativeActivation,
        hrest.activated.trans hone.activated, hrest.prior.trans hone.prior,
        hrest.sub.trans hone.sub, ?_, ?_, ?_, ?_⟩
      · intro serviceId hrunning
        rcases hone.running serviceId hrunning with hrunning | ⟨command, hmem⟩
        · rcases hrest.running serviceId hrunning with hrunning | ⟨command, hmem⟩
          · exact Or.inl hrunning
          · exact Or.inr ⟨command, List.mem_cons_of_mem _ hmem⟩
        · exact Or.inr ⟨command, hhead hmem⟩
      · intro entry hentry
        obtain ⟨hbetween, hnot⟩ := hrest.started entry hentry
        obtain ⟨hbefore, hnot'⟩ := hone.started entry hbetween
        refine ⟨hbefore, fun command hmem => ?_⟩
        rcases List.mem_cons.mp hmem with heq | hmem
        · exact hnot' command (List.mem_singleton.mpr heq)
        · exact hnot command hmem
      · intro serviceId htorn
        rcases hrest.tornDown serviceId htorn with htorn | ⟨command, hmem⟩
        · rcases hone.tornDown serviceId htorn with htorn | ⟨command, hmem⟩
          · exact Or.inl htorn
          · exact Or.inr ⟨command, hhead hmem⟩
        · exact Or.inr ⟨command, List.mem_cons_of_mem _ hmem⟩
      · intro serviceId command hmem
        rcases List.mem_cons.mp hmem with heq | hmem
        · exact fun h => hone.stopped serviceId command (List.mem_singleton.mpr heq) (hrest.sub h)
        · exact hrest.stopped serviceId command hmem

/-- What applying a list of mechanisms leaves. -/
structure Activated (l : List Mechanism) (s t : Machine) : Prop where
  nativeActivation : t.nativeActivation = s.nativeActivation
  tornDown : t.tornDown = s.tornDown
  running : s.running ⊆ t.running
  activated : s.activated ⊆ t.activated
  new : ∀ serviceId ∈ t.running, serviceId ∈ s.running ∨ serviceId ∈ t.activated
  named : ∀ serviceId preExisting applyCommand teardownCommand,
    .nativeService serviceId preExisting applyCommand teardownCommand ∈ l →
    serviceId ∈ t.activated
  started : ∀ entry ∈ t.started, entry ∈ s.started ∨ ∃ m ∈ l, m.startsWith = some entry
  prior : ∀ serviceId ∈ t.prior,
    serviceId ∈ s.prior ∨ (serviceId ∉ s.activated ∧ serviceId ∈ s.running)

theorem activate_activated (m : Mechanism) : Activated [m] s (s.activate m) := by
  cases m with
  | nativeConfig artifactIds =>
      refine ⟨rfl, rfl, Finset.Subset.refl _, Finset.Subset.refl _, fun _ h => Or.inl h, ?_,
        fun _ h => Or.inl h, fun _ h => Or.inl h⟩
      intro serviceId preExisting applyCommand teardownCommand hmem
      cases List.mem_singleton.mp hmem
  | nativeService name preExisting applyCommand teardownCommand =>
      have hprior : ∀ serviceId ∈ (if name ∉ s.activated ∧ name ∈ s.running then insert name s.prior
          else s.prior), serviceId ∈ s.prior ∨ (serviceId ∉ s.activated ∧ serviceId ∈ s.running) := by
        intro serviceId h
        split at h
        next hfirst =>
          rcases Finset.mem_insert.mp h with rfl | h
          · exact Or.inr hfirst
          · exact Or.inl h
        next => exact Or.inl h
      have hnamed : ∀ serviceId preExisting' applyCommand' teardownCommand',
          .nativeService serviceId preExisting' applyCommand' teardownCommand' ∈
            [Mechanism.nativeService name preExisting applyCommand teardownCommand] →
          serviceId ∈ insert name s.activated := by
        intro serviceId preExisting' applyCommand' teardownCommand' hmem
        cases List.mem_singleton.mp hmem
        exact Finset.mem_insert_self _ _
      unfold Machine.activate
      dsimp only
      split
      next hstarts =>
        refine ⟨rfl, rfl, Finset.subset_insert _ _, Finset.subset_insert _ _, ?_, hnamed, ?_, hprior⟩
        · intro serviceId h
          rcases Finset.mem_insert.mp h with rfl | h
          · exact Or.inr (Finset.mem_insert_self _ _)
          · exact Or.inl h
        · intro entry h
          cases preExisting with
          | true => cases hstarts
          | false =>
              cases applyCommand with
              | none => cases hstarts
              | some command =>
                  cases teardownCommand with
                  | none => exact Or.inl h
                  | some teardown =>
                      rcases Finset.mem_insert.mp h with rfl | h
                      · exact Or.inr ⟨_, List.mem_singleton_self _, rfl⟩
                      · exact Or.inl h
      next =>
        exact ⟨rfl, rfl, Finset.Subset.refl _, Finset.subset_insert _ _, fun _ h => Or.inl h, hnamed,
          fun _ h => Or.inl h, hprior⟩

theorem foldl_activate : Activated planned s (planned.foldl Machine.activate s) := by
  induction planned generalizing s with
  | nil =>
      exact ⟨rfl, rfl, Finset.Subset.refl _, Finset.Subset.refl _, fun _ h => Or.inl h,
        fun _ _ _ _ h => absurd h List.not_mem_nil, fun _ h => Or.inl h, fun _ h => Or.inl h⟩
  | cons m l ih =>
      have hone : Activated [m] s (s.activate m) := activate_activated m
      have hrest : Activated l (s.activate m) (l.foldl Machine.activate (s.activate m)) := ih
      refine ⟨hrest.nativeActivation.trans hone.nativeActivation,
        hrest.tornDown.trans hone.tornDown, hone.running.trans hrest.running,
        hone.activated.trans hrest.activated, ?_, ?_, ?_, ?_⟩
      · intro serviceId h
        rcases hrest.new serviceId h with h | h
        · exact (hone.new serviceId h).imp id fun h => hrest.activated h
        · exact Or.inr h
      · intro serviceId preExisting applyCommand teardownCommand hmem
        rcases List.mem_cons.mp hmem with heq | hmem
        · exact hrest.activated (hone.named _ _ _ _ (List.mem_singleton.mpr heq))
        · exact hrest.named _ _ _ _ hmem
      · intro entry h
        rcases hrest.started entry h with h | ⟨m', hm', hstarts⟩
        · rcases hone.started entry h with h | ⟨m', hm', hstarts⟩
          · exact Or.inl h
          · rw [List.mem_singleton.mp hm'] at hstarts
            exact Or.inr ⟨m, List.mem_cons_self, hstarts⟩
        · exact Or.inr ⟨m', List.mem_cons_of_mem _ hm', hstarts⟩
      · intro serviceId h
        rcases hrest.prior serviceId h with h | ⟨hnot, h⟩
        · exact hone.prior serviceId h
        · have hnot' : serviceId ∉ s.activated := fun h => hnot (hone.activated h)
          rcases hone.new serviceId h with h | h
          · exact Or.inr ⟨hnot', h⟩
          · exact absurd h hnot

end Commands

/-! ## What an operation keeps -/

section Law

variable {s t : Machine} {r : Request} {e : Event} {ending : Ending} {m : Mechanism}
  {serviceId : String} {command : Command}

structure Law (s : Machine) : Prop where
  owned : Owned s
  running : s.prior ⊆ s.running
  created : ∀ serviceId command, .nativeService serviceId true (some command) ∈ s.mechanisms →
    serviceId ∈ s.activated ∧ serviceId ∉ s.prior
  tornDown : ∀ serviceId ∈ s.tornDown, serviceId ∈ s.activated ∧ serviceId ∉ s.prior

theorem mem_reached {α : Type} {l : List α} {a : α} {done : Nat} {took : Bool}
    (h : a ∈ reached l done took) : a ∈ l := by
  rcases List.mem_append.mp h with h | h
  · exact List.mem_of_mem_take h
  · split at h
    next => exact List.mem_of_mem_drop (List.mem_of_mem_take h)
    next => cases h

theorem mem_retired {l : List Recorded} {old : Recorded} (h : old ∈ ending.retired l) :
    old ∈ l := by
  cases ending with
  | early => cases h
  | retiring done took => exact mem_reached h
  | applying => exact h
  | unrecorded => exact h
  | recorded => exact h

theorem mem_activated {l : List Mechanism} (h : m ∈ ending.activated l) : m ∈ l := by
  cases ending with
  | early => cases h
  | retiring => cases h
  | applying done took => exact mem_reached h
  | unrecorded => exact h
  | recorded => exact h

theorem mem_planActivationRetirements {old : Recorded} {desired : Option (Activation Mechanism)}
    (h : old ∈ planActivationRetirements s.nativeActivation desired) : old ∈ s.mechanisms :=
  List.mem_of_mem_filter h

theorem mem_retirements {old : Recorded} (h : old ∈ retirements s.nativeActivation r) :
    old ∈ s.mechanisms := by
  unfold retirements at h
  split at h
  next => cases h
  next => exact mem_planActivationRetirements h

theorem mem_ordered {l : List Mechanism} : m ∈ ordered l ↔ m ∈ l := by
  cases hconfig : m.isConfig <;> simp [ordered, hconfig]

theorem startsWith_recorded (h : m.startsWith = some (serviceId, command)) :
    m.recorded = .nativeService serviceId true (some command) := by
  unfold Mechanism.startsWith at h
  split at h
  next =>
    cases h
    rfl
  next => cases h
  next => cases h

/-- A mechanism that is recorded as created is of a service that was not running. -/
theorem recorded_created (h : m.recorded = .nativeService serviceId true (some command)) :
    ∃ applyCommand, m = .nativeService serviceId false applyCommand (some command) := by
  cases m with
  | nativeConfig => cases h
  | nativeService name preExisting applyCommand teardownCommand =>
      simp only [Mechanism.recorded, Recorded.nativeService.injEq, Bool.and_eq_true] at h
      obtain ⟨rfl, ⟨hnot, -⟩, rfl⟩ := h
      cases preExisting with
      | true => cases hnot
      | false => exact ⟨applyCommand, rfl⟩

theorem truthful_applied (htruthful : Truthful s (.install r ending)) {preExisting : Bool}
    {applyCommand teardownCommand : Option Command}
    (h : .nativeService serviceId preExisting applyCommand teardownCommand ∈ applied r) :
    preExisting = decide (serviceId ∈ s.running) := by
  unfold applied nativeActivation at h
  split at h
  next contract mechanisms hnative =>
    split at h
    next => cases h
    next => exact htruthful _ hnative _ (mem_ordered.mp h)
  next => cases h

/-- What the commands of an operation keep, whatever is recorded after it. -/
theorem commands_keep (h : Law s) {l : List Recorded} {planned : List Mechanism} {u : Machine}
    (hsub : ∀ old ∈ l, old ∈ s.mechanisms) (hretired : Retired l s u)
    (hactivated : Activated planned u t) :
    t.prior ⊆ t.running ∧ t.prior ⊆ s.running ∧
      (∀ serviceId ∈ s.activated, serviceId ∉ s.prior → serviceId ∉ t.prior) ∧
      ∀ serviceId ∈ t.tornDown, serviceId ∈ t.activated ∧ serviceId ∉ t.prior := by
  have hspared : ∀ serviceId ∈ s.prior, serviceId ∈ u.running := by
    intro serviceId hprior
    rcases hretired.running serviceId (h.running hprior) with hrunning | ⟨command, hmem⟩
    · exact hrunning
    · exact absurd hprior (h.created serviceId command (hsub _ hmem)).2
  have hprior : ∀ serviceId ∈ t.prior,
      serviceId ∈ s.prior ∨ (serviceId ∉ s.activated ∧ serviceId ∈ u.running) := by
    intro serviceId hmem
    have hcases := hactivated.prior serviceId hmem
    rwa [hretired.prior, hretired.activated] at hcases
  have hstays : ∀ serviceId ∈ s.activated, serviceId ∉ s.prior → serviceId ∉ t.prior := by
    intro serviceId hbefore hnot hmem
    rcases hprior serviceId hmem with hmem | ⟨hfresh, -⟩
    · exact hnot hmem
    · exact hfresh hbefore
  refine ⟨?_, ?_, hstays, ?_⟩
  · intro serviceId hmem
    rcases hprior serviceId hmem with hmem | ⟨-, hrunning⟩
    · exact hactivated.running (hspared serviceId hmem)
    · exact hactivated.running hrunning
  · intro serviceId hmem
    rcases hprior serviceId hmem with hmem | ⟨-, hrunning⟩
    · exact h.running hmem
    · exact hretired.sub hrunning
  · intro serviceId htorn
    rw [hactivated.tornDown] at htorn
    have hcases : serviceId ∈ s.activated ∧ serviceId ∉ s.prior := by
      rcases hretired.tornDown serviceId htorn with htorn | ⟨command, hmem⟩
      · exact h.tornDown serviceId htorn
      · exact h.created serviceId command (hsub _ hmem)
    refine ⟨hactivated.activated ?_, hstays serviceId hcases.1 hcases.2⟩
    rw [hretired.activated]
    exact hcases.1

theorem mem_recordedActivation (hm : m ∈ applied r) :
    m.recorded ∈ (recordedActivation s.nativeActivation r).elim [] (·.mechanisms) := by
  unfold recordedActivation
  cases hactivation : nativeActivation r with
  | none => simp [applied, hactivation] at hm
  | some activation => exact List.mem_map_of_mem hm

/-- What is retained is the recorded activation, and only for want of a plan. -/
theorem retainedActivation_eq {p : Activation Recorded}
    (h : retainedActivation s.nativeActivation r = some p) :
    s.nativeActivation = some p ∧ nativeActivation r = none := by
  obtain ⟨hprevious, hretained⟩ := Option.filter_eq_some_iff.mp h
  refine ⟨hprevious, ?_⟩
  simp only [Bool.and_eq_true, Option.isNone_iff_eq_none] at hretained
  rw [nativeActivation, hretained.1.1.2]

/-- What ACC started stays in the record when none of it is planned again. -/
theorem owned_recorded (h : Law s) (hentry : (serviceId, command) ∈ s.started)
    (hnot : .nativeService serviceId true (some command) ∉ retirements s.nativeActivation r)
    (hkeeps : Keeps s (.install r .recorded)) :
    .nativeService serviceId true (some command) ∈
      (recordedActivation s.nativeActivation r).elim [] (·.mechanisms) := by
  have howned := h.owned serviceId command hentry
  cases hretained : retainedActivation s.nativeActivation r with
  | some p =>
      obtain ⟨hprevious, hnone⟩ := retainedActivation_eq hretained
      rw [recordedActivation, hnone]
      rw [Machine.mechanisms, hprevious] at howned
      simpa [hretained] using howned
  | none =>
      exfalso
      rw [retirements, hretained] at hnot
      have hmatch : (((nativeActivation r).elim [] (·.mechanisms)).any fun next =>
          matchesPlanned (.nativeService serviceId true (some command)) next) = true := by
        by_contra hno
        exact hnot (List.mem_filter.mpr ⟨howned, by simpa using hno⟩)
      obtain ⟨next, hnext, hsame⟩ := List.any_eq_true.mp hmatch
      cases next with
      | nativeConfig => cases hsame
      | nativeService planned preExisting applyCommand teardownCommand =>
          have hsame : serviceId = planned := of_decide_eq_true hsame
          subst hsame
          have happlied : .nativeService serviceId preExisting applyCommand teardownCommand ∈
              applied r := by
            cases hactivation : nativeActivation r with
            | none =>
                rw [hactivation] at hnext
                cases hnext
            | some activation =>
                rw [hactivation] at hnext
                simpa [applied, hactivation] using mem_ordered.mpr hnext
          exact hkeeps _ happlied serviceId rfl _ hentry rfl

theorem install_law (h : Law s) (htruthful : Truthful s (.install r ending))
    (hkeeps : Keeps s (.install r ending)) :
    Law (install s r ending) := by
  have hretired := @foldl_retire s (ending.retired (retirements s.nativeActivation r))
  have hactivated := @foldl_activate
    ((ending.retired (retirements s.nativeActivation r)).foldl Machine.retire s)
    (ending.activated (applied r))
  obtain ⟨hrunning, hbefore, hstays, htorn⟩ := commands_keep h
    (fun old hold => mem_retirements (mem_retired hold)) hretired hactivated
  have hold : ∀ serviceId ∈ s.activated, serviceId ∈ ((ending.activated (applied r)).foldl
      Machine.activate ((ending.retired (retirements s.nativeActivation r)).foldl
        Machine.retire s)).activated := by
    intro serviceId hmem
    exact hactivated.activated (hretired.activated ▸ hmem)
  unfold install
  dsimp only
  split
  next hrecorded =>
    subst hrecorded
    refine ⟨?_, hrunning, ?_, htorn⟩
    · intro serviceId command hentry
      rcases hactivated.started _ hentry with hentry | ⟨m, hm, hstarts⟩
      · obtain ⟨hentry, hnot⟩ := hretired.started _ hentry
        exact owned_recorded h hentry (hnot command) hkeeps
      · rw [← startsWith_recorded hstarts]
        exact mem_recordedActivation hm
    · intro serviceId command hmem
      have hmem : .nativeService serviceId true (some command) ∈
          (recordedActivation s.nativeActivation r).elim [] (·.mechanisms) := hmem
      unfold recordedActivation at hmem
      split at hmem
      next activation hactivation =>
        obtain ⟨m, hm, heq⟩ := List.mem_map.mp hmem
        obtain ⟨applyCommand, rfl⟩ := recorded_created heq
        have hidle := truthful_applied htruthful hm
        refine ⟨hactivated.named _ _ _ _ hm, fun hprior => ?_⟩
        have hrunning := hbefore hprior
        simp [hrunning] at hidle
      next hnone =>
        cases hretained : retainedActivation s.nativeActivation r with
        | none =>
            rw [hretained] at hmem
            cases hmem
        | some p =>
            rw [hretained, ← (retainedActivation_eq hretained).1] at hmem
            obtain ⟨hmem, hnot⟩ := h.created serviceId command hmem
            exact ⟨hold serviceId hmem, hstays serviceId hmem hnot⟩
  next hunrecorded =>
    have hsame : ((ending.activated (applied r)).foldl Machine.activate
        ((ending.retired (retirements s.nativeActivation r)).foldl Machine.retire s)).mechanisms =
        s.mechanisms := by
      rw [Machine.mechanisms, hactivated.nativeActivation, hretired.nativeActivation]
      rfl
    refine ⟨?_, hrunning, ?_, htorn⟩
    · intro serviceId command hentry
      rw [hsame]
      rcases hactivated.started _ hentry with hentry | ⟨m, hm, hstarts⟩
      · exact h.owned serviceId command (hretired.started _ hentry).1
      · have hnamed : ∀ m ∈ ending.activated (applied r), ∀ entry ∈ m.startsWith,
            .nativeService entry.1 true (some entry.2) ∈ s.mechanisms := by
          cases ending with
          | recorded => exact absurd rfl hunrecorded
          | early => exact hkeeps
          | retiring => exact hkeeps
          | applying => exact hkeeps
          | unrecorded => exact hkeeps
        exact hnamed m hm _ hstarts
    · intro serviceId command hmem
      rw [hsame] at hmem
      obtain ⟨hmem, hnot⟩ := h.created serviceId command hmem
      exact ⟨hold serviceId hmem, hstays serviceId hmem hnot⟩

theorem uninstall_law (h : Law s) : Law (uninstall s ending) := by
  have hretired := @foldl_retire s
    (ending.retired (planActivationRetirements s.nativeActivation none))
  have hactivated : Activated [] ((ending.retired
      (planActivationRetirements s.nativeActivation none)).foldl Machine.retire s) _ :=
    foldl_activate
  obtain ⟨hrunning, -, hstays, htorn⟩ := commands_keep h
    (fun old hold => mem_planActivationRetirements (mem_retired hold)) hretired hactivated
  unfold uninstall
  dsimp only
  split
  next hrecorded =>
    subst hrecorded
    refine ⟨?_, hrunning, nofun, htorn⟩
    intro serviceId command hentry
    obtain ⟨hentry, hnot⟩ := hretired.started _ hentry
    refine absurd ?_ (hnot command)
    exact List.mem_filter.mpr ⟨h.owned serviceId command hentry, rfl⟩
  next =>
    have hsame : ((ending.retired (planActivationRetirements s.nativeActivation none)).foldl
        Machine.retire s).mechanisms = s.mechanisms := by
      rw [Machine.mechanisms, hretired.nativeActivation]
      rfl
    refine ⟨?_, hrunning, ?_, htorn⟩
    · intro serviceId command hentry
      rw [hsame]
      exact h.owned serviceId command (hretired.started _ hentry).1
    · intro serviceId command hmem
      rw [hsame] at hmem
      obtain ⟨hmem, hnot⟩ := h.created serviceId command hmem
      exact ⟨hretired.activated ▸ hmem, hstays serviceId hmem hnot⟩

theorem step_law (h : Law s) (hkeeps : Keeps s e) (hstep : Step s e t) : Law t := by
  obtain ⟨htruthful, rfl⟩ := hstep
  cases e with
  | install r ending => exact install_law h htruthful hkeeps
  | uninstall ending => exact uninstall_law h
  | starts serviceId =>
      exact ⟨h.owned, h.running.trans (Finset.subset_insert _ _), h.created, h.tornDown⟩

/-- An uninstall that completes stops what ACC started. -/
theorem uninstall_stops (h : Owned s) (hstarted : (serviceId, command) ∈ s.started) :
    serviceId ∉ (uninstall s .recorded).running :=
  foldl_retire.stopped serviceId command
    (List.mem_filter.mpr ⟨h serviceId command hstarted, rfl⟩)

theorem law_fresh (running : Finset String) : Law (.fresh running) :=
  ⟨nofun, Finset.empty_subset _, nofun, nofun⟩

/-- Over every run whose installs keep what they start on record, what ACC started
stays ACC's to stop, and what ran before is left alone. -/
theorem service_stays_owned {running : Finset String} {events : List Event}
    (hrun : Run (Where Step Keeps) (.fresh running) events s) :
    Owned s ∧
      (∀ serviceId command, (serviceId, command) ∈ s.started →
        serviceId ∉ (uninstall s .recorded).running) ∧
      Spared s := by
  have hlaw : Law s := hrun.invariant (I := Law)
    (fun _ _ _ hlaw hstep => step_law hlaw hstep.1 hstep.2) (law_fresh running)
  refine ⟨hlaw.owned, fun serviceId command => uninstall_stops hlaw.owned, ?_⟩
  exact fun serviceId hprior htorn => (hlaw.tornDown serviceId htorn).2 hprior

end Law

/-! ## One service and another -/

section Sample

def start : Command := ⟨"/abs/vendor", ["daemon", "start"]⟩

def stop : Command := ⟨"/abs/vendor", ["daemon", "stop"]⟩

/-- A request for the vendor's daemon, and for a service that is there already. -/
def wanted (preExisting : Bool) : Request where
  delivery := .actionable
  declared := ["native-v1"]
  native := some ("native-v1", [.nativeService "daemon" preExisting (some start) (some stop),
    .nativeService "web" true none none, .nativeConfig ["hooks"]])

/-- The same when the probe fails. -/
def unprobed : Request := ⟨.actionable, ["native-v1"], none⟩

instance {running : Finset String} {m : Mechanism} : Decidable (m.Truthful running) :=
  match m with
  | .nativeService .. => inferInstanceAs (Decidable (_ = _))
  | .nativeConfig _ => .isTrue trivial

instance {s : Machine} {e : Event} : Decidable (Truthful s e) :=
  match e with
  | .install r _ =>
      inferInstanceAs (Decidable (∀ native ∈ r.native, ∀ m ∈ native.2, m.Truthful s.running))
  | .uninstall _ | .starts _ => .isTrue trivial

instance {s : Machine} {r : Request} : Decidable (Anew s r) :=
  inferInstanceAs (Decidable (∀ m ∈ applied r, ∀ serviceId ∈ m.service, ∀ entry ∈ s.started,
    entry.1 ≠ serviceId))

instance {s : Machine} {l : List Mechanism} : Decidable (OnRecord s l) :=
  inferInstanceAs (Decidable (∀ m ∈ l, ∀ entry ∈ m.startsWith,
    .nativeService entry.1 true (some entry.2) ∈ s.mechanisms))

instance {s : Machine} {e : Event} : Decidable (Keeps s e) :=
  match e with
  | .install r .recorded => inferInstanceAs (Decidable (Anew s r))
  | .install _ .early | .install _ (.retiring ..) | .install _ (.applying ..)
  | .install _ .unrecorded => inferInstanceAs (Decidable (OnRecord s _))
  | .uninstall _ | .starts _ => .isTrue trivial

def stepping (s : Machine) (e : Event) : Option Machine :=
  if Truthful s e then some (perform s e) else none

theorem step_of_stepping {s t : Machine} {e : Event} (h : stepping s e = some t) : Step s e t := by
  unfold stepping at h
  split at h
  next htruthful =>
    cases h
    exact ⟨htruthful, rfl⟩
  next => cases h

def keeping (s : Machine) (e : Event) : Option Machine :=
  if Keeps s e then stepping s e else none

theorem step_of_keeping {s t : Machine} {e : Event} (h : keeping s e = some t) :
    Where Step Keeps s e t := by
  unfold keeping at h
  split at h
  next hkeeps => exact ⟨hkeeps, step_of_stepping h⟩
  next => cases h

/-- An install is told that the daemon could not be started, another one starts it, a
third one keeps what is recorded when the probe fails, and an uninstall fails in the
teardown command. -/
def daemonStarted : List Event :=
  [.install (wanted false) (.applying 1 false), .install (wanted false) .recorded,
    .install unprobed .recorded, .starts "other", .uninstall (.retiring 1 false)]

theorem service_stays_owned_daemon : ∃ s : Machine,
    Run (Where Step Keeps) (.fresh {"web"}) daemonStarted s ∧
      s.started = {("daemon", stop)} ∧ "daemon" ∈ s.running ∧
      "daemon" ∉ (uninstall s .recorded).running ∧ "web" ∉ s.tornDown := by
  have hdone : (Library.follow keeping (.fresh {"web"}) daemonStarted).any (fun s =>
      decide (s.started = {("daemon", stop)} ∧ "daemon" ∈ s.running ∧ "web" ∈ s.prior)) = true := by
    decide +kernel
  obtain ⟨s, hs, hfacts⟩ := (Option.any_eq_true _ _).mp hdone
  obtain ⟨hstarted, hrunning, hprior⟩ := of_decide_eq_true hfacts
  have hrun := (Library.run_of_follow hs).imp fun _ _ _ => step_of_keeping
  obtain ⟨-, hstops, hspared⟩ := service_stays_owned hrun
  have hmem : ("daemon", stop) ∈ s.started := by simp [hstarted]
  exact ⟨s, hrun, hstarted, hrunning, hstops _ _ hmem, hspared _ hprior⟩

/-- A second install finds the daemon running and records that ACC did not create it,
so that an uninstall that completes leaves it running; and an install that starts it
and ends before its record leaves it to nobody. -/
theorem service_disowned :
    (∃ s : Machine, Run Step (.fresh {"web"})
        [.install (wanted false) .recorded, .install (wanted true) .recorded] s ∧
      ("daemon", stop) ∈ s.started ∧ ¬Owned s ∧ "daemon" ∈ (uninstall s .recorded).running) ∧
    ∃ s : Machine, Run Step (.fresh {"web"}) [.install (wanted false) .unrecorded] s ∧
      ("daemon", stop) ∈ s.started ∧ ¬Owned s ∧
        "daemon" ∈ (uninstall s .recorded).running := by
  have hdisowned : ∀ events, ((Library.follow stepping (.fresh {"web"}) events).any fun s =>
      decide (("daemon", stop) ∈ s.started ∧ .nativeService "daemon" true (some stop) ∉ s.mechanisms ∧
        "daemon" ∈ (uninstall s .recorded).running)) = true →
      ∃ s : Machine, Run Step (.fresh {"web"}) events s ∧ ("daemon", stop) ∈ s.started ∧
        ¬Owned s ∧ "daemon" ∈ (uninstall s .recorded).running := by
    intro events h
    obtain ⟨s, hs, hfacts⟩ := (Option.any_eq_true _ _).mp h
    obtain ⟨hstarted, hnot, hruns⟩ := of_decide_eq_true hfacts
    exact ⟨s, (Library.run_of_follow hs).imp fun _ _ _ => step_of_stepping, hstarted,
      fun howned => hnot (howned _ _ hstarted), hruns⟩
  exact ⟨hdisowned _ (by decide +kernel), hdisowned _ (by decide +kernel)⟩

end Sample

end Acc.Installer.NativeActivation
