import AgentsCanCommunicate.Library.Gathering
import AgentsCanCommunicate.Library.Sorting

/-!
# What blocks an activation

A process that runs holds the generation it was started from: by a lease of the
runtime, or by the binding of a native client.  A hold declares the store
contract of that generation, when it knows it.  The holds of one process are
merged into one blocker, which keeps a contract only when every hold of the
process declares that one.

A blocker is judged by its contract alone, and that is no more than to judge each
hold by its own: two contracts that differ cannot both be the incoming one.

The kinds of holds are compared by one fixed order of texts.
-/

namespace Acc.ManagedRuntime

open Library (InsertionMap gather gathered gather_get mem_gather_keys gather_keys_perm mergeSort_key_perm)

variable {κ : Type} [LinearOrder κ]

/-! ## Holds -/

inductive Reason where
  | processRunning
  | clientRunning
  | unknownClientPid
  | unknownWorkspace
deriving DecidableEq

/-- What a lease says to an activation.  A contract is a safe integer, or unknown. -/
structure Lease (κ : Type) where
  pid : Nat
  kind : κ
  storeVersion : Option Int
deriving DecidableEq

structure NativeHold (κ : Type) where
  kind : κ
  pid : Option Nat
  reason : Reason
  storeVersion : Option Int
deriving DecidableEq

structure Hold (κ : Type) where
  pid : Option Nat
  kind : κ
  reason : Option Reason
  nativeBindings : Nat
  storeVersion : Option Int
deriving DecidableEq

def Lease.hold (lease : Lease κ) : Hold κ :=
  ⟨some lease.pid, lease.kind, none, 0, lease.storeVersion⟩

def NativeHold.hold (hold : NativeHold κ) : Hold κ :=
  ⟨hold.pid, hold.kind, some hold.reason, if hold.reason = .unknownWorkspace then 0 else 1,
    hold.storeVersion⟩

/-- The holds of a pass, but for the leases of the updater itself. -/
def processHolds (leases : List (Lease κ)) (native : List (NativeHold κ)) (ignorePid : Option Nat) :
    List (Hold κ) :=
  (leases.filter fun lease => some lease.pid ≠ ignorePid).map Lease.hold ++
    List.map NativeHold.hold native

/-! ## Blockers -/

structure Blocker (κ : Type) where
  pid : Option Nat
  kinds : List κ
  reason : Option Reason
  nativeBindings : Nat
  storeVersion : Option Int
deriving DecidableEq

/-- The blocker of a process before its first hold is added. -/
def Blocker.fresh (hold : Hold κ) : Blocker κ :=
  ⟨hold.pid, [], some .processRunning, 0, hold.storeVersion⟩

def Blocker.add (blocker : Blocker κ) (hold : Hold κ) : Blocker κ :=
  { blocker with
    kinds := if hold.kind ∈ blocker.kinds then blocker.kinds else blocker.kinds ++ [hold.kind]
    nativeBindings := blocker.nativeBindings + hold.nativeBindings
    storeVersion :=
      if hold.storeVersion = none ∨ hold.storeVersion ≠ blocker.storeVersion then none
      else blocker.storeVersion }

/-- A hold of no known process is a blocker of its own. -/
def Hold.alone (hold : Hold κ) : Blocker κ :=
  ⟨none, [hold.kind], hold.reason, hold.nativeBindings, hold.storeVersion⟩

structure Merged (κ : Type) where
  byPid : InsertionMap Nat (Blocker κ)
  unidentified : List (Blocker κ)

def Merged.add (merged : Merged κ) (hold : Hold κ) : Merged κ :=
  match hold.pid with
  | none => { merged with unidentified := merged.unidentified ++ [hold.alone] }
  | some pid =>
      { merged with
        byPid := merged.byPid.set pid (((merged.byPid.get pid).getD (.fresh hold)).add hold) }

def mergeHolds (holds : List (Hold κ)) : Merged κ := holds.foldl Merged.add ⟨.empty, []⟩

/-- `null` counts as zero in a difference. -/
def Blocker.le (a b : Blocker κ) : Bool := decide (a.pid.getD 0 ≤ b.pid.getD 0)

def Blocker.sortKinds (blocker : Blocker κ) : Blocker κ :=
  { blocker with kinds := blocker.kinds.mergeSort (· ≤ ·) }

/-- Unknown on either side cannot be compared. -/
def blocksActivation (storeVersion incomingStoreVersion : Option Int) : Bool :=
  incomingStoreVersion.isNone || storeVersion.isNone || storeVersion != incomingStoreVersion

def activationBlockers (holds : List (Hold κ)) (incomingStoreVersion : Option Int) :
    List (Blocker κ) :=
  let merged := mergeHolds holds
  (((merged.byPid.entries.map Prod.snd).mergeSort Blocker.le).map Blocker.sortKinds ++
    merged.unidentified).filter fun blocker =>
      blocksActivation blocker.storeVersion incomingStoreVersion

def listActivationBlockers (leases : List (Lease κ)) (native : List (NativeHold κ))
    (ignorePid : Option Nat) (incomingStoreVersion : Option Int) : List (Blocker κ) :=
  activationBlockers (processHolds leases native ignorePid) incomingStoreVersion

/-! ## What the holds of one process come to -/

/-- A contract that cannot be the incoming one for sure. -/
theorem blocksActivation_iff {c v : Option Int} :
    blocksActivation c v = true ↔ c = none ∨ c ≠ v ∨ v = none := by
  rw [blocksActivation, Bool.or_eq_true, Bool.or_eq_true, Option.isNone_iff_eq_none,
    Option.isNone_iff_eq_none, bne_iff_ne]
  tauto

theorem mergeHolds_byPid (holds : List (Hold κ)) :
    (mergeHolds holds).byPid = gather Hold.pid Blocker.fresh Blocker.add holds := by
  induction holds using List.reverseRecOn with
  | nil => rfl
  | append_singleton holds hold ih =>
      rw [mergeHolds, List.foldl_concat, ← mergeHolds, Library.gather_concat, Library.gatherOne,
        ← ih, Merged.add]
      cases hold.pid <;> rfl

theorem mergeHolds_unidentified (holds : List (Hold κ)) :
    (mergeHolds holds).unidentified = (holds.filter (·.pid = none)).map Hold.alone := by
  induction holds using List.reverseRecOn with
  | nil => rfl
  | append_singleton holds hold ih =>
      rw [mergeHolds, List.foldl_concat, ← mergeHolds, Merged.add, List.filter_append,
        List.map_append, ← ih, List.filter_singleton]
      cases hold.pid <;> simp

/-- The parts of a blocker after more holds. -/
theorem foldl_add_pid (holds : List (Hold κ)) (b : Blocker κ) :
    (holds.foldl Blocker.add b).pid = b.pid := by
  induction holds generalizing b with
  | nil => rfl
  | cons hold holds ih => exact ih (b.add hold)

theorem foldl_add_reason (holds : List (Hold κ)) (b : Blocker κ) :
    (holds.foldl Blocker.add b).reason = b.reason := by
  induction holds generalizing b with
  | nil => rfl
  | cons hold holds ih => exact ih (b.add hold)

theorem foldl_add_nativeBindings (holds : List (Hold κ)) (b : Blocker κ) :
    (holds.foldl Blocker.add b).nativeBindings =
      b.nativeBindings + (holds.map Hold.nativeBindings).sum := by
  induction holds generalizing b with
  | nil => rfl
  | cons hold holds ih =>
      rw [List.foldl_cons, ih, List.map_cons, List.sum_cons, ← Nat.add_assoc]
      rfl

theorem mem_foldl_add_kinds {holds : List (Hold κ)} {b : Blocker κ} {kind : κ} :
    kind ∈ (holds.foldl Blocker.add b).kinds ↔ kind ∈ b.kinds ∨ ∃ h ∈ holds, h.kind = kind := by
  induction holds generalizing b with
  | nil => simp
  | cons hold holds ih =>
      have hadd : kind ∈ (b.add hold).kinds ↔ kind ∈ b.kinds ∨ hold.kind = kind := by
        simp only [Blocker.add]
        split
        next hmem => exact ⟨.inl, fun h => h.elim id fun heq => heq ▸ hmem⟩
        next => rw [List.mem_append, List.mem_singleton, eq_comm]
      rw [List.foldl_cons, ih, hadd, List.exists_mem_cons_iff, or_assoc]

theorem foldl_add_kinds_nodup {holds : List (Hold κ)} {b : Blocker κ} (hb : b.kinds.Nodup) :
    (holds.foldl Blocker.add b).kinds.Nodup := by
  induction holds generalizing b with
  | nil => exact hb
  | cons hold holds ih =>
      refine ih ?_
      simp only [Blocker.add]
      split
      · exact hb
      next hnew => exact List.concat_eq_append ▸ hb.concat hnew

/-- A contract is kept as long as every hold declares that one. -/
theorem foldl_add_storeVersion {holds : List (Hold κ)} {b : Blocker κ} {c : Int} :
    (holds.foldl Blocker.add b).storeVersion = some c ↔
      b.storeVersion = some c ∧ ∀ h ∈ holds, h.storeVersion = some c := by
  induction holds generalizing b with
  | nil => simp
  | cons hold holds ih =>
      have hadd : (b.add hold).storeVersion = some c ↔
          b.storeVersion = some c ∧ hold.storeVersion = some c := by
        simp only [Blocker.add]
        split
        next hdiff =>
          refine ⟨nofun, fun ⟨hb, hhold⟩ => ?_⟩
          rw [hb, hhold] at hdiff
          simp at hdiff
        next hsame =>
          rw [not_or, not_not] at hsame
          rw [hsame.2, and_self]
      rw [List.foldl_cons, ih, hadd, List.forall_mem_cons, and_assoc]

/-- The blocker of the holds of one process. -/
def blockerOf (holds : List (Hold κ)) : Option (Blocker κ) :=
  (gathered Blocker.fresh Blocker.add holds).map Blocker.sortKinds

theorem blockerOf_storeVersion {holds : List (Hold κ)} {b : Blocker κ} {c : Int}
    (h : blockerOf holds = some b) :
    b.storeVersion = some c ↔ ∀ hold ∈ holds, hold.storeVersion = some c := by
  cases holds with
  | nil => cases h
  | cons hold holds =>
      cases h
      rw [List.forall_mem_cons]
      refine Iff.trans foldl_add_storeVersion ?_
      rw [List.forall_mem_cons, ← and_assoc]
      exact and_congr_left fun _ => and_self_iff

/-- A process blocks when a hold of it does. -/
theorem blockerOf_blocks {holds : List (Hold κ)} {b : Blocker κ} {v : Option Int}
    (h : blockerOf holds = some b) :
    blocksActivation b.storeVersion v = true ↔
      ∃ hold ∈ holds, blocksActivation hold.storeVersion v = true := by
  have hagree := fun c : Int => blockerOf_storeVersion (c := c) h
  obtain ⟨hold, holds, rfl⟩ : ∃ hold rest, holds = hold :: rest := by
    cases holds with
    | nil => cases h
    | cons hold rest => exact ⟨hold, rest, rfl⟩
  simp only [blocksActivation_iff]
  cases v with
  | none =>
      exact ⟨fun _ => ⟨hold, List.mem_cons_self .., .inr (.inr rfl)⟩, fun _ => .inr (.inr rfl)⟩
  | some c =>
      have hkeeps : (b.storeVersion = none ∨ b.storeVersion ≠ some c ∨ some c = none) ↔
          ¬b.storeVersion = some c := by
        constructor
        · rintro (hnone | hne | hc) hb
          · cases hnone.symm.trans hb
          · exact hne hb
          · cases hc
        · exact fun hne => .inr (.inl hne)
      rw [hkeeps, hagree c]
      push Not
      refine exists_congr fun hold => and_congr_right fun _ => ⟨fun hne => .inr (.inl hne), ?_⟩
      rintro (hnone | hne | hc)
      · rw [hnone]
        exact nofun
      · exact hne
      · cases hc

/-- The order of the holds of a process does not show in its blocker. -/
theorem blockerOf_perm {holds holds' : List (Hold κ)} {p : Option Nat} (h : holds.Perm holds')
    (hp : ∀ hold ∈ holds, hold.pid = p) : blockerOf holds = blockerOf holds' := by
  cases holds with
  | nil => rw [h.nil_eq]
  | cons a as =>
      cases holds' with
      | nil => exact absurd h.length_eq nofun
      | cons b bs =>
          have hb : b.pid = p := hp b (h.mem_iff.mpr (List.mem_cons_self ..))
          have hkinds : (((a :: as).foldl Blocker.add (.fresh a)).kinds).Perm
              ((b :: bs).foldl Blocker.add (.fresh b)).kinds := by
            refine (List.perm_ext_iff_of_nodup (foldl_add_kinds_nodup List.nodup_nil)
              (foldl_add_kinds_nodup List.nodup_nil)).mpr fun kind => ?_
            rw [mem_foldl_add_kinds, mem_foldl_add_kinds]
            simp only [h.mem_iff, Blocker.fresh]
          have hversion : ((a :: as).foldl Blocker.add (.fresh a)).storeVersion =
              ((b :: bs).foldl Blocker.add (.fresh b)).storeVersion := by
            refine Option.ext fun c => ?_
            have hleft := @blockerOf_storeVersion κ _ (a :: as) _ c rfl
            have hright := @blockerOf_storeVersion κ _ (b :: bs) _ c rfl
            refine hleft.trans (Iff.trans ?_ hright.symm)
            simp only [h.mem_iff]
          have hsorted := mergeSort_key_perm id hkinds fun _ _ _ _ heq => heq
          simp only [blockerOf, gathered, Option.map_some, Option.some.injEq, Blocker.sortKinds,
            Blocker.mk.injEq]
          refine ⟨?_, hsorted, ?_, ?_, hversion⟩
          · rw [foldl_add_pid, foldl_add_pid]
            exact (hp a (List.mem_cons_self ..)).trans hb.symm
          · rw [foldl_add_reason, foldl_add_reason]
            rfl
          · rw [foldl_add_nativeBindings, foldl_add_nativeBindings, (h.map _).sum_eq]
            rfl

/-! ## The report -/

/-- The blockers of processes that are known. -/
def identified (blockers : List (Blocker κ)) : List (Blocker κ) :=
  blockers.filter (·.pid.isSome)

def unidentified (blockers : List (Blocker κ)) : List (Blocker κ) :=
  blockers.filter (·.pid.isNone)

/-- The blocker of a process, of all its holds. -/
theorem mergeHolds_get (holds : List (Hold κ)) (p : Nat) :
    ((mergeHolds holds).byPid.get p).map Blocker.sortKinds =
      blockerOf (holds.filter (·.pid = some p)) := by
  rw [mergeHolds_byPid, gather_get]
  rfl

theorem blockerOf_pid {holds : List (Hold κ)} {b : Blocker κ} {p : Option Nat}
    (h : blockerOf holds = some b) (hp : ∀ hold ∈ holds, hold.pid = p) : b.pid = p := by
  cases holds with
  | nil => cases h
  | cons hold holds =>
      cases h
      exact (foldl_add_pid _ _).trans (hp hold (List.mem_cons_self ..))

/-- The merged blockers of known processes, in the order of their pids. -/
def processBlockers (holds : List (Hold κ)) : List (Blocker κ) :=
  (((mergeHolds holds).byPid.entries.map Prod.snd).mergeSort Blocker.le).map Blocker.sortKinds

theorem processBlockers_eq (holds : List (Hold κ)) :
    processBlockers holds =
      ((mergeHolds holds).byPid.keys.filterMap fun p =>
        blockerOf (holds.filter (·.pid = some p))).mergeSort Blocker.le := by
  refine (List.map_mergeSort (s := Blocker.le) fun _ _ _ _ => rfl).trans ?_
  congr 1
  rw [InsertionMap.entries, List.map_filterMap, List.map_filterMap]
  refine List.filterMap_congr fun p _ => ?_
  rw [← mergeHolds_get]
  cases (mergeHolds holds).byPid.get p <;> rfl

theorem mem_processBlockers {holds : List (Hold κ)} {b : Blocker κ} :
    b ∈ processBlockers holds ↔ ∃ p, blockerOf (holds.filter (·.pid = some p)) = some b := by
  rw [processBlockers_eq, List.mem_mergeSort, List.mem_filterMap]
  refine exists_congr fun p => and_iff_right_of_imp fun h => ?_
  rw [InsertionMap.mem_keys, ← Option.isSome_map (f := Blocker.sortKinds), mergeHolds_get, h]
  rfl

omit [LinearOrder κ] in
theorem filter_pid {holds : List (Hold κ)} {p : Nat} :
    ∀ hold ∈ holds.filter (·.pid = some p), hold.pid = some p :=
  fun _ h => of_decide_eq_true (List.mem_filter.mp h).2

/-- The holds of known processes are merged to the same blockers in any order. -/
theorem processBlockers_perm {holds holds' : List (Hold κ)} (h : holds.Perm holds') :
    processBlockers holds = processBlockers holds' := by
  have hsame : (fun p => blockerOf (holds.filter (·.pid = some p))) =
      fun p => blockerOf (holds'.filter (·.pid = some p)) :=
    funext fun p => blockerOf_perm (h.filter _) filter_pid
  have hkeys : (mergeHolds holds).byPid.keys.Perm (mergeHolds holds').byPid.keys := by
    rw [mergeHolds_byPid, mergeHolds_byPid]
    exact gather_keys_perm h
  rw [processBlockers_eq, processBlockers_eq, hsame]
  refine mergeSort_key_perm (fun b : Blocker κ => b.pid.getD 0) (hkeys.filterMap _) ?_
  intro b hb b' hb' heq
  obtain ⟨p, -, hp⟩ := List.mem_filterMap.mp hb
  obtain ⟨p', -, hp'⟩ := List.mem_filterMap.mp hb'
  have hpid : p = p' := by
    rw [blockerOf_pid hp filter_pid, blockerOf_pid hp' filter_pid] at heq
    exact heq
  subst hpid
  exact Option.some.inj (hp.symm.trans hp')

theorem activationBlockers_eq (holds : List (Hold κ)) (v : Option Int) :
    activationBlockers holds v =
      (processBlockers holds ++ (holds.filter (·.pid = none)).map Hold.alone).filter
        fun b => blocksActivation b.storeVersion v := by
  rw [activationBlockers, mergeHolds_unidentified]
  rfl

theorem processBlockers_pid {holds : List (Hold κ)} {b : Blocker κ}
    (h : b ∈ processBlockers holds) : b.pid.isSome = true := by
  obtain ⟨p, hp⟩ := mem_processBlockers.mp h
  rw [blockerOf_pid hp filter_pid]
  rfl

theorem identified_activationBlockers (holds : List (Hold κ)) (v : Option Int) :
    identified (activationBlockers holds v) =
      (processBlockers holds).filter fun b => blocksActivation b.storeVersion v := by
  rw [identified, activationBlockers_eq, List.filter_comm, List.filter_append]
  have hall : (processBlockers holds).filter (·.pid.isSome) = processBlockers holds :=
    List.filter_eq_self.mpr fun b hb => processBlockers_pid hb
  have hnone : ((holds.filter (·.pid = none)).map Hold.alone).filter (·.pid.isSome) = [] := by
    rw [List.filter_eq_nil_iff]
    intro b hb
    obtain ⟨hold, -, rfl⟩ := List.mem_map.mp hb
    exact Bool.false_ne_true
  rw [hall, hnone, List.append_nil]

theorem unidentified_activationBlockers (holds : List (Hold κ)) (v : Option Int) :
    unidentified (activationBlockers holds v) =
      (holds.filter fun hold =>
        hold.pid.isNone && blocksActivation hold.storeVersion v).map Hold.alone := by
  rw [unidentified, activationBlockers_eq, List.filter_comm, List.filter_append]
  have hnone : (processBlockers holds).filter (·.pid.isNone) = [] := by
    rw [List.filter_eq_nil_iff]
    intro b hb
    rw [Option.isNone_iff_eq_none, ← Ne, ← Option.isSome_iff_ne_none]
    exact processBlockers_pid hb
  have hall : ((holds.filter (·.pid = none)).map Hold.alone).filter (·.pid.isNone) =
      (holds.filter (·.pid = none)).map Hold.alone := by
    rw [List.filter_eq_self]
    intro b hb
    obtain ⟨hold, -, rfl⟩ := List.mem_map.mp hb
    rfl
  rw [hnone, hall, List.nil_append, List.filter_map, List.filter_filter]
  congr 1
  refine List.filter_congr fun hold _ => ?_
  rw [Bool.and_comm]
  cases hold.pid <;> rfl

/-- The known processes that block are the same for every order of the holds.  A
process blocks when a contract of it is unknown or not the incoming one, or the
incoming one is unknown, and a hold of no known process by the same rule. -/
theorem activationBlockers_merged (holds : List (Hold κ)) (v : Option Int) :
    (∀ holds', holds.Perm holds' →
      identified (activationBlockers holds' v) = identified (activationBlockers holds v)) ∧
    (∀ p, (∃ b ∈ activationBlockers holds v, b.pid = some p) ↔
      ∃ hold ∈ holds, hold.pid = some p ∧
        (hold.storeVersion = none ∨ hold.storeVersion ≠ v ∨ v = none)) ∧
    unidentified (activationBlockers holds v) =
      (holds.filter fun hold => decide (hold.pid = none ∧
        (hold.storeVersion = none ∨ hold.storeVersion ≠ v ∨ v = none))).map Hold.alone := by
  refine ⟨fun holds' h => ?_, fun p => ?_, ?_⟩
  · rw [identified_activationBlockers, identified_activationBlockers, processBlockers_perm h]
  · have hreported : (∃ b ∈ activationBlockers holds v, b.pid = some p) ↔
        ∃ b ∈ processBlockers holds, b.pid = some p ∧
          blocksActivation b.storeVersion v = true := by
      constructor
      · rintro ⟨b, hb, hpid⟩
        have hb' : b ∈ identified (activationBlockers holds v) :=
          List.mem_filter.mpr ⟨hb, by rw [hpid]; rfl⟩
        rw [identified_activationBlockers] at hb'
        exact ⟨b, (List.mem_filter.mp hb').1, hpid, (List.mem_filter.mp hb').2⟩
      · rintro ⟨b, hb, hpid, hblocks⟩
        have hb' : b ∈ identified (activationBlockers holds v) := by
          rw [identified_activationBlockers]
          exact List.mem_filter.mpr ⟨hb, hblocks⟩
        exact ⟨b, (List.mem_filter.mp hb').1, hpid⟩
    rw [hreported]
    simp only [← blocksActivation_iff]
    constructor
    · rintro ⟨b, hb, hpid, hblocks⟩
      obtain ⟨p', hp'⟩ := mem_processBlockers.mp hb
      obtain ⟨hold, hhold, hown⟩ := (blockerOf_blocks hp').mp hblocks
      have heq : some p' = some p := (blockerOf_pid hp' filter_pid).symm.trans hpid
      rw [heq] at hhold
      exact ⟨hold, (List.mem_filter.mp hhold).1, filter_pid hold hhold, hown⟩
    · rintro ⟨hold, hhold, hpid, hown⟩
      have hmem : hold ∈ holds.filter (·.pid = some p) :=
        List.mem_filter.mpr ⟨hhold, decide_eq_true hpid⟩
      obtain ⟨b, hb⟩ : ∃ b, blockerOf (holds.filter (·.pid = some p)) = some b := by
        cases hof : blockerOf (holds.filter (·.pid = some p)) with
        | some b => exact ⟨b, rfl⟩
        | none =>
            rw [blockerOf, Option.map_eq_none_iff, Library.gathered_eq_none] at hof
            rw [hof] at hmem
            cases hmem
      exact ⟨b, mem_processBlockers.mpr ⟨p, hb⟩, blockerOf_pid hb filter_pid,
        (blockerOf_blocks hb).mpr ⟨hold, hmem, hown⟩⟩
  · rw [unidentified_activationBlockers]
    congr 1
    refine List.filter_congr fun hold _ => ?_
    rw [Bool.eq_iff_iff, Bool.and_eq_true, blocksActivation_iff, Option.isNone_iff_eq_none,
      decide_eq_true_eq]

end Acc.ManagedRuntime
