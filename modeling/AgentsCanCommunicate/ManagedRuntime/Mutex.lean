import AgentsCanCommunicate.Library.Actors
import AgentsCanCommunicate.Library.Directories
import AgentsCanCommunicate.Protocol.Fields

/-!
# The manager lock

A contender makes a candidate directory, writes its owner record there and takes
the lock by renaming the candidate to `manager.lock`.  Only the death of its
owner takes a lock away from it: who reads an owner and finds it dead retires the
lock to the tombstone of that owner.  An owner that is done retires its own lock
in the same way, so that the tombstone fences whoever has read it before.

The holder compacts.  It looks at every candidate and, when all of them are of
dead processes, removes the tombstones and those candidates.

A hash of an owner is taken as the owner.
-/

namespace Acc.ManagedRuntime.Mutex

open Library (Directory Directories Scene Role Deed)

variable {κ : Type} [DecidableEq κ]

/-! ## The manager's root -/

/-- An owner record.  Its token is of one call of `withManagerLock`. -/
structure Owner (κ : Type) where
  pid : Nat
  token : κ
  acquiredAt : Timestamp
deriving DecidableEq

/-- What the name of a candidate says. -/
structure Mark (κ : Type) where
  pid : Nat
  token : κ
deriving DecidableEq

def Owner.mark (owner : Owner κ) : Mark κ := ⟨owner.pid, owner.token⟩

/-- The `owner.json` of a directory that has one. -/
inductive Content (κ : Type) where
  | owner (owner : Owner κ)
  | invalid
deriving DecidableEq

inductive Name (κ : Type) where
  /-- `manager.lock`. -/
  | lock
  | candidate (mark : Mark κ)
  | reclaimed (owner : Owner κ)
deriving DecidableEq

abbrev Locks (κ : Type) := Directories (Name κ) (Content κ)

/-- The owner of a directory, or nothing when there is none.  It throws when the
directory has no valid owner. -/
def readOwner (locks : Locks κ) (name : Name κ) : Except Unit (Option (Owner κ)) :=
  match locks name with
  | none => .ok none
  | some (.full (.owner owner)) => .ok (some owner)
  | some _ => .error ()

/-- One step of removing a directory: first what is in it, then the directory.
It says whether that was all. -/
def removeTree (locks : Locks κ) (name : Name κ) : Locks κ × Bool :=
  match locks name with
  | some (.full _) => (locks.publish name .empty, false)
  | _ => (locks.remove name, true)

/-! ## Compaction -/

/-- What `readdir` found: the candidates, some with names nobody gives, and the
tombstones. -/
structure Listing (κ : Type) where
  candidates : List (Option (Mark κ))
  tombstones : List (Owner κ)

/-- Where `compactQuiescentLocks` stands. -/
inductive Compaction (κ : Type) where
  | listing
  /-- The candidates to look at, and those found dead. -/
  | checking (rest : List (Option (Mark κ))) (dead : List (Mark κ)) (tombstones : List (Owner κ))
  | probing (mark : Mark κ) (rest : List (Option (Mark κ))) (dead : List (Mark κ))
      (tombstones : List (Owner κ))
  | sweeping (tombstones : List (Owner κ)) (dead : List (Mark κ))
  /-- Removing a tombstone. -/
  | deleting (tombstone : Owner κ) (tombstones : List (Owner κ)) (dead : List (Mark κ))
  | clearing (dead : List (Mark κ))
deriving DecidableEq

inductive Input (κ : Type) where
  | go
  /-- The deadline has passed. -/
  | expired
  /-- The directory moved while its owner was read. -/
  | moved
  /-- The file system refuses. -/
  | failed
  /-- Whose death is confirmed. -/
  | report (confirmedDead : Nat → Bool)
  | listed (listing : Listing κ)

/-- Whether a candidate may be of the process its name says. -/
def candidateMatches (mark : Mark κ) : Directory (Content κ) → Bool
  | .empty => true
  | .full (.owner owner) => decide (owner.pid = mark.pid ∧ owner.token = mark.token)
  | .full .invalid => false

/-- One step of `compactQuiescentLocks`.  It is over when there is nothing to go
on with, and it keeps everything when anything is in doubt. -/
def compact (locks : Locks κ) : Compaction κ → Input κ → Option (Locks κ × Option (Compaction κ))
  | .listing, .listed listing =>
      some (locks, some (.checking listing.candidates [] listing.tombstones))
  | .checking [] dead tombstones, .go => some (locks, some (.sweeping tombstones dead))
  | .checking (none :: _) _ _, .go => some (locks, none)
  | .checking (some mark :: rest) dead tombstones, .go =>
      match locks (.candidate mark) with
      | none => some (locks, none)
      | some directory =>
          some (locks, if candidateMatches mark directory then
            some (.probing mark rest dead tombstones) else none)
  | .probing mark rest dead tombstones, .report confirmedDead =>
      some (locks, if confirmedDead mark.pid then
        some (.checking rest (dead ++ [mark]) tombstones) else none)
  | .sweeping [] dead, .go => some (locks, some (.clearing dead))
  | .sweeping (tombstone :: tombstones) dead, .go =>
      match readOwner locks (.reclaimed tombstone) with
      | .ok (some owner) =>
          some (locks, some (if owner = tombstone then .deleting tombstone tombstones dead
            else .sweeping tombstones dead))
      | .ok none => some (locks, some (.sweeping tombstones dead))
      | .error () => some (locks, none)
  | .sweeping (_ :: tombstones) dead, .moved => some (locks, some (.sweeping tombstones dead))
  | .deleting tombstone tombstones dead, .go =>
      let removed := removeTree locks (.reclaimed tombstone)
      some (removed.1, some (if removed.2 then .sweeping tombstones dead
        else .deleting tombstone tombstones dead))
  | .clearing [], .go => some (locks, none)
  | .clearing (mark :: dead), .go =>
      let removed := removeTree locks (.candidate mark)
      some (removed.1, some (if removed.2 then .clearing dead else .clearing (mark :: dead)))
  | _, .failed => some (locks, none)
  | _, _ => none

/-! ## A contender -/

/-- Where a call of `withManagerLock` stands. -/
inductive Phase (κ : Type) where
  /-- Its candidate has no owner yet. -/
  | preparing
  /-- At the head of the loop. -/
  | looking
  | judging (current : Owner κ)
  /-- About to retire the lock of the owner it found dead. -/
  | retiring (current : Owner κ)
  | publishing
  | admitted
  | compacting (compaction : Compaction κ)
  /-- In its operation. -/
  | inside
  | leaving
  /-- About to retire its own lock. -/
  | releasing
  | withdrawing
  | finished
deriving DecidableEq

/-- Where a holder is when its compaction has come so far, or is over. -/
def Phase.after : Option (Compaction κ) → Phase κ
  | some compaction => .compacting compaction
  | none => .inside

/-- One atomic step of `withManagerLock`. -/
def next (owner : Owner κ) (locks : Locks κ) : Phase κ → Input κ → Option (Locks κ × Phase κ)
  | .preparing, .go => some (locks.publish (.candidate owner.mark) (.full (.owner owner)), .looking)
  | .looking, .go =>
      match readOwner locks .lock with
      | .ok (some current) => some (locks, .judging current)
      | .ok none => some (locks, .publishing)
      | .error () => some (locks, .withdrawing)
  | .looking, .moved => some (locks, .publishing)
  | .looking, .expired => some (locks, .withdrawing)
  | .judging current, .report confirmedDead =>
      some (locks, if confirmedDead current.pid then .retiring current else .looking)
  | .retiring current, .go =>
      match locks.rename .lock (.reclaimed current) with
      | .ok locks => some (locks, .looking)
      | .error _ => some (locks, .looking)
  | .publishing, .go =>
      match locks.rename (.candidate owner.mark) .lock with
      | .ok locks => some (locks, .admitted)
      | .error .occupied => some (locks, .looking)
      | .error .missing => some (locks, .withdrawing)
  | .preparing, .failed | .looking, .failed | .retiring _, .failed | .publishing, .failed =>
      some (locks, .withdrawing)
  | .admitted, .go => some (locks, .compacting .listing)
  | .admitted, .failed => some (locks, .leaving)
  | .compacting compaction, input =>
      (compact locks compaction input).map fun done => (done.1, .after done.2)
  | .inside, .go => some (locks, .leaving)
  | .leaving, .go =>
      match readOwner locks .lock with
      | .ok (some current) =>
          some (locks, if current.token = owner.token then .releasing else .finished)
      | _ => some (locks, .finished)
  | .leaving, .moved | .leaving, .failed => some (locks, .finished)
  | .releasing, .go =>
      match locks.rename .lock (.reclaimed owner) with
      | .ok locks => some (locks, .finished)
      | .error _ => some (locks, .finished)
  | .releasing, .failed => some (locks, .finished)
  | .withdrawing, .go =>
      let removed := removeTree locks (.candidate owner.mark)
      some (removed.1, if removed.2 then .finished else .withdrawing)
  | .withdrawing, .failed => some (locks, .finished)
  | _, _ => none

/-- Any number of calls of `withManagerLock`, each named by its token. -/
def contender : Role κ (Locks κ) (Owner κ) (Phase κ) (Input κ) where
  start token owner locks :=
    if owner.token = token ∧ locks (.candidate owner.mark) = none then
      some (locks.publish (.candidate owner.mark) .empty, .preparing)
    else none
  next _ owner phase input locks := next owner locks phase input

abbrev Contest (κ : Type) := Scene κ (Locks κ) (Owner κ) (Phase κ)

namespace Phase

/-- It has taken the lock and has not let go of it. -/
def holds : Phase κ → Bool
  | admitted | compacting _ | inside | leaving | releasing => true
  | _ => false

/-- It goes round in the loop. -/
def waits : Phase κ → Bool
  | looking | judging _ | retiring _ | publishing => true
  | _ => false

/-- It has not taken the lock, and is not done. -/
def isEarly : Phase κ → Bool
  | preparing | withdrawing => true
  | phase => phase.waits

/-- The owner it has read. -/
def observed : Phase κ → Option (Owner κ)
  | judging current | retiring current => some current
  | _ => none

end Phase

/-! ## What is assumed, and what is to hold -/

/-- Who is confirmed dead is dead, and a listing has every candidate there is. -/
def Fair (s : Contest κ) : Deed κ (Owner κ) (Input κ) → Prop
  | .turn _ (.report confirmedDead) => ∀ k, ∀ a ∈ s.actors k, a.alive = true →
      confirmedDead a.own.pid = false
  | .turn _ (.listed listing) => ∀ mark, s.shared (.candidate mark) ≠ none →
      some mark ∈ listing.candidates
  | _ => True

/-- The process of the owner is dead. -/
def Dead (s : Contest κ) (owner : Owner κ) : Prop :=
  ∃ a, s.actors owner.token = some a ∧ a.own = owner ∧ a.alive = false

/-- At most one live process is in its operation. -/
def Exclusive (s : Contest κ) : Prop :=
  ∀ k k' a b, s.Runs k a → s.Runs k' b → a.phase = .inside → b.phase = .inside → k = k'

/-- A lock is taken away only by its owner, or from a dead one. -/
def RetiresDead (s t : Contest κ) (d : Deed κ (Owner κ) (Input κ)) : Prop :=
  ∀ owner, s.shared .lock = some (.full (.owner owner)) → t.shared .lock ≠ s.shared .lock →
    Dead s owner ∨ d = .turn owner.token .go ∧ ∃ a ∈ s.actors owner.token, a.phase = .releasing

/-- The lock can be retired to the tombstone of its owner. -/
def Retirable (s : Contest κ) : Prop :=
  ∀ owner, s.shared .lock = some (.full (.owner owner)) →
    ∃ locks, s.shared.rename .lock (.reclaimed owner) = .ok locks

/-- Who is about to retire the lock of an owner does so in its next step, or the
lock of that owner has been retired. -/
def Retires (s : Contest κ) : Prop :=
  ∀ k a owner, s.Runs k a → a.phase = .retiring owner →
    (s.shared .lock = some (.full (.owner owner)) ∧
      ∃ t, contender.Step s (.turn k .go) t ∧ t.shared .lock = none) ∨
    s.shared.Taken (.reclaimed owner)

/-- Nobody runs.  What is left was left by dead processes, and no lock of an owner
stands beside its tombstone. -/
structure Fresh (s : Contest κ) : Prop where
  dead : ∀ k a, s.actors k = some a → a.alive = false ∧ a.own.token = k
  candidate : ∀ mark, s.shared (.candidate mark) ≠ none →
    ∃ a, s.actors mark.token = some a ∧ a.own.pid = mark.pid
  owner : ∀ owner, s.shared .lock = some (.full (.owner owner)) → Dead s owner
  tombstone : ∀ owner, s.shared.Taken (.reclaimed owner) → Dead s owner
  free : ∀ owner, s.shared .lock = some (.full (.owner owner)) →
    ¬s.shared.Taken (.reclaimed owner)

end Acc.ManagedRuntime.Mutex
