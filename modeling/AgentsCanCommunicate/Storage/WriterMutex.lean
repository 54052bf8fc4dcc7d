import AgentsCanCommunicate.Library.Actors
import AgentsCanCommunicate.Library.Directories
import AgentsCanCommunicate.Protocol.Fields

/-!
# The writer mutex

A writer prepares a directory with its owner record and takes the lock by
renaming that directory to `writer.lock`.  Who finds the lock taken reads its
owner, and moves the lock aside when the owner is dead, too old or unreadable.
Everyone who judged one owner names the same target, and the target stays, so
that a late contender does not move a later lock over it.  An owner releases by
moving its own lock aside, to a name that it then removes.

The model is of POSIX, where a rename replaces an empty directory and is refused
by a full one.  A hash of a record is taken as the record.
-/

namespace Acc.Storage.Mutex

open Library (Directory Directories Actor Scene Role Deed Run Where)

variable {κ : Type} [DecidableEq κ]

/-! ## The lock -/

def staleMs : Int := 60000

/-- An owner record.  Its token names one call of the mutex. -/
structure Owner (κ : Type) where
  pid : Nat
  token : κ
  acquiredAt : Acc.Timestamp
deriving DecidableEq

/-- What is read of `owner.json`. -/
inductive Record (κ : Type) where
  | owner (owner : Owner κ)
  /-- Bytes nobody can read, and when the file was written. -/
  | unreadable (modifiedMs : Int)
deriving DecidableEq

/-- The names in the directory of locks. -/
inductive Name (κ : Type) where
  /-- `writer.lock`. -/
  | canonical
  | candidate (token : κ)
  | reclaimed (record : Record κ)
  | released (owner : Owner κ)
deriving DecidableEq

abbrev Locks (κ : Type) := Directories (Name κ) (Record κ)

/-- Who holds the lock.  An empty lock names nobody. -/
def readOwner (locks : Locks κ) : Option (Record κ) :=
  match locks .canonical with
  | some (.full record) => some record
  | _ => none

/-- What a contender learns from the clocks and of the processes. -/
structure Report where
  now : Acc.Timestamp
  wallNow : Int
  pidIsAlive : Nat → Bool

/-- Whether `takeStaleOwnership` goes on to move the lock aside. -/
def isStale (report : Report) : Record κ → Bool
  | .unreadable modifiedMs => decide (report.wallNow - modifiedMs > staleMs)
  | .owner owner =>
      let age := report.now - owner.acquiredAt
      !(report.pidIsAlive owner.pid && !decide (age > staleMs))

/-! ## A contender -/

/-- Where a call of `withWriterMutex` stands. -/
inductive Phase (κ : Type) where
  /-- At the head of the loop, with its candidate prepared. -/
  | trying
  /-- The lock was taken, and its owner is read next. -/
  | looking
  | judging (current : Option (Record κ))
  /-- About to move the lock of the owner it judged aside. -/
  | reclaiming (record : Record κ)
  | acquired
  /-- In its operation. -/
  | inside
  /-- About to read the owner of the lock it took. -/
  | leaving
  /-- About to move its own lock aside. -/
  | releasing
  | clearing
  | withdrawing
  | finished (released : Bool)
deriving DecidableEq

inductive Input where
  | go
  /-- The deadline has passed. -/
  | expired
  /-- The lock moved while it was looked at. -/
  | moved
  | report (report : Report)

/-- One atomic step of `withWriterMutex`. -/
def next (owner : Owner κ) (locks : Locks κ) : Phase κ → Input → Option (Locks κ × Phase κ)
  | .trying, .expired => some (locks, .withdrawing)
  | .trying, .go =>
      match locks.rename (.candidate owner.token) .canonical with
      | .ok locks => some (locks, .acquired)
      | .error .occupied => some (locks, .looking)
      | .error .missing => some (locks, .withdrawing)
  | .looking, .go => some (locks, .judging (readOwner locks))
  | .looking, .moved => some (locks, .judging none)
  | .judging none, .report _ => some (locks, .trying)
  | .judging (some record), .report report =>
      some (locks, if isStale report record then .reclaiming record else .trying)
  | .reclaiming record, .go =>
      match locks.rename .canonical (.reclaimed record) with
      | .ok locks => some (locks, .trying)
      | .error _ => some (locks, .trying)
  | .acquired, .go => some (locks, .inside)
  | .acquired, .expired => some (locks, .leaving)
  | .inside, .go => some (locks, .leaving)
  | .leaving, .go =>
      match readOwner locks with
      | some (.owner current) =>
          some (locks, if current.token = owner.token then .releasing else .finished false)
      | _ => some (locks, .finished false)
  | .leaving, .moved => some (locks, .finished false)
  | .releasing, .go =>
      match locks.rename .canonical (.released owner) with
      | .ok locks => some (locks, .clearing)
      | .error _ => some (locks, .finished false)
  | .clearing, .go => some (locks.remove (.released owner), .finished true)
  | .withdrawing, .go => some (locks.remove (.candidate owner.token), .finished false)
  | _, _ => none

/-- Any number of calls of `withWriterMutex`, each named by its token. -/
def contender : Role κ (Locks κ) (Owner κ) (Phase κ) Input where
  start token owner locks :=
    if owner.token = token then
      some (locks.publish (.candidate token) (.full (.owner owner)), .trying)
    else none
  next _ owner phase input locks := next owner locks phase input

abbrev Contest (κ : Type) := Scene κ (Locks κ) (Owner κ) (Phase κ)

namespace Phase

/-- It has taken the lock and has not let go of it. -/
def holds : Phase κ → Bool
  | acquired | inside | leaving | releasing => true
  | _ => false

/-- It has not taken the lock. -/
def waits : Phase κ → Bool
  | trying | looking | judging _ | reclaiming _ | withdrawing => true
  | _ => false

/-- It has moved its own lock aside. -/
def hasReleased : Phase κ → Bool
  | clearing | finished true => true
  | _ => false

/-- The owner it has read. -/
def observed : Phase κ → Option (Record κ)
  | judging current => current
  | reclaiming record => some record
  | _ => none

end Phase

/-! ## What is assumed, and what is to hold -/

/-- Who is reported dead is dead, and no live contender looks older than the
limit while it holds the lock. -/
def Fair (s : Contest κ) : Deed κ (Owner κ) Input → Prop
  | .turn _ (.report report) => ∀ k, ∀ a ∈ s.actors k, a.alive = true →
      report.pidIsAlive a.own.pid = true ∧
        (a.phase.holds = true → report.now - a.own.acquiredAt ≤ staleMs)
  | _ => True

/-- The owner has moved its own lock aside. -/
def Released (s : Contest κ) : Record κ → Prop
  | .owner owner => ∃ b ∈ s.actors owner.token, b.phase.hasReleased = true
  | .unreadable _ => False

/-- Whoever is about to move a lock aside has judged an owner that did not release
it since, or no lock stands. -/
def Unreleased (s : Contest κ) : Deed κ (Owner κ) Input → Prop
  | .turn k .go => ∀ a ∈ s.actors k, ∀ record, a.phase = .reclaiming record →
      Released s record → s.shared .canonical = none
  | _ => True

/-- At most one contender is in its operation. -/
def Exclusive (s : Contest κ) : Prop :=
  ∀ k k' a b, s.Runs k a → s.Runs k' b → a.phase = .inside → b.phase = .inside → k = k'

/-- A lock that is moved aside is that of the owner that was judged, and no live
contender holds it. -/
def TakesJudged (s t : Contest κ) (d : Deed κ (Owner κ) Input) : Prop :=
  ∀ k, d = .turn k .go → ∀ a ∈ s.actors k, ∀ record, a.phase = .reclaiming record →
    t.shared .canonical ≠ s.shared .canonical →
      s.shared .canonical = some (.full record) ∧
        ∀ k' b, s.Runs k' b → b.phase.holds = false

/-- Nobody runs.  Whatever is left was left by dead contenders, or by a crash of
the machine. -/
structure Fresh (s : Contest κ) : Prop where
  dead : ∀ k a, s.actors k = some a → a.alive = false ∧ a.own.token = k
  owner : ∀ owner, s.shared .canonical = some (.full (.owner owner)) →
    ∃ a, s.actors owner.token = some a ∧ a.own = owner

/-! ## What one step does -/

variable {s t : Contest κ} {k : κ} {owner : Owner κ} {locks locks' : Locks κ} {phase phase' : Phase κ}
  {input : Input} {record : Record κ}

/-- A step that leaves the directories alone. -/
structure Quiet (locks : Locks κ) (phase : Phase κ) (input : Input) (phase' : Phase κ) : Prop where
  holds : phase'.holds = true → phase.holds = true
  waits : phase'.waits = phase.waits
  released : phase'.hasReleased = phase.hasReleased
  observed : ∀ record, phase'.observed = some record →
    phase.observed = some record ∨ readOwner locks = some record
  judged : ∀ record, phase' = .reclaiming record → ∃ report,
    input = .report report ∧ phase = .judging (some record) ∧ isStale report record = true

/-- What a step does to the directories. -/
inductive Effect (owner : Owner κ) (locks : Locks κ) :
    Phase κ → Input → Locks κ → Phase κ → Prop where
  | quiet {phase phase' : Phase κ} {input : Input} : Quiet locks phase input phase' →
      Effect owner locks phase input locks phase'
  /-- It has nothing to publish. -/
  | publish {locks' : Locks κ} : locks.rename (.candidate owner.token) .canonical = .ok locks' →
      Effect owner locks .trying .go locks' .acquired
  | reclaim {record : Record κ} {locks' : Locks κ} :
      locks.rename .canonical (.reclaimed record) = .ok locks' →
      Effect owner locks (.reclaiming record) .go locks' .trying
  | release {locks' : Locks κ} : locks.rename .canonical (.released owner) = .ok locks' →
      Effect owner locks .releasing .go locks' .clearing
  | clear : Effect owner locks .clearing .go (locks.remove (.released owner)) (.finished true)
  | withdraw : Effect owner locks .withdrawing .go (locks.remove (.candidate owner.token))
      (.finished false)

omit [DecidableEq κ] in
theorem quiet_of (hholds : phase'.holds = true → phase.holds = true)
    (hwaits : phase'.waits = phase.waits) (hreleased : phase'.hasReleased = phase.hasReleased)
    (hobserved : phase'.observed = none) : Quiet locks phase input phase' := by
  refine ⟨hholds, hwaits, hreleased, ?_, ?_⟩
  · intro record h
    rw [hobserved] at h
    cases h
  · rintro record rfl
    cases hobserved

theorem next_effect (h : next owner locks phase input = some (locks', phase')) :
    Effect owner locks phase input locks' phase' := by
  unfold next at h
  split at h
  next => cases h; exact .quiet (quiet_of (by simp [Phase.holds]) rfl rfl rfl)
  next =>
    split at h
    next hrename => cases h; exact .publish hrename
    next => cases h; exact .quiet (quiet_of (by simp [Phase.holds]) rfl rfl rfl)
    next => cases h; exact .quiet (quiet_of (by simp [Phase.holds]) rfl rfl rfl)
  next =>
    cases h
    refine .quiet ⟨by simp [Phase.holds], rfl, rfl, ?_, by simp⟩
    intro record hobserved
    exact Or.inr hobserved
  next => cases h; exact .quiet (quiet_of (by simp [Phase.holds]) rfl rfl rfl)
  next => cases h; exact .quiet (quiet_of (by simp [Phase.holds]) rfl rfl rfl)
  next record report =>
    cases hstale : isStale report record with
    | false =>
        rw [hstale] at h
        cases h
        exact .quiet (quiet_of (by simp [Phase.holds]) rfl rfl rfl)
    | true =>
        rw [hstale] at h
        cases h
        refine .quiet ⟨by simp [Phase.holds], rfl, rfl, fun _ hobserved => Or.inl hobserved, ?_⟩
        rintro record' heq
        cases heq
        exact ⟨report, rfl, rfl, hstale⟩
  next =>
    split at h
    next hrename => cases h; exact .reclaim hrename
    next => cases h; exact .quiet (quiet_of (by simp [Phase.holds]) rfl rfl rfl)
  next => cases h; exact .quiet (quiet_of (by simp [Phase.holds]) rfl rfl rfl)
  next => cases h; exact .quiet (quiet_of (by simp [Phase.holds]) rfl rfl rfl)
  next => cases h; exact .quiet (quiet_of (by simp [Phase.holds]) rfl rfl rfl)
  next =>
    split at h
    next current _ =>
      split at h
      next => cases h; exact .quiet (quiet_of (by simp [Phase.holds]) rfl rfl rfl)
      next => cases h; exact .quiet (quiet_of (by simp [Phase.holds]) rfl rfl rfl)
    next => cases h; exact .quiet (quiet_of (by simp [Phase.holds]) rfl rfl rfl)
  next => cases h; exact .quiet (quiet_of (by simp [Phase.holds]) rfl rfl rfl)
  next =>
    split at h
    next hrename => cases h; exact .release hrename
    next => cases h; exact .quiet (quiet_of (by simp [Phase.holds]) rfl rfl rfl)
  next => cases h; exact .clear
  next => cases h; exact .withdraw
  next => cases h

/-! ## The invariant -/

/-- The owner took the lock at some time, or is dead. -/
def Past (s : Contest κ) (owner : Owner κ) : Prop :=
  ∃ b, s.actors owner.token = some b ∧ b.own = owner ∧ (b.alive = true → b.phase.waits = false)

/-- No later lock is moved aside in the name of the record: its own lock stands,
or the target is taken, or the owner has released. -/
def Fenced (s : Contest κ) (record : Record κ) : Prop :=
  s.shared .canonical = some (.full record) ∨ s.shared.Taken (.reclaimed record) ∨
    Released s record

structure Inv (s : Contest κ) : Prop where
  token : ∀ k a, s.actors k = some a → a.own.token = k
  /-- Who holds the lock finds its own record there. -/
  held : ∀ k a, s.Runs k a → a.phase.holds = true →
    s.shared .canonical = some (.full (.owner a.own))
  candidate : ∀ k a, s.Runs k a → a.phase.waits = true →
    s.shared (.candidate k) = some (.full (.owner a.own))
  stands : ∀ o, s.shared .canonical = some (.full (.owner o)) → Past s o
  seen : ∀ k a r, s.Runs k a → a.phase.observed = some r → Fenced s r
  known : ∀ k a o, s.Runs k a → a.phase.observed = some (.owner o) → Past s o
  /-- An owner that was judged dead or too old does not hold the lock. -/
  judged : ∀ k a o, s.Runs k a → a.phase = .reclaiming (.owner o) →
    ∀ b, s.Runs o.token b → b.phase.holds = false

omit [DecidableEq κ] in
theorem Fresh.inv (h : Fresh s) : Inv s := by
  have hnone : ∀ k a, ¬s.Runs k a := by
    intro k a ⟨ha, halive⟩
    rw [(h.dead k a ha).1] at halive
    cases halive
  constructor
  case token => exact fun k a ha => (h.dead k a ha).2
  case stands =>
    intro o ho
    obtain ⟨a, ha, hown⟩ := h.owner o ho
    refine ⟨a, ha, hown, fun halive => ?_⟩
    exact absurd ⟨ha, halive⟩ (hnone o.token a)
  case held => exact fun k a ha => absurd ha (hnone k a)
  case candidate => exact fun k a ha => absurd ha (hnone k a)
  all_goals exact fun k a _ ha => absurd ha (hnone k a)

variable {a b a' : Actor (Owner κ) (Phase κ)}

theorem Past.set {o : Owner κ} (h : Past s o) (hactor : s.actors k = some a)
    (hown : a'.own = a.own) (halive : a'.alive = true → a.alive = true)
    (hwaits : a.phase.waits = false → a'.phase.waits = false) : Past (s.set k locks' a') o := by
  obtain ⟨b, hb, howner, hpast⟩ := h
  by_cases hk : o.token = k
  · subst hk
    rw [hactor] at hb
    cases hb
    exact ⟨a', Scene.set_self, hown.trans howner, fun h => hwaits (hpast (halive h))⟩
  · exact ⟨b, (Scene.set_other hk).trans hb, howner, hpast⟩

theorem Released.set (h : Released s record) (hactor : s.actors k = some a)
    (hreleased : a.phase.hasReleased = true → a'.phase.hasReleased = true) :
    Released (s.set k locks' a') record := by
  cases record with
  | unreadable => exact h
  | owner o =>
      obtain ⟨b, hb, hphase⟩ := h
      by_cases hk : o.token = k
      · subst hk
        cases (Option.mem_def.mp hb).symm.trans hactor
        exact ⟨a', Scene.set_self, hreleased hphase⟩
      · exact ⟨b, (Scene.set_other hk).trans hb, hphase⟩

/-- What a step must keep for the invariant to hold after it. -/
theorem Inv.set (h : Inv s) (hactor : s.actors k = some ⟨owner, phase, true⟩)
    (hwaits : phase.waits = false → phase'.waits = false)
    (hholds : phase.waits = false → phase.holds = false → phase'.holds = false)
    (hheld : phase'.holds = true → locks' .canonical = some (.full (.owner owner)))
    (hothers : ∀ k' a, k' ≠ k → s.Runs k' a → a.phase.holds = true →
      locks' .canonical = s.shared .canonical)
    (hcandidate : phase'.waits = true → phase.waits = true ∧
      locks' (.candidate k) = s.shared (.candidate k))
    (hcandidates : ∀ k', k' ≠ k → locks' (.candidate k') = s.shared (.candidate k'))
    (hstands : ∀ o, locks' .canonical = some (.full (.owner o)) →
      s.shared .canonical = some (.full (.owner o)) ∨ o = owner ∧ phase'.waits = false)
    (hfenced : ∀ r, Fenced s r → Fenced (s.set k locks' ⟨owner, phase', true⟩) r)
    (hobserved : ∀ r, phase'.observed = some r →
      phase.observed = some r ∨ readOwner s.shared = some r)
    (hjudged : ∀ o, phase' = .reclaiming (.owner o) →
      ∀ b, s.Runs o.token b → b.phase.holds = false) :
    Inv (s.set k locks' ⟨owner, phase', true⟩) := by
  have hruns : s.Runs k ⟨owner, phase, true⟩ := ⟨hactor, rfl⟩
  have hpast : ∀ o, Past s o → Past (s.set k locks' ⟨owner, phase', true⟩) o :=
    fun o ho => ho.set hactor rfl (fun _ => rfl) hwaits
  have hstood : ∀ r, readOwner s.shared = some r → s.shared .canonical = some (.full r) := by
    intro r hr
    unfold readOwner at hr
    split at hr
    next record hrecord => cases hr; exact hrecord
    next => cases hr
  constructor
  case token =>
    intro k' a ha
    rcases Scene.actors_set ha with ⟨rfl, rfl⟩ | ⟨-, ha⟩
    · exact h.token k' ⟨owner, phase, true⟩ hactor
    · exact h.token k' a ha
  case held =>
    intro k' a ⟨ha, halive⟩ hphase
    rcases Scene.actors_set ha with ⟨rfl, rfl⟩ | ⟨hne, ha⟩
    · exact hheld hphase
    · exact (hothers k' a hne ⟨ha, halive⟩ hphase).trans (h.held k' a ⟨ha, halive⟩ hphase)
  case candidate =>
    intro k' a ⟨ha, halive⟩ hphase
    rcases Scene.actors_set ha with ⟨rfl, rfl⟩ | ⟨hne, ha⟩
    · obtain ⟨hbefore, hkept⟩ := hcandidate hphase
      exact hkept.trans (h.candidate k' ⟨owner, phase, true⟩ hruns hbefore)
    · exact (hcandidates k' hne).trans (h.candidate k' a ⟨ha, halive⟩ hphase)
  case stands =>
    intro o ho
    rcases hstands o ho with hbefore | ⟨rfl, hphase⟩
    · exact hpast o (h.stands o hbefore)
    · refine ⟨⟨o, phase', true⟩, ?_, rfl, fun _ => hphase⟩
      rw [h.token k _ hactor]
      exact Scene.set_self
  case seen =>
    intro k' a r ⟨ha, halive⟩ hphase
    rcases Scene.actors_set ha with ⟨rfl, rfl⟩ | ⟨hne, ha⟩
    · rcases hobserved r hphase with hbefore | hread
      · exact hfenced r (h.seen k' ⟨owner, phase, true⟩ r hruns hbefore)
      · exact hfenced r (Or.inl (hstood r hread))
    · exact hfenced r (h.seen k' a r ⟨ha, halive⟩ hphase)
  case known =>
    intro k' a o ⟨ha, halive⟩ hphase
    rcases Scene.actors_set ha with ⟨rfl, rfl⟩ | ⟨hne, ha⟩
    · rcases hobserved (.owner o) hphase with hbefore | hread
      · exact hpast o (h.known k' ⟨owner, phase, true⟩ o hruns hbefore)
      · exact hpast o (h.stands o (hstood _ hread))
    · exact hpast o (h.known k' a o ⟨ha, halive⟩ hphase)
  case judged =>
    intro k' a o ⟨ha, halive⟩ hphase b ⟨hb, hlive⟩
    have hbefore : (∀ b, s.Runs o.token b → b.phase.holds = false) ∧ Past s o := by
      rcases Scene.actors_set ha with ⟨rfl, rfl⟩ | ⟨hne, ha⟩
      · refine ⟨hjudged o hphase, ?_⟩
        rcases hobserved (.owner o) (by rw [show phase' = _ from hphase]; rfl) with hold | hread
        · exact h.known k' ⟨owner, phase, true⟩ o hruns hold
        · exact h.stands o (hstood _ hread)
      · refine ⟨h.judged k' a o ⟨ha, halive⟩ hphase, h.known k' a o ⟨ha, halive⟩ ?_⟩
        rw [hphase]
        rfl
    rcases Scene.actors_set hb with ⟨hk, rfl⟩ | ⟨-, hb⟩
    · obtain ⟨c, hc, -, hwaited⟩ := hbefore.2
      rw [hk, hactor] at hc
      cases hc
      exact hholds (hwaited rfl) (hbefore.1 _ ⟨hk ▸ hactor, rfl⟩)
    · exact hbefore.1 b ⟨hb, hlive⟩

theorem not_taken_canonical (h : locks.rename (.candidate k) .canonical = .ok locks')
    (hstands : locks .canonical = some (.full record)) : False := by
  obtain ⟨_, -, hfree, -⟩ := Directories.rename_eq_ok h
  exact hfree ⟨record, hstands⟩

/-- A lock that is moved aside is the one that was judged. -/
theorem Inv.reclaims (h : Inv s) (hactor : s.actors k = some ⟨owner, .reclaiming record, true⟩)
    (hunreleased : Unreleased s (.turn k .go))
    (hrename : s.shared.rename .canonical (.reclaimed record) = .ok locks') :
    s.shared .canonical = some (.full record) := by
  obtain ⟨x, hx, hfree, -⟩ := Directories.rename_eq_ok hrename
  rcases h.seen k _ record ⟨hactor, rfl⟩ rfl with hstands | htaken | hreleased
  · exact hstands
  · exact absurd htaken hfree
  · rw [hunreleased _ hactor record rfl hreleased] at hx
    cases hx

omit [DecidableEq κ] in
/-- No live contender holds the lock of an owner that was judged. -/
theorem Inv.unheld (h : Inv s) (hactor : s.actors k = some ⟨owner, .reclaiming record, true⟩)
    (hstands : s.shared .canonical = some (.full record)) {k' : κ} (ha : s.Runs k' a) :
    a.phase.holds = false := by
  cases hphase : a.phase.holds with
  | false => rfl
  | true =>
      have hheld := h.held k' a ha hphase
      rw [hstands] at hheld
      cases hheld
      have hjudged := h.judged k _ a.own ⟨hactor, rfl⟩ rfl a
      rw [h.token k' a ha.1, hphase] at hjudged
      exact hjudged ha

theorem Inv.turn (h : Inv s) (hfair : Fair s (.turn k input))
    (hunreleased : Unreleased s (.turn k input))
    (hactor : s.actors k = some ⟨owner, phase, true⟩)
    (hdone : next owner s.shared phase input = some (locks', phase')) :
    Inv (s.set k locks' ⟨owner, phase', true⟩) := by
  have hruns : s.Runs k ⟨owner, phase, true⟩ := ⟨hactor, rfl⟩
  have htoken : owner.token = k := h.token k _ hactor
  have hreleased : ∀ {locks : Locks κ} {phase' : Phase κ} {r : Record κ}, Released s r →
      (phase.hasReleased = true → phase'.hasReleased = true) →
      Released (s.set k locks ⟨owner, phase', true⟩) r := fun hr himp => hr.set hactor himp
  cases next_effect hdone with
  | quiet hquiet =>
      refine h.set hactor (fun hw => hquiet.waits.trans hw) ?_ ?_ (fun _ _ _ _ _ => rfl)
        (fun hw => ⟨hquiet.waits ▸ hw, rfl⟩) (fun _ _ => rfl) (fun _ ho => Or.inl ho) ?_
        hquiet.observed ?_
      · intro _ hholds
        by_contra hphase
        rw [Bool.not_eq_false] at hphase
        rw [hquiet.holds hphase] at hholds
        cases hholds
      · exact fun hphase => h.held k _ hruns (hquiet.holds hphase)
      · rintro r (hr | hr | hr)
        · exact Or.inl hr
        · exact Or.inr (Or.inl hr)
        · exact Or.inr (Or.inr (hreleased hr fun hp => hquiet.released.trans hp))
      · rintro o hphase b hb
        obtain ⟨report, rfl, rfl, hstale⟩ := hquiet.judged _ hphase
        obtain ⟨c, hc, rfl, -⟩ := h.known k _ o hruns rfl
        rw [hb.1] at hc
        cases hc
        obtain ⟨halive, htimely⟩ := hfair _ b hb.1 hb.2
        by_contra hphase
        have hage := htimely (by simpa using hphase)
        simp only [isStale, halive, Bool.true_and, Bool.not_not, decide_eq_true_eq] at hstale
        exact absurd hage (not_le.mpr hstale)
  | publish hrename =>
      have hcandidate := h.candidate k _ hruns rfl
      have hmoved : locks' .canonical = some (.full (.owner owner)) := by
        rw [Directories.rename_target hrename, htoken]
        exact hcandidate
      refine h.set hactor (by simp [Phase.waits]) (by simp [Phase.waits]) (fun _ => hmoved) ?_
        (by simp [Phase.waits]) ?_ ?_ ?_ (by simp [Phase.observed]) (by simp)
      · intro k' a _ ha hphase
        exact absurd (h.held k' a ha hphase) fun hstands => not_taken_canonical hrename hstands
      · intro k' hne
        refine Directories.rename_other hrename ?_ (by simp)
        simpa [htoken] using hne
      · intro o ho
        rw [hmoved] at ho
        cases ho
        exact Or.inr ⟨rfl, rfl⟩
      · rintro r (hr | hr | hr)
        · exact absurd hr fun hstands => not_taken_canonical hrename hstands
        · exact Or.inr (Or.inl (hr.rename hrename (by simp)))
        · exact Or.inr (Or.inr (hreleased hr (by simp [Phase.hasReleased])))
  | @reclaim record _ hrename =>
      have hstands := h.reclaims hactor hunreleased hrename
      have hgone := Directories.rename_source hrename (by simp)
      refine h.set hactor (by simp [Phase.waits]) (by simp [Phase.waits]) (by simp [Phase.holds]) ?_
        ?_ ?_ ?_ ?_ (by simp [Phase.observed]) (by simp)
      · intro k' a _ ha hphase
        rw [h.unheld hactor hstands ha] at hphase
        cases hphase
      · exact fun _ => ⟨rfl, Directories.rename_other hrename (by simp) (by simp)⟩
      · exact fun k' _ => Directories.rename_other hrename (by simp) (by simp)
      · intro o ho
        rw [hgone] at ho
        cases ho
      · rintro r (hr | hr | hr)
        · rw [hstands] at hr
          cases hr
          exact Or.inr (Or.inl (Directories.taken_target hrename hstands))
        · exact Or.inr (Or.inl (hr.rename hrename (by simp)))
        · exact Or.inr (Or.inr (hreleased hr (by simp [Phase.hasReleased])))
  | release hrename =>
      have hstands := h.held k _ hruns rfl
      have hgone := Directories.rename_source hrename (by simp)
      refine h.set hactor (by simp [Phase.waits]) (by simp [Phase.holds]) (by simp [Phase.holds]) ?_
        (by simp [Phase.waits]) ?_ ?_ ?_ (by simp [Phase.observed]) (by simp)
      · intro k' a hne ha hphase
        have hheld := h.held k' a ha hphase
        rw [hstands] at hheld
        have hsame : owner = a.own := by simpa using hheld
        exact absurd ((h.token k' a ha.1).symm.trans (hsame ▸ htoken)) hne
      · exact fun k' _ => Directories.rename_other hrename (by simp) (by simp)
      · intro o ho
        rw [hgone] at ho
        cases ho
      · rintro r (hr | hr | hr)
        · rw [hstands] at hr
          cases hr
          refine Or.inr (Or.inr ⟨⟨owner, .clearing, true⟩, ?_, rfl⟩)
          rw [htoken]
          exact Scene.set_self
        · exact Or.inr (Or.inl (hr.rename hrename (by simp)))
        · exact Or.inr (Or.inr (hreleased hr (by simp [Phase.hasReleased])))
  | clear =>
      have hkept : (s.shared.remove (.released owner)) .canonical = s.shared .canonical :=
        Directories.remove_other (by simp)
      refine h.set hactor (by simp [Phase.waits]) (by simp [Phase.holds]) (by simp [Phase.holds]) ?_
        (by simp [Phase.waits]) ?_ ?_ ?_ (by simp [Phase.observed]) (by simp)
      · exact fun _ _ _ _ _ => hkept
      · exact fun _ _ => Directories.remove_other (by simp)
      · exact fun o ho => Or.inl (hkept ▸ ho)
      · rintro r (hr | hr | hr)
        · exact Or.inl (hkept.trans hr)
        · exact Or.inr (Or.inl (hr.remove (by simp)))
        · exact Or.inr (Or.inr (hreleased hr (by simp [Phase.hasReleased])))
  | withdraw =>
      have hkept : (s.shared.remove (.candidate owner.token)) .canonical = s.shared .canonical :=
        Directories.remove_other (by simp)
      refine h.set hactor (by simp [Phase.waits]) (by simp [Phase.waits]) (by simp [Phase.holds]) ?_
        (by simp [Phase.waits]) ?_ ?_ ?_ (by simp [Phase.observed]) (by simp)
      · exact fun _ _ _ _ _ => hkept
      · intro k' hne
        exact Directories.remove_other (by simpa [htoken] using hne)
      · exact fun o ho => Or.inl (hkept ▸ ho)
      · rintro r (hr | hr | hr)
        · exact Or.inl (hkept.trans hr)
        · exact Or.inr (Or.inl (hr.remove (by simp)))
        · exact Or.inr (Or.inr (hreleased hr (by simp [Phase.hasReleased])))

theorem Inv.start (h : Inv s) (hnone : s.actors k = none) (htoken : owner.token = k) :
    Inv (s.set k (s.shared.publish (.candidate k) (.full (.owner owner)))
      ⟨owner, .trying, true⟩) := by
  have hkept : ∀ {name : Name κ}, name ≠ .candidate k →
      (s.shared.publish (.candidate k) (.full (.owner owner))) name = s.shared name :=
    fun hne => Directories.publish_other hne
  have hpresent : ∀ {k' : κ} {b : Actor (Owner κ) (Phase κ)}, s.actors k' = some b → k' ≠ k := by
    rintro k' b hb rfl
    rw [hnone] at hb
    cases hb
  have hpast : ∀ {o : Owner κ}, Past s o →
      Past (s.set k (s.shared.publish (.candidate k) (.full (.owner owner)))
        ⟨owner, .trying, true⟩) o := by
    rintro o ⟨b, hb, hrest⟩
    exact ⟨b, (Scene.set_other (hpresent hb)).trans hb, hrest⟩
  constructor
  case token =>
    intro k' a ha
    rcases Scene.actors_set ha with ⟨rfl, rfl⟩ | ⟨-, ha⟩
    · exact htoken
    · exact h.token k' a ha
  case held =>
    intro k' a ⟨ha, halive⟩ hphase
    rcases Scene.actors_set ha with ⟨rfl, rfl⟩ | ⟨-, ha⟩
    · cases hphase
    · exact (hkept (by simp)).trans (h.held k' a ⟨ha, halive⟩ hphase)
  case candidate =>
    intro k' a ⟨ha, halive⟩ hphase
    rcases Scene.actors_set ha with ⟨rfl, rfl⟩ | ⟨hne, ha⟩
    · exact Directories.publish_self
    · exact (hkept (by simpa using hne)).trans (h.candidate k' a ⟨ha, halive⟩ hphase)
  case stands =>
    intro o ho
    exact hpast (h.stands o ((hkept (by simp)).symm.trans ho))
  case seen =>
    intro k' a r ⟨ha, halive⟩ hphase
    rcases Scene.actors_set ha with ⟨rfl, rfl⟩ | ⟨-, ha⟩
    · cases hphase
    · rcases h.seen k' a r ⟨ha, halive⟩ hphase with hr | ⟨c, hc⟩ | hr
      · exact Or.inl ((hkept (by simp)).trans hr)
      · exact Or.inr (Or.inl ⟨c, (hkept (by simp)).trans hc⟩)
      · refine Or.inr (Or.inr ?_)
        cases r with
        | unreadable => exact hr
        | owner o =>
            obtain ⟨b, hb, hreleased⟩ := hr
            exact ⟨b, (Scene.set_other (hpresent hb)).trans hb, hreleased⟩
  case known =>
    intro k' a o ⟨ha, halive⟩ hphase
    rcases Scene.actors_set ha with ⟨rfl, rfl⟩ | ⟨-, ha⟩
    · cases hphase
    · exact hpast (h.known k' a o ⟨ha, halive⟩ hphase)
  case judged =>
    intro k' a o ⟨ha, halive⟩ hphase b ⟨hb, hlive⟩
    rcases Scene.actors_set ha with ⟨rfl, rfl⟩ | ⟨-, ha⟩
    · cases hphase
    · rcases Scene.actors_set hb with ⟨-, rfl⟩ | ⟨-, hb⟩
      · rfl
      · exact h.judged k' a o ⟨ha, halive⟩ hphase b ⟨hb, hlive⟩

theorem Inv.crash (h : Inv s) (hactor : s.actors k = some a) :
    Inv (s.set k s.shared { a with alive := false }) := by
  have hruns : ∀ {k' : κ} {b : Actor (Owner κ) (Phase κ)},
      (s.set k s.shared { a with alive := false }).Runs k' b → s.Runs k' b := by
    rintro k' b ⟨hb, halive⟩
    rcases Scene.actors_set hb with ⟨-, rfl⟩ | ⟨-, hb⟩
    · cases halive
    · exact ⟨hb, halive⟩
  have hpast : ∀ {o : Owner κ}, Past s o → Past (s.set k s.shared { a with alive := false }) o :=
    fun ho => ho.set hactor rfl (fun hdead => by cases hdead) fun hwaits => hwaits
  constructor
  case token =>
    intro k' b hb
    rcases Scene.actors_set hb with ⟨rfl, rfl⟩ | ⟨-, hb⟩
    · exact h.token k' a hactor
    · exact h.token k' b hb
  case held => exact fun k' b hb => h.held k' b (hruns hb)
  case candidate => exact fun k' b hb => h.candidate k' b (hruns hb)
  case stands => exact fun o ho => hpast (h.stands o ho)
  case seen =>
    intro k' b r hb hphase
    rcases h.seen k' b r (hruns hb) hphase with hr | hr | hr
    · exact Or.inl hr
    · exact Or.inr (Or.inl hr)
    · exact Or.inr (Or.inr (hr.set hactor fun hreleased => hreleased))
  case known => exact fun k' b o hb hphase => hpast (h.known k' b o (hruns hb) hphase)
  case judged =>
    exact fun k' b o hb hphase c hc => h.judged k' b o (hruns hb) hphase c (hruns hc)

theorem Inv.step {d : Deed κ (Owner κ) Input} (h : Inv s) (hstep : contender.Step s d t)
    (hfair : Fair s d) (hunreleased : Unreleased s d) : Inv t := by
  cases d with
  | start k owner =>
      obtain ⟨hnone, ⟨locks, phase⟩, hdone, rfl⟩ := Role.step_start hstep
      simp only [contender] at hdone
      split at hdone
      next htoken =>
        cases hdone
        exact h.start hnone htoken
      next => cases hdone
  | turn k input =>
      obtain ⟨owner, phase, ⟨locks, phase'⟩, hactor, hdone, rfl⟩ := Role.step_turn hstep
      exact h.turn hfair hunreleased hactor hdone
  | crash k =>
      obtain ⟨a, hactor, rfl⟩ := Role.step_crash hstep
      exact h.crash hactor

omit [DecidableEq κ] in
theorem Inv.exclusive (h : Inv s) : Exclusive s := by
  intro k k' a b ha hb hinside hinside'
  have hstands := h.held k a ha (by rw [hinside]; rfl)
  rw [h.held k' b hb (by rw [hinside']; rfl)] at hstands
  have hsame : b.own = a.own := by simpa using hstands
  rw [← h.token k a ha.1, ← h.token k' b hb.1, hsame]

theorem Inv.takesJudged {d : Deed κ (Owner κ) Input} (h : Inv s) (hstep : contender.Step s d t)
    (hunreleased : Unreleased s d) : TakesJudged s t d := by
  rintro k rfl a ha record hphase hmoved
  obtain ⟨owner, phase, ⟨locks, phase'⟩, hactor, hdone, rfl⟩ := Role.step_turn hstep
  cases (Option.mem_def.mp ha).symm.trans hactor
  obtain rfl : phase = .reclaiming record := hphase
  have heffect : Effect owner s.shared (.reclaiming record) .go locks phase' := next_effect hdone
  rw [Scene.set_shared] at hmoved
  cases heffect with
  | quiet => exact absurd rfl hmoved
  | reclaim hrename =>
      have hstands := h.reclaims hactor hunreleased hrename
      exact ⟨hstands, fun k' b hb => h.unheld hactor hstands hb⟩

/-! ## Over every run -/

variable {s₀ : Contest κ} {deeds : List (Deed κ (Owner κ) Input)}

theorem run_inv (hfresh : Fresh s₀)
    (hrun : Run (Where contender.Step fun s d => Fair s d ∧ Unreleased s d) s₀ deeds s) :
    Inv s :=
  hrun.invariant (fun _ _ _ hinv hstep => hinv.step hstep.2 hstep.1.1 hstep.1.2) hfresh.inv

/-- As long as no contender goes on to move a lock aside whose judged owner has
released, at most one is in its operation, and no lock but the judged one is
moved. -/
theorem mutex_excludes (hfresh : Fresh s₀)
    (hrun : Run (Where contender.Step fun s d => Fair s d ∧ Unreleased s d) s₀ deeds s) :
    Exclusive s ∧ ∀ d t, contender.Step s d t → Fair s d → Unreleased s d → TakesJudged s t d := by
  have hinv := run_inv hfresh hrun
  exact ⟨hinv.exclusive, fun d t hstep _ hunreleased => hinv.takesJudged hstep hunreleased⟩

/-! ## A contest of three -/

section Sample

instance [Fintype κ] (s : Contest κ) (d : Deed κ (Owner κ) Input) : Decidable (Fair s d) :=
  match d with
  | .turn _ (.report report) => inferInstanceAs (Decidable (∀ k, ∀ a ∈ s.actors k,
      a.alive = true → report.pidIsAlive a.own.pid = true ∧
        (a.phase.holds = true → report.now - a.own.acquiredAt ≤ staleMs)))
  | .turn _ .go | .turn _ .expired | .turn _ .moved | .start _ _ | .crash _ => isTrue trivial

instance (s : Contest κ) (record : Record κ) : Decidable (Released s record) :=
  match record with
  | .owner owner => inferInstanceAs (Decidable (∃ b ∈ s.actors owner.token,
      b.phase.hasReleased = true))
  | .unreadable _ => isFalse fun h => h

instance (phase : Phase κ) (P : Record κ → Prop) [DecidablePred P] :
    Decidable (∀ record, phase = .reclaiming record → P record) :=
  match phase with
  | .reclaiming record => decidable_of_iff (P record) (by simp)
  | .trying | .looking | .judging _ | .acquired | .inside | .leaving | .releasing | .clearing
  | .withdrawing | .finished _ => isTrue nofun

instance (s : Contest κ) (d : Deed κ (Owner κ) Input) : Decidable (Unreleased s d) :=
  match d with
  | .turn k .go => inferInstanceAs (Decidable (∀ a ∈ s.actors k, ∀ record,
      a.phase = .reclaiming record → Released s record → s.shared .canonical = none))
  | .turn _ (.report _) | .turn _ .expired | .turn _ .moved | .start _ _ | .crash _ =>
      isTrue trivial

local instance neZero_three : NeZero 3 := inferInstance

/-- Nobody has ever been there. -/
def unstarted : Contest (Fin 3) := ⟨fun _ => none, fun _ => none⟩

theorem unstarted_fresh : Fresh unstarted := by
  constructor
  case dead => exact fun _ _ h => by cases h
  case owner => exact fun _ h => by cases h

def caller (k : Fin 3) : Owner (Fin 3) := ⟨100 + k.val, k, 1000 * k.val⟩

/-- One second after the third call, with the first process gone. -/
def firstGone : Report := ⟨3000, 3000, fun pid => pid != 100⟩

def starts (k : Fin 3) : List (Deed (Fin 3) (Owner (Fin 3)) Input) :=
  [.start k (caller k), .turn k .go, .turn k .go]

/-- The first owner dies in its operation and the second takes over. -/
def takeover : List (Deed (Fin 3) (Owner (Fin 3)) Input) :=
  starts 0 ++ starts 1 ++
    [.crash 0, .turn 1 (.report firstGone), .turn 1 .go, .turn 1 .go, .turn 1 .go]

/-- The second reads the first owner and is delayed.  Until it judges that owner,
the first has released and is gone and the third is in its operation. -/
def delayed : List (Deed (Fin 3) (Owner (Fin 3)) Input) :=
  starts 0 ++ starts 1 ++ [.turn 0 .go, .turn 0 .go, .turn 0 .go, .turn 0 .go] ++ starts 2 ++
    [.crash 0, .turn 1 (.report firstGone), .turn 1 .go, .turn 1 .go, .turn 1 .go]

theorem mutex_excludes_takeover : ∃ s : Contest (Fin 3),
    Run (Where contender.Step fun s d => Fair s d ∧ Unreleased s d) unstarted takeover s ∧
      (s.actors 1).any (fun a => a.alive && decide (a.phase = .inside)) = true ∧ Exclusive s := by
  have hdone : (contender.enact (fun s d => decide (Fair s d ∧ Unreleased s d)) unstarted
      takeover).any (fun s => (s.actors 1).any
        fun a => a.alive && decide (a.phase = .inside)) = true := by decide +kernel
  obtain ⟨s, hs, hinside⟩ := (Option.any_eq_true _ _).mp hdone
  have hrun : Run (Where contender.Step fun s d => Fair s d ∧ Unreleased s d) unstarted
      takeover s :=
    (Role.run_of_enact hs).imp fun _ _ _ hstep => ⟨of_decide_eq_true hstep.1, hstep.2⟩
  exact ⟨s, hrun, hinside, (mutex_excludes unstarted_fresh hrun).1⟩

/-- A late contender moves the lock of a live later owner aside, and two are in
their operations. -/
theorem mutex_admits_two : ∃ s : Contest (Fin 3), Fresh unstarted ∧
    Run (Where contender.Step Fair) unstarted delayed s ∧ ¬Exclusive s := by
  have hdone : (contender.enact (fun s d => decide (Fair s d)) unstarted delayed).any
      (fun s => decide (s.actors 1 = some ⟨caller 1, .inside, true⟩ ∧
        s.actors 2 = some ⟨caller 2, .inside, true⟩)) = true := by decide +kernel
  obtain ⟨s, hs, hinside⟩ := (Option.any_eq_true _ _).mp hdone
  obtain ⟨hsecond, hthird⟩ := of_decide_eq_true hinside
  refine ⟨s, unstarted_fresh, ?_, ?_⟩
  · exact (Role.run_of_enact hs).imp fun _ _ _ hstep => ⟨of_decide_eq_true hstep.1, hstep.2⟩
  · intro hexclusive
    have hsame := hexclusive 1 2 _ _ ⟨hsecond, rfl⟩ ⟨hthird, rfl⟩ rfl rfl
    cases hsame

end Sample

end Acc.Storage.Mutex
