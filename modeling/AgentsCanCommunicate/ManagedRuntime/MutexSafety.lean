import AgentsCanCommunicate.ManagedRuntime.Mutex

/-!
# Safety of the manager lock

Whoever has read an owner finds, as long as it goes on, either the lock of that
owner or its tombstone.  Compaction is what could take the tombstone away, and it
does not: it has seen every candidate that was there, all of dead processes, and
who comes later reads no owner but the compacting one.
-/

namespace Acc.ManagedRuntime.Mutex

open Library (Directory Directories Actor Scene Role Deed Run Where)

variable {κ : Type} [DecidableEq κ]
variable {s t : Contest κ} {k k' : κ} {owner o : Owner κ} {locks locks' : Locks κ}
  {phase phase' : Phase κ} {input : Input κ} {a b a' : Actor (Owner κ) (Phase κ)}
  {compaction : Compaction κ}

/-! ## The invariant -/

/-- The owner took the lock at some time, or is done, or is dead. -/
def Past (s : Contest κ) (owner : Owner κ) : Prop :=
  ∃ b, s.actors owner.token = some b ∧ b.own = owner ∧ (b.alive = true → b.phase.isEarly = false)

/-- The lock of the owner stands, or its tombstone does. -/
def Fenced (locks : Locks κ) (owner : Owner κ) : Prop :=
  locks .lock = some (.full (.owner owner)) ∨ locks.Taken (.reclaimed owner)

/-- Whoever has read another owner than this one has its candidate in the list. -/
def Watched (s : Contest κ) (owner : Owner κ) (rest : List (Option (Mark κ))) : Prop :=
  ∀ k a o, s.Runs k a → a.phase.observed = some o → o = owner ∨ some a.own.mark ∈ rest

/-- The candidates are of dead processes. -/
def AllDead (s : Contest κ) (dead : List (Mark κ)) : Prop :=
  ∀ mark ∈ dead, ∃ a, s.actors mark.token = some a ∧ a.alive = false

/-- What a compaction knows. -/
def Compacts (s : Contest κ) (owner : Owner κ) : Compaction κ → Prop
  | .listing => True
  | .checking rest dead _ => Watched s owner rest ∧ AllDead s dead
  | .probing mark rest dead _ => Watched s owner (some mark :: rest) ∧ AllDead s dead ∧
      ∃ a, s.actors mark.token = some a ∧ a.own.pid = mark.pid
  | .sweeping _ dead | .deleting _ _ dead | .clearing dead => Watched s owner [] ∧ AllDead s dead

structure Inv (s : Contest κ) : Prop where
  token : ∀ k a, s.actors k = some a → a.own.token = k
  /-- Who holds the lock finds its own record there. -/
  held : ∀ k a, s.Runs k a → a.phase.holds = true →
    s.shared .lock = some (.full (.owner a.own))
  /-- Who goes round in the loop has its candidate. -/
  candidate : ∀ k a, s.Runs k a → a.phase.waits = true →
    s.shared (.candidate a.own.mark) = some (.full (.owner a.own))
  named : ∀ mark, s.shared (.candidate mark) ≠ none →
    ∃ a, s.actors mark.token = some a ∧ a.own.pid = mark.pid
  stands : ∀ o, s.shared .lock = some (.full (.owner o)) → Past s o
  buried : ∀ o, s.shared.Taken (.reclaimed o) → Past s o
  free : ∀ o, s.shared .lock = some (.full (.owner o)) → ¬s.shared.Taken (.reclaimed o)
  seen : ∀ k a o, s.Runs k a → a.phase.observed = some o → Fenced s.shared o
  known : ∀ k a o, s.Runs k a → a.phase.observed = some o → Past s o
  confirmed : ∀ k a o, s.Runs k a → a.phase = .retiring o → Dead s o
  compacts : ∀ k a c, s.Runs k a → a.phase = .compacting c → Compacts s a.own c

/-! ## What an actor's step keeps -/

theorem Past.set (h : Past s o) (hactor : s.actors k = some a) (hown : a'.own = a.own)
    (halive : a'.alive = true → a.alive = true)
    (hearly : a.phase.isEarly = false → a'.phase.isEarly = false) : Past (s.set k locks' a') o := by
  obtain ⟨b, hb, howner, hpast⟩ := h
  by_cases hk : o.token = k
  · subst hk
    rw [hactor] at hb
    cases hb
    exact ⟨a', Scene.set_self, hown.trans howner, fun h => hearly (hpast (halive h))⟩
  · exact ⟨b, (Scene.set_other hk).trans hb, howner, hpast⟩

theorem Dead.set (h : Dead s o) (hactor : s.actors k = some a) (hown : a'.own = a.own)
    (halive : a'.alive = true → a.alive = true) : Dead (s.set k locks' a') o := by
  obtain ⟨b, hb, howner, hdead⟩ := h
  by_cases hk : o.token = k
  · subst hk
    rw [hactor] at hb
    cases hb
    refine ⟨a', Scene.set_self, hown.trans howner, Bool.eq_false_iff.mpr fun hlive => ?_⟩
    rw [halive hlive] at hdead
    cases hdead
  · exact ⟨b, (Scene.set_other hk).trans hb, howner, hdead⟩

theorem AllDead.set {dead : List (Mark κ)} (h : AllDead s dead) (hactor : s.actors k = some a)
    (halive : a'.alive = true → a.alive = true) : AllDead (s.set k locks' a') dead := by
  intro mark hmark
  obtain ⟨b, hb, hdead⟩ := h mark hmark
  by_cases hk : mark.token = k
  · subst hk
    rw [hactor] at hb
    cases hb
    refine ⟨a', Scene.set_self, Bool.eq_false_iff.mpr fun hlive => ?_⟩
    rw [halive hlive] at hdead
    cases hdead
  · exact ⟨b, (Scene.set_other hk).trans hb, hdead⟩

/-- A compaction goes on knowing what it knows as long as nobody reads another
owner. -/
theorem Compacts.set {c : Compaction κ} (h : Compacts s owner c) (hactor : s.actors k = some a)
    (hown : a'.own = a.own) (halive : a'.alive = true → a.alive = true)
    (hobserved : a'.alive = true → ∀ o, a'.phase.observed = some o →
      a.phase.observed = some o ∨ o = owner) : Compacts (s.set k locks' a') owner c := by
  have hwatched : ∀ {rest : List (Option (Mark κ))}, Watched s owner rest →
      Watched (s.set k locks' a') owner rest := by
    rintro rest hrest k' b o ⟨hb, hlive⟩ ho
    rcases Scene.actors_set hb with ⟨rfl, rfl⟩ | ⟨-, hb⟩
    · rcases hobserved hlive o ho with hbefore | rfl
      · have := hrest k' a o ⟨hactor, halive hlive⟩ hbefore
        rwa [hown]
      · exact Or.inl rfl
    · exact hrest k' b o ⟨hb, hlive⟩ ho
  cases c with
  | listing => trivial
  | checking => exact ⟨hwatched h.1, h.2.set hactor halive⟩
  | probing mark =>
      refine ⟨hwatched h.1, h.2.1.set hactor halive, ?_⟩
      obtain ⟨b, hb, hpid⟩ := h.2.2
      by_cases hk : mark.token = k
      · subst hk
        rw [hactor] at hb
        cases hb
        exact ⟨a', Scene.set_self, hown ▸ hpid⟩
      · exact ⟨b, (Scene.set_other hk).trans hb, hpid⟩
  | sweeping => exact ⟨hwatched h.1, h.2.set hactor halive⟩
  | deleting => exact ⟨hwatched h.1, h.2.set hactor halive⟩
  | clearing => exact ⟨hwatched h.1, h.2.set hactor halive⟩

/-- What a step of a contender must see to. -/
structure Keeps (s : Contest κ) (k : κ) (owner : Owner κ) (phase : Phase κ) (locks' : Locks κ)
    (phase' : Phase κ) : Prop where
  early : phase.isEarly = false → phase'.isEarly = false
  held : phase'.holds = true → locks' .lock = some (.full (.owner owner))
  others : ∀ k' a, k' ≠ k → s.Runs k' a → a.phase.holds = true → locks' .lock = s.shared .lock
  candidate : phase'.waits = true → locks' (.candidate owner.mark) = some (.full (.owner owner))
  candidates : ∀ k' a, k' ≠ k → s.Runs k' a → a.phase.waits = true →
    locks' (.candidate a.own.mark) = s.shared (.candidate a.own.mark)
  named : ∀ mark, locks' (.candidate mark) ≠ none →
    s.shared (.candidate mark) ≠ none ∨ mark = owner.mark
  stands : ∀ o, locks' .lock = some (.full (.owner o)) →
    s.shared .lock = some (.full (.owner o)) ∨ o = owner ∧ phase'.isEarly = false
  buried : ∀ o, locks'.Taken (.reclaimed o) → Past s o
  free : ∀ o, locks' .lock = some (.full (.owner o)) → ¬locks'.Taken (.reclaimed o)
  fenced : ∀ k' a o, s.Runs k' a → a.phase.observed = some o → Fenced s.shared o → Fenced locks' o
  observed : ∀ o, phase'.observed = some o →
    phase.observed = some o ∨ locks' = s.shared ∧ s.shared .lock = some (.full (.owner o))
  confirmed : ∀ o, phase' = .retiring o → Dead s o
  compacts : ∀ c, phase' = .compacting c → Compacts s owner c

theorem Inv.set (h : Inv s) (hactor : s.actors k = some ⟨owner, phase, true⟩)
    (hkeeps : Keeps s k owner phase locks' phase') : Inv (s.set k locks' ⟨owner, phase', true⟩) := by
  have hruns : s.Runs k ⟨owner, phase, true⟩ := ⟨hactor, rfl⟩
  have htoken : owner.token = k := h.token k _ hactor
  have hpast : ∀ {o : Owner κ}, Past s o → Past (s.set k locks' ⟨owner, phase', true⟩) o :=
    fun ho => ho.set hactor rfl (fun _ => rfl) hkeeps.early
  constructor
  case token =>
    intro k' a ha
    rcases Scene.actors_set ha with ⟨rfl, rfl⟩ | ⟨-, ha⟩
    · exact htoken
    · exact h.token k' a ha
  case held =>
    intro k' a ⟨ha, halive⟩ hphase
    rcases Scene.actors_set ha with ⟨rfl, rfl⟩ | ⟨hne, ha⟩
    · exact hkeeps.held hphase
    · exact (hkeeps.others k' a hne ⟨ha, halive⟩ hphase).trans (h.held k' a ⟨ha, halive⟩ hphase)
  case candidate =>
    intro k' a ⟨ha, halive⟩ hphase
    rcases Scene.actors_set ha with ⟨rfl, rfl⟩ | ⟨hne, ha⟩
    · exact hkeeps.candidate hphase
    · exact (hkeeps.candidates k' a hne ⟨ha, halive⟩ hphase).trans
        (h.candidate k' a ⟨ha, halive⟩ hphase)
  case named =>
    intro mark hmark
    rcases hkeeps.named mark hmark with hbefore | rfl
    · obtain ⟨a, ha, hpid⟩ := h.named mark hbefore
      by_cases hk : mark.token = k
      · subst hk
        rw [hactor] at ha
        cases ha
        exact ⟨_, Scene.set_self, hpid⟩
      · exact ⟨a, (Scene.set_other hk).trans ha, hpid⟩
    · refine ⟨⟨owner, phase', true⟩, ?_, rfl⟩
      rw [show owner.mark.token = k from htoken]
      exact Scene.set_self
  case stands =>
    intro o ho
    rcases hkeeps.stands o ho with hbefore | ⟨rfl, hphase⟩
    · exact hpast (h.stands o hbefore)
    · refine ⟨⟨o, phase', true⟩, ?_, rfl, fun _ => hphase⟩
      rw [htoken]
      exact Scene.set_self
  case buried => exact fun o ho => hpast (hkeeps.buried o ho)
  case free => exact hkeeps.free
  case seen =>
    intro k' a o ⟨ha, halive⟩ hphase
    rcases Scene.actors_set ha with ⟨rfl, rfl⟩ | ⟨-, ha⟩
    · rcases hkeeps.observed o hphase with hbefore | ⟨hsame, hread⟩
      · exact hkeeps.fenced k' _ o hruns hbefore (h.seen k' _ o hruns hbefore)
      · exact Or.inl (by rw [Scene.set_shared, hsame, hread])
    · exact hkeeps.fenced k' a o ⟨ha, halive⟩ hphase (h.seen k' a o ⟨ha, halive⟩ hphase)
  case known =>
    intro k' a o ⟨ha, halive⟩ hphase
    rcases Scene.actors_set ha with ⟨rfl, rfl⟩ | ⟨-, ha⟩
    · rcases hkeeps.observed o hphase with hbefore | ⟨-, hread⟩
      · exact hpast (h.known k' _ o hruns hbefore)
      · exact hpast (h.stands o hread)
    · exact hpast (h.known k' a o ⟨ha, halive⟩ hphase)
  case confirmed =>
    intro k' a o ⟨ha, halive⟩ hphase
    have hdead : Dead s o := by
      rcases Scene.actors_set ha with ⟨rfl, rfl⟩ | ⟨-, ha⟩
      · exact hkeeps.confirmed o hphase
      · exact h.confirmed k' a o ⟨ha, halive⟩ hphase
    exact hdead.set hactor rfl fun _ => rfl
  case compacts =>
    intro k' a c ⟨ha, halive⟩ hphase
    rcases Scene.actors_set ha with ⟨rfl, rfl⟩ | ⟨hne, ha⟩
    · refine (hkeeps.compacts c hphase).set hactor rfl (fun _ => rfl) fun _ o ho => ?_
      rw [show phase' = .compacting c from hphase] at ho
      cases ho
    · refine (h.compacts k' a c ⟨ha, halive⟩ hphase).set hactor rfl (fun _ => rfl) fun _ o ho => ?_
      rcases hkeeps.observed o ho with hbefore | ⟨-, hread⟩
      · exact Or.inl hbefore
      · rw [h.held k' a ⟨ha, halive⟩ (by rw [hphase]; rfl)] at hread
        cases hread
        exact Or.inr rfl

/-! ## The steps of the loop -/

/-- A step that leaves the directories alone. -/
structure Quiet (locks : Locks κ) (phase : Phase κ) (input : Input κ) (phase' : Phase κ) :
    Prop where
  early : phase.isEarly = false → phase'.isEarly = false
  holds : phase'.holds = true → phase.holds = true
  waits : phase'.waits = true → phase.waits = true
  observed : ∀ o, phase'.observed = some o →
    phase.observed = some o ∨ locks .lock = some (.full (.owner o))
  confirmed : ∀ o, phase' = .retiring o → ∃ confirmedDead,
    input = .report confirmedDead ∧ phase = .judging o ∧ confirmedDead o.pid = true
  compacts : ∀ c, phase' = .compacting c → c = .listing

/-- What a step does to the directories. -/
inductive Effect (owner : Owner κ) (locks : Locks κ) :
    Phase κ → Input κ → Locks κ → Phase κ → Prop where
  | quiet {phase phase' : Phase κ} {input : Input κ} : Quiet locks phase input phase' →
      Effect owner locks phase input locks phase'
  | write : Effect owner locks .preparing .go
      (locks.publish (.candidate owner.mark) (.full (.owner owner))) .looking
  | publish {locks' : Locks κ} : locks.rename (.candidate owner.mark) .lock = .ok locks' →
      Effect owner locks .publishing .go locks' .admitted
  | retire {current : Owner κ} {locks' : Locks κ} :
      locks.rename .lock (.reclaimed current) = .ok locks' →
      Effect owner locks (.retiring current) .go locks' .looking
  | compact {c : Compaction κ} {input : Input κ} {locks' : Locks κ}
      {after : Option (Compaction κ)} : compact locks c input = some (locks', after) →
      Effect owner locks (.compacting c) input locks' (.after after)
  | release {locks' : Locks κ} : locks.rename .lock (.reclaimed owner) = .ok locks' →
      Effect owner locks .releasing .go locks' .finished
  | withdraw {phase' : Phase κ} : phase' = .withdrawing ∨ phase' = .finished →
      Effect owner locks .withdrawing .go (removeTree locks (.candidate owner.mark)).1 phase'

omit [DecidableEq κ] in
theorem quiet_of (hearly : phase.isEarly = false → phase'.isEarly = false)
    (hholds : phase'.holds = true → phase.holds = true)
    (hwaits : phase'.waits = true → phase.waits = true) (hobserved : phase'.observed = none)
    (hcompacts : ∀ c, phase' ≠ .compacting c) : Quiet locks phase input phase' := by
  refine ⟨hearly, hholds, hwaits, ?_, ?_, ?_⟩
  · intro o h
    rw [hobserved] at h
    cases h
  · rintro o rfl
    cases hobserved
  · exact fun c h => absurd h (hcompacts c)

omit [DecidableEq κ] in
theorem readOwner_eq_ok {name : Name κ} (h : readOwner locks name = .ok (some o)) :
    locks name = some (.full (.owner o)) := by
  unfold readOwner at h
  split at h
  next => cases h
  next owner howner => cases h; exact howner
  next => cases h

theorem next_effect (h : next owner locks phase input = some (locks', phase')) :
    Effect owner locks phase input locks' phase' := by
  unfold next at h
  split at h
  next => cases h; exact .write
  next =>
    split at h
    next current hread =>
      cases h
      refine .quiet ⟨?_, ?_, ?_, ?_, ?_, ?_⟩
      case refine_4 =>
        intro o ho
        cases ho
        exact Or.inr (readOwner_eq_ok hread)
      all_goals simp [Phase.isEarly, Phase.holds, Phase.waits]
    next => cases h; exact .quiet (quiet_of (fun h => h) (fun h => h) (fun _ => rfl) rfl nofun)
    next => cases h; exact .quiet (quiet_of (fun h => h) (fun h => h) (fun _ => rfl) rfl nofun)
  next => cases h; exact .quiet (quiet_of (fun h => h) (fun h => h) (fun _ => rfl) rfl nofun)
  next => cases h; exact .quiet (quiet_of (fun h => h) (fun h => h) (fun _ => rfl) rfl nofun)
  next current confirmedDead =>
    cases hdead : confirmedDead current.pid with
    | false =>
        rw [hdead] at h
        cases h
        exact .quiet (quiet_of (fun h => h) (fun h => h) (fun _ => rfl) rfl nofun)
    | true =>
        rw [hdead] at h
        cases h
        refine .quiet ⟨fun h => h, fun h => h, fun _ => rfl, fun _ ho => Or.inl ho, ?_, nofun⟩
        rintro o ho
        cases ho
        exact ⟨confirmedDead, rfl, rfl, hdead⟩
  next =>
    split at h
    next hrename => cases h; exact .retire hrename
    next => cases h; exact .quiet (quiet_of (fun h => h) (fun h => h) (fun _ => rfl) rfl nofun)
  next =>
    split at h
    next hrename => cases h; exact .publish hrename
    next => cases h; exact .quiet (quiet_of (fun h => h) (fun h => h) (fun _ => rfl) rfl nofun)
    next => cases h; exact .quiet (quiet_of (fun h => h) (fun h => h) (fun _ => rfl) rfl nofun)
  next => cases h; exact .quiet (quiet_of (fun h => h) (fun h => h) nofun rfl nofun)
  next => cases h; exact .quiet (quiet_of (fun h => h) (fun h => h) nofun rfl nofun)
  next => cases h; exact .quiet (quiet_of (fun h => h) (fun h => h) nofun rfl nofun)
  next => cases h; exact .quiet (quiet_of (fun h => h) (fun h => h) nofun rfl nofun)
  next =>
    cases h
    exact .quiet ⟨fun h => h, fun _ => rfl, nofun, nofun, nofun, fun c hc => by cases hc; rfl⟩
  next => cases h; exact .quiet (quiet_of (fun _ => rfl) (fun _ => rfl) nofun rfl nofun)
  next =>
    obtain ⟨⟨locks'', after⟩, hcompact, hdone⟩ := Option.map_eq_some_iff.mp h
    cases hdone
    exact .compact hcompact
  next => cases h; exact .quiet (quiet_of (fun _ => rfl) (fun _ => rfl) nofun rfl nofun)
  next =>
    split at h
    next =>
      split at h
      next => cases h; exact .quiet (quiet_of (fun _ => rfl) (fun _ => rfl) nofun rfl nofun)
      next => cases h; exact .quiet (quiet_of (fun _ => rfl) nofun nofun rfl nofun)
    next => cases h; exact .quiet (quiet_of (fun _ => rfl) nofun nofun rfl nofun)
  next => cases h; exact .quiet (quiet_of (fun _ => rfl) nofun nofun rfl nofun)
  next => cases h; exact .quiet (quiet_of (fun _ => rfl) nofun nofun rfl nofun)
  next =>
    split at h
    next hrename => cases h; exact .release hrename
    next => cases h; exact .quiet (quiet_of (fun _ => rfl) nofun nofun rfl nofun)
  next => cases h; exact .quiet (quiet_of (fun _ => rfl) nofun nofun rfl nofun)
  next =>
    cases h
    refine .withdraw ?_
    split
    next => exact Or.inr rfl
    next => exact Or.inl rfl
  next => cases h; exact .quiet (quiet_of (fun _ => rfl) nofun nofun rfl nofun)
  next => cases h

/-! ## Each of them keeps the invariant -/

theorem removeTree_other {name other : Name κ} (h : other ≠ name) :
    (removeTree locks name).1 other = locks other := by
  unfold removeTree
  split
  next => exact Directories.publish_other h
  next => exact Directories.remove_other h

theorem removeTree_not_taken {name : Name κ} : ¬(removeTree locks name).1.Taken name := by
  rintro ⟨c, hc⟩
  unfold removeTree at hc
  split at hc
  next => simp at hc
  next => simp at hc

/-- Removing adds nothing. -/
theorem removeTree_named {name other : Name κ} (h : (removeTree locks name).1 other ≠ none) :
    locks other ≠ none := by
  by_cases hother : other = name
  · subst hother
    unfold removeTree at h
    split at h
    next hfull => rw [hfull]; simp
    next => simp at h
  · rwa [removeTree_other hother] at h

theorem taken_of_removeTree {name other : Name κ} (h : (removeTree locks name).1.Taken other) :
    locks.Taken other := by
  by_cases hother : other = name
  · subst hother
    exact absurd h removeTree_not_taken
  · obtain ⟨c, hc⟩ := h
    exact ⟨c, (removeTree_other hother).symm.trans hc⟩

section Turns

variable (h : Inv s) (hactor : s.actors k = some ⟨owner, phase, true⟩)
include h hactor

omit [DecidableEq κ] in
/-- A live contender that has not taken the lock is not of the past. -/
theorem Inv.not_past (hphase : phase.isEarly = true) : ¬Past s owner := by
  rintro ⟨b, hb, -, hpast⟩
  rw [h.token k _ hactor, hactor] at hb
  cases hb
  have hlate := hpast rfl
  rw [show phase.isEarly = false from hlate] at hphase
  cases hphase

omit [DecidableEq κ] in
theorem Inv.quiet (hearly : phase.isEarly = false → phase'.isEarly = false)
    (hholds : phase'.holds = true → phase.holds = true)
    (hwaits : phase'.waits = true → phase.waits = true)
    (hobserved : ∀ o, phase'.observed = some o →
      phase.observed = some o ∨ s.shared .lock = some (.full (.owner o)))
    (hconfirmed : ∀ o, phase' = .retiring o → Dead s o)
    (hcompacts : ∀ c, phase' = .compacting c → Compacts s owner c) :
    Keeps s k owner phase s.shared phase' where
  early := hearly
  held hphase := h.held k _ ⟨hactor, rfl⟩ (hholds hphase)
  others _ _ _ _ _ := rfl
  candidate hphase := h.candidate k _ ⟨hactor, rfl⟩ (hwaits hphase)
  candidates _ _ _ _ _ := rfl
  named _ hmark := Or.inl hmark
  stands _ ho := Or.inl ho
  buried := h.buried
  free := h.free
  fenced _ _ _ _ _ hfenced := hfenced
  observed o ho := (hobserved o ho).imp_right fun hread => ⟨rfl, hread⟩
  confirmed := hconfirmed
  compacts := hcompacts

omit [DecidableEq κ] in
theorem Inv.past (hphase : phase.isEarly = false) : Past s owner := by
  refine ⟨⟨owner, phase, true⟩, ?_, rfl, fun _ => hphase⟩
  rw [h.token k _ hactor]
  exact hactor

omit [DecidableEq κ] in
/-- Another contender's candidate is another directory. -/
theorem Inv.mark_ne {k' : κ} {a : Actor (Owner κ) (Phase κ)} (hne : k' ≠ k) (ha : s.Runs k' a) :
    Name.candidate a.own.mark ≠ .candidate owner.mark := by
  intro hsame
  have htoken : a.own.token = owner.token := by
    simp only [Owner.mark, Name.candidate.injEq, Mark.mk.injEq] at hsame
    exact hsame.2
  rw [h.token k' a ha.1, h.token k _ hactor] at htoken
  exact hne htoken

end Turns

theorem Inv.write (h : Inv s) (hactor : s.actors k = some ⟨owner, .preparing, true⟩) :
    Keeps s k owner .preparing
      (s.shared.publish (.candidate owner.mark) (.full (.owner owner))) .looking := by
  have hkept : ∀ {name : Name κ}, name ≠ .candidate owner.mark →
      (s.shared.publish (.candidate owner.mark) (.full (.owner owner))) name = s.shared name :=
    fun hne => Directories.publish_other hne
  have hlock := @hkept .lock nofun
  have hreclaimed := fun o => @hkept (.reclaimed o) nofun
  constructor
  case early => nofun
  case held => nofun
  case others => exact fun _ _ _ _ _ => hlock
  case candidate => exact fun _ => Directories.publish_self
  case candidates => exact fun k' a hne ha _ => hkept (h.mark_ne hactor hne ha)
  case named =>
    intro mark hmark
    by_cases hsame : mark = owner.mark
    · exact Or.inr hsame
    · rw [hkept (by simpa using hsame)] at hmark
      exact Or.inl hmark
  case stands => exact fun o ho => Or.inl (hlock.symm.trans ho)
  case buried =>
    rintro o ⟨c, hc⟩
    exact h.buried o ⟨c, (hreclaimed o).symm.trans hc⟩
  case free =>
    rintro o ho ⟨c, hc⟩
    exact h.free o (hlock.symm.trans ho) ⟨c, (hreclaimed o).symm.trans hc⟩
  case fenced =>
    rintro k' a o - - (ho | ⟨c, hc⟩)
    · exact Or.inl (hlock.trans ho)
    · exact Or.inr ⟨c, (hreclaimed o).trans hc⟩
  case observed => nofun
  case confirmed => nofun
  case compacts => nofun

/-- A rename takes no tombstone away, and puts one only under the target. -/
theorem taken_of_rename {source target name : Name κ}
    (hrename : locks.rename source target = .ok locks') (hsource : name ≠ source)
    (htarget : name ≠ target) (hname : locks'.Taken name) : locks.Taken name := by
  obtain ⟨c, hc⟩ := hname
  exact ⟨c, (Directories.rename_other hrename hsource htarget).symm.trans hc⟩

theorem Inv.publish (h : Inv s) (hactor : s.actors k = some ⟨owner, .publishing, true⟩)
    (hrename : s.shared.rename (.candidate owner.mark) .lock = .ok locks') :
    Keeps s k owner .publishing locks' .admitted := by
  have hmoved : locks' .lock = some (.full (.owner owner)) := by
    rw [Directories.rename_target hrename]
    exact h.candidate k _ ⟨hactor, rfl⟩ rfl
  have hfree : ¬s.shared.Taken .lock := by
    obtain ⟨_, -, hfree, -⟩ := Directories.rename_eq_ok hrename
    exact hfree
  constructor
  case early => exact fun _ => rfl
  case held => exact fun _ => hmoved
  case others =>
    intro k' a _ ha hphase
    exact absurd ⟨_, h.held k' a ha hphase⟩ hfree
  case candidate => nofun
  case candidates =>
    exact fun k' a hne ha _ => Directories.rename_other hrename (h.mark_ne hactor hne ha) nofun
  case named =>
    intro mark hmark
    by_cases hsame : mark = owner.mark
    · exact Or.inr hsame
    · rw [Directories.rename_other hrename (by simp [hsame]) (by simp)] at hmark
      exact Or.inl hmark
  case stands =>
    intro o ho
    rw [hmoved] at ho
    cases ho
    exact Or.inr ⟨rfl, rfl⟩
  case buried => exact fun o ho => h.buried o (taken_of_rename hrename (by simp) (by simp) ho)
  case free =>
    intro o ho htaken
    rw [hmoved] at ho
    cases ho
    exact h.not_past hactor rfl (h.buried owner (taken_of_rename hrename (by simp) (by simp) htaken))
  case fenced =>
    rintro k' a o - - (ho | htaken)
    · exact absurd ⟨_, ho⟩ hfree
    · exact Or.inr (htaken.rename hrename nofun)
  case observed => nofun
  case confirmed => nofun
  case compacts => nofun

/-- Retiring moves the lock of the owner that was read. -/
theorem Inv.retires (h : Inv s) (hactor : s.actors k = some ⟨owner, .retiring o, true⟩)
    (hrename : s.shared.rename .lock (.reclaimed o) = .ok locks') :
    s.shared .lock = some (.full (.owner o)) := by
  obtain ⟨_, -, hfree, -⟩ := Directories.rename_eq_ok hrename
  exact (h.seen k _ o ⟨hactor, rfl⟩ rfl).resolve_right hfree

/-- What moving a standing lock to the tombstone of its owner keeps. -/
theorem Inv.moved (h : Inv s) (hactor : s.actors k = some ⟨owner, phase, true⟩)
    (hrename : s.shared.rename .lock (.reclaimed o) = .ok locks')
    (hstands : s.shared .lock = some (.full (.owner o))) (hpast : Past s o)
    (hothers : ∀ k' a, k' ≠ k → s.Runs k' a → a.phase.holds = false)
    (hearly : phase.isEarly = false → phase'.isEarly = false) (hholds : phase'.holds = false)
    (hwaits : phase'.waits = true → phase.waits = true) (hobserved : phase'.observed = none)
    (hcompacts : ∀ c, phase' ≠ .compacting c) : Keeps s k owner phase locks' phase' := by
  have hgone := Directories.rename_source hrename nofun
  have hcandidate : ∀ mark, locks' (.candidate mark) = s.shared (.candidate mark) :=
    fun mark => Directories.rename_other hrename (by simp) (by simp)
  constructor
  case early => exact hearly
  case held =>
    intro hphase
    rw [hholds] at hphase
    cases hphase
  case others =>
    intro k' a hne ha hphase
    rw [hothers k' a hne ha] at hphase
    cases hphase
  case candidate =>
    intro hphase
    exact (hcandidate _).trans (h.candidate k _ ⟨hactor, rfl⟩ (hwaits hphase))
  case candidates => exact fun _ _ _ _ _ => hcandidate _
  case named =>
    intro mark hmark
    rw [hcandidate mark] at hmark
    exact Or.inl hmark
  case stands =>
    intro o' ho
    rw [hgone] at ho
    cases ho
  case buried =>
    intro o' htaken
    by_cases hsame : o' = o
    · exact hsame ▸ hpast
    · exact h.buried o' (taken_of_rename hrename (by simp) (by simpa using hsame) htaken)
  case free =>
    intro o' ho
    rw [hgone] at ho
    cases ho
  case fenced =>
    rintro k' a o' - - (ho | htaken)
    · rw [hstands] at ho
      cases ho
      exact Or.inr (Directories.taken_target hrename hstands)
    · exact Or.inr (htaken.rename hrename nofun)
  case observed =>
    intro o' ho
    rw [hobserved] at ho
    cases ho
  case confirmed =>
    rintro o' rfl
    cases hobserved
  case compacts => exact fun c hc => absurd hc (hcompacts c)

/-- What removing a directory that nobody needs keeps. -/
theorem Inv.removed {name : Name κ} (h : Inv s)
    (hactor : s.actors k = some ⟨owner, phase, true⟩) (hlock : name ≠ .lock)
    (hcandidates : ∀ k' a, k' ≠ k → s.Runs k' a → a.phase.waits = true →
      name ≠ .candidate a.own.mark)
    (hfences : ∀ k' a o, s.Runs k' a → a.phase.observed = some o →
      s.shared .lock = some (.full (.owner o)) ∨ name ≠ .reclaimed o)
    (hearly : phase.isEarly = false → phase'.isEarly = false)
    (hholds : phase'.holds = true → phase.holds = true) (hwaits : phase'.waits = false)
    (hcompacts : ∀ c, phase' = .compacting c → Compacts s owner c) :
    Keeps s k owner phase (removeTree s.shared name).1 phase' := by
  have hkept : (removeTree s.shared name).1 .lock = s.shared .lock := removeTree_other hlock.symm
  have hobserved : phase'.observed = none := by
    cases phase' <;> first | rfl | cases hwaits
  constructor
  case early => exact hearly
  case held => exact fun hphase => hkept.trans (h.held k _ ⟨hactor, rfl⟩ (hholds hphase))
  case others => exact fun _ _ _ _ _ => hkept
  case candidate =>
    intro hphase
    rw [hwaits] at hphase
    cases hphase
  case candidates =>
    exact fun k' a hne ha hphase => removeTree_other (hcandidates k' a hne ha hphase).symm
  case named => exact fun mark hmark => Or.inl (removeTree_named hmark)
  case stands => exact fun o ho => Or.inl (hkept.symm.trans ho)
  case buried => exact fun o ho => h.buried o (taken_of_removeTree ho)
  case free => exact fun o ho htaken => h.free o (hkept.symm.trans ho) (taken_of_removeTree htaken)
  case fenced =>
    rintro k' a o ha hphase hfenced
    rcases hfences k' a o ha hphase with hstands | hne
    · exact Or.inl (hkept.trans hstands)
    · rcases hfenced with hstands | ⟨c, hc⟩
      · exact Or.inl (hkept.trans hstands)
      · exact Or.inr ⟨c, (removeTree_other hne.symm).trans hc⟩
  case observed =>
    intro o ho
    rw [hobserved] at ho
    cases ho
  case confirmed =>
    rintro o rfl
    cases hobserved
  case compacts => exact hcompacts

omit [DecidableEq κ] in
/-- Whoever has read an owner goes round in the loop. -/
theorem waits_of_observed (h : phase.observed = some o) : phase.waits = true := by
  cases phase <;> first | rfl | cases h

section Compaction

variable {after : Option (Compaction κ)}

/-- Compaction leaves the lock. -/
theorem compact_lock (h : compact locks compaction input = some (locks', after)) :
    locks' .lock = locks .lock := by
  unfold compact at h
  split at h
  all_goals first
    | cases h; rfl
    | cases h; exact removeTree_other (by simp)
    | split at h <;> cases h <;> rfl
    | cases h

omit [DecidableEq κ] in
theorem Inv.compacted_quiet (h : Inv s)
    (hactor : s.actors k = some ⟨owner, .compacting compaction, true⟩)
    (hknows : ∀ c, after = some c → Compacts s owner c) :
    Keeps s k owner (.compacting compaction) s.shared (.after after) := by
  cases after with
  | none => exact h.quiet hactor (fun _ => rfl) (fun _ => rfl) nofun nofun nofun nofun
  | some c =>
      refine h.quiet hactor (fun _ => rfl) (fun _ => rfl) nofun nofun nofun ?_
      rintro c' hc
      cases hc
      exact hknows c rfl

/-- A tombstone is removed when nobody needs it. -/
theorem Inv.compacted_tombstone {tombstone : Owner κ} {c' : Compaction κ} (h : Inv s)
    (hactor : s.actors k = some ⟨owner, .compacting compaction, true⟩)
    (hwatched : Watched s owner []) (hknows : Compacts s owner c') :
    Keeps s k owner (.compacting compaction) (removeTree s.shared (.reclaimed tombstone)).1
      (.compacting c') := by
  refine h.removed hactor nofun nofun ?_ (fun _ => rfl) (fun _ => rfl) rfl ?_
  · intro k' a o ha ho
    rcases hwatched k' a o ha ho with rfl | hnone
    · exact Or.inl (h.held k _ ⟨hactor, rfl⟩ rfl)
    · cases hnone
  · rintro c hc
    cases hc
    exact hknows

theorem Inv.compacted (h : Inv s)
    (hactor : s.actors k = some ⟨owner, .compacting compaction, true⟩)
    (hfair : Fair s (.turn k input))
    (hdone : compact s.shared compaction input = some (locks', after)) :
    Keeps s k owner (.compacting compaction) locks' (.after after) := by
  have hknown := h.compacts k _ compaction ⟨hactor, rfl⟩ rfl
  unfold compact at hdone
  split at hdone
  next listing =>
    cases hdone
    refine h.compacted_quiet hactor ?_
    rintro c hc
    cases hc
    refine ⟨fun k' a o ha ho => Or.inr (hfair a.own.mark ?_), nofun⟩
    rw [h.candidate k' a ha (waits_of_observed ho)]
    simp
  next dead tombstones =>
    cases hdone
    refine h.compacted_quiet hactor ?_
    rintro c hc
    cases hc
    exact hknown
  next => cases hdone; exact h.compacted_quiet hactor nofun
  next mark rest dead tombstones =>
    split at hdone
    next => cases hdone; exact h.compacted_quiet hactor nofun
    next directory hdirectory =>
      cases hdone
      refine h.compacted_quiet hactor ?_
      rintro c hc
      split at hc
      next =>
        cases hc
        exact ⟨hknown.1, hknown.2, h.named mark (by rw [hdirectory]; simp)⟩
      next => cases hc
  next mark rest dead tombstones confirmedDead =>
    cases hdone
    refine h.compacted_quiet hactor ?_
    rintro c hc
    split at hc
    next hdead =>
      cases hc
      obtain ⟨hwatched, halldead, b, hb, hpid⟩ := hknown
      refine ⟨?_, ?_⟩
      · intro k' a o ha ho
        rcases hwatched k' a o ha ho with hown | hmark
        · exact Or.inl hown
        · rcases List.mem_cons.mp hmark with hsame | hrest
          · cases hsame
            have halive := hfair k' a ha.1 ha.2
            rw [show confirmedDead a.own.pid = true from hdead] at halive
            cases halive
          · exact Or.inr hrest
      · intro m hm
        rcases List.mem_append.mp hm with hbefore | hsame
        · exact halldead m hbefore
        · obtain rfl := List.mem_singleton.mp hsame
          refine ⟨b, hb, Bool.eq_false_iff.mpr fun hlive => ?_⟩
          have halive := hfair _ b hb hlive
          rw [hpid, hdead] at halive
          cases halive
    next => cases hc
  next dead =>
    cases hdone
    refine h.compacted_quiet hactor ?_
    rintro c hc
    cases hc
    exact hknown
  next tombstone tombstones dead =>
    split at hdone
    next current hcurrent =>
      cases hdone
      refine h.compacted_quiet hactor ?_
      rintro c hc
      split at hc
      next => cases hc; exact hknown
      next => cases hc; exact hknown
    next =>
      cases hdone
      refine h.compacted_quiet hactor ?_
      rintro c hc
      cases hc
      exact hknown
    next => cases hdone; exact h.compacted_quiet hactor nofun
  next =>
    cases hdone
    refine h.compacted_quiet hactor ?_
    rintro c hc
    cases hc
    exact hknown
  next tombstone tombstones dead =>
    cases hdone
    refine h.compacted_tombstone hactor hknown.1 ?_
    split
    next => exact hknown
    next => exact hknown
  next => cases hdone; exact h.compacted_quiet hactor nofun
  next mark dead =>
    cases hdone
    refine h.removed hactor nofun ?_ (fun _ _ _ _ _ => Or.inr nofun) (fun _ => rfl) (fun _ => rfl)
      rfl ?_
    · rintro k' a - ha - hsame
      obtain ⟨b, hb, hdead⟩ := hknown.2 mark List.mem_cons_self
      obtain rfl : mark = a.own.mark := by simpa using hsame
      rw [show a.own.mark.token = k' from h.token k' a ha.1, ha.1] at hb
      cases hb
      rw [ha.2] at hdead
      cases hdead
    · rintro c hc
      cases hc
      split
      next => exact ⟨hknown.1, fun m hm => hknown.2 m (List.mem_cons_of_mem _ hm)⟩
      next => exact hknown
  next => cases hdone; exact h.compacted_quiet hactor nofun
  next => cases hdone

end Compaction

theorem Inv.turn (h : Inv s) (hfair : Fair s (.turn k input))
    (hactor : s.actors k = some ⟨owner, phase, true⟩)
    (hdone : next owner s.shared phase input = some (locks', phase')) :
    Inv (s.set k locks' ⟨owner, phase', true⟩) := by
  have hruns : s.Runs k ⟨owner, phase, true⟩ := ⟨hactor, rfl⟩
  refine h.set hactor ?_
  cases next_effect hdone with
  | quiet hquiet =>
      refine h.quiet hactor hquiet.early hquiet.holds hquiet.waits hquiet.observed ?_ ?_
      · rintro o hphase
        obtain ⟨confirmedDead, rfl, rfl, hdead⟩ := hquiet.confirmed o hphase
        obtain ⟨b, hb, hown, -⟩ := h.known k _ o hruns rfl
        refine ⟨b, hb, hown, Bool.eq_false_iff.mpr fun hlive => ?_⟩
        have halive := hfair _ b hb hlive
        rw [hown, hdead] at halive
        cases halive
      · rintro c hphase
        rw [hquiet.compacts c hphase]
        trivial
  | write => exact h.write hactor
  | publish hrename => exact h.publish hactor hrename
  | @retire current _ hrename =>
      have hstands := h.retires hactor hrename
      refine h.moved hactor hrename hstands (h.known k _ current hruns rfl) ?_ nofun rfl
        (fun _ => rfl) rfl nofun
      intro k' a _ ha
      refine Bool.eq_false_iff.mpr fun hphase => ?_
      have hheld := h.held k' a ha hphase
      rw [hstands] at hheld
      cases hheld
      obtain ⟨b, hb, -, hdead⟩ := h.confirmed k _ a.own hruns rfl
      rw [h.token k' a ha.1, ha.1] at hb
      cases hb
      rw [ha.2] at hdead
      cases hdead
  | compact hcompact => exact h.compacted hactor hfair hcompact
  | release hrename =>
      have hstands := h.held k _ hruns rfl
      refine h.moved hactor hrename hstands (h.past hactor rfl) ?_ (fun _ => rfl) rfl nofun rfl
        nofun
      intro k' a hne ha
      refine Bool.eq_false_iff.mpr fun hphase => ?_
      have hheld := h.held k' a ha hphase
      rw [hstands] at hheld
      have hsame : owner = a.own := by simpa using hheld
      rw [← h.token k' a ha.1, ← hsame, h.token k _ hactor] at hne
      exact hne rfl
  | withdraw hphase =>
      refine h.removed hactor nofun ?_ (fun _ _ _ _ _ => Or.inr nofun) ?_ ?_ ?_ ?_
      · exact fun k' a hne ha _ => (h.mark_ne hactor hne ha).symm
      all_goals rcases hphase with rfl | rfl <;> first | rfl | nofun

theorem Inv.start (h : Inv s) (hnone : s.actors k = none) (htoken : owner.token = k) :
    Inv (s.set k (s.shared.publish (.candidate owner.mark) .empty) ⟨owner, .preparing, true⟩) := by
  have hkept : ∀ {name : Name κ}, name ≠ .candidate owner.mark →
      (s.shared.publish (.candidate owner.mark) .empty) name = s.shared name :=
    fun hne => Directories.publish_other hne
  have hlock := @hkept .lock nofun
  have hreclaimed := fun o => @hkept (.reclaimed o) nofun
  have hpresent : ∀ {k' : κ} {b : Actor (Owner κ) (Phase κ)}, s.actors k' = some b → k' ≠ k := by
    rintro k' b hb rfl
    rw [hnone] at hb
    cases hb
  have hafter : ∀ {k' : κ} {b : Actor (Owner κ) (Phase κ)}, s.actors k' = some b →
      (s.set k (s.shared.publish (.candidate owner.mark) .empty) ⟨owner, .preparing, true⟩).actors
        k' = some b := fun hb => (Scene.set_other (hpresent hb)).trans hb
  have hpast : ∀ {o : Owner κ}, Past s o →
      Past (s.set k (s.shared.publish (.candidate owner.mark) .empty)
        ⟨owner, .preparing, true⟩) o := by
    rintro o ⟨b, hb, hrest⟩
    exact ⟨b, hafter hb, hrest⟩
  constructor
  case token =>
    intro k' a ha
    rcases Scene.actors_set ha with ⟨rfl, rfl⟩ | ⟨-, ha⟩
    · exact htoken
    · exact h.token k' a ha
  case held =>
    intro k' a ⟨ha, halive⟩ hphase
    rcases Scene.actors_set ha with ⟨rfl, rfl⟩ | ⟨-, ha⟩
    · cases hphase
    · exact hlock.trans (h.held k' a ⟨ha, halive⟩ hphase)
  case candidate =>
    intro k' a ⟨ha, halive⟩ hphase
    rcases Scene.actors_set ha with ⟨rfl, rfl⟩ | ⟨hne, ha⟩
    · cases hphase
    · refine (hkept ?_).trans (h.candidate k' a ⟨ha, halive⟩ hphase)
      intro hsame
      simp only [Owner.mark, Name.candidate.injEq, Mark.mk.injEq] at hsame
      rw [h.token k' a ha, htoken] at hsame
      exact hne hsame.2
  case named =>
    intro mark hmark
    by_cases hsame : mark = owner.mark
    · subst hsame
      refine ⟨⟨owner, .preparing, true⟩, ?_, rfl⟩
      rw [show owner.mark.token = k from htoken]
      exact Scene.set_self
    · rw [Scene.set_shared, hkept (by simpa using hsame)] at hmark
      obtain ⟨a, ha, hpid⟩ := h.named mark hmark
      exact ⟨a, hafter ha, hpid⟩
  case stands => exact fun o ho => hpast (h.stands o (hlock.symm.trans ho))
  case buried =>
    rintro o ⟨c, hc⟩
    exact hpast (h.buried o ⟨c, (hreclaimed o).symm.trans hc⟩)
  case free =>
    rintro o ho ⟨c, hc⟩
    exact h.free o (hlock.symm.trans ho) ⟨c, (hreclaimed o).symm.trans hc⟩
  case seen =>
    intro k' a o ⟨ha, halive⟩ hphase
    rcases Scene.actors_set ha with ⟨rfl, rfl⟩ | ⟨-, ha⟩
    · cases hphase
    · rcases h.seen k' a o ⟨ha, halive⟩ hphase with hstands | ⟨c, hc⟩
      · exact Or.inl (hlock.trans hstands)
      · exact Or.inr ⟨c, (hreclaimed o).trans hc⟩
  case known =>
    intro k' a o ⟨ha, halive⟩ hphase
    rcases Scene.actors_set ha with ⟨rfl, rfl⟩ | ⟨-, ha⟩
    · cases hphase
    · exact hpast (h.known k' a o ⟨ha, halive⟩ hphase)
  case confirmed =>
    intro k' a o ⟨ha, halive⟩ hphase
    rcases Scene.actors_set ha with ⟨rfl, rfl⟩ | ⟨-, ha⟩
    · cases hphase
    · obtain ⟨b, hb, hrest⟩ := h.confirmed k' a o ⟨ha, halive⟩ hphase
      exact ⟨b, hafter hb, hrest⟩
  case compacts =>
    intro k' a c ⟨ha, halive⟩ hphase
    rcases Scene.actors_set ha with ⟨rfl, rfl⟩ | ⟨-, ha⟩
    · cases hphase
    · have hknown := h.compacts k' a c ⟨ha, halive⟩ hphase
      have hwatched : ∀ {rest : List (Option (Mark κ))}, Watched s a.own rest →
          Watched (s.set k (s.shared.publish (.candidate owner.mark) .empty)
            ⟨owner, .preparing, true⟩) a.own rest := by
        rintro rest hrest k'' b o ⟨hb, hlive⟩ ho
        rcases Scene.actors_set hb with ⟨rfl, rfl⟩ | ⟨-, hb⟩
        · cases ho
        · exact hrest k'' b o ⟨hb, hlive⟩ ho
      have hdead : ∀ {dead : List (Mark κ)}, AllDead s dead →
          AllDead (s.set k (s.shared.publish (.candidate owner.mark) .empty)
            ⟨owner, .preparing, true⟩) dead := by
        intro dead hall mark hmark
        obtain ⟨b, hb, hrest⟩ := hall mark hmark
        exact ⟨b, hafter hb, hrest⟩
      cases c with
      | listing => trivial
      | checking => exact ⟨hwatched hknown.1, hdead hknown.2⟩
      | probing =>
          obtain ⟨b, hb, hpid⟩ := hknown.2.2
          exact ⟨hwatched hknown.1, hdead hknown.2.1, b, hafter hb, hpid⟩
      | sweeping => exact ⟨hwatched hknown.1, hdead hknown.2⟩
      | deleting => exact ⟨hwatched hknown.1, hdead hknown.2⟩
      | clearing => exact ⟨hwatched hknown.1, hdead hknown.2⟩

theorem Inv.crash (h : Inv s) (hactor : s.actors k = some a) :
    Inv (s.set k s.shared { a with alive := false }) := by
  have hruns : ∀ {k' : κ} {b : Actor (Owner κ) (Phase κ)},
      (s.set k s.shared { a with alive := false }).Runs k' b → s.Runs k' b := by
    rintro k' b ⟨hb, halive⟩
    rcases Scene.actors_set hb with ⟨-, rfl⟩ | ⟨-, hb⟩
    · cases halive
    · exact ⟨hb, halive⟩
  have hpast : ∀ {o : Owner κ}, Past s o → Past (s.set k s.shared { a with alive := false }) o :=
    fun ho => ho.set hactor rfl nofun fun hearly => hearly
  constructor
  case token =>
    intro k' b hb
    rcases Scene.actors_set hb with ⟨rfl, rfl⟩ | ⟨-, hb⟩
    · exact h.token k' a hactor
    · exact h.token k' b hb
  case held => exact fun k' b hb => h.held k' b (hruns hb)
  case candidate => exact fun k' b hb => h.candidate k' b (hruns hb)
  case named =>
    intro mark hmark
    obtain ⟨b, hb, hpid⟩ := h.named mark hmark
    by_cases hk : mark.token = k
    · subst hk
      rw [hactor] at hb
      cases hb
      exact ⟨_, Scene.set_self, hpid⟩
    · exact ⟨b, (Scene.set_other hk).trans hb, hpid⟩
  case stands => exact fun o ho => hpast (h.stands o ho)
  case buried => exact fun o ho => hpast (h.buried o ho)
  case free => exact h.free
  case seen => exact fun k' b o hb => h.seen k' b o (hruns hb)
  case known => exact fun k' b o hb hphase => hpast (h.known k' b o (hruns hb) hphase)
  case confirmed =>
    exact fun k' b o hb hphase => (h.confirmed k' b o (hruns hb) hphase).set hactor rfl nofun
  case compacts =>
    exact fun k' b c hb hphase => (h.compacts k' b c (hruns hb) hphase).set hactor rfl nofun nofun

theorem Inv.step {d : Deed κ (Owner κ) (Input κ)} (h : Inv s) (hstep : contender.Step s d t)
    (hfair : Fair s d) : Inv t := by
  cases d with
  | start k owner =>
      obtain ⟨hnone, ⟨locks, phase⟩, hdone, rfl⟩ := Role.step_start hstep
      simp only [contender] at hdone
      split at hdone
      next hfree =>
        cases hdone
        exact h.start hnone hfree.1
      next => cases hdone
  | turn k input =>
      obtain ⟨owner, phase, ⟨locks, phase'⟩, hactor, hdone, rfl⟩ := Role.step_turn hstep
      exact h.turn hfair hactor hdone
  | crash k =>
      obtain ⟨a, hactor, rfl⟩ := Role.step_crash hstep
      exact h.crash hactor

omit [DecidableEq κ] in
theorem Fresh.inv (h : Fresh s) : Inv s := by
  have hnone : ∀ k a, ¬s.Runs k a := by
    intro k a ⟨ha, halive⟩
    rw [(h.dead k a ha).1] at halive
    cases halive
  have hpast : ∀ o, Dead s o → Past s o := by
    rintro o ⟨a, ha, hown, hdead⟩
    refine ⟨a, ha, hown, fun halive => ?_⟩
    rw [hdead] at halive
    cases halive
  constructor
  case token => exact fun k a ha => (h.dead k a ha).2
  case named => exact h.candidate
  case stands => exact fun o ho => hpast o (h.owner o ho)
  case buried => exact fun o ho => hpast o (h.tombstone o ho)
  case free => exact h.free
  case held => exact fun k a ha => absurd ha (hnone k a)
  case candidate => exact fun k a ha => absurd ha (hnone k a)
  all_goals exact fun k a _ ha => absurd ha (hnone k a)

/-! ## What follows from it -/

omit [DecidableEq κ] in
theorem Inv.exclusive (h : Inv s) : Exclusive s := by
  intro k k' a b ha hb hinside hinside'
  have hstands := h.held k a ha (by rw [hinside]; rfl)
  rw [h.held k' b hb (by rw [hinside']; rfl)] at hstands
  have hsame : b.own = a.own := by simpa using hstands
  rw [← h.token k a ha.1, ← h.token k' b hb.1, hsame]

theorem Inv.retirable (h : Inv s) : Retirable s := by
  intro owner hstands
  exact Directories.rename_of_free hstands (h.free owner hstands)

theorem Inv.retires_next (h : Inv s) : Retires s := by
  intro k a owner ha hphase
  rcases h.seen k a owner ha (by rw [hphase]; rfl) with hstands | htaken
  · obtain ⟨locks, hrename⟩ := h.retirable owner hstands
    obtain ⟨own, phase, alive⟩ := a
    obtain rfl : phase = .retiring owner := hphase
    obtain rfl : alive = true := ha.2
    refine Or.inl ⟨hstands, s.set k locks ⟨own, .looking, true⟩, ?_, ?_⟩
    · simp [Role.Step, Role.perform, ha.1, contender, next, hrename]
    · exact Directories.rename_source hrename (by simp)
  · exact Or.inr htaken

theorem publish_lock (locks : Locks κ) (mark : Mark κ) (x : Directory (Content κ)) :
    (locks.publish (.candidate mark) x) .lock = locks .lock :=
  Directories.publish_other (by simp)

theorem Inv.retiresDead {d : Deed κ (Owner κ) (Input κ)} (h : Inv s)
    (hstep : contender.Step s d t) : RetiresDead s t d := by
  intro o hstands hmoved
  cases d with
  | start k owner =>
      obtain ⟨hnone, ⟨locks, phase⟩, hdone, rfl⟩ := Role.step_start hstep
      simp only [contender] at hdone
      split at hdone
      next =>
        cases hdone
        exact absurd (publish_lock s.shared owner.mark .empty) hmoved
      next => cases hdone
  | crash k =>
      obtain ⟨a, hactor, rfl⟩ := Role.step_crash hstep
      exact absurd rfl hmoved
  | turn k input =>
      obtain ⟨owner, phase, ⟨locks, phase'⟩, hactor, hdone, rfl⟩ := Role.step_turn hstep
      have heffect : Effect owner s.shared phase input locks phase' := next_effect hdone
      rw [Scene.set_shared] at hmoved
      cases heffect with
      | quiet => exact absurd rfl hmoved
      | write => exact absurd (publish_lock s.shared owner.mark (.full (.owner owner))) hmoved
      | publish hrename =>
          obtain ⟨_, -, hfree, -⟩ := Directories.rename_eq_ok hrename
          exact absurd ⟨_, hstands⟩ hfree
      | @retire current _ hrename =>
          have hcurrent := h.retires hactor hrename
          rw [hstands] at hcurrent
          cases hcurrent
          exact Or.inl (h.confirmed k _ o ⟨hactor, rfl⟩ rfl)
      | compact hcompact => exact absurd (compact_lock hcompact) hmoved
      | release =>
          have hheld := h.held k _ ⟨hactor, rfl⟩ rfl
          rw [hstands] at hheld
          obtain rfl : o = owner := by simpa using hheld
          rw [h.token k _ hactor]
          exact Or.inr ⟨rfl, _, hactor, rfl⟩
      | withdraw =>
          have hkept : (removeTree s.shared (.candidate owner.mark)).1 .lock = s.shared .lock :=
            removeTree_other (by simp)
          exact absurd hkept hmoved

/-! ## Over every run -/

variable {s₀ : Contest κ} {deeds : List (Deed κ (Owner κ) (Input κ))}

theorem run_inv (hfresh : Fresh s₀) (hrun : Run (Where contender.Step Fair) s₀ deeds s) : Inv s :=
  hrun.invariant (fun _ _ _ hinv hstep => hinv.step hstep.2 hstep.1) hfresh.inv

/-- At most one live process is in its operation, a lock is taken from dead owners
only, and the lock of an owner can be retired as long as it stands. -/
theorem managerLock_excludes (hfresh : Fresh s₀)
    (hrun : Run (Where contender.Step Fair) s₀ deeds s) :
    Exclusive s ∧ Retirable s ∧ Retires s ∧
      ∀ d t, contender.Step s d t → Fair s d → RetiresDead s t d := by
  have hinv := run_inv hfresh hrun
  exact ⟨hinv.exclusive, hinv.retirable, hinv.retires_next, fun d t hstep _ =>
    hinv.retiresDead hstep⟩

/-! ## A contest of three -/

section Sample

local instance neZero_three : NeZero 3 := inferInstance

/-- Nobody has ever been there. -/
def unstarted : Contest (Fin 3) := ⟨fun _ => none, fun _ => none⟩

theorem unstarted_fresh : Fresh unstarted := by
  constructor
  case dead => exact fun _ _ h => by cases h
  case candidate => exact fun _ h => absurd rfl h
  case owner => exact fun _ h => by cases h
  case tombstone => exact fun _ h => by cases h.choose_spec
  case free => exact fun _ h => by cases h

def caller (k : Fin 3) : Owner (Fin 3) := ⟨100 + k.val, k, 1000 * k.val⟩

def starts (k : Fin 3) : List (Deed (Fin 3) (Owner (Fin 3)) (Input (Fin 3))) :=
  [.start k (caller k), .turn k .go, .turn k .go]

def times (k : Fin 3) (n : Nat) : List (Deed (Fin 3) (Owner (Fin 3)) (Input (Fin 3))) :=
  List.replicate n (.turn k .go)

/-- The first takes the lock and dies.  The second retires it and takes the lock,
and the third reads its owner. -/
def succession : List (Deed (Fin 3) (Owner (Fin 3)) (Input (Fin 3))) :=
  starts 0 ++ times 0 2 ++ starts 1 ++
    [.crash 0, .turn 1 (.report fun pid => pid == 100)] ++ times 1 4 ++ [.turn 1 .failed] ++ starts 2

/-- Deeds that are fair among three. -/
def isFair (s : Contest (Fin 3)) : Deed (Fin 3) (Owner (Fin 3)) (Input (Fin 3)) → Bool
  | .turn _ (.report confirmedDead) => decide (∀ k, ∀ a ∈ s.actors k, a.alive = true →
      confirmedDead a.own.pid = false)
  | .turn _ (.listed _) => false
  | _ => true

theorem fair_of_isFair {s : Contest (Fin 3)} {d : Deed (Fin 3) (Owner (Fin 3)) (Input (Fin 3))}
    (h : isFair s d = true) : Fair s d := by
  unfold isFair at h
  split at h
  next confirmedDead =>
    have hall : ∀ k, ∀ a ∈ s.actors k, a.alive = true → confirmedDead a.own.pid = false :=
      of_decide_eq_true h
    exact hall
  next => cases h
  next d hreport hlisted =>
    unfold Fair
    split
    next k confirmedDead => exact absurd rfl (hreport k confirmedDead)
    next k listing => exact absurd rfl (hlisted k listing)
    next => trivial

theorem managerLock_excludes_succession : ∃ s : Contest (Fin 3),
    Run (Where contender.Step Fair) unstarted succession s ∧
      s.actors 1 = some ⟨caller 1, .inside, true⟩ ∧
      s.actors 2 = some ⟨caller 2, .judging (caller 1), true⟩ ∧ Exclusive s ∧ Retires s := by
  have hdone : (contender.enact isFair unstarted succession).any (fun s =>
      decide (s.actors 1 = some ⟨caller 1, .inside, true⟩ ∧
        s.actors 2 = some ⟨caller 2, .judging (caller 1), true⟩)) = true := by decide +kernel
  obtain ⟨s, hs, hinside⟩ := (Option.any_eq_true _ _).mp hdone
  have hrun : Run (Where contender.Step Fair) unstarted succession s :=
    (Role.run_of_enact hs).imp fun _ _ _ hstep => ⟨fair_of_isFair hstep.1, hstep.2⟩
  have hexcludes := managerLock_excludes unstarted_fresh hrun
  obtain ⟨hsecond, hthird⟩ := of_decide_eq_true hinside
  exact ⟨s, hrun, hsecond, hthird, hexcludes.1, hexcludes.2.2.1⟩

end Sample

end Acc.ManagedRuntime.Mutex
