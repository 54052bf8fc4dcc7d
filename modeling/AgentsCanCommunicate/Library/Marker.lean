import AgentsCanCommunicate.Library.Actors

/-!
# A marker that is made once

Any number of senders have one thing to send between them.  Whoever makes the
marker may send, and may take the marker away again as long as it is certain that
nothing arrived.  A sender answers that the thing was accepted when it knows of
somebody who handed it over.

A sender goes through its stages once.  Each act of a sender adds what happened
to a log, and the law is about the log: the thing is sent again only when every
earlier time is certain not to have arrived, and an answer that it was accepted
is true.
-/

namespace Library.Marker

universe u

variable {κ : Type u}

/-- What happened, and to whose sending. -/
inductive Entry (κ : Type u) where
  | sent (k : κ)
  /-- Some of it was handed over. -/
  | reached (k : κ)
  /-- All of it was. -/
  | handed (k : κ)
  /-- It failed before anything was handed over. -/
  | unsent (k : κ)
  /-- The receiver refused it. -/
  | refused (k : κ)
  /-- Its marker was taken away. -/
  | withdrawn (k : κ)
  /-- It was answered that the thing was accepted. -/
  | accepted (k : κ)
deriving DecidableEq

def Entry.by : Entry κ → κ
  | sent k | reached k | handed k | unsent k | refused k | withdrawn k | accepted k => k

/-- The marker, with the sender that made it, and what happened, the latest
first. -/
structure Marked (κ : Type u) where
  marker : Option κ
  log : List (Entry κ)

def Marked.initial : Marked κ := ⟨none, []⟩

inductive Stage where
  /-- It has not made the marker. -/
  | outside
  | holding
  | sending
  | reached
  /-- It is certain that nothing arrived. -/
  | failed
  | handed
  /-- It has taken its marker away. -/
  | gone
deriving DecidableEq

/-- The marker is this sender's. -/
def Stage.marks : Stage → Bool
  | holding | sending | reached | failed | handed => true
  | outside | gone => false

/-- What a sender may do. -/
inductive Act (k : κ) : Marked κ → Stage → Marked κ → Stage → Prop where
  | idle {w : Marked κ} {stage : Stage} : Act k w stage w stage
  | claim {log : List (Entry κ)} : Act k ⟨none, log⟩ .outside ⟨some k, log⟩ .holding
  | send {m : Option κ} {log : List (Entry κ)} :
      Act k ⟨m, log⟩ .holding ⟨m, .sent k :: log⟩ .sending
  | reach {m : Option κ} {log : List (Entry κ)} :
      Act k ⟨m, log⟩ .sending ⟨m, .reached k :: log⟩ .reached
  | hand {m : Option κ} {log : List (Entry κ)} {stage : Stage} :
      stage = .sending ∨ stage = .reached → Act k ⟨m, log⟩ stage ⟨m, .handed k :: log⟩ .handed
  | fail {m : Option κ} {log : List (Entry κ)} :
      Act k ⟨m, log⟩ .sending ⟨m, .unsent k :: log⟩ .failed
  | refuse {m : Option κ} {log : List (Entry κ)} {stage : Stage} :
      stage = .sending ∨ stage = .reached → Act k ⟨m, log⟩ stage ⟨m, .refused k :: log⟩ .failed
  | withdraw {m : Option κ} {log : List (Entry κ)} {stage : Stage} :
      stage = .holding ∨ stage = .failed →
      Act k ⟨m, log⟩ stage ⟨none, .withdrawn k :: log⟩ .gone
  | accept {m : Option κ} {log : List (Entry κ)} {stage : Stage} {k' : κ} : .handed k' ∈ log →
      Act k ⟨m, log⟩ stage ⟨m, .accepted k :: log⟩ stage

/-! ## The law -/

/-- It is certain that nothing of what the sender sent arrived. -/
def Certain (k : κ) (log : List (Entry κ)) : Prop :=
  (.unsent k ∈ log ∧ .reached k ∉ log) ∨ .refused k ∈ log

structure Truthful (log : List (Entry κ)) : Prop where
  once : ∀ k earlier, .sent k :: earlier <:+ log → ∀ k', .sent k' ∈ earlier → Certain k' earlier
  real : ∀ k earlier, .accepted k :: earlier <:+ log →
    ∃ k', .handed k' ∈ earlier ∧ .withdrawn k' ∉ log

/-! ## The invariant -/

/-- What the log says of a sender in a stage. -/
def Tells (k : κ) (log : List (Entry κ)) : Stage → Prop
  | .outside | .holding => .sent k ∉ log ∧ .reached k ∉ log ∧ .handed k ∉ log ∧ .withdrawn k ∉ log
  | .sending => .reached k ∉ log ∧ .handed k ∉ log ∧ .withdrawn k ∉ log
  | .reached => .handed k ∉ log ∧ .withdrawn k ∉ log
  | .failed => Certain k log ∧ .handed k ∉ log ∧ .withdrawn k ∉ log
  | .handed => .handed k ∈ log ∧ .withdrawn k ∉ log
  | .gone => (Certain k log ∨ .sent k ∉ log ∧ .reached k ∉ log) ∧ .handed k ∉ log

structure Inv (w : Marked κ) (stage : κ → Stage) : Prop where
  marker : ∀ k, (stage k).marks = true ↔ w.marker = some k
  tells : ∀ k, Tells k w.log (stage k)
  truthful : Truthful w.log

theorem inv_initial : Inv (.initial : Marked κ) fun _ => .outside := by
  refine ⟨fun k => by simp [Stage.marks, Marked.initial], fun k => ?_, ?_, ?_⟩
  · simp [Tells, Marked.initial]
  · intro k earlier h
    simp [Marked.initial] at h
  · intro k earlier h
    simp [Marked.initial] at h

variable {k k' : κ} {w w' : Marked κ} {stage : κ → Stage} {e : Entry κ} {log : List (Entry κ)}
  {st st' : Stage}

/-- What another sender does is not told of this one. -/
theorem Tells.cons (h : Tells k log st) (he : e.by ≠ k) : Tells k (e :: log) st := by
  have hne : ∀ e' : Entry κ, e'.by = k → e' ≠ e := by
    rintro e' rfl rfl
    exact he rfl
  have hsent := hne (.sent k) rfl
  have hreached := hne (.reached k) rfl
  have hhanded := hne (.handed k) rfl
  have hunsent := hne (.unsent k) rfl
  have hrefused := hne (.refused k) rfl
  have hwithdrawn := hne (.withdrawn k) rfl
  cases st <;>
    simpa [Tells, Certain, hsent, hreached, hhanded, hunsent, hrefused, hwithdrawn] using h

/-- What was handed over was handed over by a sender that stays at that. -/
theorem Inv.handed (h : Inv w stage) (hmem : .handed k ∈ w.log) : stage k = .handed := by
  have htells := h.tells k
  cases hstage : stage k with
  | handed => rfl
  | outside => rw [hstage] at htells; exact absurd hmem htells.2.2.1
  | holding => rw [hstage] at htells; exact absurd hmem htells.2.2.1
  | sending => rw [hstage] at htells; exact absurd hmem htells.2.1
  | reached => rw [hstage] at htells; exact absurd hmem htells.1
  | failed => rw [hstage] at htells; exact absurd hmem htells.2.1
  | gone => rw [hstage] at htells; exact absurd hmem htells.2

/-- Who holds the marker alone has sent, if anything may have arrived. -/
theorem Inv.certain (h : Inv w stage) (hmarks : (stage k).marks = true) (hne : k' ≠ k)
    (hsent : .sent k' ∈ w.log) : Certain k' w.log := by
  have htells := h.tells k'
  have hmarker := (h.marker k).mp hmarks
  have hother : (stage k').marks = false := by
    refine Bool.eq_false_iff.mpr fun hmarks' => hne ?_
    have hmarker' := (h.marker k').mp hmarks'
    rw [hmarker] at hmarker'
    cases hmarker'
    rfl
  cases hstage : stage k' with
  | outside => rw [hstage] at htells; exact absurd hsent htells.1
  | gone =>
      rw [hstage] at htells
      exact htells.1.resolve_right fun hunsent => hunsent.1 hsent
  | holding => rw [hstage] at hother; cases hother
  | sending => rw [hstage] at hother; cases hother
  | reached => rw [hstage] at hother; cases hother
  | failed => rw [hstage] at hother; cases hother
  | handed => rw [hstage] at hother; cases hother

/-- What arrived and was not refused keeps its sender at the marker. -/
theorem Inv.arrived (h : Inv w stage) (hmem : .reached k ∈ w.log ∨ .handed k ∈ w.log)
    (hrefused : .refused k ∉ w.log) : (stage k).marks = true := by
  have hhanded : .handed k ∈ w.log → (stage k).marks = true := by
    intro hmem
    rw [h.handed hmem]
    rfl
  rcases hmem with hreached | hmem
  · have htells := h.tells k
    cases hstage : stage k with
    | holding => rfl
    | sending => rfl
    | reached => rfl
    | failed => rfl
    | handed => rfl
    | outside => rw [hstage] at htells; exact absurd hreached htells.2.1
    | gone =>
        rw [hstage] at htells
        rcases htells.1 with (⟨-, hnever⟩ | hmem) | ⟨-, hnever⟩
        · exact absurd hreached hnever
        · exact absurd hmem hrefused
        · exact absurd hreached hnever
  · exact hhanded hmem

/-! ## What an act keeps -/

/-- The sender that acts has a new stage and a new entry, and nobody made another
marker. -/
theorem Inv.update [DecidableEq κ] (h : Inv w stage)
    (hmarker : (st'.marks = true ↔ w'.marker = some k) ∧
      ∀ k', k' ≠ k → (w'.marker = some k' ↔ w.marker = some k'))
    (hlog : w'.log = w.log ∨ ∃ e : Entry κ, e.by = k ∧ w'.log = e :: w.log)
    (htells : Tells k w'.log st') (htruthful : Truthful w'.log) :
    Inv w' (Function.update stage k st') := by
  refine ⟨fun k' => ?_, fun k' => ?_, htruthful⟩
  · by_cases hk : k' = k
    · subst hk
      rw [Function.update_self]
      exact hmarker.1
    · rw [Function.update_of_ne hk, hmarker.2 k' hk]
      exact h.marker k'
  · by_cases hk : k' = k
    · subst hk
      rw [Function.update_self]
      exact htells
    · rw [Function.update_of_ne hk]
      rcases hlog with heq | ⟨e, he, heq⟩
      · rw [heq]
        exact h.tells k'
      · rw [heq]
        exact (h.tells k').cons fun hby => hk (hby.symm.trans he)

/-- An entry that is neither a sending, nor an answer, nor a withdrawal of what
was handed over. -/
theorem Truthful.cons (h : Truthful log)
    (hsent : ∀ k, e = .sent k → ∀ k', .sent k' ∈ log → Certain k' log)
    (haccepted : ∀ k, e = .accepted k → ∃ k', .handed k' ∈ log ∧ .withdrawn k' ∉ log)
    (hwithdrawn : ∀ k, e = .withdrawn k → .handed k ∉ log) : Truthful (e :: log) := by
  refine ⟨fun k earlier hsuffix => ?_, fun k earlier hsuffix => ?_⟩
  · rcases List.suffix_cons_iff.mp hsuffix with heq | hbefore
    · cases heq
      exact hsent k rfl
    · exact h.once k earlier hbefore
  · rcases List.suffix_cons_iff.mp hsuffix with heq | hbefore
    · cases heq
      obtain ⟨k', hhanded, hstays⟩ := haccepted k rfl
      exact ⟨k', hhanded, by simpa using hstays⟩
    · obtain ⟨k', hhanded, hstays⟩ := h.real k earlier hbefore
      refine ⟨k', hhanded, fun hmem => ?_⟩
      rcases List.mem_cons.mp hmem with heq | hmem
      · exact hwithdrawn k' heq.symm
          ((List.suffix_cons _ _).trans hbefore |>.mem hhanded)
      · exact hstays hmem

theorem Act.inv [DecidableEq κ] (h : Inv w stage) (hact : Act k w (stage k) w' st') :
    Inv w' (Function.update stage k st') := by
  have hmarker := h.marker k
  have htells := h.tells k
  have hcertain : ∀ k', (stage k).marks = true → k' ≠ k → .sent k' ∈ w.log → Certain k' w.log :=
    fun k' hmarks hne hsent => h.certain hmarks hne hsent
  generalize hst : stage k = st at *
  cases hact with
  | idle =>
      rw [← hst, Function.update_eq_self]
      exact h
  | claim =>
      refine h.update ⟨by simp [Stage.marks], fun k' hne => ?_⟩ (Or.inl rfl) htells h.truthful
      simpa using hne.symm
  | send =>
      refine h.update ⟨?_, fun _ _ => Iff.rfl⟩ (Or.inr ⟨_, rfl, rfl⟩) ?_ ?_
      · simpa [Stage.marks] using hmarker
      · simpa [Tells] using htells.2
      · refine h.truthful.cons (fun k' heq k'' hsent => ?_) nofun nofun
        cases heq
        refine hcertain k'' rfl ?_ hsent
        rintro rfl
        exact htells.1 hsent
  | reach =>
      refine h.update ⟨?_, fun _ _ => Iff.rfl⟩ (Or.inr ⟨_, rfl, rfl⟩) ?_ ?_
      · simpa [Stage.marks] using hmarker
      · simpa [Tells] using htells.2
      · exact h.truthful.cons nofun nofun nofun
  | hand hstage =>
      refine h.update ⟨?_, fun _ _ => Iff.rfl⟩ (Or.inr ⟨_, rfl, rfl⟩) ?_ ?_
      · rcases hstage with rfl | rfl <;> simpa [Stage.marks] using hmarker
      · rcases hstage with rfl | rfl
        · simpa [Tells] using htells.2.2
        · simpa [Tells] using htells.2
      · exact h.truthful.cons nofun nofun nofun
  | fail =>
      refine h.update ⟨?_, fun _ _ => Iff.rfl⟩ (Or.inr ⟨_, rfl, rfl⟩) ?_ ?_
      · simpa [Stage.marks] using hmarker
      · refine ⟨Or.inl ⟨List.mem_cons_self, by simpa using htells.1⟩, ?_, ?_⟩
        · simpa using htells.2.1
        · simpa using htells.2.2
      · exact h.truthful.cons nofun nofun nofun
  | refuse hstage =>
      refine h.update ⟨?_, fun _ _ => Iff.rfl⟩ (Or.inr ⟨_, rfl, rfl⟩) ?_ ?_
      · rcases hstage with rfl | rfl <;> simpa [Stage.marks] using hmarker
      · refine ⟨Or.inr List.mem_cons_self, ?_⟩
        rcases hstage with rfl | rfl
        · simpa using htells.2
        · simpa [Tells] using htells
      · exact h.truthful.cons nofun nofun nofun
  | @withdraw m log _ hstage =>
      have hmine : m = some k := by
        rcases hstage with rfl | rfl
        · exact hmarker.mp rfl
        · exact hmarker.mp rfl
      subst hmine
      refine h.update ⟨by simp [Stage.marks], fun k' hne => ?_⟩ (Or.inr ⟨_, rfl, rfl⟩) ?_ ?_
      · simpa using hne.symm
      · rcases hstage with rfl | rfl
        · refine ⟨Or.inr ⟨?_, ?_⟩, ?_⟩
          · simpa using htells.1
          · simpa using htells.2.1
          · simpa using htells.2.2.1
        · refine ⟨Or.inl ?_, by simpa using htells.2.1⟩
          simpa [Certain] using htells.1
      · refine h.truthful.cons nofun nofun fun k' heq => ?_
        cases heq
        rcases hstage with rfl | rfl
        · exact htells.2.2.1
        · exact htells.2.1
  | @accept m log _ k' hhanded =>
      have hstays : .withdrawn k' ∉ log := by
        have hother := h.tells k'
        rw [h.handed hhanded] at hother
        exact hother.2
      refine h.update ⟨hmarker, fun _ _ => Iff.rfl⟩ (Or.inr ⟨_, rfl, rfl⟩) ?_ ?_
      · cases st' <;> simpa [Tells, Certain] using htells
      · refine h.truthful.cons nofun (fun k'' heq => ?_) nofun
        exact ⟨k', hhanded, hstays⟩

/-! ## Senders as actors -/

section Actors

universe v x y z

variable {σ : Type v} {ι : Type x} {φ : Type y} {ε : Type z} [DecidableEq κ]
  {r : Role κ σ ι φ ε} {s t : Scene κ σ ι φ} {d : Deed κ ι ε}

/-- The stage of every sender. -/
def stages (f : φ → Stage) (s : Scene κ σ ι φ) (k : κ) : Stage :=
  match s.actors k with
  | some a => f a.phase
  | none => .outside

theorem stages_set {f : φ → Stage} {shared : σ} {a : Actor ι φ} :
    stages f (s.set k shared a) = Function.update (stages f s) k (f a.phase) := by
  funext k'
  by_cases hk : k' = k
  · subst hk
    simp [stages]
  · simp [stages, Scene.set_other hk, Function.update_of_ne hk]

/-- A role whose turns are acts keeps the law. -/
theorem Inv.perform (view : σ → Marked κ) (f : φ → Stage)
    (h : Inv (view s.shared) (stages f s)) (hstep : r.Step s d t)
    (hstart : ∀ k own done, r.start k own s.shared = some done →
      view done.1 = view s.shared ∧ f done.2 = .outside)
    (hturn : ∀ k own phase input done, d = .turn k input →
      s.actors k = some ⟨own, phase, true⟩ → r.next k own phase input s.shared = some done →
      Act k (view s.shared) (f phase) (view done.1) (f done.2)) :
    Inv (view t.shared) (stages f t) := by
  cases d with
  | start k own =>
      obtain ⟨hnone, done, hdone, rfl⟩ := Role.step_start hstep
      obtain ⟨hview, hstage⟩ := hstart k own done hdone
      have hbefore : stages f s k = .outside := by simp [stages, hnone]
      rw [stages_set, Scene.set_shared, hview, hstage, ← hbefore, Function.update_eq_self]
      exact h
  | turn k input =>
      obtain ⟨own, phase, done, hactor, hdone, rfl⟩ := Role.step_turn hstep
      have hbefore : stages f s k = f phase := by simp [stages, hactor]
      rw [stages_set, Scene.set_shared]
      refine Act.inv h ?_
      rw [hbefore]
      exact hturn k own phase input done rfl hactor hdone
  | crash k =>
      obtain ⟨a, hactor, rfl⟩ := Role.step_crash hstep
      have hbefore : stages f s k = f a.phase := by simp [stages, hactor]
      rw [stages_set, Scene.set_shared, ← hbefore, Function.update_eq_self]
      exact h

end Actors

end Library.Marker
