import AgentsCanCommunicate.Library.Run

/-!
# Actors in phases

Any number of actors share a state.  Each is started with something of its own
and goes through the phases of a role: in its phase, on an input from outside,
it changes the shared state in one atomic step and goes on to a phase, or it
cannot go on.  An actor may crash at any moment, and does nothing after that.

Unlike a process, an actor may go round in its phases for ever.
-/

namespace Library

universe u v w x y

variable {κ : Type u} {σ : Type v} {ι : Type w} {φ : Type x} {ε : Type y}

/-- An actor, with what it was started with. -/
structure Actor (ι : Type w) (φ : Type x) where
  own : ι
  phase : φ
  alive : Bool
deriving DecidableEq

/-- The shared state and the actors that were started, by name. -/
structure Scene (κ : Type u) (σ : Type v) (ι : Type w) (φ : Type x) where
  shared : σ
  actors : κ → Option (Actor ι φ)

/-- What an actor does: how it starts, and what it does in a phase. -/
structure Role (κ : Type u) (σ : Type v) (ι : Type w) (φ : Type x) (ε : Type y) where
  start : κ → ι → σ → Option (σ × φ)
  next : κ → ι → φ → ε → σ → Option (σ × φ)

inductive Deed (κ : Type u) (ι : Type w) (ε : Type y) where
  | start (k : κ) (own : ι)
  | turn (k : κ) (input : ε)
  | crash (k : κ)

namespace Scene

variable [DecidableEq κ] {s t : Scene κ σ ι φ} {k k' : κ} {a b : Actor ι φ} {shared : σ}

/-- The actor is there and has not crashed. -/
def Runs (s : Scene κ σ ι φ) (k : κ) (a : Actor ι φ) : Prop :=
  s.actors k = some a ∧ a.alive = true

/-- What an actor leaves. -/
def set (s : Scene κ σ ι φ) (k : κ) (shared : σ) (a : Actor ι φ) : Scene κ σ ι φ :=
  ⟨shared, Function.update s.actors k (some a)⟩

@[simp] theorem set_shared : (s.set k shared a).shared = shared := rfl

@[simp] theorem set_self : (s.set k shared a).actors k = some a := Function.update_self ..

theorem set_other (h : k' ≠ k) : (s.set k shared a).actors k' = s.actors k' :=
  Function.update_of_ne h ..

@[simp] theorem set_set {shared' : σ} :
    (s.set k shared a).set k shared' b = s.set k shared' b := by
  simp [set]

/-- Who is there after an actor was put. -/
theorem actors_set (h : (s.set k shared a).actors k' = some b) :
    (k' = k ∧ b = a) ∨ (k' ≠ k ∧ s.actors k' = some b) := by
  by_cases hk : k' = k
  · subst hk
    rw [set_self] at h
    cases h
    exact Or.inl ⟨rfl, rfl⟩
  · exact Or.inr ⟨hk, set_other hk ▸ h⟩

end Scene

namespace Role

variable [DecidableEq κ] {r : Role κ σ ι φ ε} {s t : Scene κ σ ι φ} {k : κ}

/-- One deed of one actor. -/
def perform (r : Role κ σ ι φ ε) (s : Scene κ σ ι φ) : Deed κ ι ε → Option (Scene κ σ ι φ)
  | .start k own =>
      match s.actors k with
      | some _ => none
      | none => (r.start k own s.shared).map fun done => s.set k done.1 ⟨own, done.2, true⟩
  | .turn k input =>
      match s.actors k with
      | some ⟨own, phase, true⟩ =>
          (r.next k own phase input s.shared).map fun done => s.set k done.1 ⟨own, done.2, true⟩
      | _ => none
  | .crash k =>
      match s.actors k with
      | some a => some (s.set k s.shared { a with alive := false })
      | none => none

def Step (r : Role κ σ ι φ ε) (s : Scene κ σ ι φ) (d : Deed κ ι ε) (t : Scene κ σ ι φ) : Prop :=
  r.perform s d = some t

theorem step_start {own : ι} (h : r.Step s (.start k own) t) :
    s.actors k = none ∧ ∃ done, r.start k own s.shared = some done ∧
      t = s.set k done.1 ⟨own, done.2, true⟩ := by
  simp only [Step, perform] at h
  split at h
  next => cases h
  next hnone =>
    obtain ⟨done, hdone, rfl⟩ := Option.map_eq_some_iff.mp h
    exact ⟨hnone, done, hdone, rfl⟩

theorem step_turn {input : ε} (h : r.Step s (.turn k input) t) :
    ∃ own phase done, s.actors k = some ⟨own, phase, true⟩ ∧
      r.next k own phase input s.shared = some done ∧
      t = s.set k done.1 ⟨own, done.2, true⟩ := by
  simp only [Step, perform] at h
  split at h
  next own phase hactor =>
    obtain ⟨done, hdone, rfl⟩ := Option.map_eq_some_iff.mp h
    exact ⟨own, phase, done, hactor, hdone, rfl⟩
  next => cases h

theorem step_crash (h : r.Step s (.crash k) t) :
    ∃ a, s.actors k = some a ∧ t = s.set k s.shared { a with alive := false } := by
  simp only [Step, perform] at h
  split at h
  next a ha =>
    cases h
    exact ⟨a, ha, rfl⟩
  next => cases h

/-- Deeds, one after the other, as long as each meets a condition on the scene it
is done in. -/
def enact (r : Role κ σ ι φ ε) (C : Scene κ σ ι φ → Deed κ ι ε → Bool) (s : Scene κ σ ι φ) :
    List (Deed κ ι ε) → Option (Scene κ σ ι φ)
  | [] => some s
  | d :: ds => if C s d then (r.perform s d).bind fun t => r.enact C t ds else none

theorem run_of_enact {C : Scene κ σ ι φ → Deed κ ι ε → Bool} {ds : List (Deed κ ι ε)}
    (h : r.enact C s ds = some t) : Run (Where r.Step fun s d => C s d = true) s ds t := by
  induction ds generalizing s with
  | nil =>
      cases h
      exact .nil _
  | cons d ds ih =>
      rw [enact] at h
      split at h
      next hmeets =>
        obtain ⟨u, hstep, hrest⟩ := Option.bind_eq_some_iff.mp h
        exact (Run.single ⟨hmeets, hstep⟩).append (ih hrest)
      next => cases h

end Role

end Library
