import Mathlib

/-!
# Runs of a step relation

A system is a relation `Step : σ → α → σ → Prop` between states, labelled by
what was done.  `Run Step s as t` says that `t` is reached from `s` by doing
`as`, the oldest label first, and `Trace Step s visited t` that it is reached
through the states `visited`.

An invariant is proved once for a step and holds over every run
(`Run.invariant`).  A run may be restricted to the steps that meet a condition
on the state they start from, which is `Where`.
-/

namespace Library

universe u v

variable {σ : Type u} {α : Type v}

/-- `t` is reached from `s` by the labels, the oldest first. -/
inductive Run (Step : σ → α → σ → Prop) : σ → List α → σ → Prop where
  /-- Nothing was done. -/
  | nil (s : σ) : Run Step s [] s
  /-- One more step at the end. -/
  | snoc {s t u : σ} {as : List α} {a : α} :
      Run Step s as t → Step t a u → Run Step s (as ++ [a]) u

/-- The steps that meet a condition on the state they start from. -/
def Where (Step : σ → α → σ → Prop) (C : σ → α → Prop) : σ → α → σ → Prop :=
  fun s a t => C s a ∧ Step s a t

namespace Run

variable {Step Step' : σ → α → σ → Prop}

/-- What a step keeps, a run keeps. -/
theorem invariant {I : σ → Prop} (hstep : ∀ s a t, I s → Step s a t → I t) {s t : σ}
    {as : List α} (hrun : Run Step s as t) (hs : I s) : I t := by
  induction hrun with
  | nil => exact hs
  | snoc _ h ih => exact hstep _ _ _ ih h

/-- A relation every step respects, that is reflexive and composes, relates the
ends of a run. -/
theorem monotone {R : σ → σ → Prop} (hrefl : ∀ s, R s s)
    (htrans : ∀ s t u, R s t → R t u → R s u) (hstep : ∀ s a t, Step s a t → R s t) {s t : σ}
    {as : List α} (hrun : Run Step s as t) : R s t := by
  induction hrun with
  | nil => exact hrefl _
  | snoc _ h ih => exact htrans _ _ _ ih (hstep _ _ _ h)

theorem imp (h : ∀ s a t, Step s a t → Step' s a t) {s t : σ} {as : List α}
    (hrun : Run Step s as t) : Run Step' s as t := by
  induction hrun with
  | nil => exact .nil _
  | snoc _ hs ih => exact .snoc ih (h _ _ _ hs)

theorem append {s t u : σ} {as bs : List α} (h₁ : Run Step s as t) (h₂ : Run Step t bs u) :
    Run Step s (as ++ bs) u := by
  induction h₂ with
  | nil => rwa [List.append_nil]
  | snoc _ hs ih => exact List.append_assoc _ _ _ ▸ .snoc ih hs

theorem single {s t : σ} {a : α} (h : Step s a t) : Run Step s [a] t := .snoc (.nil s) h

/-- A run whose steps all meet a condition is a run. -/
theorem of_where {C : σ → α → Prop} {s t : σ} {as : List α}
    (hrun : Run (Where Step C) s as t) : Run Step s as t :=
  hrun.imp fun _ _ _ h => h.2

end Run

/-- The steps of a machine, one label after the other. -/
def follow (f : σ → α → Option σ) (s : σ) : List α → Option σ
  | [] => some s
  | a :: as => (f s a).bind fun t => follow f t as

/-- What a machine goes through is a run. -/
theorem run_of_follow {f : σ → α → Option σ} {s t : σ} {as : List α}
    (h : follow f s as = some t) : Run (fun s a t => f s a = some t) s as t := by
  induction as generalizing s with
  | nil =>
      cases h
      exact .nil _
  | cons a as ih =>
      obtain ⟨u, hstep, hrest⟩ := Option.bind_eq_some_iff.mp h
      exact (Run.single hstep).append (ih hrest)

/-- `t` is reached from `s` through the states visited, the oldest first, with
both ends among them. -/
inductive Trace (Step : σ → α → σ → Prop) (s : σ) : List σ → σ → Prop where
  | nil : Trace Step s [s] s
  | snoc {t u : σ} {visited : List σ} (a : α) :
      Trace Step s visited t → Step t a u → Trace Step s (visited ++ [u]) u

namespace Trace

variable {Step : σ → α → σ → Prop} {s t : σ} {visited : List σ}

/-- What a step keeps, a run keeps. -/
theorem invariant {I : σ → Prop} (h : Trace Step s visited t)
    (hstep : ∀ u a u', I u → Step u a u' → I u') (hs : I s) : I t := by
  induction h with
  | nil => exact hs
  | snoc _ _ h ih => exact hstep _ _ _ ih h

end Trace

end Library
