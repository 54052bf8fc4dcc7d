import Mathlib.Data.List.Basic

/-!
# How a computation ends

A computation that may fail ends with a value or with an error.  `Ends E r Q` says that the value
has `Q` and the error `E`.  The rules follow the computation: `Ends.bind` for one step after
another and `Ends.foldlM` for a loop, with what holds of the items that are done.
-/

namespace Library

variable {ε α β γ : Type} {E : ε → Prop} {Q : α → Prop} {R : β → Prop}

/-- The value has `Q`, or the error `E`. -/
def Ends (E : ε → Prop) (r : Except ε α) (Q : α → Prop) : Prop :=
  match r with
  | .ok a => Q a
  | .error e => E e

@[simp] theorem ends_ok {a : α} : Ends E (.ok a : Except ε α) Q ↔ Q a := Iff.rfl

@[simp] theorem ends_pure {a : α} : Ends E (pure a : Except ε α) Q ↔ Q a := Iff.rfl

@[simp] theorem ends_error {e : ε} : Ends E (.error e : Except ε α) Q ↔ E e := Iff.rfl

namespace Ends

theorem mono {E' : ε → Prop} {Q' : α → Prop} {r : Except ε α} (h : Ends E r Q)
    (hE : ∀ e, E e → E' e) (hQ : ∀ a, Q a → Q' a) : Ends E' r Q' := by
  cases r with
  | ok a => exact hQ a h
  | error e => exact hE e h

theorem bind {r : Except ε α} {f : α → Except ε β} (h : Ends E r Q)
    (hf : ∀ a, Q a → Ends E (f a) R) : Ends E (r >>= f) R := by
  cases r with
  | ok a => exact hf a h
  | error e => exact h

theorem value {r : Except ε α} {a : α} (h : Ends E r Q) (hr : r = .ok a) : Q a := by
  subst hr
  exact h

/-- A computation that cannot fail has a value. -/
theorem exists_ok {r : Except ε α} (h : Ends (fun _ => False) r Q) : ∃ a, r = .ok a ∧ Q a := by
  cases r with
  | ok a => exact ⟨a, rfl, h⟩
  | error e => exact h.elim

/-- A loop keeps what it keeps at each item. -/
theorem foldlM {f : β → γ → Except ε β} {cs : List γ} {I : List γ → β → Prop} {b : β}
    (h : I [] b)
    (hstep : ∀ done c rest b, cs = done ++ c :: rest → I done b →
      Ends E (f b c) (I (done ++ [c]))) : Ends E (cs.foldlM f b) (I cs) := by
  suffices hrun : ∀ rest done b, cs = done ++ rest → I done b →
      Ends E (rest.foldlM f b) (I cs) from hrun cs [] b rfl h
  intro rest
  induction rest with
  | nil =>
      intro done b hcs hb
      rw [List.append_nil] at hcs
      subst hcs
      exact hb
  | cons c rest ih =>
      intro done b hcs hb
      rw [List.foldlM_cons]
      exact (hstep done c rest b hcs hb).bind fun b' hb' => ih (done ++ [c]) b' (by simp [hcs]) hb'

end Ends

end Library
