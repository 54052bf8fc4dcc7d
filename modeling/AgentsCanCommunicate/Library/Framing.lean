import Mathlib

/-!
# Reading a stream in frames

A reader takes a frame from the front of what it has, or says that there is none yet.
When its answer does not change as more comes in, a stream can be cut anywhere: what
is read chunk by chunk, keeping the rest, is what is read of the stream at once
(`feedAll_eq`).
-/

namespace Library

/-- A reader of frames. -/
structure Framing (α β : Type*) where
  next : List α → Option (β × List α)
  shorter {s rest : List α} {f : β} : next s = some (f, rest) → rest.length < s.length
  /-- What was read stays as it is when more comes in. -/
  stable {s rest : List α} {f : β} : next s = some (f, rest) →
    ∀ t, next (s ++ t) = some (f, rest ++ t)

namespace Framing

variable {α β : Type*} (R : Framing α β) {s t rest : List α} {f : β}

/-- Every frame that is there, and the rest. -/
def drain (s : List α) : List β × List α :=
  match _h : R.next s with
  | none => ([], s)
  | some (f, rest) => (f :: (drain rest).1, (drain rest).2)
termination_by s.length
decreasing_by all_goals exact R.shorter _h

theorem drain_of_none (h : R.next s = none) : R.drain s = ([], s) := by
  rw [drain]
  split
  next => rfl
  next hsome => rw [h] at hsome; cases hsome

theorem drain_of_some (h : R.next s = some (f, rest)) :
    R.drain s = (f :: (R.drain rest).1, (R.drain rest).2) := by
  rw [drain]
  split
  next hnone => rw [h] at hnone; cases hnone
  next f' rest' hsome =>
    rw [h] at hsome
    cases hsome
    rfl

/-- In the rest there is no frame. -/
theorem next_drain (s : List α) : R.next (R.drain s).2 = none := by
  induction s using drain.induct R with
  | case1 s h => rwa [R.drain_of_none h]
  | case2 s f rest h ih => rwa [R.drain_of_some h]

/-- What comes in later is read behind the rest. -/
theorem drain_append (s t : List α) :
    R.drain (s ++ t) = ((R.drain s).1 ++ (R.drain ((R.drain s).2 ++ t)).1,
      (R.drain ((R.drain s).2 ++ t)).2) := by
  induction s using drain.induct R with
  | case1 s h => rw [R.drain_of_none h, List.nil_append]
  | case2 s f rest h ih =>
      rw [R.drain_of_some (R.stable h t), ih, R.drain_of_some h]
      rfl

/-- One chunk more, behind the rest of those before. -/
def feed (state : List β × List α) (chunk : List α) : List β × List α :=
  (state.1 ++ (R.drain (state.2 ++ chunk)).1, (R.drain (state.2 ++ chunk)).2)

def feedAll (chunks : List (List α)) : List β × List α := chunks.foldl R.feed ([], [])

theorem foldl_feed (s : List α) (chunks : List (List α)) :
    chunks.foldl R.feed (R.drain s) = R.drain (s ++ chunks.flatten) := by
  induction chunks generalizing s with
  | nil => rw [List.flatten_nil, List.append_nil]; rfl
  | cons chunk chunks ih =>
      have hstep : R.feed (R.drain s) chunk = R.drain (s ++ chunk) := (R.drain_append s chunk).symm
      rw [List.foldl_cons, hstep, ih, List.flatten_cons, List.append_assoc]

/-- The chunks make no difference. -/
theorem feedAll_eq (hnil : R.next [] = none) (chunks : List (List α)) :
    R.feedAll chunks = R.drain chunks.flatten := by
  rw [feedAll, ← R.drain_of_none hnil]
  exact R.foldl_feed [] chunks

/-- What a writer puts one behind the other is read frame by frame. -/
theorem drain_flatMap {γ : Type*} {write : γ → List α} {read : γ → β} {items : List γ}
    (h : ∀ x ∈ items, ∀ t, R.next (write x ++ t) = some (read x, t)) (hnil : R.next [] = none) :
    R.drain (items.flatMap write) = (items.map read, []) := by
  induction items with
  | nil => exact R.drain_of_none hnil
  | cons x items ih =>
      obtain ⟨hx, hitems⟩ := List.forall_mem_cons.mp h
      rw [List.flatMap_cons, R.drain_of_some (hx _), ih hitems]
      rfl

end Framing

end Library
