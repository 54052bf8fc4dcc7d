import Mathlib

/-!
# Marking in instalments

A worklist search that may be interrupted.  `mark` marks at most `room` vertices.
It hands back what is marked and what is still to do, and another call goes on
from there.  A vertex is read to find its successors, and `read` may fail.

`Marking` is what holds between two calls.  It says that only live vertices are
marked or waiting, that none is marked twice, and that every successor of a
marked vertex is marked or waiting.  When nothing waits, exactly the live vertices
are marked (`Marking.mem_iff`).
-/

namespace Library

universe u

variable {α : Type u}

/-- How a call ended. -/
inductive Marked (α : Type u) where
  /-- Nothing waits, and this much room is left. -/
  | complete (room : ℕ) (visited : List α)
  /-- No room is left, and the head of the stack is not marked. -/
  | stopped (visited pending : List α)
  /-- A vertex could not be read. -/
  | missing (room : ℕ)
deriving DecidableEq

/-- Mark from a stack, at most so many vertices.  Passing by a vertex that is
marked takes no room. -/
def mark [DecidableEq α] (read : α → Option (List α)) : ℕ → List α → List α → Marked α
  | 0, visited, pending =>
      match pending.dropWhile (· ∈ visited) with
      | [] => .complete 0 visited
      | a :: rest => .stopped visited (a :: rest)
  | room + 1, visited, pending =>
      match pending.dropWhile (· ∈ visited) with
      | [] => .complete (room + 1) visited
      | a :: rest =>
          match read a with
          | none => .missing room
          | some bs => mark read room (visited ++ [a]) (bs.reverse ++ rest)

/-- One vertex names another. -/
def Refers (read : α → Option (List α)) (a b : α) : Prop := ∃ bs, read a = some bs ∧ b ∈ bs

/-- What a root leads to. -/
def Live (read : α → Option (List α)) (roots : List α) (a : α) : Prop :=
  ∃ r ∈ roots, Relation.ReflTransGen (Refers read) r a

/-- What holds between two calls. -/
structure Marking (read : α → Option (List α)) (roots visited pending : List α) : Prop where
  nodup : visited.Nodup
  visited_live : ∀ a ∈ visited, Live read roots a
  pending_live : ∀ a ∈ pending, Live read roots a
  closed : ∀ a ∈ visited, ∀ bs, read a = some bs → ∀ b ∈ bs, b ∈ visited ∨ b ∈ pending

variable {read : α → Option (List α)} {roots visited pending : List α} {room : ℕ}

theorem Live.root {r : α} (h : r ∈ roots) : Live read roots r := ⟨r, h, .refl⟩

theorem Live.next {a b : α} {bs : List α} (h : Live read roots a) (ha : read a = some bs)
    (hb : b ∈ bs) : Live read roots b := by
  obtain ⟨r, hr, hra⟩ := h
  exact ⟨r, hr, hra.tail ⟨bs, ha, hb⟩⟩

theorem Marking.nil : Marking read roots [] [] := ⟨.nil, nofun, nofun, nofun⟩

/-- Where nothing waits and the roots are marked, exactly the live vertices are. -/
theorem Marking.mem_iff (h : Marking read roots visited []) (hroots : ∀ r ∈ roots, r ∈ visited)
    {a : α} : a ∈ visited ↔ Live read roots a := by
  refine ⟨h.visited_live a, ?_⟩
  rintro ⟨r, hr, hra⟩
  induction hra with
  | refl => exact hroots r hr
  | @tail b c _ hbc ih =>
      obtain ⟨bs, hread, hc⟩ := hbc
      exact (h.closed b ih bs hread c hc).resolve_right (by simp)

/-- More may wait. -/
theorem Marking.push (h : Marking read roots visited pending) {a : α} (ha : Live read roots a) :
    Marking read roots visited (a :: pending) where
  nodup := h.nodup
  visited_live := h.visited_live
  pending_live := List.forall_mem_cons.mpr ⟨ha, h.pending_live⟩
  closed b hb bs hread d hd := (h.closed b hb bs hread d hd).imp_right (List.mem_cons_of_mem a)

/-- Marking the vertex on top of the stack. -/
theorem Marking.pop {a : α} {rest bs : List α} (h : Marking read roots visited (a :: rest))
    (hnew : a ∉ visited) (ha : read a = some bs) :
    Marking read roots (visited ++ [a]) (bs.reverse ++ rest) := by
  have hlive : Live read roots a := h.pending_live a (List.mem_cons_self ..)
  refine ⟨?_, ?_, ?_, ?_⟩
  · rw [List.nodup_append]
    refine ⟨h.nodup, List.nodup_singleton a, fun b hb c hc heq => ?_⟩
    rw [heq, List.mem_singleton.mp hc] at hb
    exact hnew hb
  · intro b hb
    rcases List.mem_append.mp hb with hb | hb
    · exact h.visited_live b hb
    · exact List.mem_singleton.mp hb ▸ hlive
  · intro b hb
    rcases List.mem_append.mp hb with hb | hb
    · exact hlive.next ha (List.mem_reverse.mp hb)
    · exact h.pending_live b (List.mem_cons_of_mem a hb)
  · intro b hb cs hread c hc
    rcases List.mem_append.mp hb with hb | hb
    · rcases h.closed b hb cs hread c hc with hc | hc
      · exact .inl (List.mem_append_left _ hc)
      · rcases List.mem_cons.mp hc with rfl | hc
        · exact .inl (List.mem_append_right _ (List.mem_singleton_self c))
        · exact .inr (List.mem_append_right _ hc)
    · rw [List.mem_singleton.mp hb, ha] at hread
      cases hread
      exact .inr (List.mem_append_left _ (List.mem_reverse.mpr hc))

/-- What is live depends on the live vertices only. -/
theorem Live.congr {read' : α → Option (List α)}
    (h : ∀ a, Live read roots a → read' a = read a) {a : α} :
    Live read' roots a ↔ Live read roots a := by
  constructor
  · rintro ⟨r, hr, hra⟩
    induction hra with
    | refl => exact .root hr
    | tail _ hbc ih =>
        obtain ⟨bs, hread, hc⟩ := hbc
        exact ih.next ((h _ ih).symm.trans hread) hc
  · rintro ⟨r, hr, hra⟩
    have hboth : Live read roots a ∧ Live read' roots a := by
      induction hra with
      | refl => exact ⟨.root hr, .root hr⟩
      | tail _ hbc ih =>
          obtain ⟨bs, hread, hc⟩ := hbc
          exact ⟨ih.1.next hread hc, ih.2.next ((h _ ih.1).trans hread) hc⟩
    exact hboth.2

theorem Marking.congr {read' : α → Option (List α)}
    (h : ∀ a, Live read roots a → read' a = read a) (hm : Marking read roots visited pending) :
    Marking read' roots visited pending where
  nodup := hm.nodup
  visited_live a ha := (Live.congr h).mpr (hm.visited_live a ha)
  pending_live a ha := (Live.congr h).mpr (hm.pending_live a ha)
  closed a ha bs hread := hm.closed a ha bs ((h a (hm.visited_live a ha)).symm.trans hread)

variable [DecidableEq α]

/-- A waiting vertex is marked, or still waits after the marked ones were passed by. -/
theorem mem_or_mem_dropWhile {a : α} (h : a ∈ pending) :
    a ∈ visited ∨ a ∈ pending.dropWhile (· ∈ visited) := by
  rw [← List.takeWhile_append_dropWhile (p := (· ∈ visited)) (l := pending)] at h
  exact (List.mem_append.mp h).imp_left fun ha =>
    of_decide_eq_true (List.mem_takeWhile_imp (p := fun b => decide (b ∈ visited)) ha)

theorem notMem_of_dropWhile {a : α} {rest : List α}
    (h : pending.dropWhile (· ∈ visited) = a :: rest) : a ∉ visited := by
  intro ha
  have hhead := List.head?_dropWhile_not (fun b => decide (b ∈ visited)) pending
  rw [h] at hhead
  simp [ha] at hhead

/-- What is marked need not wait. -/
theorem Marking.skip (h : Marking read roots visited pending) :
    Marking read roots visited (pending.dropWhile (· ∈ visited)) where
  nodup := h.nodup
  visited_live := h.visited_live
  pending_live a ha := h.pending_live a ((List.dropWhile_sublist _).subset ha)
  closed a ha bs hread b hb := by
    rcases h.closed a ha bs hread b hb with hb | hb
    · exact .inl hb
    · exact mem_or_mem_dropWhile hb

/-- What a call that ended leaves. -/
inductive Marked.Spec (read : α → Option (List α)) (roots visited : List α) (room : ℕ) :
    Marked α → Prop where
  | complete {left : ℕ} {visited' : List α} : visited <+: visited' →
      visited'.length + left = visited.length + room → Marking read roots visited' [] →
      (∀ r ∈ roots, r ∈ visited') → Spec read roots visited room (.complete left visited')
  | stopped {visited' pending' : List α} : visited <+: visited' →
      visited'.length = visited.length + room → Marking read roots visited' pending' →
      (∀ r ∈ roots, r ∈ visited' ∨ r ∈ pending') →
      Spec read roots visited room (.stopped visited' pending')

/-- A call never meets a vertex it cannot read, where every live one can be. -/
theorem Marking.mark (hread : ∀ a, Live read roots a → (read a).isSome = true)
    (h : Marking read roots visited pending)
    (hroots : ∀ r ∈ roots, r ∈ visited ∨ r ∈ pending) :
    (Library.mark read room visited pending).Spec read roots visited room := by
  induction room generalizing visited pending with
  | zero =>
      have hskip := h.skip
      have hcovered : ∀ r ∈ roots, r ∈ visited ∨ r ∈ pending.dropWhile (· ∈ visited) :=
        fun r hr => (hroots r hr).elim .inl mem_or_mem_dropWhile
      rw [Library.mark]
      cases hdrop : pending.dropWhile (· ∈ visited) with
      | nil =>
          rw [hdrop] at hskip hcovered
          exact .complete List.prefix_rfl rfl hskip fun r hr =>
            (hcovered r hr).resolve_right (by simp)
      | cons a rest =>
          rw [hdrop] at hskip hcovered
          exact .stopped List.prefix_rfl rfl hskip hcovered
  | succ room ih =>
      have hskip := h.skip
      have hcovered : ∀ r ∈ roots, r ∈ visited ∨ r ∈ pending.dropWhile (· ∈ visited) :=
        fun r hr => (hroots r hr).elim .inl mem_or_mem_dropWhile
      rw [Library.mark]
      cases hdrop : pending.dropWhile (· ∈ visited) with
      | nil =>
          rw [hdrop] at hskip hcovered
          exact .complete List.prefix_rfl rfl hskip fun r hr =>
            (hcovered r hr).resolve_right (by simp)
      | cons a rest =>
          rw [hdrop] at hskip hcovered
          obtain ⟨bs, ha⟩ := Option.isSome_iff_exists.mp
            (hread a (hskip.pending_live a (List.mem_cons_self ..)))
          have hroots' : ∀ r ∈ roots, r ∈ visited ++ [a] ∨ r ∈ bs.reverse ++ rest := by
            intro r hr
            rcases hcovered r hr with hr | hr
            · exact .inl (List.mem_append_left _ hr)
            · rcases List.mem_cons.mp hr with rfl | hr
              · exact .inl (List.mem_append_right _ (List.mem_singleton_self r))
              · exact .inr (List.mem_append_right _ hr)
          have hlength : (visited ++ [a]).length + room = visited.length + (room + 1) := by
            rw [List.length_append, List.length_singleton]
            omega
          have hkept : visited <+: visited ++ [a] := List.prefix_append _ _
          simp only [ha]
          have hrest := ih (hskip.pop (notMem_of_dropWhile hdrop) ha) hroots'
          generalize Library.mark read room (visited ++ [a]) (bs.reverse ++ rest) = call at hrest ⊢
          cases hrest with
          | complete hgrows hcount hmarking hmarked =>
              exact .complete (hkept.trans hgrows) (hcount.trans hlength) hmarking hmarked
          | stopped hgrows hcount hmarking hmarked =>
              exact .stopped (hkept.trans hgrows) (hcount.trans hlength) hmarking hmarked

end Library
