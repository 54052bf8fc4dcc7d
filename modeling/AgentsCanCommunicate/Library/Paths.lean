import Mathlib

/-!
# Relative paths

A path is read as moves: staying, going up, going down to a name.  From a
directory the moves lead to a directory, and going up from the root stays there.

A relative path has a normal form, a `Climb`: so many steps up, then the names
down.  Where it leads from any start is read off its normal form, and so is
whether it leaves the start.
-/

namespace Library

universe u

inductive Move (ν : Type u) where
  | stay
  | up
  | down (name : ν)
deriving DecidableEq

namespace Move

variable {ν : Type u}

/-- One move, from a directory. -/
def apply (place : List ν) : Move ν → List ν
  | .stay => place
  | .up => place.dropLast
  | .down name => place ++ [name]

end Move

/-- Where the moves lead. -/
def walk {ν : Type u} (start : List ν) (moves : List (Move ν)) : List ν :=
  moves.foldl Move.apply start

/-- A relative path in normal form. -/
structure Climb (ν : Type u) where
  ups : Nat
  downs : List ν
deriving DecidableEq

section

variable {ν : Type u} {start : List ν} {moves : List (Move ν)}

namespace Climb

def here : Climb ν := ⟨0, []⟩

/-- Up takes back the last name, and climbs where there is none. -/
def apply (c : Climb ν) : Move ν → Climb ν
  | .stay => c
  | .up => if c.downs = [] then ⟨c.ups + 1, []⟩ else ⟨c.ups, c.downs.dropLast⟩
  | .down name => ⟨c.ups, c.downs ++ [name]⟩

/-- Where a climb leads. -/
def walk (start : List ν) (c : Climb ν) : List ν :=
  start.take (start.length - c.ups) ++ c.downs

theorem walk_apply (start : List ν) (c : Climb ν) (m : Move ν) :
    (c.apply m).walk start = m.apply (c.walk start) := by
  cases m with
  | stay => rfl
  | up =>
      by_cases hd : c.downs = []
      · have hlen : min (min (start.length - c.ups) start.length - 1) (start.length - c.ups)
            = start.length - (c.ups + 1) := by omega
        rw [apply, if_pos hd, walk, walk, Move.apply, hd, List.append_nil, List.append_nil,
          List.dropLast_eq_take, List.length_take, List.take_take, hlen]
      · simp only [apply, if_neg hd, walk, Move.apply]
        rw [List.dropLast_append_of_ne_nil hd]
  | down name => simp only [apply, walk, Move.apply, List.append_assoc]

theorem ups_le_apply (c : Climb ν) (m : Move ν) : c.ups ≤ (c.apply m).ups := by
  cases m with
  | stay => exact le_rfl
  | up =>
      rw [apply]
      split
      · exact Nat.le_succ _
      · exact le_rfl
  | down name => exact le_rfl

theorem ups_le_foldl (c : Climb ν) (moves : List (Move ν)) :
    c.ups ≤ (moves.foldl apply c).ups := by
  induction moves generalizing c with
  | nil => exact le_rfl
  | cons m moves ih => exact (ups_le_apply c m).trans (ih (c.apply m))

end Climb

/-- The normal form of a path. -/
def climb (moves : List (Move ν)) : Climb ν := moves.foldl Climb.apply Climb.here

theorem foldl_climb (start : List ν) (c : Climb ν) (moves : List (Move ν)) :
    (moves.foldl Climb.apply c).walk start = walk (c.walk start) moves := by
  induction moves generalizing c with
  | nil => rfl
  | cons m moves ih =>
      rw [List.foldl_cons, ih, Climb.walk_apply]
      rfl

/-- A path leads where its normal form leads. -/
theorem walk_eq_climb (start : List ν) (moves : List (Move ν)) :
    walk start moves = (climb moves).walk start := by
  rw [climb, foldl_climb]
  simp [Climb.walk, Climb.here]

theorem walk_append (start : List ν) (moves more : List (Move ν)) :
    walk start (moves ++ more) = walk (walk start moves) more := by
  rw [walk, List.foldl_append, walk, walk]

/-- A path stays below its start when the names it climbs over are the first it
goes down to. -/
theorem prefix_walk_iff :
    start <+: walk start moves ↔
      start.drop (start.length - (climb moves).ups) <+: (climb moves).downs := by
  rw [walk_eq_climb, Climb.walk]
  conv_lhs =>
    lhs
    rw [← List.take_append_drop (start.length - (climb moves).ups) start]
  exact List.prefix_append_right_inj _

theorem prefix_walk_of_ups (h : (climb moves).ups = 0) : start <+: walk start moves := by
  rw [prefix_walk_iff, h, Nat.sub_zero, List.drop_length]
  exact List.nil_prefix

/-- A path that climbs leaves some start.  The start is as deep as the path
climbs, and its first name is not the one the path goes down to. -/
theorem exists_not_prefix_walk {a b : ν} (hab : a ≠ b) (h : (climb moves).ups ≠ 0) :
    ∃ name, (name = a ∨ name = b) ∧
      ¬List.replicate (climb moves).ups name <+:
        walk (List.replicate (climb moves).ups name) moves := by
  obtain ⟨name, hname, hfirst⟩ :
      ∃ name, (name = a ∨ name = b) ∧ (climb moves).downs.head? ≠ some name := by
    by_cases ha : (climb moves).downs.head? = some a
    · exact ⟨b, .inr rfl, fun hb => hab (Option.some.inj (ha.symm.trans hb))⟩
    · exact ⟨a, .inl rfl, ha⟩
  refine ⟨name, hname, fun hprefix => hfirst ?_⟩
  rw [prefix_walk_iff, List.length_replicate, Nat.sub_self, List.drop_zero] at hprefix
  obtain ⟨n, hn⟩ := Nat.exists_eq_succ_of_ne_zero h
  rw [hn, List.replicate_succ] at hprefix
  obtain ⟨rest, hrest⟩ := hprefix
  rw [← hrest, List.cons_append, List.head?_cons]

end

end Library
