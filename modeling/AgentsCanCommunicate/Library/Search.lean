import Mathlib

/-!
# Search from a set of seeds

A worklist search over a relation given by its successors.  `search` pops a
vertex, pushes those of its successors that were not seen, and stops when
nothing is left to pop or its fuel runs out.

With as much fuel as there are vertices it sees exactly what the seeds reach
(`mem_search`), and it sees nothing twice (`search_nodup`).
-/

namespace Library

universe u

variable {α : Type u} [DecidableEq α]

/-- The successors of a vertex that were not seen. -/
def unseen (next : α → List α) (seen : List α) (a : α) : List α :=
  ((next a).filter fun b => b ∉ seen).dedup

/-- Visit what can be reached.  The stack holds what was seen and not popped. -/
def search (next : α → List α) : Nat → List α → List α → List α
  | 0, seen, _ => seen
  | _ + 1, seen, [] => seen
  | fuel + 1, seen, a :: pending =>
      search next fuel (seen ++ unseen next seen a) ((unseen next seen a).reverse ++ pending)

variable {next : α → List α} {fuel : Nat} {seen pending vertices : List α}

/-- One vertex leads to another. -/
abbrev Leads (next : α → List α) : α → α → Prop := Relation.ReflTransGen fun a b => b ∈ next a

theorem mem_unseen {a b : α} : b ∈ unseen next seen a ↔ b ∈ next a ∧ b ∉ seen := by
  simp [unseen]

/-- What the search sees can be reached from what it had seen. -/
theorem search_sound (hpending : ∀ a ∈ pending, a ∈ seen) {x : α}
    (hx : x ∈ search next fuel seen pending) : ∃ s ∈ seen, Leads next s x := by
  induction fuel generalizing seen pending with
  | zero => exact ⟨x, hx, .refl⟩
  | succ fuel ih =>
      cases pending with
      | nil => exact ⟨x, hx, .refl⟩
      | cons a pending =>
          have hsub : ∀ b ∈ (unseen next seen a).reverse ++ pending,
              b ∈ seen ++ unseen next seen a := by
            intro b hb
            rcases List.mem_append.mp hb with hb | hb
            · exact List.mem_append_right _ (List.mem_reverse.mp hb)
            · exact List.mem_append_left _ (hpending b (List.mem_cons_of_mem _ hb))
          obtain ⟨s, hs, hsx⟩ := ih hsub hx
          rcases List.mem_append.mp hs with hs | hs
          · exact ⟨s, hs, hsx⟩
          · have ha : a ∈ seen := hpending a (List.mem_cons_self ..)
            exact ⟨a, ha, .head (mem_unseen.mp hs).1 hsx⟩

/-- What was seen stays seen. -/
theorem subset_search {x : α} (hx : x ∈ seen) : x ∈ search next fuel seen pending := by
  induction fuel generalizing seen pending with
  | zero => exact hx
  | succ fuel ih =>
      cases pending with
      | nil => exact hx
      | cons a pending => exact ih (List.mem_append_left _ hx)

/-- How much there is left to do: what was not seen, and what was not popped. -/
def remaining (vertices seen pending : List α) : Nat :=
  (vertices.toFinset \ seen.toFinset).card + pending.length

theorem remaining_step {a : α} (hvertices : ∀ b ∈ next a, b ∈ vertices) :
    remaining vertices (seen ++ unseen next seen a) ((unseen next seen a).reverse ++ pending) + 1
      = remaining vertices seen (a :: pending) := by
  have hfresh : (unseen next seen a).toFinset ⊆ vertices.toFinset \ seen.toFinset := by
    intro b hb
    simp only [List.mem_toFinset, mem_unseen] at hb
    simp [hvertices b hb.1, hb.2]
  have hnodup : (unseen next seen a).toFinset.card = (unseen next seen a).length :=
    List.toFinset_card_of_nodup (List.nodup_dedup _)
  have hcard := Finset.card_sdiff_add_card_eq_card hfresh
  simp only [remaining, List.toFinset_append, List.length_append, List.length_reverse,
    List.length_cons]
  rw [show vertices.toFinset \ (seen.toFinset ∪ (unseen next seen a).toFinset) =
    (vertices.toFinset \ seen.toFinset) \ (unseen next seen a).toFinset from
      (sdiff_sdiff_left ..).symm]
  omega

/-- With fuel enough the search ends with nothing to pop, so whatever it saw it
also expanded. -/
theorem search_closed (hvertices : ∀ a ∈ vertices, ∀ b ∈ next a, b ∈ vertices)
    (hpending : ∀ a ∈ pending, a ∈ vertices)
    (hdone : ∀ a ∈ seen, a ∉ pending → ∀ b ∈ next a, b ∈ seen)
    (hfuel : remaining vertices seen pending ≤ fuel) {a b : α}
    (ha : a ∈ search next fuel seen pending) (hb : b ∈ next a) :
    b ∈ search next fuel seen pending := by
  induction fuel generalizing seen pending with
  | zero =>
      have hempty : pending = [] := by
        rw [← List.length_eq_zero_iff]
        simp only [remaining] at hfuel
        omega
      exact hdone a ha (by simp [hempty]) b hb
  | succ fuel ih =>
      cases pending with
      | nil => exact hdone a ha (by simp) b hb
      | cons c pending =>
          have hc : c ∈ vertices := hpending c (List.mem_cons_self ..)
          have hstep : remaining vertices (seen ++ unseen next seen c)
              ((unseen next seen c).reverse ++ pending) + 1 =
              remaining vertices seen (c :: pending) := remaining_step (hvertices c hc)
          refine ih ?_ ?_ (by omega) ha
          · intro d hd
            rcases List.mem_append.mp hd with hd | hd
            · exact hvertices c hc d (mem_unseen.mp (List.mem_reverse.mp hd)).1
            · exact hpending d (List.mem_cons_of_mem _ hd)
          · intro d hd hnot e he
            simp only [List.mem_append, List.mem_reverse, not_or] at hd hnot
            rcases hd with hd | hd
            · by_cases hdc : d = c
              · subst hdc
                by_cases heseen : e ∈ seen
                · exact List.mem_append_left _ heseen
                · exact List.mem_append_right _ (mem_unseen.mpr ⟨he, heseen⟩)
              · exact List.mem_append_left _ (hdone d hd (by simp [hdc, hnot.2]) e he)
            · exact absurd hd hnot.1

/-- The search sees what its seeds reach, and nothing else. -/
theorem mem_search {seeds : List α} (hvertices : ∀ a ∈ vertices, ∀ b ∈ next a, b ∈ vertices)
    (hseeds : ∀ a ∈ seeds, a ∈ vertices) (hnodup : seeds.Nodup)
    (hfuel : vertices.length ≤ fuel) {x : α} :
    x ∈ search next fuel seeds seeds.reverse ↔ ∃ s ∈ seeds, Leads next s x := by
  constructor
  · intro hx
    exact search_sound (fun _ h => List.mem_reverse.mp h) hx
  · intro ⟨s, hs, hsx⟩
    have henough : remaining vertices seeds seeds.reverse ≤ fuel := by
      have hsub : seeds.toFinset ⊆ vertices.toFinset := by
        intro a ha
        exact List.mem_toFinset.mpr (hseeds a (List.mem_toFinset.mp ha))
      have hcard := Finset.card_sdiff_add_card_eq_card hsub
      have hseedsCard := List.toFinset_card_of_nodup hnodup
      have hverticesCard := List.toFinset_card_le vertices
      simp only [remaining, List.length_reverse]
      omega
    induction hsx with
    | refl => exact subset_search hs
    | tail _ hab ih =>
        exact search_closed hvertices (fun a ha => hseeds a (List.mem_reverse.mp ha))
          (fun a ha hnot => absurd (List.mem_reverse.mpr ha) hnot) henough ih hab

/-- Nothing is seen twice. -/
theorem search_nodup (h : seen.Nodup) : (search next fuel seen pending).Nodup := by
  induction fuel generalizing seen pending with
  | zero => exact h
  | succ fuel ih =>
      cases pending with
      | nil => exact h
      | cons a pending =>
          refine ih (List.Nodup.append h (List.nodup_dedup _) ?_)
          intro b hb hfresh
          exact (mem_unseen.mp hfresh).2 hb

end Library
