import AgentsCanCommunicate.Library.Run

/-!
# Leases

A *lease* gives an owner a resource until an instant, alone or shared.  Leases
are live before that instant and mean nothing after it.  What a lease table is
for is that the live leases of different owners on overlapping resources are all
shared.

The table is a set, so what is stated here does not depend on how leases are
stored.  `Step` lists what may happen to it: time passes, leases are dropped, an
owner is granted leases that agree with every live lease there is, and a live
lease is extended.  A lease that has run out cannot be extended, and that is the
whole reason extending needs no check against the others.
-/

namespace Library

universe u v w

/-- A resource held by an owner until an instant. -/
structure Lease (ω : Type u) (ρ : Type v) (τ : Type w) where
  owner : ω
  resource : ρ
  shared : Prop
  expires : τ

namespace Lease

variable {ω : Type u} {ρ : Type v} {τ : Type w} [LinearOrder τ]

/-- A lease holds its resource before it expires. -/
def Live (a : Lease ω ρ τ) (now : τ) : Prop := now < a.expires

/-- Two leases that may be live together. -/
def Compatible (Overlaps : ρ → ρ → Prop) (a b : Lease ω ρ τ) : Prop :=
  a.owner ≠ b.owner → Overlaps a.resource b.resource → a.shared ∧ b.shared

/-- The live leases of a table agree with each other. -/
def Exclusive (Overlaps : ρ → ρ → Prop) (held : Set (Lease ω ρ τ)) (now : τ) : Prop :=
  ∀ a ∈ held, ∀ b ∈ held, a.Live now → b.Live now → Compatible Overlaps a b

/-- What may happen to a lease table and its clock. -/
inductive Step (Overlaps : ρ → ρ → Prop) :
    Set (Lease ω ρ τ) × τ → Unit → Set (Lease ω ρ τ) × τ → Prop where
  /-- Time passes, and leases may be given up. -/
  | drop {held held' : Set (Lease ω ρ τ)} {now now' : τ} :
      held' ⊆ held → now ≤ now' → Step Overlaps (held, now) () (held', now')
  /-- One owner is granted leases that agree with every live one. -/
  | grant {held held' granted : Set (Lease ω ρ τ)} {now now' : τ} {who : ω} :
      now ≤ now' → (∀ a ∈ granted, a.owner = who) →
      (∀ a ∈ granted, ∀ b ∈ held, b.Live now' → Compatible Overlaps b a) →
      held' ⊆ held ∪ granted → Step Overlaps (held, now) () (held', now')
  /-- A live lease is extended. -/
  | extend {held held' : Set (Lease ω ρ τ)} {now now' until_ : τ} {a : Lease ω ρ τ} :
      now ≤ now' → a ∈ held → a.Live now' →
      held' ⊆ held ∪ {{ a with expires := until_ }} → Step Overlaps (held, now) () (held', now')

variable {Overlaps : ρ → ρ → Prop}

theorem Live.mono {a : Lease ω ρ τ} {now now' : τ} (h : a.Live now') (hle : now ≤ now') :
    a.Live now := lt_of_le_of_lt hle h

omit [LinearOrder τ] in
theorem Compatible.symm (hcomm : ∀ x y, Overlaps x y → Overlaps y x) {a b : Lease ω ρ τ}
    (h : Compatible Overlaps a b) : Compatible Overlaps b a := by
  intro howner hoverlap
  exact (h howner.symm (hcomm _ _ hoverlap)).symm

theorem Exclusive.subset {held held' : Set (Lease ω ρ τ)} {now now' : τ}
    (h : Exclusive Overlaps held now) (hsub : held' ⊆ held) (hle : now ≤ now') :
    Exclusive Overlaps held' now' := by
  intro a ha b hb hla hlb
  exact h a (hsub ha) b (hsub hb) (hla.mono hle) (hlb.mono hle)

/-- Whatever happens, the live leases agree. -/
theorem Exclusive.step (hcomm : ∀ x y, Overlaps x y → Overlaps y x)
    {s t : Set (Lease ω ρ τ) × τ} (hstep : Step Overlaps s () t)
    (h : Exclusive Overlaps s.1 s.2) : Exclusive Overlaps t.1 t.2 := by
  cases hstep with
  | drop hsub hle => exact h.subset hsub hle
  | grant hle howner hagree hsub =>
      intro a ha b hb hla hlb
      rcases hsub ha with ha | ha <;> rcases hsub hb with hb | hb
      · exact h a ha b hb (hla.mono hle) (hlb.mono hle)
      · exact hagree b hb a ha hla
      · exact (hagree a ha b hb hlb).symm hcomm
      · intro hne
        exact absurd ((howner a ha).trans (howner b hb).symm) hne
  | @extend held held' now now' until_ e hle he hlive hsub =>
      intro a ha b hb hla hlb
      -- Read the extended lease as the live one it was before.
      have hback : ∀ x : Lease ω ρ τ, x ∈ held' → x.Live now' →
          ∃ y ∈ held, y.Live now ∧ y.owner = x.owner ∧ y.resource = x.resource
            ∧ y.shared = x.shared := by
        intro x hx hlx
        rcases hsub hx with hx | hx
        · exact ⟨x, hx, hlx.mono hle, rfl, rfl, rfl⟩
        · cases hx
          exact ⟨e, he, hlive.mono hle, rfl, rfl, rfl⟩
      obtain ⟨x, hx, hlx, hxo, hxr, hxs⟩ := hback a ha hla
      obtain ⟨y, hy, hly, hyo, hyr, hys⟩ := hback b hb hlb
      have hxy := h x hx y hy hlx hly
      rw [Compatible, hxo, hyo, hxr, hyr, hxs, hys] at hxy
      exact hxy

end Lease

end Library
