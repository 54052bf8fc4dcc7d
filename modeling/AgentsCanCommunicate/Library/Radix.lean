import AgentsCanCommunicate.Library.Sorting

/-!
# Radix trees of pages

A page is named by its address.  A branch names a page for some of the digits, and the items that
a branch holds are in the pages of their next digits.  What a page that is no branch holds is for
the user of the tree to say.

`Node` says what a page holds below a prefix of the routes, and `Denotes` what a root names.  A
page holds the same below every prefix (`Node.unique`), no page is below itself (`Node.acc`), and
adding pages changes nothing of what a page holds (`Node.mono`).  Where the items tell which pages
are branches, they tell the page (`Node.same`).  To change what one child of a
branch holds is to change what the branch holds (`Node.change`).
-/

namespace Library.Radix

/-- How pages are named and go on, and the digits by which an item is found. -/
structure Layout (P η D α : Type) where
  address : P → η
  /-- The children of a branch. -/
  children : P → Option (List (D × η))
  /-- The pages that a page goes on with that is no branch. -/
  next : P → List η
  route : α → List D

variable {P η D α : Type}

/-- The items below a longer prefix. -/
def narrow (L : Layout P η D α) (S : Set α) (pre : List D) : Set α := {x ∈ S | pre <+: L.route x}

/-- The pages that a page names. -/
def Layout.follows (L : Layout P η D α) (p : P) : List η :=
  match L.children p with
  | some children => children.map Prod.snd
  | none => L.next p

/-- The page is named by the other one. -/
def Layout.Below (L : Layout P η D α) (q p : P) : Prop := L.address q ∈ L.follows p

/-- The page holds these items, all of them below the prefix. -/
inductive Node (L : Layout P η D α) (s : Set P) (Leaf : List D → P → Set α → Prop)
    (Wide : Set α → Prop) : List D → P → Set α → Prop where
  | leaf {pre : List D} {p : P} {S : Set α} :
      L.children p = none → Leaf pre p S → Node L s Leaf Wide pre p S
  | branch {pre : List D} {p : P} {S : Set α} {children : List (D × η)} (page : D × η → P) :
      L.children p = some children → children ≠ [] → Wide S → (∀ x ∈ S, pre <+: L.route x) →
      (∀ c ∈ children, page c ∈ s ∧ L.address (page c) = c.2) →
      (∀ c ∈ children, Node L s Leaf Wide (pre ++ [c.1]) (page c) (narrow L S (pre ++ [c.1]))) →
      (∀ x ∈ S, ∃ c ∈ children, pre ++ [c.1] <+: L.route x) → Node L s Leaf Wide pre p S

/-- The address names a page that holds these items. -/
def Holds (L : Layout P η D α) (s : Set P) (Leaf : List D → P → Set α → Prop)
    (Wide : Set α → Prop) (pre : List D) (root : η) (S : Set α) : Prop :=
  ∃ p ∈ s, L.address p = root ∧ Node L s Leaf Wide pre p S

/-- The root names what is held, and no root names nothing. -/
def Denotes (L : Layout P η D α) (s : Set P) (Leaf : List D → P → Set α → Prop)
    (Wide : Set α → Prop) (pre : List D) (root : Option η) (S : Set α) : Prop :=
  match root with
  | none => S = ∅
  | some hash => Holds L s Leaf Wide pre hash S

/-- Neither the page nor one below it was seen. -/
def Apart (L : Layout P η D α) (seen : List η) (p : P) : Prop :=
  ∀ q, Relation.ReflTransGen L.Below q p → L.address q ∉ seen

variable {L : Layout P η D α} {s s' : Set P} {Leaf Leaf' : List D → P → Set α → Prop}
  {Wide : Set α → Prop} {pre pre' : List D} {p q : P} {S S' : Set α} {x : α} {d : D}
  {children children' : List (D × η)} {root next : Option η}

@[simp] theorem mem_narrow : x ∈ narrow L S pre ↔ x ∈ S ∧ pre <+: L.route x := Iff.rfl

theorem narrow_subset : narrow L S pre ⊆ S := fun _ hx => hx.1

/-- Two digits that one route goes on with are one. -/
theorem digit_unique {d d' : D} (h : pre ++ [d] <+: L.route x) (h' : pre ++ [d'] <+: L.route x) :
    d = d' := by
  have heq := List.prefix_of_prefix_length_le h h' (by simp)
  have hsame := heq.eq_of_length (by simp)
  simpa using hsame

theorem prefix_of_concat {route : List D} (h : pre ++ [d] <+: route) : pre <+: route :=
  (List.prefix_append pre [d]).trans h

/-! ## What a page holds -/

namespace Node

theorem congr (h : Node L s Leaf Wide pre p S) (hS : ∀ x, x ∈ S ↔ x ∈ S') :
    Node L s Leaf Wide pre p S' := by
  rwa [← Set.ext hS]

theorem route (hleaf : ∀ pre p S, Leaf pre p S → ∀ x ∈ S, pre <+: L.route x)
    (h : Node L s Leaf Wide pre p S) (hx : x ∈ S) : pre <+: L.route x := by
  cases h with
  | leaf _ h => exact hleaf _ _ _ h x hx
  | branch _ _ _ _ hroute _ _ _ => exact hroute x hx

theorem nonempty (hleaf : ∀ pre p S, Leaf pre p S → S.Nonempty) (h : Node L s Leaf Wide pre p S) :
    S.Nonempty := by
  induction h with
  | leaf _ h => exact hleaf _ _ _ h
  | branch page _ hne _ _ _ _ _ ih =>
      obtain ⟨c, hc⟩ := List.exists_mem_of_ne_nil _ hne
      obtain ⟨x, hx, _⟩ := ih c hc
      exact ⟨x, hx⟩

theorem mono (hs : s ⊆ s') (hleaf : ∀ pre p S, Leaf pre p S → Leaf' pre p S)
    (h : Node L s Leaf Wide pre p S) : Node L s' Leaf' Wide pre p S := by
  induction h with
  | leaf hnone h => exact .leaf hnone (hleaf _ _ _ h)
  | branch page hchildren hne hwide hroute hpage _ hcover ih =>
      exact .branch page hchildren hne hwide hroute
        (fun c hc => ⟨hs (hpage c hc).1, (hpage c hc).2⟩) ih hcover

/-- What a page holds does not depend on where it stands. -/
theorem unique (haddress : Function.Injective L.address)
    (hleaf : ∀ pre pre' p S S', Leaf pre p S → Leaf pre' p S' → S = S')
    (h : Node L s Leaf Wide pre p S) (h' : Node L s Leaf Wide pre' p S') : S = S' := by
  induction h generalizing pre' S' with
  | leaf hnone h =>
      cases h' with
      | leaf _ h' => exact hleaf _ _ _ _ _ h h'
      | branch _ hsome _ _ _ _ _ _ => simp [hnone] at hsome
  | @branch pre p S children page hchildren _ _ _ hpage _ hcover ih =>
      cases h' with
      | leaf hnone _ => simp [hchildren] at hnone
      | branch page' hchildren' _ _ _ hpage' hnode' hcover' =>
          obtain rfl := Option.some.inj (hchildren.symm.trans hchildren')
          have hsame : ∀ c ∈ children, narrow L S (pre ++ [c.1]) = narrow L S' (pre' ++ [c.1]) := by
            intro c hc
            have hpages : page c = page' c :=
              haddress ((hpage c hc).2.trans (hpage' c hc).2.symm)
            exact ih c hc (hpages ▸ hnode' c hc)
          ext x
          constructor
          · intro hx
            obtain ⟨c, hc, hstarts⟩ := hcover x hx
            exact ((Set.ext_iff.mp (hsame c hc) x).mp ⟨hx, hstarts⟩).1
          · intro hx
            obtain ⟨c, hc, hstarts⟩ := hcover' x hx
            exact ((Set.ext_iff.mp (hsame c hc) x).mpr ⟨hx, hstarts⟩).1

/-- No page is below itself. -/
theorem acc (haddress : Function.Injective L.address)
    (hleaf : ∀ pre p S, Leaf pre p S → Acc L.Below p) (h : Node L s Leaf Wide pre p S) :
    Acc L.Below p := by
  induction h with
  | leaf _ h => exact hleaf _ _ _ h
  | branch page hchildren _ _ _ hpage _ _ ih =>
      refine ⟨_, fun q hq => ?_⟩
      simp only [Layout.Below, Layout.follows, hchildren] at hq
      obtain ⟨c, hc, heq⟩ := List.mem_map.mp hq
      rw [← haddress ((hpage c hc).2.trans heq)]
      exact ih c hc

/-- A page below holds a part of the items. -/
theorem of_below (haddress : Function.Injective L.address)
    (hleaf : ∀ pre p S, Leaf pre p S → L.next p = []) (h : Node L s Leaf Wide pre p S)
    (hq : Relation.ReflTransGen L.Below q p) :
    ∃ pre' S', Node L s Leaf Wide pre' q S' ∧ S' ⊆ S := by
  induction h with
  | @leaf pre p S hnone h =>
      obtain rfl | ⟨r, _, hr⟩ := Relation.ReflTransGen.cases_tail hq
      · exact ⟨pre, S, .leaf hnone h, le_rfl⟩
      · simp [Layout.Below, Layout.follows, hnone, hleaf _ _ _ h] at hr
  | @branch pre p S children page hchildren hne hwide hroute hpage hnode hcover ih =>
      obtain rfl | ⟨r, hqr, hr⟩ := Relation.ReflTransGen.cases_tail hq
      · exact ⟨pre, S, .branch page hchildren hne hwide hroute hpage hnode hcover, le_rfl⟩
      · simp only [Layout.Below, Layout.follows, hchildren] at hr
        obtain ⟨c, hc, heq⟩ := List.mem_map.mp hr
        obtain rfl := haddress ((hpage c hc).2.trans heq)
        obtain ⟨pre', S', hnode', hS'⟩ := ih c hc hqr
        exact ⟨pre', S', hnode', hS'.trans narrow_subset⟩

/-- A branch of pages that hold the items of their digits. -/
theorem of_children (hchildren : L.children p = some children) (hne : children ≠ [])
    (hwide : Wide S) (hroute : ∀ x ∈ S, pre <+: L.route x)
    (hholds : ∀ c ∈ children,
      Holds L s Leaf Wide (pre ++ [c.1]) c.2 (narrow L S (pre ++ [c.1])))
    (hcover : ∀ x ∈ S, ∃ c ∈ children, pre ++ [c.1] <+: L.route x) :
    Node L s Leaf Wide pre p S := by
  classical
  refine .branch (fun c => if hc : c ∈ children then (hholds c hc).choose else p) hchildren hne hwide
    hroute (fun c hc => ?_) (fun c hc => ?_) hcover
  · simp only [hc, ↓reduceDIte]
    exact ⟨(hholds c hc).choose_spec.1, (hholds c hc).choose_spec.2.1⟩
  · simp only [hc, ↓reduceDIte]
    exact (hholds c hc).choose_spec.2.2

/-- What the child of a digit holds. -/
theorem holds_child (h : Node L s Leaf Wide pre p S) (hchildren : L.children p = some children)
    {c : D × η} (hc : c ∈ children) :
    Holds L s Leaf Wide (pre ++ [c.1]) c.2 (narrow L S (pre ++ [c.1])) := by
  cases h with
  | leaf hnone _ => simp [hchildren] at hnone
  | branch page hchildren' _ _ _ hpage hnode _ =>
      obtain rfl := Option.some.inj (hchildren.symm.trans hchildren')
      exact ⟨page c, (hpage c hc).1, (hpage c hc).2, hnode c hc⟩

theorem cover (h : Node L s Leaf Wide pre p S) (hchildren : L.children p = some children)
    (hx : x ∈ S) : ∃ c ∈ children, pre ++ [c.1] <+: L.route x := by
  cases h with
  | leaf hnone _ => simp [hchildren] at hnone
  | branch page hchildren' _ _ _ _ _ hcover =>
      obtain rfl := Option.some.inj (hchildren.symm.trans hchildren')
      exact hcover x hx

/-- What the child of a digit holds, where there may be none. -/
theorem denotes_child (h : Node L s Leaf Wide pre p S) (hchildren : L.children p = some children)
    (hnext : ∀ hash, next = some hash → (d, hash) ∈ children)
    (hnone : next = none → ∀ c ∈ children, c.1 ≠ d) :
    Denotes L s Leaf Wide (pre ++ [d]) next (narrow L S (pre ++ [d])) := by
  cases next with
  | some hash => exact h.holds_child hchildren (hnext hash rfl)
  | none =>
      refine Set.eq_empty_of_forall_notMem ?_
      rintro x ⟨hx, hstarts⟩
      obtain ⟨c, hc, hstarts'⟩ := h.cover hchildren hx
      exact hnone rfl c hc (digit_unique hstarts' hstarts)

/-- Where no items are in a page both with a branch and without, there is one page for them. -/
theorem same [LinearOrder D] (hsorted : ∀ p, p ∈ s ∨ p ∈ s' → ∀ cs, L.children p = some cs →
      (cs.map Prod.fst).Pairwise (· < ·))
    (hbranch : ∀ p p' cs, L.children p = some cs → L.children p' = some cs → p = p')
    (hleaf : ∀ pre p p' S, Leaf pre p S → Leaf' pre p' S → p = p')
    (hnarrow : ∀ pre p S, Leaf pre p S ∨ Leaf' pre p S → ¬ Wide S)
    (hnonempty : ∀ pre p S, Leaf pre p S ∨ Leaf' pre p S → S.Nonempty) {p' : P}
    (h : Node L s Leaf Wide pre p S) (h' : Node L s' Leaf' Wide pre p' S) (hp : p ∈ s)
    (hp' : p' ∈ s') : p = p' := by
  induction h generalizing p' with
  | leaf hnone h =>
      cases h' with
      | leaf hnone' h' => exact hleaf _ _ _ _ h h'
      | branch _ _ _ hwide _ _ _ _ => exact absurd hwide (hnarrow _ _ _ (.inl h))
  | @branch pre p S children page hchildren hne hwide hroute hpage hnode hcover ih =>
      cases h' with
      | leaf hnone' h' => exact absurd hwide (hnarrow _ _ _ (.inr h'))
      | @branch _ _ _ children' page' hchildren' _ _ _ hpage' hnode' hcover' =>
          have hchild : ∀ c ∈ children, ∀ c' ∈ children', c.1 = c'.1 → c = c' := by
            intro c hc c' hc' hd
            have hnode'' := hnode' c' hc'
            rw [← hd] at hnode''
            have heq := ih c hc hnode'' (hpage c hc).1 (hpage' c' hc').1
            exact Prod.ext hd ((hpage c hc).2.symm.trans (heq ▸ (hpage' c' hc').2))
          have hmem : ∀ c, c ∈ children ↔ c ∈ children' := by
            intro c
            constructor
            · intro hc
              obtain ⟨x, hx, hstarts⟩ := (hnode c hc).nonempty fun _ _ _ h => hnonempty _ _ _ (.inl h)
              obtain ⟨c', hc', hstarts'⟩ := hcover' x hx
              exact hchild c hc c' hc' (digit_unique hstarts hstarts') ▸ hc'
            · intro hc'
              obtain ⟨x, hx, hstarts'⟩ := (hnode' c hc').nonempty fun _ _ _ h => hnonempty _ _ _ (.inr h)
              obtain ⟨c', hc, hstarts⟩ := hcover x hx
              exact hchild c' hc c hc' (digit_unique hstarts hstarts') ▸ hc
          obtain rfl := eq_of_pairwise_lt (hsorted p (.inl hp) _ hchildren)
            (hsorted p' (.inr hp') _ hchildren') hmem
          exact hbranch p p' _ hchildren hchildren'

end Node

/-! ## What a root names -/

theorem Holds.mono (hs : s ⊆ s') (hleaf : ∀ pre p S, Leaf pre p S → Leaf' pre p S) {hash : η}
    (h : Holds L s Leaf Wide pre hash S) : Holds L s' Leaf' Wide pre hash S := by
  obtain ⟨p, hp, haddress, hnode⟩ := h
  exact ⟨p, hs hp, haddress, hnode.mono hs hleaf⟩

theorem Denotes.mono (hs : s ⊆ s') (hleaf : ∀ pre p S, Leaf pre p S → Leaf' pre p S)
    (h : Denotes L s Leaf Wide pre root S) : Denotes L s' Leaf' Wide pre root S := by
  cases root with
  | none => exact h
  | some hash => exact Holds.mono hs hleaf h

theorem Denotes.unique (haddress : Function.Injective L.address)
    (hleaf : ∀ pre pre' p S S', Leaf pre p S → Leaf pre' p S' → S = S')
    (h : Denotes L s Leaf Wide pre root S) (h' : Denotes L s Leaf Wide pre' root S') : S = S' := by
  cases root with
  | none => exact Eq.trans h (Eq.symm h')
  | some hash =>
      obtain ⟨p, _, hp, hnode⟩ := h
      obtain ⟨q, _, hq, hnode'⟩ := h'
      obtain rfl := haddress (hp.trans hq.symm)
      exact hnode.unique haddress hleaf hnode'

theorem Denotes.route (hleaf : ∀ pre p S, Leaf pre p S → ∀ x ∈ S, pre <+: L.route x)
    (h : Denotes L s Leaf Wide pre root S) (hx : x ∈ S) : pre <+: L.route x := by
  cases root with
  | none =>
      rw [show S = ∅ from h] at hx
      exact hx.elim
  | some hash =>
      obtain ⟨p, _, _, hnode⟩ := h
      exact hnode.route hleaf hx

/-- To change what one child of a branch holds is to change what the branch holds. -/
theorem Node.change (hs : s ⊆ s') (hleaf : ∀ pre p S, Leaf pre p S → Leaf' pre p S)
    (h : Node L s Leaf Wide pre p S) (hchildren : L.children p = some children)
    (hroute : ∀ x ∈ S', pre <+: L.route x)
    (hS : ∀ x, ¬ pre ++ [d] <+: L.route x → (x ∈ S' ↔ x ∈ S)) (hwide : Wide S')
    (hnext : Denotes L s' Leaf' Wide (pre ++ [d]) next (narrow L S' (pre ++ [d])))
    (hmem : ∀ c, c ∈ children' ↔ (c ∈ children ∧ c.1 ≠ d) ∨ (c.1 = d ∧ next = some c.2)) :
    (children' = [] → S' = ∅) ∧
      ∀ q, L.children q = some children' → children' ≠ [] → Node L s' Leaf' Wide pre q S' := by
  have hcover : ∀ x ∈ S', ∃ c ∈ children', pre ++ [c.1] <+: L.route x := by
    intro x hx
    by_cases hd : pre ++ [d] <+: L.route x
    · cases next with
      | none =>
          have hin : x ∈ narrow L S' (pre ++ [d]) := ⟨hx, hd⟩
          rw [show narrow L S' (pre ++ [d]) = ∅ from hnext] at hin
          exact hin.elim
      | some hash => exact ⟨(d, hash), (hmem _).mpr (.inr ⟨rfl, rfl⟩), hd⟩
    · obtain ⟨c, hc, hstarts⟩ := h.cover hchildren ((hS x hd).mp hx)
      refine ⟨c, (hmem c).mpr (.inl ⟨hc, ?_⟩), hstarts⟩
      rintro rfl
      exact hd hstarts
  constructor
  · intro hnil
    refine Set.eq_empty_of_forall_notMem fun x hx => ?_
    obtain ⟨c, hc, _⟩ := hcover x hx
    simp [hnil] at hc
  · intro q hq hne
    refine .of_children hq hne hwide hroute (fun c hc => ?_) hcover
    obtain ⟨hc, hcd⟩ | ⟨rfl, rfl⟩ := (hmem c).mp hc
    · have hsame : narrow L S' (pre ++ [c.1]) = narrow L S (pre ++ [c.1]) := by
        ext x
        simp only [mem_narrow, and_congr_left_iff]
        exact fun hx => hS x fun hd => hcd (digit_unique hx hd)
      rw [hsame]
      exact (h.holds_child hchildren hc).mono hs hleaf
    · exact hnext

/-! ## No page twice -/

theorem not_below_self (hacc : Acc L.Below p) : ¬ Relation.TransGen L.Below p p := by
  induction hacc with
  | intro p _ ih =>
      intro hp
      obtain ⟨q, hpq, hqp⟩ := Relation.TransGen.tail'_iff.mp hp
      exact ih q hqp (.head' hqp hpq)

theorem apart_nil : Apart L [] p := fun _ _ => by simp

theorem Apart.not_mem {seen : List η} (h : Apart L seen p) : L.address p ∉ seen := h p .refl

/-- Below a page that was read are pages that were not. -/
theorem Apart.below {seen : List η} (haddress : Function.Injective L.address) (hacc : Acc L.Below p)
    (h : Apart L seen p) (hq : L.Below q p) : Apart L (L.address p :: seen) q := by
  intro r hr hmem
  have hrp : Relation.TransGen L.Below r p := .tail' hr hq
  rcases List.mem_cons.mp hmem with heq | hmem
  · obtain rfl := haddress heq
    exact not_below_self hacc hrp
  · exact h r hrp.to_reflTransGen hmem

end Library.Radix
