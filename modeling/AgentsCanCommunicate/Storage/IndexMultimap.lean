import AgentsCanCommunicate.Storage.IndexGroups

/-!
# Index trees are multimaps

The items of an index tree are a tuple and an identifier each.  `tupleKind` says what its leaves
hold: of every entry the identifiers under its tuple, in the entry or in a group of their own, and
of a leaf that goes on, at the last digit, the tuples that the leaf has no entry of.

`find_ends` says what a lookup finds and `update_ends` what a change to one item makes.
-/

namespace Acc.Storage.IndexTree

open Library Library.Radix

variable {η τ ι : Type} {S S' : Set (τ × ι)} {tuple : τ} {id : ι} {operation : Operation}
  {entry : LeafEntry η τ ι}
  {entries : List (LeafEntry η τ ι)} {ids : GroupIds η ι}

/-! ## Items -/

/-- The identifiers under a tuple. -/
def under (S : Set (τ × ι)) (tuple : τ) : Set ι := {id | (tuple, id) ∈ S}

@[simp] theorem mem_under : id ∈ under S tuple ↔ (tuple, id) ∈ S := Iff.rfl

/-- The items of the tuples that have no entry here. -/
def others (entries : List (LeafEntry η τ ι)) (S : Set (τ × ι)) : Set (τ × ι) :=
  {x ∈ S | ∀ entry ∈ entries, entry.tuple ≠ x.1}

@[simp] theorem others_nil : others ([] : List (LeafEntry η τ ι)) S = S := by
  simp [others]

theorem others_subset : others entries S ⊆ S := fun _ hx => hx.1

/-- Under a tuple with an entry is what the entry has, and without one what is left over. -/
theorem under_others (h : ∀ entry ∈ entries, entry.tuple ≠ tuple) :
    under (others entries S) tuple = under S tuple := by
  ext id
  exact ⟨fun hid => hid.1, fun hid => ⟨hid, h⟩⟩

theorem under_others_entry (he : entry ∈ entries) : under (others entries S) entry.tuple = ∅ :=
  Set.eq_empty_of_forall_notMem fun _ hid => hid.2 entry he rfl

theorem under_changed : under (changed operation (tuple, id) S) tuple =
    changed operation id (under S tuple) := by
  ext x
  simp

/-- What is under another tuple is not changed. -/
theorem mem_changed_other {tuple' : τ} (h : tuple' ≠ tuple) (x : ι) :
    (tuple', x) ∈ changed operation (tuple, id) S ↔ (tuple', x) ∈ S := by
  simp [h]

theorem changed_eq_self {α : Type} {x : α} {S : Set α} (h : x ∈ S ↔ operation = .put) :
    changed operation x S = S := by
  ext y
  by_cases hy : y = x
  · subst hy
    simp [h]
  · simp [hy]

/-- Items that are told under every tuple are told. -/
theorem changed_eq_of_under
    (h : changed operation id (under S tuple) = under S tuple) :
    changed operation (tuple, id) S = S := by
  refine changed_eq_self ?_
  have hid := Set.ext_iff.mp h id
  simpa using hid.symm

/-- A tuple without an entry is changed in what is left over. -/
theorem others_changed (h : ∀ entry ∈ entries, entry.tuple ≠ tuple) :
    others entries (changed operation (tuple, id) S) =
      changed operation (tuple, id) (others entries S) := by
  ext x
  constructor
  · rintro ⟨⟨rfl, hput⟩ | ⟨hne, hx⟩, hnot⟩
    · exact .inl ⟨rfl, hput⟩
    · exact .inr ⟨hne, hx, hnot⟩
  · rintro (⟨rfl, hput⟩ | ⟨hne, hx, hnot⟩)
    · exact ⟨.inl ⟨rfl, hput⟩, h⟩
    · exact ⟨.inr ⟨hne, hx⟩, hnot⟩

/-- The items of the entries from a position on. -/
def itemsFrom (entries : List (LeafEntry η τ ι)) (n : Nat) (S : Set (τ × ι)) : Set (τ × ι) :=
  {x ∈ S | ∃ entry ∈ entries.drop n, entry.tuple = x.1}

/-- Entries of all tuples leave nothing over. -/
theorem itemsFrom_zero (hothers : others entries S = ∅) : itemsFrom entries 0 S = S := by
  ext x
  refine ⟨fun hx => hx.1, fun hx => ?_⟩
  by_contra hnot
  have hin : x ∈ others entries S := ⟨hx, fun entry he heq => hnot ⟨hx, entry, he, heq⟩⟩
  rw [hothers] at hin
  exact hin

variable [LinearOrder τ]

theorem find_entry (h : entries.find? (fun entry => entry.tuple = tuple) = some entry) :
    entry ∈ entries ∧ entry.tuple = tuple :=
  ⟨List.mem_of_find?_eq_some h, by simpa using List.find?_some h⟩

theorem find_no_entry (h : entries.find? (fun entry => entry.tuple = tuple) = none) :
    ∀ entry ∈ entries, entry.tuple ≠ tuple := by
  simpa using h

theorem mem_setEntry_none : entry ∈ setEntry entries tuple none ↔
    entry ∈ entries ∧ entry.tuple ≠ tuple := by
  simp [setEntry]

theorem mem_setEntry_some : entry ∈ setEntry entries tuple (some ids) ↔
    (entry ∈ entries ∧ entry.tuple ≠ tuple) ∨
      ∃ old ∈ entries, old.tuple = tuple ∧ entry = { old with ids } := by
  simp only [setEntry, List.mem_map]
  constructor
  · rintro ⟨old, hold, rfl⟩
    by_cases heq : old.tuple = tuple
    · simp only [heq, ↓reduceIte]
      exact .inr ⟨old, hold, heq, by simp [heq]⟩
    · simp only [heq, ↓reduceIte]
      exact .inl ⟨hold, heq⟩
  · rintro (⟨he, hne⟩ | ⟨old, hold, heq, rfl⟩)
    · exact ⟨entry, he, if_neg hne⟩
    · exact ⟨old, hold, if_pos heq⟩

/-- A leaf keeps its tuples, or loses one. -/
theorem setEntry_tuples {ids : Option (GroupIds η ι)} :
    ((setEntry entries tuple ids).map LeafEntry.tuple).Sublist (entries.map LeafEntry.tuple) := by
  cases ids with
  | none => exact List.filter_sublist.map _
  | some ids =>
      rw [setEntry, List.map_map, List.map_congr_left (g := LeafEntry.tuple) fun entry _ => ?_]
      by_cases heq : entry.tuple = tuple <;> simp [heq]

variable [LinearOrder ι] {H : Digests η τ ι} {s s' : Pages H} {grown : Prop}
  {pre pre' : List Digit} {T T' : Set ι} {next root : Option η}

/-! ## Entries -/

/-- What the identifiers of an entry are.  Where only puts made them, there are more than an entry
can have in a group of their own. -/
def IdsHold (grown : Prop) (s : Pages H) (ids : GroupIds η ι) (T : Set ι) : Prop :=
  match ids with
  | .inline ids => recordIds ids inlineGroupIds = true ∧ ∀ x, x ∈ T ↔ x ∈ ids
  | .paged hash =>
      (groupKind H grown).Denotes s [] (some hash) T ∧ (grown → (inlineGroupIds : ℕ∞) < T.encard)

theorem IdsHold.mono (hs : s.list ⊆ s'.list) (h : IdsHold grown s ids T) :
    IdsHold grown s' ids T := by
  cases ids with
  | inline _ => exact h
  | paged hash => exact ⟨Kind.denotes_mono hs h.1, h.2⟩

theorem IdsHold.unique (h : IdsHold grown s ids T) (h' : IdsHold grown s ids T') : T = T' := by
  cases ids with
  | inline ids => exact Set.ext fun x => (h.2 x).trans (h'.2 x).symm
  | paged hash => exact Kind.denotes_unique h.1 h'.1

theorem IdsHold.nonempty (h : IdsHold grown s ids T) : T.Nonempty := by
  cases ids with
  | inline ids =>
      obtain ⟨x, hx⟩ := List.exists_mem_of_ne_nil _ (recordIds_iff.mp h.1).1
      exact ⟨x, (h.2 x).mpr hx⟩
  | paged hash =>
      obtain ⟨page, _, _, hnode⟩ := Kind.exists_page h.1
      exact Kind.node_nonempty hnode

/-- The entry has the identifiers under its tuple. -/
structure EntryHolds (grown : Prop) (s : Pages H) (pre : List Digit) (S : Set (τ × ι))
    (entry : LeafEntry η τ ι) : Prop where
  digest : entry.digest = H.digestTuple entry.tuple
  route : pre <+: tupleRoute H entry.tuple
  ids : IdsHold grown s entry.ids (under S entry.tuple)

theorem EntryHolds.mono (hs : s.list ⊆ s'.list) (h : EntryHolds grown s pre S entry) :
    EntryHolds grown s' pre S entry :=
  ⟨h.digest, h.route, h.ids.mono hs⟩

/-- An entry stays where the identifiers under its tuple do. -/
theorem EntryHolds.congr (h : EntryHolds grown s pre S entry)
    (hS : ∀ id, (entry.tuple, id) ∈ S ↔ (entry.tuple, id) ∈ S') :
    EntryHolds grown s pre S' entry := by
  refine ⟨h.digest, h.route, ?_⟩
  rw [← show under S entry.tuple = under S' entry.tuple from Set.ext hS]
  exact h.ids

/-! ## The tuple kind -/

/-- What a leaf holds, with the leaves it goes on in. -/
inductive TupleLeaf (grown : Prop) (s : Pages H) (pre : List Digit) :
    IndexPage η τ ι → Set (τ × ι) → Prop where
  | last {entries : List (LeafEntry η τ ι)} {S : Set (τ × ι)} :
      validateIndexPage (.leaf entries none) = true →
      (∀ entry ∈ entries, EntryHolds grown s pre S entry) → others entries S = ∅ →
      TupleLeaf grown s pre (.leaf entries none) S
  | more {entries : List (LeafEntry η τ ι)} {hash : η} {page : IndexPage η τ ι}
      {S : Set (τ × ι)} :
      validateIndexPage (.leaf entries (some hash)) = true → pre.length = 64 →
      (∀ entry ∈ entries, EntryHolds grown s pre S entry) → page ∈ s.list →
      H.address page = hash → TupleLeaf grown s pre page (others entries S) →
      TupleLeaf grown s pre (.leaf entries (some hash)) S

theorem validate_leaf : validateIndexPage (.leaf entries next : IndexPage η τ ι) = true ↔
    entries ≠ [] ∧ entries.length ≤ indexPageEntries ∧
      (∀ entry ∈ entries, ∀ ids, entry.ids = .inline ids → recordIds ids inlineGroupIds = true) ∧
      (entries.map LeafEntry.tuple).Pairwise (· < ·) := by
  simp only [validateIndexPage, Bool.and_eq_true, decide_eq_true_eq, List.all_eq_true, and_assoc]
  refine and_congr_right' (and_congr_right' (and_congr_left' (forall₂_congr fun entry _ => ?_)))
  cases entry.ids with
  | inline ids => simp
  | paged hash => simp

namespace TupleLeaf

variable {page : IndexPage η τ ι}

theorem mono (hs : s.list ⊆ s'.list) (h : TupleLeaf grown s pre page S) :
    TupleLeaf grown s' pre page S := by
  induction h with
  | last hvalid hentries hothers =>
      exact .last hvalid (fun entry he => (hentries entry he).mono hs) hothers
  | more hvalid hlength hentries hpage hhash _ ih =>
      exact .more hvalid hlength (fun entry he => (hentries entry he).mono hs) (hs hpage) hhash ih

theorem children (h : TupleLeaf grown s pre page S) : childrenOf page = none := by
  cases h with
  | last _ _ _ => rfl
  | more _ _ _ _ _ _ => rfl

theorem route (h : TupleLeaf grown s pre page S) : ∀ x ∈ S, pre <+: tupleRoute H x.1 := by
  induction h with
  | last _ hentries hothers =>
      intro x hx
      by_contra hroute
      have hin : x ∈ others _ _ :=
        ⟨hx, fun entry he heq => hroute (heq ▸ (hentries entry he).route)⟩
      rw [hothers] at hin
      exact hin
  | more _ _ hentries _ _ _ ih =>
      intro x hx
      by_contra hroute
      exact hroute (ih x ⟨hx, fun entry he heq => hroute (heq ▸ (hentries entry he).route)⟩)

theorem nonempty (h : TupleLeaf grown s pre page S) : S.Nonempty := by
  have hentry : ∀ entries next (S : Set (τ × ι)),
      validateIndexPage (.leaf entries next : IndexPage η τ ι) = true →
      (∀ entry ∈ entries, EntryHolds grown s pre S entry) → S.Nonempty := by
    intro entries next S hvalid hentries
    obtain ⟨entry, he⟩ := List.exists_mem_of_ne_nil _ (validate_leaf.mp hvalid).1
    obtain ⟨id, hid⟩ := (hentries entry he).ids.nonempty
    exact ⟨(entry.tuple, id), hid⟩
  cases h with
  | last hvalid hentries _ => exact hentry _ _ _ hvalid hentries
  | more hvalid _ hentries _ _ _ => exact hentry _ _ _ hvalid hentries

/-- Entries and what they leave over tell the items. -/
theorem eq_of_others (hentries : ∀ entry ∈ entries, EntryHolds grown s pre S entry)
    (hentries' : ∀ entry ∈ entries, EntryHolds grown s pre' S' entry)
    (hothers : others entries S = others entries S') : S = S' := by
  ext x
  by_cases hin : ∃ entry ∈ entries, entry.tuple = x.1
  · obtain ⟨entry, he, heq⟩ := hin
    have hsame := Set.ext_iff.mp ((hentries entry he).ids.unique (hentries' entry he).ids) x.2
    rw [heq] at hsame
    exact hsame
  · simp only [not_exists, not_and] at hin
    have hsame := Set.ext_iff.mp hothers x
    exact ⟨fun hx => (hsame.mp ⟨hx, hin⟩).1, fun hx => (hsame.mpr ⟨hx, hin⟩).1⟩

theorem unique (h : TupleLeaf grown s pre page S) (h' : TupleLeaf grown s pre' page S') :
    S = S' := by
  induction h generalizing S' with
  | last _ hentries hothers =>
      cases h' with
      | last _ hentries' hothers' =>
          exact eq_of_others hentries hentries' (hothers.trans hothers'.symm)
  | more _ _ hentries _ hhash _ ih =>
      cases h' with
      | more _ _ hentries' _ hhash' hmore' =>
          obtain rfl := H.address_injective (hhash.trans hhash'.symm)
          exact eq_of_others hentries hentries' (ih hmore')

theorem acc (h : TupleLeaf grown s pre page S) :
    Acc (layoutOf H fun x : τ × ι => tupleRoute H x.1).Below page := by
  induction h with
  | last _ _ _ =>
      exact ⟨_, fun q hq => by
        simp [Layout.Below, Layout.follows, layoutOf, childrenOf, nextOf] at hq⟩
  | more _ _ _ _ hhash _ ih =>
      refine ⟨_, fun q hq => ?_⟩
      simp only [Layout.Below, Layout.follows, layoutOf, childrenOf, nextOf, Option.toList_some,
        List.mem_singleton] at hq
      exact H.address_injective (hhash.trans hq.symm) ▸ ih

end TupleLeaf

variable (H) in
/-- The tuples with their identifiers.  Where only puts made it, a branch has more tuples than a
page can. -/
def tupleKind (grown : Prop) : Kind H (τ × ι) where
  route x := tupleRoute H x.1
  Leaf s pre page S := TupleLeaf grown s pre page S
  Wide S := grown → (indexPageEntries : ℕ∞) < (Prod.fst '' S).encard
  route_length _ := H.digits_length _
  leaf_children := TupleLeaf.children
  leaf_mono := TupleLeaf.mono
  leaf_route := TupleLeaf.route
  leaf_nonempty := TupleLeaf.nonempty
  leaf_unique := TupleLeaf.unique
  leaf_acc := TupleLeaf.acc

/-! ## Leaves -/

/-- What a leaf and what it goes on in hold. -/
structure LeafHolds (grown : Prop) (s : Pages H) (pre : List Digit)
    (entries : List (LeafEntry η τ ι)) (next : Option η) (S : Set (τ × ι)) : Prop where
  entry : ∀ entry ∈ entries, EntryHolds grown s pre S entry
  last : next.isSome → pre.length = 64
  others : (tupleKind H grown).Denotes s pre next (others entries S)

theorem node_leaf : (tupleKind H grown).Node s pre (.leaf entries next) S ↔
    validateIndexPage (.leaf entries next : IndexPage η τ ι) = true ∧
      LeafHolds grown s pre entries next S := by
  constructor
  · intro h
    cases h with
    | leaf _ h =>
        cases h with
        | last hvalid hentries hothers => exact ⟨hvalid, hentries, by simp, hothers⟩
        | more hvalid hlength hentries hpage hhash hmore =>
            exact ⟨hvalid, hentries, fun _ => hlength, _, hpage, hhash, .leaf hmore.children hmore⟩
    | branch _ hchildren _ _ _ _ _ _ => cases hchildren
  · rintro ⟨hvalid, hentries, hlast, hothers⟩
    cases next with
    | none => exact .leaf rfl (.last hvalid hentries hothers)
    | some hash =>
        obtain ⟨page, hpage, hhash, hnode⟩ := hothers
        have hlength := hlast rfl
        refine .leaf rfl (.more hvalid hlength hentries hpage hhash ?_)
        cases page with
        | branch children => exact absurd (Kind.branch_lt hnode) (by omega)
        | leaf _ _ =>
            cases hnode with
            | leaf _ h => exact h
            | branch _ hchildren _ _ _ _ _ _ => cases hchildren
        | group _ _ =>
            cases hnode with
            | leaf _ h => exact h
            | branch _ hchildren _ _ _ _ _ _ => cases hchildren

theorem not_group {ids : List ι} : ¬ (tupleKind H grown).Node s pre (.group ids next) S := by
  intro h
  cases h with
  | leaf _ h => cases h
  | branch _ hchildren _ _ _ _ _ _ => cases hchildren

theorem unseen_next {seen : List η}
    (hnode : (tupleKind H grown).Node s pre (.leaf entries next) S)
    (h : Apart (tupleKind H grown).layout seen (.leaf entries next)) :
    (tupleKind H grown).Unseen (H.address (.leaf entries next) :: seen) next := by
  rintro page rfl
  refine h.below H.address_injective (Kind.node_acc hnode) ?_
  simp [Layout.Below, Layout.follows, layoutOf, childrenOf, nextOf]

/-! ## Lookup -/

section

variable [DecidableEq η] {seen : List η} {hash : η} {found : Option (GroupIds η ι)}

theorem checkNode_ok {page : IndexPage η τ ι} (h : (tupleKind H grown).Node s pre page S) :
    checkNode H pre page = .ok () := by
  cases page with
  | branch children =>
      have hlt := Kind.branch_lt h
      simp [checkNode, hlt]
  | leaf entries next =>
      obtain ⟨_, hleaf⟩ := node_leaf.mp h
      have hlast : (next.isSome && decide (pre.length ≠ 64)) = false := by
        cases hsome : next.isSome with
        | false => rfl
        | true => simp [hleaf.last hsome]
      have hall : (entries.all fun entry => pre.isPrefixOf (H.digits entry.digest)
          && decide (entry.digest = H.digestTuple entry.tuple)) = true := by
        refine List.all_eq_true.mpr fun entry he => ?_
        have hentry := hleaf.entry entry he
        have hroute : pre <+: H.digits (H.digestTuple entry.tuple) := hentry.route
        simp [hentry.digest, hroute]
      simp only [checkNode, hlast, hall]
      rfl
  | group ids next => exact absurd h not_group

theorem find_branch {children : List (Digit × η)} {d : Digit}
    (hread : read s hash seen = .ok (.branch children))
    (hcheck : checkNode H pre (.branch children) = .ok ())
    (hdigit : nextDigit H tuple pre = some d) :
    find s tuple (some hash) pre seen found =
      find s tuple (childAt children d) (pre ++ [d]) (hash :: seen) found := by
  rw [find]
  split
  next fault h => cases hread.symm.trans h
  next page h =>
      obtain rfl := Except.ok.inj (hread.symm.trans h)
      simp only [hcheck, hdigit]

theorem find_leaf (hread : read s hash seen = .ok (.leaf entries next))
    (hcheck : checkNode H pre (.leaf entries next) = .ok ())
    (hentry : entries.find? (fun entry => entry.tuple = tuple) = some entry) :
    find s tuple (some hash) pre seen none =
      find s tuple next pre (hash :: seen) (some entry.ids) := by
  rw [find]
  split
  next fault h => cases hread.symm.trans h
  next page h =>
      obtain rfl := Except.ok.inj (hread.symm.trans h)
      simp [hcheck, hentry]

theorem find_leaf_none (hread : read s hash seen = .ok (.leaf entries next))
    (hcheck : checkNode H pre (.leaf entries next) = .ok ())
    (hentry : entries.find? (fun entry => entry.tuple = tuple) = none) :
    find s tuple (some hash) pre seen found = find s tuple next pre (hash :: seen) found := by
  rw [find]
  split
  next fault h => cases hread.symm.trans h
  next page h =>
      obtain rfl := Except.ok.inj (hread.symm.trans h)
      simp only [hcheck, hentry]

/-- A tuple whose entry is not found yet is found with all that is under it. -/
theorem find_ends (hroute : pre <+: tupleRoute H tuple)
    (h : (tupleKind H grown).Denotes s pre root S) (hseen : (tupleKind H grown).Unseen seen root)
    (hfound : found = none ∨ under S tuple = ∅) :
    Ends (fun _ => False) (find s tuple root pre seen found) fun r =>
      (under S tuple = ∅ ∧ r = found) ∨
        ∃ ids, r = some ids ∧ IdsHold grown s ids (under S tuple) := by
  induction hn : unread s seen using Nat.strong_induction_on
    generalizing root pre S seen found with
  | _ n ih =>
  subst hn
  cases root with
  | none =>
      rw [show S = ∅ from h, find]
      exact .inl ⟨rfl, rfl⟩
  | some hash =>
      obtain ⟨page, hpage, rfl, hnode⟩ := Kind.exists_page h
      have hread := read_of_mem hpage (hseen page rfl).not_mem
      have hcheck := checkNode_ok hnode
      cases page with
      | branch children =>
          obtain ⟨d, hdigit, hd⟩ := exists_digit (H.digits_length _) hroute (Kind.branch_lt hnode)
          have hunder : under (narrow (tupleKind H grown).layout S (pre ++ [d])) tuple =
              under S tuple := by
            ext id
            exact ⟨fun hid => hid.1, fun hid => ⟨hid, hd⟩⟩
          rw [find_branch hread hcheck hdigit, ← hunder]
          exact ih _ (unread_lt hread) hd (Kind.denotes_childAt hnode)
            (Kind.unseen_childAt hnode (hseen _ rfl)) (hunder ▸ hfound) rfl
      | leaf entries next =>
          obtain ⟨_, hleaf⟩ := node_leaf.mp hnode
          have hnext := unseen_next hnode (hseen _ rfl)
          cases hentry : entries.find? fun entry => entry.tuple = tuple with
          | some entry =>
              obtain ⟨he, rfl⟩ := find_entry hentry
              have hids := (hleaf.entry entry he).ids
              have hnone : found = none :=
                hfound.resolve_right hids.nonempty.ne_empty
              have hempty := under_others_entry (S := S) he
              rw [hnone, find_leaf hread hcheck hentry]
              refine (ih _ (unread_lt hread) hroute hleaf.others hnext (.inr hempty) rfl).mono
                (fun _ h => h) ?_
              rintro r (⟨_, rfl⟩ | ⟨ids, _, hids'⟩)
              · exact .inr ⟨entry.ids, rfl, hids⟩
              · exact absurd hempty hids'.nonempty.ne_empty
          | none =>
              rw [find_leaf_none hread hcheck hentry,
                ← under_others (S := S) (find_no_entry hentry)]
              exact ih _ (unread_lt hread) hroute hleaf.others hnext
                (by rwa [under_others (find_no_entry hentry)]) rfl
      | group ids next => exact absurd hnode not_group

/-- A lookup finds the identifiers of a tuple in order. -/
theorem lookup_ends (h : (tupleKind H grown).Denotes s [] root S) (tuple : τ) :
    Ends (fun _ => False) (lookup s root tuple) fun ids =>
      ids.Pairwise (· < ·) ∧ ∀ id, id ∈ ids ↔ (tuple, id) ∈ S := by
  refine (find_ends List.nil_prefix h Kind.unseen_nil (.inl rfl)).bind ?_
  rintro r (⟨hempty, rfl⟩ | ⟨ids, rfl, hids⟩)
  · exact ⟨.nil, fun id => by simpa using Set.eq_empty_iff_forall_notMem.mp hempty id⟩
  · cases ids with
    | inline ids => exact ⟨(recordIds_iff.mp hids.1).2.2, fun id => (hids.2 id).symm⟩
    | paged hash => exact groupLookup_ends hids.1

end

/-! ## Leaves that are written -/

section

variable {hash : η}

theorem IdsHold.valid {ids : List ι} (h : IdsHold grown s (.inline ids) T) :
    recordIds ids inlineGroupIds = true := h.1

/-- Entries with tuples of their own are written in the order of the tuples. -/
theorem leafPage_ends (hne : entries ≠ []) (hlength : entries.length ≤ indexPageEntries)
    (hnodup : (entries.map LeafEntry.tuple).Nodup) (h : LeafHolds grown s pre entries next S) :
    Ends (Refused H) (leafPage s entries next) fun r =>
      s.list ⊆ r.1.list ∧ (tupleKind H grown).Denotes r.1 pre (some r.2) S := by
  have hmem : ∀ entry, entry ∈ entries.mergeSort (fun a b => a.tuple ≤ b.tuple) ↔ entry ∈ entries :=
    fun entry => List.mem_mergeSort
  have hperm := List.mergeSort_perm entries fun a b => a.tuple ≤ b.tuple
  have hvalid : validateIndexPage (.leaf (entries.mergeSort fun a b => a.tuple ≤ b.tuple) next :
      IndexPage η τ ι) = true := by
    refine validate_leaf.mpr ⟨fun hnil => hne ?_, hperm.length_eq.trans_le hlength, ?_, ?_⟩
    · rwa [← List.length_eq_zero_iff, hperm.length_eq, List.length_eq_zero_iff] at hnil
    · intro entry he ids hids
      have hentry := (h.entry entry ((hmem entry).mp he)).ids
      rw [hids] at hentry
      exact hentry.valid
    · exact pairwise_map_lt (pairwise_mergeSort_key LeafEntry.tuple entries)
        ((hperm.map _).nodup_iff.mpr hnodup)
  refine (writePage_ends hvalid).mono (fun _ h => h) ?_
  rintro ⟨s', hash⟩ ⟨hs, hpage, hhash⟩
  refine ⟨hs, Kind.denotes_written hpage hhash (node_leaf.mpr ⟨hvalid, ?_⟩)⟩
  refine ⟨fun entry he => (h.entry entry ((hmem entry).mp he)).mono hs, h.last, ?_⟩
  have hothers : others (entries.mergeSort fun a b => a.tuple ≤ b.tuple) S = others entries S := by
    ext x
    simp [others]
  rw [hothers]
  exact Kind.denotes_mono hs h.others

/-- The leaves of entries with one digest. -/
theorem collisionPages_ends (hlength : pre.length = 64)
    (hnodup : (entries.map LeafEntry.tuple).Nodup)
    (hentries : ∀ entry ∈ entries, EntryHolds grown s pre S entry) {stop : Nat} (hstop : 0 < stop)
    (hle : stop ≤ entries.length) (hs : s.list ⊆ s'.list)
    (hnext : (tupleKind H grown).Denotes s' pre next (itemsFrom entries stop S)) :
    Ends (Refused H) (collisionPages entries s' stop next) fun r =>
      s'.list ⊆ r.1.list ∧ (tupleKind H grown).Denotes r.1 pre (some r.2)
        (itemsFrom entries 0 S) := by
  induction hn : stop using Nat.strong_induction_on generalizing s' next stop with
  | _ n ih =>
  subst hn
  generalize hchunk : (entries.take stop).drop (stop - indexPageEntries) = chunk
  have hsplit : entries.drop (stop - indexPageEntries) = chunk ++ entries.drop stop := by
    rw [← hchunk, List.drop_take, show entries.drop stop =
      (entries.drop (stop - indexPageEntries)).drop (stop - (stop - indexPageEntries)) by
        rw [List.drop_drop, Nat.add_sub_cancel' (Nat.sub_le _ _)], List.take_append_drop]
  have hchunkLength : chunk.length = stop - (stop - indexPageEntries) := by
    rw [← hchunk, List.length_drop, List.length_take_of_le hle]
  have hnodup' : ((chunk ++ entries.drop stop).map LeafEntry.tuple).Nodup :=
    hsplit ▸ hnodup.sublist ((List.drop_sublist _ _).map _)
  have hmem : ∀ entry ∈ chunk, entry ∈ entries.drop (stop - indexPageEntries) := by
    intro entry he
    rw [hsplit]
    exact List.mem_append_left _ he
  have hothers : others chunk (itemsFrom entries (stop - indexPageEntries) S) =
      itemsFrom entries stop S := by
    ext x
    simp only [others, itemsFrom, hsplit, Set.mem_ofPred_eq, List.mem_append]
    constructor
    · rintro ⟨⟨hx, entry, he | he, heq⟩, hnot⟩
      · exact absurd heq (hnot entry he)
      · exact ⟨hx, entry, he, heq⟩
    · rintro ⟨hx, entry, he, heq⟩
      refine ⟨⟨hx, entry, .inr he, heq⟩, fun entry' he' heq' => ?_⟩
      rw [List.map_append, List.nodup_append] at hnodup'
      exact hnodup'.2.2 _ (List.mem_map_of_mem he') _ (List.mem_map_of_mem he)
        (heq'.trans heq.symm)
  have hleaf : LeafHolds grown s' pre chunk next
      (itemsFrom entries (stop - indexPageEntries) S) := by
    refine ⟨fun entry he => ?_, fun _ => hlength, hothers ▸ hnext⟩
    have hin := hmem entry he
    refine ((hentries entry (List.mem_of_mem_drop hin)).mono hs).congr fun id => ?_
    exact ⟨fun hx => ⟨hx, entry, hin, rfl⟩, fun hx => hx.1⟩
  have hpos : 0 < indexPageEntries := by simp [indexPageEntries]
  have hwritten := leafPage_ends (List.length_pos_iff.mp (by omega)) (by omega)
    (hnodup'.sublist ((List.sublist_append_left _ _).map _)) hleaf
  unfold collisionPages
  rw [hchunk]
  refine hwritten.bind ?_
  rintro ⟨s'', hash⟩ ⟨hs', hhash⟩
  dsimp only at hs' hhash ⊢
  split
  next hlast =>
      rw [Nat.sub_eq_zero_of_le hlast] at hhash
      exact ⟨hs', hhash⟩
  next hlast =>
      refine (ih _ (by omega) (by omega) (by omega) (List.Subset.trans hs hs') hhash rfl).mono
        (fun _ h => h) fun r hr => ⟨List.Subset.trans hs' hr.1, hr.2⟩

/-- There are as many tuples as entries. -/
theorem encard_tuples (hnodup : (entries.map LeafEntry.tuple).Nodup)
    (hentries : ∀ entry ∈ entries, EntryHolds grown s pre S entry)
    (hothers : others entries S = ∅) :
    (Prod.fst '' S).encard = entries.length := by
  have himage : Prod.fst '' S = {tuple | tuple ∈ entries.map LeafEntry.tuple} := by
    ext tuple
    simp only [Set.mem_image, Set.mem_ofPred_eq, List.mem_map]
    constructor
    · rintro ⟨x, hx, rfl⟩
      rw [← itemsFrom_zero hothers] at hx
      exact hx.2
    · rintro ⟨entry, he, rfl⟩
      obtain ⟨id, hid⟩ := (hentries entry he).ids.nonempty
      exact ⟨(entry.tuple, id), hid, rfl⟩
  rw [himage, encard_list hnodup, List.length_map]

/-- The pages that are written for entries hold their items. -/
theorem split_ends (left : Nat) (hleft : pre.length + left = 64) (hne : entries ≠ [])
    (hnodup : (entries.map LeafEntry.tuple).Nodup)
    (hentries : ∀ entry ∈ entries, EntryHolds grown s pre S entry)
    (hothers : others entries S = ∅) :
    Ends (Refused H) (split left s entries) fun r =>
      s.list ⊆ r.1.list ∧ (tupleKind H grown).Denotes r.1 pre (some r.2) S := by
  induction left generalizing s pre S entries with
  | zero =>
      unfold split
      split
      next hlength => exact leafPage_ends hne hlength hnodup ⟨hentries, by simp, hothers⟩
      next hlength =>
          have hempty : (tupleKind H grown).Denotes s pre none
              (itemsFrom entries entries.length S) := by
            simp [Denotes, itemsFrom]
          have hpages := collisionPages_ends (by omega) hnodup hentries
            (List.length_pos_iff.mpr hne) le_rfl (List.Subset.refl _) hempty
          rwa [itemsFrom_zero hothers] at hpages
  | succ left ih =>
      unfold split
      split
      next hlength => exact leafPage_ends hne hlength hnodup ⟨hentries, by simp, hothers⟩
      next hlength =>
          have hdigit : 63 - left = pre.length := by omega
          have hdigits : ∀ entry ∈ entries, H.digits entry.digest = tupleRoute H entry.tuple :=
            fun entry he => congrArg H.digits (hentries entry he).digest
          rw [hdigit]
          refine Kind.routes_ends (K := tupleKind H grown) (fun _ => H.digits_length _) (by omega)
            hne (fun entry he => hdigits entry he ▸ (hentries entry he).route) (fun _ => ?_)
            (fun x hx => ?_) ?_
          · rw [encard_tuples hnodup hentries hothers]
            exact_mod_cast not_le.mp hlength
          · rw [← itemsFrom_zero hothers] at hx
            obtain ⟨_, entry, he, heq⟩ := hx
            exact ⟨entry, he, (hdigits entry he).trans (congrArg (tupleRoute H) heq)⟩
          · intro d found hsub hne' hmem s' hs
            refine ih (by simp; omega) hne' (hnodup.sublist (hsub.map _)) (fun entry he => ?_) ?_
            · obtain ⟨he, hd⟩ := (hmem entry).mp he
              rw [hdigits entry he] at hd
              have hentry := (hentries entry he).mono hs
              refine EntryHolds.congr ⟨hentry.digest, hd, hentry.ids⟩ fun id => ?_
              exact ⟨fun hx => ⟨hx, hd⟩, fun hx => hx.1⟩
            · refine Set.eq_empty_of_forall_notMem ?_
              rintro x ⟨⟨hx, hd⟩, hnot⟩
              rw [← itemsFrom_zero hothers] at hx
              obtain ⟨_, entry, he, heq⟩ := hx
              refine hnot entry ((hmem entry).mpr ⟨he, ?_⟩) heq
              rw [hdigits entry he, heq]
              exact hd

end

/-! ## Changes -/

theorem changeIds_nodup {ids : List ι} (h : ids.Nodup) : (changeIds ids id operation).Nodup := by
  cases operation with
  | remove => exact h.sublist List.filter_sublist
  | put =>
      refine List.nodup_append.mpr ⟨h.sublist List.filter_sublist, List.nodup_singleton _, ?_⟩
      simp

theorem mem_changeIds {ids : List ι} (hT : ∀ x, x ∈ T ↔ x ∈ ids) {x : ι} :
    x ∈ changeIds ids id operation ↔ x ∈ changed operation id T := by
  cases operation with
  | remove => simp [changeIds, hT, and_comm]
  | put => simp [changeIds, hT, and_comm, or_comm]

/-- A leaf that is left as it is. -/
theorem denotes_leaf (hs : s.list ⊆ s'.list) (hpage : .leaf entries next ∈ s.list)
    (hnode : (tupleKind H grown).Node s pre (.leaf entries next) S) (hS : S' = S) :
    (tupleKind H grown).Denotes s' pre (some (H.address (.leaf entries next))) S' :=
  hS ▸ Kind.denotes_mono hs (Kind.denotes_written hpage rfl hnode)

/-- The entries of a leaf where the group of one is changed. -/
theorem setEntry_holds {ids : Option (GroupIds η ι)} (hs : s.list ⊆ s'.list)
    (hleaf : LeafHolds grown s pre entries next S) (he : entry ∈ entries)
    (hids : (ids = none ∧ changed operation id (under S entry.tuple) = ∅) ∨
      ∃ ids', ids = some ids' ∧
        IdsHold grown s' ids' (changed operation id (under S entry.tuple))) :
    LeafHolds grown s' pre (setEntry entries entry.tuple ids) next
      (changed operation (entry.tuple, id) S) := by
  have hkept : ∀ old ∈ entries, old.tuple ≠ entry.tuple →
      EntryHolds grown s' pre (changed operation (entry.tuple, id) S) old := by
    intro old hold hne
    exact ((hleaf.entry old hold).mono hs).congr fun x => (mem_changed_other hne x).symm
  have hothers (hcover : ∀ x, (entry.tuple, x) ∈ changed operation (entry.tuple, id) S →
        ∃ entry' ∈ setEntry entries entry.tuple ids, entry'.tuple = entry.tuple)
      (hmem : ∀ old ∈ entries, old.tuple ≠ entry.tuple → old ∈ setEntry entries entry.tuple ids) :
      others (setEntry entries entry.tuple ids) (changed operation (entry.tuple, id) S) =
        others entries S := by
    ext ⟨tuple, x⟩
    by_cases heq : tuple = entry.tuple
    · subst heq
      constructor
      · rintro ⟨hx, hnot⟩
        obtain ⟨entry', he', heq'⟩ := hcover x hx
        exact absurd heq' (hnot entry' he')
      · rintro ⟨_, hnot⟩
        exact absurd rfl (hnot entry he)
    · constructor
      · rintro ⟨hx, hnot⟩
        refine ⟨(mem_changed_other heq x).mp hx, fun old hold hold' => ?_⟩
        exact hnot old (hmem old hold (hold' ▸ heq)) hold'
      · rintro ⟨hx, hnot⟩
        refine ⟨(mem_changed_other heq x).mpr hx, fun entry' he' heq' => ?_⟩
        have htuple : entry'.tuple ∈ entries.map LeafEntry.tuple :=
          setEntry_tuples.subset (List.mem_map_of_mem he')
        obtain ⟨old, hold, hold'⟩ := List.mem_map.mp htuple
        exact hnot old hold (hold'.trans heq')
  obtain ⟨rfl, hempty⟩ | ⟨ids', rfl, hids'⟩ := hids
  · refine ⟨fun entry' he' => ?_, hleaf.last, ?_⟩
    · obtain ⟨hold, hne⟩ := mem_setEntry_none.mp he'
      exact hkept entry' hold hne
    · rw [hothers (fun x hx => ?_) fun old hold hne => mem_setEntry_none.mpr ⟨hold, hne⟩]
      · exact Kind.denotes_mono hs hleaf.others
      · have hx' : x ∈ changed operation id (under S entry.tuple) := under_changed ▸ hx
        rw [hempty] at hx'
        exact hx'.elim
  · refine ⟨fun entry' he' => ?_, hleaf.last, ?_⟩
    · obtain ⟨hold, hne⟩ | ⟨old, hold, heq, rfl⟩ := mem_setEntry_some.mp he'
      · exact hkept entry' hold hne
      · have hentry := hleaf.entry old hold
        refine ⟨hentry.digest, hentry.route, ?_⟩
        dsimp only
        rw [heq, under_changed]
        exact hids'
    · rw [hothers (fun x _ => ?_) fun old hold hne => mem_setEntry_some.mpr (.inl ⟨hold, hne⟩)]
      · exact Kind.denotes_mono hs hleaf.others
      · exact ⟨_, mem_setEntry_some.mpr (.inr ⟨entry, he, rfl, rfl⟩), rfl⟩

theorem freshEntry_holds (hroute : pre <+: tupleRoute H tuple)
    (hT : ∀ x, x ∈ under S tuple ↔ x = id) :
    EntryHolds grown s pre S (freshEntry H tuple id) := by
  refine ⟨rfl, hroute, recordIds_iff.mpr ⟨by simp, by simp [inlineGroupIds], by simp⟩, fun x => ?_⟩
  rw [List.mem_singleton]
  exact hT x

/-- The last leaf, where a tuple without an entry is changed. -/
theorem addEntry_ends {left : Nat} (hleft : pre.length + left = 64)
    (hroute : pre <+: tupleRoute H tuple) (hpage : .leaf entries none ∈ s.list)
    (hnode : (tupleKind H grown).Node s pre (.leaf entries none) S)
    (hnone : ∀ entry ∈ entries, entry.tuple ≠ tuple) :
    Ends (Refused H)
      (addEntry s (H.address (.leaf entries none)) entries left tuple id operation) fun r =>
      s.list ⊆ r.1.list ∧
        (tupleKind H grown).Denotes r.1 pre r.2 (changed operation (tuple, id) S) := by
  obtain ⟨hvalid, hleaf⟩ := node_leaf.mp hnode
  have hothers : others entries S = ∅ := hleaf.others
  have hempty : ∀ x, (tuple, x) ∉ S := by
    intro x hx
    have hin : (tuple, x) ∈ others entries S := ⟨hx, hnone⟩
    rw [hothers] at hin
    exact hin
  cases operation with
  | remove =>
      refine ⟨List.Subset.refl _, denotes_leaf (List.Subset.refl _) hpage hnode ?_⟩
      exact changed_eq_self (by simp [hempty id])
  | put =>
      obtain ⟨_, _, _, hsorted⟩ := validate_leaf.mp hvalid
      refine named_ends (split_ends left hleft (by simp) ?_ (fun entry he => ?_) ?_)
      · rw [List.map_append, List.nodup_append]
        refine ⟨hsorted.imp fun hlt => hlt.ne, by simp, ?_⟩
        simp only [List.mem_map, List.map_cons, List.map_nil, List.mem_singleton, freshEntry]
        rintro _ ⟨entry, he, rfl⟩ _ rfl
        exact hnone entry he
      · rcases List.mem_append.mp he with he | he
        · exact (hleaf.entry entry he).congr fun x => (mem_changed_other (hnone entry he) x).symm
        · rw [List.mem_singleton.mp he]
          refine freshEntry_holds hroute fun x => ?_
          simp [hempty]
      · refine Set.eq_empty_of_forall_notMem ?_
        rintro ⟨tuple', x⟩ ⟨hx, hnot⟩
        have hne : tuple' ≠ tuple := fun heq =>
          hnot (freshEntry H tuple id) (by simp) heq.symm
        have hin : (tuple', x) ∈ others entries S :=
          ⟨(mem_changed_other hne x).mp hx, fun entry he => hnot entry (List.mem_append_left _ he)⟩
        rw [hothers] at hin
        exact hin

section

variable [DecidableEq η]

/-- A group where one identifier is changed, in its entry or in pages of its own. -/
theorem groupChange_ends (hgrown : operation = .remove → ¬ grown) (h : IdsHold grown s ids T) :
    Ends (Refused H) (groupChange s ids id operation) fun r =>
      s.list ⊆ r.1.list ∧
        ((r.2 = none ∧ changed operation id T = ∅) ∨
          ∃ ids', r.2 = some ids' ∧ IdsHold grown r.1 ids' (changed operation id T)) := by
  cases ids with
  | paged hash =>
      obtain ⟨hgroup, hlarge⟩ := h
      refine (groupUpdate_ends hgrown 64 (by simp) List.nil_prefix hgroup Kind.unseen_nil).bind ?_
      rintro ⟨s', next⟩ ⟨hs, hnext⟩
      refine ⟨hs, ?_⟩
      cases next with
      | none => exact .inl ⟨rfl, hnext⟩
      | some hash' =>
          refine .inr ⟨.paged hash', rfl, hnext, fun hg => ?_⟩
          cases operation with
          | remove => exact absurd hg (hgrown rfl)
          | put => exact (hlarge hg).trans_le (Set.encard_le_encard subset_changed_put)
  | inline ids =>
      obtain ⟨hvalid, hT⟩ := h
      obtain ⟨hne, hlength, hsorted⟩ := recordIds_iff.mp hvalid
      unfold groupChange
      dsimp only
      have hnodup : (changeIds ids id operation).Nodup :=
        changeIds_nodup (hsorted.imp fun hlt => hlt.ne)
      have hmem : ∀ x, x ∈ sortIds (changeIds ids id operation) ↔ x ∈ changed operation id T :=
        fun x => mem_sortIds.trans (mem_changeIds hT)
      generalize changeIds ids id operation = next at hnodup hmem ⊢
      split
      next hsame =>
          refine ⟨List.Subset.refl _, .inr ⟨.inline ids, rfl, hvalid, fun x => ?_⟩⟩
          rw [← hmem, hsame]
      next =>
          split
          next hempty =>
              refine ⟨List.Subset.refl _, .inl ⟨rfl, Set.eq_empty_of_forall_notMem fun x hx => ?_⟩⟩
              rw [← hmem, List.isEmpty_iff.mp hempty] at hx
              cases hx
          next hnonempty =>
              have hne' : sortIds next ≠ [] := by simpa using hnonempty
              split
              next hsmall =>
                  refine ⟨List.Subset.refl _, .inr ⟨.inline _, rfl, ?_, fun x => (hmem x).symm⟩⟩
                  exact recordIds_iff.mpr ⟨hne', hsmall, sortIds_sorted hnodup⟩
              next hlarge =>
                  have hnodup' : (sortIds next).Nodup :=
                    (sortIds_sorted hnodup).imp fun hlt => hlt.ne
                  have hset : changed operation id T = {x | x ∈ sortIds next} :=
                    Set.ext fun x => (hmem x).symm
                  have hpages : Ends (Refused H) (groupPages 64 s (sortIds next)) fun r =>
                      s.list ⊆ r.1.list ∧
                        (groupKind H grown).Denotes r.1 [] (some r.2) {x | x ∈ sortIds next} :=
                    groupPages_ends 64 (by simp) hnodup' hne' fun _ _ => List.nil_prefix
                  refine hpages.bind ?_
                  rintro ⟨s', hash⟩ ⟨hs, hhash⟩
                  refine ⟨hs, .inr ⟨.paged hash, rfl, hset ▸ hhash, fun _ => ?_⟩⟩
                  rw [hset, encard_list hnodup']
                  exact_mod_cast not_le.mp hlarge

variable {seen : List η} {hash : η}

/-- A leaf where the group of an entry is changed. -/
theorem changeEntry_ends (hgrown : operation = .remove → ¬ grown)
    (hpage : .leaf entries next ∈ s.list)
    (hnode : (tupleKind H grown).Node s pre (.leaf entries next) S) (he : entry ∈ entries) :
    Ends (Refused H)
      (changeEntry s (H.address (.leaf entries next)) entries next entry id operation) fun r =>
      s.list ⊆ r.1.list ∧
        (tupleKind H grown).Denotes r.1 pre r.2 (changed operation (entry.tuple, id) S) := by
  obtain ⟨hvalid, hleaf⟩ := node_leaf.mp hnode
  obtain ⟨hne, hlength, _, hsorted⟩ := validate_leaf.mp hvalid
  have hids := (hleaf.entry entry he).ids
  refine (groupChange_ends hgrown hids).bind ?_
  rintro ⟨s', ids⟩ ⟨hs, hids'⟩
  dsimp only at hs hids' ⊢
  split
  next hsame =>
      refine ⟨hs, denotes_leaf hs hpage hnode (changed_eq_of_under ?_)⟩
      obtain ⟨hnone, _⟩ | ⟨ids', hsome, hids'⟩ := hids'
      · rw [hsame] at hnone
        cases hnone
      · obtain rfl := Option.some.inj (hsame.symm.trans hsome)
        exact hids'.unique (hids.mono hs)
  next hother =>
      have hholds := setEntry_holds hs hleaf he hids'
      split
      next hnil =>
          have hothers := hholds.others
          rw [hnil] at hothers
          rw [others_nil] at hothers
          exact ⟨hs, hothers⟩
      next hne' =>
          have htuples : ((setEntry entries entry.tuple ids).map LeafEntry.tuple).Sublist
              (entries.map LeafEntry.tuple) := setEntry_tuples
          have hlength' : (setEntry entries entry.tuple ids).length ≤ entries.length := by
            simpa using htuples.length_le
          have hwritten := leafPage_ends hne' (hlength'.trans hlength)
            ((hsorted.sublist htuples).imp fun hlt => hlt.ne) hholds
          exact named_ends (hwritten.mono (fun _ h => h) fun r hr =>
            ⟨List.Subset.trans hs hr.1, hr.2⟩)

/-- A leaf that goes on in a leaf that is changed. -/
theorem linkNext_ends {changedNext : Option η} (hs : s.list ⊆ s'.list)
    (hpage : .leaf entries next ∈ s.list)
    (hnode : (tupleKind H grown).Node s pre (.leaf entries next) S)
    (hnone : ∀ entry ∈ entries, entry.tuple ≠ tuple) (hlength : pre.length = 64)
    (hnext : (tupleKind H grown).Denotes s' pre changedNext
      (changed operation (tuple, id) (others entries S))) :
    Ends (Refused H)
      (linkNext s' (H.address (.leaf entries next)) entries next changedNext) fun r =>
      s'.list ⊆ r.1.list ∧
        (tupleKind H grown).Denotes r.1 pre r.2 (changed operation (tuple, id) S) := by
  obtain ⟨hvalid, hleaf⟩ := node_leaf.mp hnode
  obtain ⟨hne, hlength', _, hsorted⟩ := validate_leaf.mp hvalid
  rw [← others_changed hnone] at hnext
  have hentries : ∀ entry ∈ entries,
      EntryHolds grown s' pre (changed operation (tuple, id) S) entry := fun entry he =>
    ((hleaf.entry entry he).mono hs).congr fun x => (mem_changed_other (hnone entry he) x).symm
  unfold linkNext
  split
  next hsame =>
      subst hsame
      have hothers := Kind.denotes_unique hnext (Kind.denotes_mono hs hleaf.others)
      refine ⟨List.Subset.refl _, denotes_leaf hs hpage hnode ?_⟩
      exact TupleLeaf.eq_of_others hentries (fun entry he => (hleaf.entry entry he).mono hs) hothers
  next =>
      exact named_ends (leafPage_ends hne hlength' (hsorted.imp fun hlt => hlt.ne)
        ⟨hentries, fun _ => hlength, hnext⟩)

theorem update_branch {seen : List η} {hash : η} {children : List (Digit × η)} {d : Digit}
    (hread : read s hash seen = .ok (.branch children))
    (hcheck : checkNode H pre (.branch children) = .ok ())
    (hdigit : nextDigit H tuple pre = some d) :
    update s tuple id operation (some hash) pre seen =
      update s tuple id operation (childAt children d) (pre ++ [d]) (hash :: seen) >>=
        fun r => linkChild r.1 hash children d r.2 := by
  rw [update]
  split
  next fault h => cases hread.symm.trans h
  next page h =>
      obtain rfl := Except.ok.inj (hread.symm.trans h)
      simp only [hcheck, hdigit]

theorem update_leaf {seen : List η} {hash : η}
    (hread : read s hash seen = .ok (.leaf entries next))
    (hcheck : checkNode H pre (.leaf entries next) = .ok ())
    (hentry : entries.find? (fun entry => entry.tuple = tuple) = some entry) :
    update s tuple id operation (some hash) pre seen =
      changeEntry s hash entries next entry id operation := by
  rw [update]
  split
  next fault h => cases hread.symm.trans h
  next page h =>
      obtain rfl := Except.ok.inj (hread.symm.trans h)
      simp only [hcheck, hentry]

theorem update_leaf_none {seen : List η} {hash : η}
    (hread : read s hash seen = .ok (.leaf entries next))
    (hcheck : checkNode H pre (.leaf entries next) = .ok ())
    (hentry : entries.find? (fun entry => entry.tuple = tuple) = none) :
    update s tuple id operation (some hash) pre seen =
      if next.isSome then
        update s tuple id operation next pre (hash :: seen) >>=
          fun r => linkNext r.1 hash entries next r.2
      else addEntry s hash entries (64 - pre.length) tuple id operation := by
  rw [update]
  split
  next fault h => cases hread.symm.trans h
  next page h =>
      obtain rfl := Except.ok.inj (hread.symm.trans h)
      simp only [hcheck, hentry]

/-- A change where there are no pages yet. -/
theorem update_none {seen : List η} (hroute : pre <+: tupleRoute H tuple) (hS : S = ∅) :
    Ends (Refused H) (update s tuple id operation none pre seen) fun r =>
      s.list ⊆ r.1.list ∧
        (tupleKind H grown).Denotes r.1 pre r.2 (changed operation (tuple, id) S) := by
  subst hS
  cases operation with
  | remove =>
      rw [update]
      refine ⟨List.Subset.refl _, Set.eq_empty_of_forall_notMem fun x hx => ?_⟩
      simp at hx
  | put =>
      rw [update]
      refine named_ends (leafPage_ends (by simp) (by simp [indexPageEntries]) (by simp)
        ⟨?_, by simp, ?_⟩)
      · intro entry he
        rw [List.mem_singleton.mp he]
        exact freshEntry_holds hroute fun x => by simp
      · refine Set.eq_empty_of_forall_notMem ?_
        rintro x ⟨⟨rfl, _⟩ | ⟨_, hx⟩, hnot⟩
        · exact hnot (freshEntry H tuple id) (by simp) rfl
        · exact hx

/-- A change to a tree of pages makes pages of the changed tree. -/
theorem update_ends (hgrown : operation = .remove → ¬ grown) {seen : List η}
    (hroute : pre <+: tupleRoute H tuple) (h : (tupleKind H grown).Denotes s pre root S)
    (hseen : (tupleKind H grown).Unseen seen root) :
    Ends (Refused H) (update s tuple id operation root pre seen) fun r =>
      s.list ⊆ r.1.list ∧
        (tupleKind H grown).Denotes r.1 pre r.2 (changed operation (tuple, id) S) := by
  induction hn : unread s seen using Nat.strong_induction_on generalizing root pre S seen with
  | _ n ih =>
  subst hn
  cases root with
  | none => exact update_none hroute h
  | some hash =>
      obtain ⟨page, hpage, rfl, hnode⟩ := Kind.exists_page h
      have hread := read_of_mem hpage (hseen page rfl).not_mem
      have hcheck := checkNode_ok hnode
      cases page with
      | branch children =>
          obtain ⟨d, hdigit, hd⟩ := exists_digit (H.digits_length _) hroute (Kind.branch_lt hnode)
          rw [update_branch hread hcheck hdigit]
          refine (ih _ (unread_lt hread) hd (Kind.denotes_childAt hnode)
            (Kind.unseen_childAt hnode (hseen _ rfl)) rfl).bind ?_
          rintro ⟨s', next⟩ ⟨hs, hnext⟩
          rw [← narrow_changed (L := (tupleKind H grown).layout) hd] at hnext
          refine (Kind.linkChild_ends hnode hpage rfl hs ?_
            (fun x hx => mem_changed_of_not_prefix hd hx) (fun hg => ?_) hnext).mono
            (fun _ h => h) fun r hr => ⟨List.Subset.trans hs hr.1, hr.2⟩
          · exact Kind.route_changed hroute fun y hy => Kind.denotes_route h hy
          · cases operation with
            | remove => exact absurd hg (hgrown rfl)
            | put =>
                exact (Kind.wide_of_branch hnode hg).trans_le
                  (Set.encard_le_encard (Set.image_mono subset_changed_put))
      | leaf entries next =>
          obtain ⟨_, hleaf⟩ := node_leaf.mp hnode
          cases hentry : entries.find? fun entry => entry.tuple = tuple with
          | some entry =>
              obtain ⟨he, rfl⟩ := find_entry hentry
              rw [update_leaf hread hcheck hentry]
              exact changeEntry_ends hgrown hpage hnode he
          | none =>
              have hnone := find_no_entry hentry
              rw [update_leaf_none hread hcheck hentry]
              cases next with
              | none =>
                  have hle : pre.length ≤ 64 := hroute.length_le.trans_eq (H.digits_length _)
                  exact addEntry_ends (by omega) hroute hpage hnode hnone
              | some hash =>
                  refine (ih _ (unread_lt hread) hroute hleaf.others
                    (unseen_next hnode (hseen _ rfl)) rfl).bind ?_
                  rintro ⟨s', changedNext⟩ ⟨hs, hnext⟩
                  refine (linkNext_ends hs hpage hnode hnone (hleaf.last rfl) hnext).mono
                    (fun _ h => h) fun r hr => ⟨List.Subset.trans hs hr.1, hr.2⟩
      | group ids next => exact absurd hnode not_group

end

end Acc.Storage.IndexTree
