import AgentsCanCommunicate.Storage.IndexTree
import AgentsCanCommunicate.Library.Ends
import AgentsCanCommunicate.Library.Radix
import AgentsCanCommunicate.Library.Sorting

/-!
# What the pages of a group hold

A `Kind` is one of the two trees that index pages are used for: what its items are, by which
digits they are found, and what a page of it holds that is no branch.  The laws of branches hold
of every kind: `Kind.branchOf_ends` for a branch that is built and `Kind.linkChild_ends` for one
that is changed.

The first kind is the group, whose items are the record identifiers of one tuple.  Its operations
write pages that hold what the group is then (`groupPages_ends`, `groupUpdate_ends`) and find all
that it is (`groupLookup_ends`).
-/

namespace Acc.Storage.IndexTree

open Library Library.Radix

variable {η τ ι : Type} {children : List (Digit × η)} {route : Digit} {hash : η}
  {next : Option η}

/-! ## Children -/

theorem mem_setChild {c : Digit × η} : c ∈ setChild children route next ↔
      (c ∈ children ∧ c.1 ≠ route) ∨ (c.1 = route ∧ next = some c.2) := by
  obtain ⟨d, hash⟩ := c
  cases next with
  | none => simp [setChild]
  | some hash' =>
      simp only [setChild, List.mem_mergeSort, List.mem_append, List.mem_filter,
        decide_eq_true_eq, Option.map_some, Option.toList_some, List.mem_singleton, Prod.mk.injEq,
        Option.some.injEq]
      exact or_congr_right (and_congr_right' eq_comm)

theorem setChild_sorted (h : (children.map Prod.fst).Pairwise (· < ·)) :
    ((setChild children route next).map Prod.fst).Pairwise (· < ·) := by
  have hkept : ((children.filter fun c => c.1 ≠ route).map Prod.fst).Nodup :=
    (h.sublist (List.filter_sublist.map _)).imp fun hlt => hlt.ne
  have hnodup : (((children.filter fun c => c.1 ≠ route)
      ++ (next.map fun hash => (route, hash)).toList).map Prod.fst).Nodup := by
    cases next with
    | none => simpa using hkept
    | some hash =>
        rw [Option.map_some, Option.toList_some, List.map_append]
        refine List.nodup_append.mpr ⟨hkept, by simp, ?_⟩
        simp only [List.mem_map, List.mem_filter, decide_eq_true_eq, List.mem_singleton]
        rintro _ ⟨c, ⟨_, hc⟩, rfl⟩ _ ⟨_, rfl, rfl⟩
        exact hc
  exact pairwise_map_lt (pairwise_mergeSort_key Prod.fst _)
    (((List.mergeSort_perm _ _).map Prod.fst).nodup_iff.mpr hnodup)

theorem childAt_mem (h : childAt children route = some hash) : (route, hash) ∈ children := by
  obtain ⟨⟨d, hash'⟩, hfound, rfl⟩ := Option.map_eq_some_iff.mp h
  obtain rfl : d = route := by simpa using List.find?_some hfound
  exact List.mem_of_find?_eq_some hfound

theorem childAt_none (h : childAt children route = none) : ∀ c ∈ children, c.1 ≠ route := by
  simpa [childAt] using h

theorem mem_routes {α : Type} {digit : α → Option Digit} {values : List α}
    {part : Digit × List α} : part ∈ routes digit values ↔
      part.2 = values.filter (digit · = some part.1) ∧ part.2 ≠ [] := by
  obtain ⟨d, found⟩ := part
  simp only [routes, List.mem_filterMap, List.mem_finRange, true_and, List.isEmpty_iff]
  constructor
  · rintro ⟨d', hd'⟩
    split at hd'
    next => cases hd'
    next hne =>
        obtain ⟨rfl, rfl⟩ := Prod.mk.inj (Option.some.inj hd')
        exact ⟨rfl, hne⟩
  · rintro ⟨hfound, hne⟩
    have heq : found = values.filter (digit · = some d) := hfound
    subst heq
    exact ⟨d, if_neg hne⟩

theorem exists_part {α : Type} {digit : α → Option Digit} {values : List α} {v : α} {d : Digit}
    (hv : v ∈ values) (hd : digit v = some d) : ∃ part ∈ routes digit values, part.1 = d := by
  refine ⟨(d, values.filter fun v => digit v = some d),
    mem_routes.mpr ⟨rfl, List.ne_nil_of_mem (a := v) ?_⟩, rfl⟩
  exact List.mem_filter.mpr ⟨hv, decide_eq_true hd⟩

theorem routes_sorted {α : Type} (digit : α → Option Digit) (values : List α) :
    ((routes digit values).map Prod.fst).Pairwise (· < ·) := by
  rw [List.pairwise_map, routes, List.pairwise_filterMap]
  refine (List.pairwise_lt_finRange 16).imp fun {d d'} hlt part hpart part' hpart' => ?_
  dsimp only at hpart hpart'
  split at hpart
  next => cases hpart
  split at hpart'
  next => cases hpart'
  rw [← Option.some.inj hpart, ← Option.some.inj hpart']
  exact hlt

/-! ## Items -/

section

variable {α : Type} {operation : Operation} {x y : α} {S : Set α} {pre : List Digit}

/-- The items after a change to one of them. -/
def changed (operation : Operation) (x : α) (S : Set α) : Set α :=
  {y | (y = x ∧ operation = .put) ∨ (y ≠ x ∧ y ∈ S)}

@[simp] theorem mem_changed :
    y ∈ changed operation x S ↔ (y = x ∧ operation = .put) ∨ (y ≠ x ∧ y ∈ S) := Iff.rfl

theorem subset_changed_put : S ⊆ changed .put x S := by
  intro y hy
  by_cases hne : y = x
  · exact .inl ⟨hne, rfl⟩
  · exact .inr ⟨hne, hy⟩

/-- Below a prefix of the changed item, the items are changed alike. -/
theorem narrow_changed {L : Layout (IndexPage η τ ι) η Digit α} (h : pre <+: L.route x) :
    narrow L (changed operation x S) pre = changed operation x (narrow L S pre) := by
  ext y
  simp only [mem_narrow, mem_changed]
  constructor
  · rintro ⟨⟨rfl, hput⟩ | ⟨hne, hy⟩, hstarts⟩
    · exact .inl ⟨rfl, hput⟩
    · exact .inr ⟨hne, hy, hstarts⟩
  · rintro (⟨rfl, hput⟩ | ⟨hne, hy, hstarts⟩)
    · exact ⟨.inl ⟨rfl, hput⟩, h⟩
    · exact ⟨.inr ⟨hne, hy⟩, hstarts⟩

/-- Elsewhere nothing is changed. -/
theorem mem_changed_of_not_prefix {route : α → List Digit} (h : pre <+: route x)
    (hy : ¬ pre <+: route y) : y ∈ changed operation x S ↔ y ∈ S := by
  have hne : y ≠ x := by
    rintro rfl
    exact hy h
  simp [hne]

/-- The next digit of a route. -/
theorem concat_prefix_iff {digits : List Digit} {d : Digit} (h : pre <+: digits) :
    pre ++ [d] <+: digits ↔ digits[pre.length]? = some d := by
  obtain ⟨rest, rfl⟩ := h
  rw [List.prefix_append_right_inj]
  cases rest with
  | nil => simp
  | cons d' rest => simp [eq_comm]

end

/-! ## Pages -/

def childrenOf : IndexPage η τ ι → Option (List (Digit × η))
  | .branch children => some children
  | _ => none

/-- Where a page goes on that is no branch. -/
def nextOf : IndexPage η τ ι → List η
  | .branch _ => []
  | .leaf _ next => next.toList
  | .group _ next => next.toList

theorem eq_branch {page : IndexPage η τ ι} (h : childrenOf page = some children) :
    page = .branch children := by
  cases page with
  | branch children' => simpa [childrenOf] using h
  | leaf _ _ => simp [childrenOf] at h
  | group _ _ => simp [childrenOf] at h

variable {H : Digests η τ ι}

/-- Identifiers below all digits of a digest have one digest. -/
theorem length_le_one {ids : List ι} {pre : List Digit}
    (hinjective : Function.Injective (idRoute H)) (hnodup : ids.Nodup)
    (hlength : pre.length = 64) (hroute : ∀ x ∈ ids, pre <+: idRoute H x) : ids.length ≤ 1 := by
  have hsame : ∀ x ∈ ids, idRoute H x = pre := fun x hx =>
    ((hroute x hx).eq_of_length (hlength.trans (H.digits_length _).symm)).symm
  match ids, hnodup, hsame with
  | [], _, _ => simp
  | [_], _, _ => simp
  | x :: y :: _, hnodup, hsame =>
      have hxy : x = y := hinjective ((hsame x (by simp)).trans (hsame y (by simp)).symm)
      simp [hxy] at hnodup

variable [LinearOrder τ] [LinearOrder ι] {s : Pages H} {page : IndexPage η τ ι}

/-- A page that `encodeIndexPage` refuses is over the byte limit, unless the identifiers of a
group have one digest. -/
def Refused (H : Digests η τ ι) (fault : Fault) : Prop :=
  fault = .refusedPage ∧
    ((∃ page, validateIndexPage page = true ∧ H.fits page = false) ∨
      ¬ Function.Injective (idRoute H))

theorem writePage_ends (h : validateIndexPage page = true) :
    Ends (Refused H) (writePage s page) fun r =>
      s.list ⊆ r.1.list ∧ page ∈ r.1.list ∧ r.2 = H.address page := by
  unfold writePage
  split
  next => simp
  next hnot => exact ⟨rfl, .inl ⟨page, h, by simpa [h] using hnot⟩⟩

theorem validate_branch (hne : children ≠ [])
    (hsorted : (children.map Prod.fst).Pairwise (· < ·)) :
    validateIndexPage (.branch children : IndexPage η τ ι) = true := by
  have hnodup : (children.map Prod.fst).Nodup := hsorted.imp fun h => h.ne
  have hlength : children.length ≤ 16 := by simpa using hnodup.length_le_card
  simp [validateIndexPage, hne, hsorted, hlength]

theorem valid_branch (h : validateIndexPage (.branch children : IndexPage η τ ι) = true) :
    (children.map Prod.fst).Pairwise (· < ·) := by
  simp only [validateIndexPage, Bool.and_eq_true, decide_eq_true_eq] at h
  exact h.2

theorem named_ends {E : Fault → Prop} {Q : Pages H × Option η → Prop}
    {written : Except Fault (Pages H × η)}
    (h : Ends E written fun r => Q (r.1, some r.2)) : Ends E (named written) Q := by
  cases written with
  | ok r => exact h
  | error fault => exact h

section

variable [DecidableEq η]

theorem read_of_mem {seen : List η} (hpage : page ∈ s.list)
    (hseen : H.address page ∉ seen) : read s (H.address page) seen = .ok page := by
  simp only [read, hseen, ↓reduceIte, readPage]
  split
  next found hfound =>
      have heq : H.address found = H.address page := by simpa using List.find?_some hfound
      rw [H.address_injective heq]
  next hnone =>
      have hno := List.find?_eq_none.mp hnone page hpage
      simp at hno

end

/-! ## Kinds of trees -/

/-- Pages by their names, with the digits by which an item is found. -/
def layoutOf {α : Type} (H : Digests η τ ι) (route : α → List Digit) :
    Layout (IndexPage η τ ι) η Digit α :=
  ⟨H.address, childrenOf, nextOf, route⟩

/-- What a tree of index pages keeps. -/
structure Kind (H : Digests η τ ι) (α : Type) where
  route : α → List Digit
  /-- What a page holds below a prefix that is no branch. -/
  Leaf : Pages H → List Digit → IndexPage η τ ι → Set α → Prop
  /-- What a branch may hold. -/
  Wide : Set α → Prop
  route_length : ∀ x, (route x).length = 64
  leaf_children : ∀ {s pre page S}, Leaf s pre page S → childrenOf page = none
  leaf_mono : ∀ {s s' : Pages H} {pre page S}, s.list ⊆ s'.list → Leaf s pre page S →
    Leaf s' pre page S
  leaf_route : ∀ {s pre page S}, Leaf s pre page S → ∀ x ∈ S, pre <+: route x
  leaf_nonempty : ∀ {s pre page S}, Leaf s pre page S → S.Nonempty
  leaf_unique : ∀ {s pre pre' page S S'}, Leaf s pre page S → Leaf s pre' page S' → S = S'
  leaf_acc : ∀ {s pre page S}, Leaf s pre page S → Acc (layoutOf H route).Below page

namespace Kind

variable {α : Type} (K : Kind H α) {s' : Pages H} {pre pre' : List Digit} {S S' : Set α}
  {root : Option η}

abbrev layout : Layout (IndexPage η τ ι) η Digit α := layoutOf H K.route

abbrev Node (s : Pages H) : List Digit → IndexPage η τ ι → Set α → Prop :=
  Radix.Node K.layout {page | page ∈ s.list} (K.Leaf s) K.Wide

/-- What a root names among the pages. -/
abbrev Denotes (s : Pages H) : List Digit → Option η → Set α → Prop :=
  Radix.Denotes K.layout {page | page ∈ s.list} (K.Leaf s) K.Wide

variable {K}

theorem node_acc (h : K.Node s pre page S) : Acc K.layout.Below page :=
  h.acc H.address_injective fun _ _ _ => K.leaf_acc

theorem node_unique (h : K.Node s pre page S) (h' : K.Node s pre' page S') : S = S' := by
  refine Radix.Node.unique H.address_injective ?_ h h'
  exact fun _ _ _ _ _ => K.leaf_unique

theorem node_nonempty (h : K.Node s pre page S) : S.Nonempty :=
  h.nonempty fun _ _ _ => K.leaf_nonempty

theorem denotes_mono (hs : s.list ⊆ s'.list) (h : K.Denotes s pre root S) :
    K.Denotes s' pre root S :=
  h.mono hs fun _ _ _ => K.leaf_mono hs

theorem denotes_unique (h : K.Denotes s pre root S) (h' : K.Denotes s pre' root S') : S = S' := by
  refine Radix.Denotes.unique H.address_injective ?_ h h'
  exact fun _ _ _ _ _ => K.leaf_unique

theorem denotes_route (h : K.Denotes s pre root S) {x : α} (hx : x ∈ S) : pre <+: K.route x :=
  h.route (fun _ _ _ => K.leaf_route) hx

theorem exists_page {hash : η} (h : K.Denotes s pre (some hash) S) :
    ∃ page ∈ s.list, hash = H.address page ∧ K.Node s pre page S := by
  obtain ⟨page, hpage, hhash, hnode⟩ := h
  exact ⟨page, hpage, hhash.symm, hnode⟩

theorem wide_of_branch {children : List (Digit × η)} (h : K.Node s pre (.branch children) S) :
    K.Wide S := by
  cases h with
  | leaf hnone _ => cases hnone
  | branch _ _ _ hwide _ _ _ _ => exact hwide

theorem route_changed {operation : Operation} {x : α} (hx : pre <+: K.route x)
    (hS : ∀ y ∈ S, pre <+: K.route y) : ∀ y ∈ changed operation x S, pre <+: K.route y := by
  rintro y (⟨rfl, _⟩ | ⟨_, hy⟩)
  · exact hx
  · exact hS y hy

/-- Where the items tell which pages are branches, they tell the root. -/
theorem denotes_same {root' : Option η}
    (hleaf : ∀ {s s' : Pages H} {pre page page' S}, K.Leaf s pre page S → K.Leaf s' pre page' S →
      page = page')
    (hwide : ∀ {s : Pages H} {pre page S}, K.Leaf s pre page S → ¬ K.Wide S)
    (h : K.Denotes s pre root S) (h' : K.Denotes s' pre root' S) : root = root' := by
  cases root with
  | none =>
      cases root' with
      | none => rfl
      | some hash =>
          obtain ⟨page, _, _, hnode⟩ := exists_page h'
          exact absurd (show S = ∅ from h) (node_nonempty hnode).ne_empty
  | some hash =>
      obtain ⟨page, hpage, rfl, hnode⟩ := exists_page h
      cases root' with
      | none => exact absurd (show S = ∅ from h') (node_nonempty hnode).ne_empty
      | some hash' =>
          obtain ⟨page', hpage', rfl, hnode'⟩ := exists_page h'
          have heq : page = page' := by
            refine Radix.Node.same ?_ ?_ ?_ ?_ ?_ hnode hnode' hpage hpage'
            · rintro p hp cs hcs
              rw [eq_branch hcs] at hp
              rcases hp with hp | hp
              · exact valid_branch (s.valid _ hp)
              · exact valid_branch (s'.valid _ hp)
            · intro p p' cs hp hp'
              rw [eq_branch hp, eq_branch hp']
            · exact fun _ _ _ _ => hleaf
            · rintro pre p S (h | h)
              · exact hwide h
              · exact hwide h
            · rintro pre p S (h | h)
              · exact K.leaf_nonempty h
              · exact K.leaf_nonempty h
          rw [heq]

/-- A page that is written in front of what it names. -/
theorem denotes_written {hash : η} (hpage : page ∈ s.list) (hhash : hash = H.address page)
    (h : K.Node s pre page S) : K.Denotes s pre (some hash) S :=
  ⟨page, hpage, hhash.symm, h⟩

/-- A prefix of items is a prefix of a digest. -/
theorem length_le {x : α} (h : pre <+: K.route x) : pre.length ≤ 64 := by
  have hlength := h.length_le
  rwa [K.route_length] at hlength

/-- A branch that is built of what is built for each route. -/
theorem branchOf_ends {β : Type} {build : Pages H → β → Except Fault (Pages H × η)}
    {parts : List (Digit × β)} (hne : parts ≠ [])
    (hsorted : (parts.map Prod.fst).Pairwise (· < ·)) (hwide : K.Wide S)
    (hroute : ∀ x ∈ S, pre <+: K.route x)
    (hcover : ∀ x ∈ S, ∃ part ∈ parts, pre ++ [part.1] <+: K.route x)
    (hbuild : ∀ part ∈ parts, ∀ s' : Pages H, s.list ⊆ s'.list →
      Ends (Refused H) (build s' part.2) fun r => s'.list ⊆ r.1.list ∧
        K.Denotes r.1 (pre ++ [part.1]) (some r.2) (narrow K.layout S (pre ++ [part.1]))) :
    Ends (Refused H) (branchOf build s parts) fun r =>
      s.list ⊆ r.1.list ∧ K.Denotes r.1 pre (some r.2) S := by
  let built (done : List (Digit × β)) (r : Pages H × List (Digit × η)) : Prop :=
    s.list ⊆ r.1.list ∧ r.2.map Prod.fst = done.map Prod.fst ∧
      ∀ c ∈ r.2, K.Denotes r.1 (pre ++ [c.1]) (some c.2) (narrow K.layout S (pre ++ [c.1]))
  have hrun : Ends (Refused H) (parts.foldlM (fun r part => do
      let (s', hash) ← build r.1 part.2
      pure (s', r.2 ++ [(part.1, hash)])) (s, [])) (built parts) := by
    refine Ends.foldlM (I := built) ⟨List.Subset.refl _, rfl, by simp⟩ ?_
    rintro done part rest ⟨s', children⟩ rfl ⟨hs, hdigits, hchildren⟩
    refine (hbuild part (by simp) s' hs).bind ?_
    rintro ⟨s'', hash⟩ ⟨hs', hhash⟩
    refine ⟨List.Subset.trans hs hs', by simp [hdigits], fun c hc => ?_⟩
    rcases List.mem_append.mp hc with hc | hc
    · exact denotes_mono hs' (hchildren c hc)
    · rw [List.mem_singleton.mp hc]
      exact hhash
  refine hrun.bind ?_
  rintro ⟨s', children⟩ ⟨hs, hdigits, hchildren⟩
  have hne' : children ≠ [] := by
    rintro rfl
    exact hne (List.map_eq_nil_iff.mp hdigits.symm)
  refine (writePage_ends (validate_branch hne' (hdigits ▸ hsorted))).mono (fun _ h => h) ?_
  rintro ⟨s'', hash⟩ ⟨hs', hpage, hhash⟩
  refine ⟨List.Subset.trans hs hs', denotes_written hpage hhash ?_⟩
  refine Node.of_children rfl hne' hwide hroute
    (fun c hc => denotes_mono hs' (hchildren c hc)) fun x hx => ?_
  obtain ⟨part, hpart, hstarts⟩ := hcover x hx
  have hdigit : part.1 ∈ children.map Prod.fst := hdigits ▸ List.mem_map_of_mem hpart
  obtain ⟨c, hc, heq⟩ := List.mem_map.mp hdigit
  exact ⟨c, hc, heq ▸ hstarts⟩

/-- A branch of items is above the last digit of a digest. -/
theorem branch_lt {children : List (Digit × η)} (h : K.Node s pre (.branch children) S) :
    pre.length < 64 := by
  obtain ⟨x, hx⟩ := node_nonempty h
  obtain ⟨c, _, hstarts⟩ := h.cover rfl hx
  have hlength := length_le hstarts
  simpa using hlength

/-- The child of a branch where an item is or is to be. -/
theorem denotes_childAt {children : List (Digit × η)} {d : Digit}
    (h : K.Node s pre (.branch children) S) :
    K.Denotes s (pre ++ [d]) (childAt children d) (narrow K.layout S (pre ++ [d])) :=
  h.denotes_child rfl (fun _ h => childAt_mem h) childAt_none

/-- Nothing of what a root names was read. -/
def Unseen (K : Kind H α) (seen : List η) (root : Option η) : Prop :=
  ∀ page, root = some (H.address page) → Apart K.layout seen page

theorem unseen_nil : K.Unseen [] root := fun _ _ => apart_nil

theorem unseen_childAt {children : List (Digit × η)} {seen : List η} {d : Digit}
    (hnode : K.Node s pre (.branch children) S)
    (h : Apart K.layout seen (.branch children)) :
    K.Unseen (H.address (.branch children) :: seen) (childAt children d) := by
  intro page hpage
  refine h.below H.address_injective (node_acc hnode) ?_
  exact List.mem_map.mpr ⟨_, childAt_mem hpage, rfl⟩

/-- A branch of values that are told apart by their next digit. -/
theorem routes_ends {β : Type} {build : Pages H → List β → Except Fault (Pages H × η)}
    {values : List β} {digits : β → List Digit} (hlength : ∀ v, (digits v).length = 64)
    (hlt : pre.length < 64) (hne : values ≠ []) (hpre : ∀ v ∈ values, pre <+: digits v)
    (hwide : K.Wide S) (hS : ∀ x ∈ S, ∃ v ∈ values, digits v = K.route x)
    (hbuild : ∀ d found, found.Sublist values → found ≠ [] →
      (∀ v, v ∈ found ↔ v ∈ values ∧ pre ++ [d] <+: digits v) →
      ∀ s' : Pages H, s.list ⊆ s'.list → Ends (Refused H) (build s' found) fun r =>
        s'.list ⊆ r.1.list ∧
          K.Denotes r.1 (pre ++ [d]) (some r.2) (narrow K.layout S (pre ++ [d]))) :
    Ends (Refused H) (branchOf build s (routes (fun v => (digits v)[pre.length]?) values)) fun r =>
      s.list ⊆ r.1.list ∧ K.Denotes r.1 pre (some r.2) S := by
  have hpart : ∀ v ∈ values, ∃ part ∈ routes (fun v => (digits v)[pre.length]?) values,
      pre ++ [part.1] <+: digits v := by
    intro v hv
    obtain ⟨d, hdigit⟩ : ∃ d, (digits v)[pre.length]? = some d :=
      ⟨_, List.getElem?_eq_getElem ((hlength v).symm ▸ hlt)⟩
    obtain ⟨part, hpart, hd⟩ : ∃ part ∈ routes (fun v => (digits v)[pre.length]?) values,
        part.1 = d := exists_part hv hdigit
    exact ⟨part, hpart, (concat_prefix_iff (hpre v hv)).mpr (hd ▸ hdigit)⟩
  refine branchOf_ends ?_ (routes_sorted _ _) hwide (fun x hx => ?_) (fun x hx => ?_) ?_
  · obtain ⟨v, hv⟩ := List.exists_mem_of_ne_nil _ hne
    obtain ⟨part, hpart, _⟩ := hpart v hv
    exact List.ne_nil_of_mem hpart
  · obtain ⟨v, hv, hroute⟩ := hS x hx
    exact hroute ▸ hpre v hv
  · obtain ⟨v, hv, hroute⟩ := hS x hx
    exact hroute ▸ hpart v hv
  · intro part hpart s' hs
    obtain ⟨hfound, hne'⟩ := mem_routes.mp hpart
    refine hbuild part.1 part.2 (hfound ▸ List.filter_sublist) hne' (fun v => ?_) s' hs
    rw [hfound, List.mem_filter, decide_eq_true_eq]
    exact and_congr_right fun hv => (concat_prefix_iff (hpre v hv)).symm

/-- A branch where what one child holds is changed. -/
theorem linkChild_ends [DecidableEq η] {children : List (Digit × η)} {hash : η} {d : Digit}
    {next : Option η} (hnode : K.Node s pre (.branch children) S)
    (hpage : .branch children ∈ s.list) (hhash : hash = H.address (.branch children))
    (hs : s.list ⊆ s'.list) (hroute : ∀ x ∈ S', pre <+: K.route x)
    (hS : ∀ x, ¬ pre ++ [d] <+: K.route x → (x ∈ S' ↔ x ∈ S)) (hwide : K.Wide S')
    (hnext : K.Denotes s' (pre ++ [d]) next (narrow K.layout S' (pre ++ [d]))) :
    Ends (Refused H) (linkChild s' hash children d next) fun r =>
      s'.list ⊆ r.1.list ∧ K.Denotes r.1 pre r.2 S' := by
  have hsorted := valid_branch (s.valid _ hpage)
  unfold linkChild
  split
  next hsame =>
      -- the child holds what it held, so nothing of the branch is changed
      have hold : K.Denotes s (pre ++ [d]) next (narrow K.layout S (pre ++ [d])) :=
        hnode.denotes_child rfl (fun hash h => childAt_mem (hsame ▸ h))
          fun h => childAt_none (hsame ▸ h)
      have hnarrow := denotes_unique (denotes_mono hs hold) hnext
      have hSS' : S' = S := by
        ext x
        by_cases hd : pre ++ [d] <+: K.route x
        · have hx := Set.ext_iff.mp hnarrow x
          simp only [mem_narrow, layoutOf, hd, and_true] at hx
          exact hx.symm
        · exact hS x hd
      exact ⟨List.Subset.refl _, hSS' ▸ denotes_written (hs hpage) hhash
        (hnode.mono hs fun _ _ _ => K.leaf_mono hs)⟩
  next =>
      have hchange : ∀ s'' : Pages H, s'.list ⊆ s''.list →
          (setChild children d next = [] → S' = ∅) ∧
            ∀ q, childrenOf q = some (setChild children d next) →
              setChild children d next ≠ [] → K.Node s'' pre q S' := fun s'' hs' =>
        hnode.change (List.Subset.trans hs hs')
          (fun _ _ _ => K.leaf_mono (List.Subset.trans hs hs')) rfl hroute hS hwide
          (denotes_mono hs' hnext) fun c => mem_setChild
      split
      next hnil => exact ⟨List.Subset.refl _, (hchange s' (List.Subset.refl _)).1 hnil⟩
      next hne =>
          refine named_ends ((writePage_ends
            (validate_branch hne (setChild_sorted hsorted))).mono (fun _ h => h) ?_)
          rintro ⟨s'', hash'⟩ ⟨hs', hwritten, hhash'⟩
          exact ⟨hs', denotes_written hwritten hhash' ((hchange s'' hs').2 _ rfl hne)⟩

end Kind

/-! ## The group kind -/

theorem mem_sortIds {ids : List ι} {id : ι} : id ∈ sortIds ids ↔ id ∈ ids := List.mem_mergeSort

theorem sortIds_nil {ids : List ι} : sortIds ids = [] ↔ ids = [] := by
  rw [← List.length_eq_zero_iff, ← List.length_eq_zero_iff, sortIds, List.length_mergeSort]

theorem sortIds_sorted {ids : List ι} (h : ids.Nodup) : (sortIds ids).Pairwise (· < ·) := by
  have hnodup : (sortIds ids).Nodup := (List.mergeSort_perm _ _).nodup_iff.mpr h
  exact ((pairwise_mergeSort_key (fun x => x) ids).and hnodup).imp fun hab =>
    lt_of_le_of_ne hab.1 hab.2

theorem recordIds_iff {ids : List ι} {limit : Nat} :
    recordIds ids limit = true ↔ ids ≠ [] ∧ ids.length ≤ limit ∧ ids.Pairwise (· < ·) := by
  simp [recordIds, and_assoc]

variable (H) in
/-- The identifiers of a group page. -/
def GroupLeaf (pre : List Digit) (page : IndexPage η τ ι) (S : Set ι) : Prop :=
  ∃ ids, page = .group ids none ∧ recordIds ids indexPageEntries = true ∧ (∀ x, x ∈ S ↔ x ∈ ids) ∧
    ∀ x ∈ ids, pre <+: idRoute H x

variable (H) in
/-- The groups of identifiers.  Where only puts made it, a branch holds more than a page can. -/
def groupKind (grown : Prop) : Kind H ι where
  route := idRoute H
  Leaf _ pre page S := GroupLeaf H pre page S
  Wide S := grown → (indexPageEntries : ℕ∞) < S.encard
  route_length _ := H.digits_length _
  leaf_children := by
    rintro s pre page S ⟨ids, rfl, _⟩
    rfl
  leaf_mono _ h := h
  leaf_route := by
    rintro s pre page S ⟨ids, rfl, _, hS, hroute⟩ x hx
    exact hroute x ((hS x).mp hx)
  leaf_nonempty := by
    rintro s pre page S ⟨ids, rfl, hvalid, hS, _⟩
    obtain ⟨x, hx⟩ := List.exists_mem_of_ne_nil _ (recordIds_iff.mp hvalid).1
    exact ⟨x, (hS x).mpr hx⟩
  leaf_unique := by
    rintro s pre pre' page S S' ⟨ids, rfl, _, hS, _⟩ ⟨ids', hpage, _, hS', _⟩
    obtain ⟨rfl, _⟩ := IndexPage.group.inj hpage
    ext x
    rw [hS, hS']
  leaf_acc := by
    rintro s pre page S ⟨ids, rfl, _⟩
    exact ⟨_, fun q hq => by
      simp [Layout.Below, Layout.follows, layoutOf, childrenOf, nextOf] at hq⟩

section

variable {grown : Prop} {pre : List Digit} {S : Set ι} {ids : List ι} {id : ι}
  {operation : Operation}

/-- The set of a list without repetitions is as large as the list. -/
theorem encard_list (h : ids.Nodup) : {x | x ∈ ids}.encard = ids.length := by
  have hset : {x | x ∈ ids} = (ids.toFinset : Set ι) := by
    ext x
    simp
  rw [hset, Set.encard_coe_eq_coe_finsetCard, List.toFinset_card_of_nodup h]

theorem ids_eq {ids' : List ι} {limit limit' : Nat} (h : recordIds ids limit = true)
    (h' : recordIds ids' limit' = true) (hmem : ∀ x, x ∈ ids ↔ x ∈ ids') : ids = ids' := by
  refine @eq_of_pairwise_lt ι ι _ (fun x => x) ids ids' ?_ ?_ hmem
  · simpa using (recordIds_iff.mp h).2.2
  · simpa using (recordIds_iff.mp h').2.2

/-- A group that only puts made has one root. -/
theorem group_same {s' : Pages H} {root root' : Option η}
    (h : (groupKind H True).Denotes s pre root S) (h' : (groupKind H True).Denotes s' pre root' S) :
    root = root' := by
  refine Kind.denotes_same ?_ ?_ h h'
  · rintro s s' pre page page' S ⟨ids, rfl, hvalid, hS, _⟩ ⟨ids', rfl, hvalid', hS', _⟩
    rw [ids_eq hvalid hvalid' fun x => by rw [← hS, hS']]
  · rintro s pre page S ⟨ids, _, hvalid, hS, _⟩ hwide
    obtain ⟨_, hlength, hsorted⟩ := recordIds_iff.mp hvalid
    have hencard : S.encard = ids.length := by
      rw [show S = {x | x ∈ ids} from Set.ext hS, encard_list (hsorted.imp fun hlt => hlt.ne)]
    have hlt := hwide trivial
    rw [hencard] at hlt
    exact absurd (by exact_mod_cast hlt) hlength.not_gt

/-- A group page of these identifiers. -/
theorem writeGroup_ends (hnodup : ids.Nodup) (hne : ids ≠ []) (hlength : ids.length ≤ 32)
    (hroute : ∀ x ∈ ids, pre <+: idRoute H x) :
    Ends (Refused H) (writePage s (.group (sortIds ids) none)) fun r =>
      s.list ⊆ r.1.list ∧ (groupKind H grown).Denotes r.1 pre (some r.2) {x | x ∈ ids} := by
  have hvalid : recordIds (sortIds ids) indexPageEntries = true :=
    recordIds_iff.mpr ⟨fun hnil => hne (sortIds_nil.mp hnil),
      (List.length_mergeSort ids).trans_le hlength, sortIds_sorted hnodup⟩
  have hpage : validateIndexPage (.group (sortIds ids) none : IndexPage η τ ι) = true := hvalid
  refine (writePage_ends hpage).mono (fun _ h => h) ?_
  rintro ⟨s', hash⟩ ⟨hs, hpage, hhash⟩
  exact ⟨hs, Kind.denotes_written hpage hhash (.leaf rfl
    ⟨_, rfl, hvalid, fun x => mem_sortIds.symm, fun x hx => hroute x (mem_sortIds.mp hx)⟩)⟩

theorem not_leaf {entries : List (LeafEntry η τ ι)} {next : Option η} :
    ¬ (groupKind H grown).Node s pre (.leaf entries next) S := by
  rintro (⟨_, ids, hpage, _⟩ | ⟨_, hchildren, _⟩)
  · cases hpage
  · cases hchildren

theorem group_node {next : Option η} (h : (groupKind H grown).Node s pre (.group ids next) S) :
    next = none ∧ GroupLeaf H pre (.group ids none : IndexPage η τ ι) S := by
  cases h with
  | leaf _ h =>
      obtain ⟨ids', hpage, hrest⟩ := h
      obtain ⟨rfl, rfl⟩ := IndexPage.group.inj hpage
      exact ⟨rfl, ids, rfl, hrest⟩
  | branch _ hchildren _ _ _ _ _ _ => cases hchildren

/-- The pages that are written for a group hold it. -/
theorem groupPages_ends (left : Nat) (hleft : pre.length + left = 64) (hnodup : ids.Nodup)
    (hne : ids ≠ []) (hroute : ∀ x ∈ ids, pre <+: idRoute H x) :
    Ends (Refused H) (groupPages left s ids) fun r =>
      s.list ⊆ r.1.list ∧ (groupKind H grown).Denotes r.1 pre (some r.2) {x | x ∈ ids} := by
  induction left generalizing s pre ids with
  | zero =>
      by_cases hlength : ids.length ≤ 32
      · exact writeGroup_ends hnodup hne hlength hroute
      · have hshort : ¬ Function.Injective (idRoute H) := fun hinjective => by
          have hone := length_le_one hinjective hnodup (by omega) hroute
          omega
        have hlong : validateIndexPage (.group (sortIds ids) none : IndexPage η τ ι) = false := by
          simp [validateIndexPage, recordIds, sortIds, indexPageEntries, hlength]
        simp only [groupPages, writePage, hlong, Bool.false_eq_true, false_and, ↓reduceDIte,
          ends_error]
        exact ⟨rfl, .inr hshort⟩
  | succ left ih =>
      unfold groupPages
      split
      next hlength => exact writeGroup_ends hnodup hne hlength hroute
      next hlength =>
          have hdigit : 63 - left = pre.length := by omega
          rw [hdigit]
          refine Kind.routes_ends (K := groupKind H grown) (fun _ => H.digits_length _) (by omega)
            hne hroute (fun _ => ?_) (fun x hx => ⟨x, hx, rfl⟩) ?_
          · rw [encard_list hnodup]
            exact_mod_cast not_le.mp hlength
          · intro d found hsub hne' hmem s' hs
            have hset : narrow (groupKind H grown).layout {x | x ∈ ids} (pre ++ [d]) =
                {x | x ∈ found} := by
              ext x
              exact (hmem x).symm
            rw [hset]
            exact ih (by simp; omega) (hnodup.sublist hsub) hne' fun x hx => ((hmem x).mp hx).2

/-- Where an identifier stands in a sorted list, what is not less begins with it. -/
theorem head_dropWhile (hsorted : ids.Pairwise (· < ·)) :
    (ids.dropWhile fun found => found < id).head? = some id ↔ id ∈ ids := by
  induction ids with
  | nil => simp
  | cons x ids ih =>
      obtain ⟨hx, hsorted⟩ := List.pairwise_cons.mp hsorted
      by_cases hlt : x < id
      · simp [hlt, ih hsorted, hlt.ne']
      · simp only [List.dropWhile_cons, hlt, decide_false, Bool.false_eq_true, ↓reduceIte,
          List.head?_cons, Option.some.injEq, List.mem_cons]
        constructor
        · rintro rfl
          exact .inl rfl
        · rintro (rfl | hid)
          · rfl
          · exact absurd (hx id hid) hlt

theorem groupPages_changed (left : Nat) (hleft : pre.length + left = 64) (hnodup : ids.Nodup)
    (hne : ids ≠ []) (hroute : ∀ x ∈ ids, pre <+: idRoute H x) (hS : ∀ x, x ∈ ids ↔ x ∈ S) :
    Ends (Refused H) (named (groupPages left s ids)) fun r =>
      s.list ⊆ r.1.list ∧ (groupKind H grown).Denotes r.1 pre r.2 S := by
  have heq : S = {x | x ∈ ids} := Set.ext fun x => (hS x).symm
  exact named_ends (heq ▸ groupPages_ends left hleft hnodup hne hroute)

/-- A group page where one identifier is changed. -/
theorem groupLeaf_ends {left : Nat} (hleft : pre.length + left = 64) (hid : pre <+: idRoute H id)
    (hpage : .group ids none ∈ s.list)
    (hleaf : GroupLeaf H pre (.group ids none : IndexPage η τ ι) S) :
    Ends (Refused H) (groupLeaf id operation left s (H.address (.group ids none)) ids) fun r =>
      s.list ⊆ r.1.list ∧ (groupKind H grown).Denotes r.1 pre r.2 (changed operation id S) := by
  obtain ⟨ids', hsame, hvalid, hS, hroute⟩ := hleaf
  obtain ⟨rfl, _⟩ := IndexPage.group.inj hsame
  obtain ⟨_, _, hsorted⟩ := recordIds_iff.mp hvalid
  have hnodup : ids.Nodup := hsorted.imp fun hlt => hlt.ne
  have hunchanged (h : changed operation id S = S) :
      (groupKind H grown).Denotes s pre (some (H.address (.group ids none)))
        (changed operation id S) := by
    rw [h]
    exact Kind.denotes_written hpage rfl (.leaf rfl ⟨ids, rfl, hvalid, hS, hroute⟩)
  have hsplit := List.takeWhile_append_dropWhile (p := fun found => found < id) (l := ids)
  unfold groupLeaf
  dsimp only
  split
  next hhead =>
      have hin : id ∈ ids := (head_dropWhile hsorted).mp hhead
      obtain ⟨after, hafter⟩ : ∃ after, (ids.dropWhile fun found => found < id) = id :: after := by
        cases hdrop : ids.dropWhile fun found => found < id with
        | nil => simp [hdrop] at hhead
        | cons x after => exact ⟨after, by simpa [hdrop] using hhead⟩
      cases operation with
      | put =>
          refine ⟨List.Subset.refl _, hunchanged ?_⟩
          ext x
          by_cases hx : x = id <;> simp [hx, (hS id).mpr hin]
      | remove =>
          rw [hafter] at hsplit ⊢
          have hrest : ∀ x, x ∈ (ids.takeWhile fun found => found < id) ++ after ↔
              x ∈ changed .remove id S := by
            intro x
            rw [← hsplit] at hnodup
            have hnot := (List.nodup_middle.mp hnodup)
            have hmem : x ∈ ids ↔ x = id ∨
                x ∈ (ids.takeWhile fun found => found < id) ++ after := by
              conv_lhs => rw [← hsplit]
              simp [or_left_comm]
            simp only [mem_changed, hS, hmem, reduceCtorEq, and_false, false_or]
            constructor
            · intro hx
              exact ⟨fun heq => (List.nodup_cons.mp hnot).1 (heq ▸ hx), .inr hx⟩
            · rintro ⟨hne, rfl | hx⟩
              · exact absurd rfl hne
              · exact hx
          rw [List.tail_cons]
          by_cases hnil : (ids.takeWhile fun found => found < id) ++ after = []
          · rw [if_pos hnil]
            refine ⟨List.Subset.refl _, Set.eq_empty_of_forall_notMem fun x hx => ?_⟩
            rw [← hrest, hnil] at hx
            cases hx
          · have hsub : ((ids.takeWhile fun found => found < id) ++ after).Sublist ids := by
              conv_rhs => rw [← hsplit]
              exact (List.Sublist.refl _).append (List.sublist_cons_self _ _)
            rw [if_neg hnil]
            exact groupPages_changed left hleft (hnodup.sublist hsub) hnil
              (fun x hx => hroute x (hsub.subset hx)) hrest
  next hhead =>
      have hnot : id ∉ ids := fun hin => hhead ((head_dropWhile hsorted).mpr hin)
      cases operation with
      | remove =>
          refine ⟨List.Subset.refl _, hunchanged ?_⟩
          ext x
          by_cases hx : x = id <;> simp [hx, (hS id).not.mpr hnot]
      | put =>
          have hperm : ((ids.takeWhile fun found => found < id) ++ id ::
              ids.dropWhile fun found => found < id).Perm (id :: ids) := by
            refine List.perm_middle.trans ?_
            rw [hsplit]
          refine groupPages_changed left hleft
            (hperm.nodup_iff.mpr (List.nodup_cons.mpr ⟨hnot, hnodup⟩)) (by simp) (fun x hx => ?_)
            fun x => ?_
          · rcases List.mem_cons.mp (hperm.mem_iff.mp hx) with rfl | hx
            · exact hid
            · exact hroute x hx
          · rw [hperm.mem_iff, List.mem_cons]
            by_cases hx : x = id <;> simp [hx, hS]

/-- The digit with which a digest goes on. -/
theorem exists_digit {digits : List Digit} (hlength : digits.length = 64) (hpre : pre <+: digits)
    (hlt : pre.length < 64) : ∃ d, digits[pre.length]? = some d ∧ pre ++ [d] <+: digits := by
  have hdigit := List.getElem?_eq_getElem (hlength ▸ hlt)
  exact ⟨_, hdigit, (concat_prefix_iff hpre).mpr hdigit⟩

variable {root : Option η} {seen : List η}

/-- What was found below the children of a branch that are done, and what was read. -/
structure Collected (K : Kind H ι) (S : Set ι) (pre : List Digit) (seen : List η)
    (done : List (Digit × η)) (r : List η × List ι) : Prop where
  nodup : r.2.Nodup
  mem : ∀ x, x ∈ r.2 ↔ ∃ c ∈ done, x ∈ narrow K.layout S (pre ++ [c.1])
  seen : ∀ hash ∈ r.1, hash ∈ seen ∨ ∃ c ∈ done, ∃ p q, H.address p = c.2 ∧
    Relation.ReflTransGen K.layout.Below q p ∧ H.address q = hash

theorem collected_nil {K : Kind H ι} : Collected K S pre seen [] (seen, []) :=
  ⟨List.nodup_nil, by simp, fun _ h => .inl h⟩

section

variable {done rest : List (Digit × η)} {c : Digit × η} {r : List η × List ι}
  (hnode : (groupKind H grown).Node s pre (.branch (done ++ c :: rest)) S)
  (hpage : .branch (done ++ c :: rest) ∈ s.list)

include hpage in
/-- The children that are done have digits of their own. -/
theorem done_ne : ∀ c' ∈ done, c'.1 ≠ c.1 := by
  have hsorted := valid_branch (s.valid _ hpage)
  rw [List.map_append, List.map_cons, List.pairwise_append] at hsorted
  intro c' hc'
  exact (hsorted.2.2 _ (List.mem_map_of_mem hc') _ (by simp)).ne

include hnode hpage in
/-- No page below a child is below a child before it. -/
theorem collected_apart {child : IndexPage η τ ι}
    (hapart : Apart (groupKind H grown).layout seen (.branch (done ++ c :: rest)))
    (hhash : c.2 = H.address child)
    (hchild : (groupKind H grown).Node s (pre ++ [c.1]) child
      (narrow (groupKind H grown).layout S (pre ++ [c.1])))
    (h : Collected (groupKind H grown) S pre (H.address (.branch (done ++ c :: rest)) :: seen)
      done r) : Apart (groupKind H grown).layout r.1 child := by
  have hflat : ∀ pre page S, (groupKind H grown).Leaf s pre page S →
      (groupKind H grown).layout.next page = [] := by
    rintro pre page S ⟨ids, rfl, _⟩
    rfl
  intro q hq hmem
  rcases h.seen _ hmem with hseen | ⟨c', hc', p, q', hp, hq', heq⟩
  · refine hapart.below H.address_injective (Kind.node_acc hnode) ?_ q hq hseen
    exact List.mem_map.mpr ⟨c, by simp, hhash⟩
  · obtain rfl := H.address_injective heq
    obtain ⟨p', _, hp', hnode'⟩ :=
      Kind.exists_page (hnode.holds_child rfl (c := c') (List.mem_append_left _ hc'))
    obtain rfl := H.address_injective (hp.trans hp')
    obtain ⟨pre₁, S₁, h₁, hS₁⟩ := hnode'.of_below H.address_injective hflat hq'
    obtain ⟨pre₂, S₂, h₂, hS₂⟩ := hchild.of_below H.address_injective hflat hq
    obtain rfl : S₁ = S₂ := Kind.node_unique h₁ h₂
    obtain ⟨x, hx⟩ := Kind.node_nonempty h₁
    exact done_ne hpage c' hc' (digit_unique (hS₁ hx).2 (hS₂ hx).2)

include hpage in
theorem collected_concat {child : IndexPage η τ ι} {seen₀ seen' : List η} {more : List ι}
    (h : Collected (groupKind H grown) S pre seen₀ done r) (hhash : c.2 = H.address child)
    (hnodup : more.Nodup)
    (hmore : ∀ x, x ∈ more ↔ x ∈ narrow (groupKind H grown).layout S (pre ++ [c.1]))
    (hseen : ∀ hash ∈ seen', hash ∈ r.1 ∨ ∃ q,
      Relation.ReflTransGen (groupKind H grown).layout.Below q child ∧ H.address q = hash) :
    Collected (groupKind H grown) S pre seen₀ (done ++ [c]) (seen', r.2 ++ more) where
  nodup := by
    refine List.nodup_append.mpr ⟨h.nodup, hnodup, fun x hx y hy hxy => ?_⟩
    subst hxy
    obtain ⟨c', hc', _, hstarts⟩ := (h.mem x).mp hx
    exact done_ne hpage c' hc' (digit_unique hstarts ((hmore x).mp hy).2)
  mem x := by
    rw [List.mem_append, h.mem, hmore]
    simp [or_and_right, exists_or]
  seen hash hmem := by
    rcases hseen hash hmem with hmem | ⟨q, hq, heq⟩
    · rcases h.seen hash hmem with hseen₀ | ⟨c', hc', hrest⟩
      · exact .inl hseen₀
      · exact .inr ⟨c', List.mem_append_left _ hc', hrest⟩
    · exact .inr ⟨c, by simp, child, q, hhash.symm, hq, heq⟩

end

variable [DecidableEq η]

/-- A change where there are no pages yet. -/
theorem groupUpdate_none (left : Nat) (hid : pre <+: idRoute H id) (hS : S = ∅) :
    Ends (Refused H) (groupUpdate id operation left s none seen) fun r =>
      s.list ⊆ r.1.list ∧ (groupKind H grown).Denotes r.1 pre r.2 (changed operation id S) := by
  subst hS
  cases operation with
  | remove =>
      simp only [groupUpdate, ends_ok]
      refine ⟨List.Subset.refl _, Set.eq_empty_of_forall_notMem fun x hx => ?_⟩
      simp at hx
  | put =>
      have hone : Ends (Refused H) (writePage s (.group (sortIds [id]) none)) fun r =>
          s.list ⊆ r.1.list ∧ (groupKind H grown).Denotes r.1 pre (some r.2) {x | x ∈ [id]} :=
        writeGroup_ends (List.nodup_singleton _) (by simp) (by simp) (by simpa using hid)
      rw [show sortIds [id] = [id] from List.mergeSort_singleton _] at hone
      have hset : changed .put id (∅ : Set ι) = {x | x ∈ [id]} := by
        ext x
        simp
      simp only [groupUpdate, hset]
      exact named_ends hone

theorem groupUpdate_group {left : Nat} {hash : η}
    (hread : read s hash seen = .ok (.group ids none)) :
    groupUpdate id operation left s (some hash) seen =
      groupLeaf id operation left s hash ids := by
  cases left with
  | zero =>
      rw [groupUpdate, hread]
      rfl
  | succ left =>
      rw [groupUpdate, hread]
      rfl

theorem groupUpdate_branch {left : Nat} {hash : η} {children : List (Digit × η)} {d : Digit}
    (hread : read s hash seen = .ok (.branch children))
    (hdigit : (idRoute H id)[63 - left]? = some d) :
    groupUpdate id operation (left + 1) s (some hash) seen =
      groupUpdate id operation left s (childAt children d) (hash :: seen) >>=
        fun r => linkChild r.1 hash children d r.2 := by
  simp only [groupUpdate, hread, hdigit]
  rfl

/-- A change to a group of pages makes pages of the changed group. -/
theorem groupUpdate_ends (hgrown : operation = .remove → ¬ grown) (left : Nat)
    (hleft : pre.length + left = 64) (hid : pre <+: idRoute H id)
    (h : (groupKind H grown).Denotes s pre root S)
    (hseen : (groupKind H grown).Unseen seen root) :
    Ends (Refused H) (groupUpdate id operation left s root seen) fun r =>
      s.list ⊆ r.1.list ∧ (groupKind H grown).Denotes r.1 pre r.2 (changed operation id S) := by
  induction left generalizing s pre root S seen with
  | zero =>
      cases root with
      | none => exact groupUpdate_none _ hid h
      | some hash =>
          obtain ⟨page, hpage, rfl, hnode⟩ := Kind.exists_page h
          cases page with
          | branch children => exact absurd (Kind.branch_lt hnode) (by omega)
          | leaf entries next => exact absurd hnode not_leaf
          | group ids next =>
              obtain ⟨rfl, hleaf⟩ := group_node hnode
              rw [groupUpdate_group (read_of_mem hpage (hseen _ rfl).not_mem)]
              exact groupLeaf_ends hleft hid hpage hleaf
  | succ left ih =>
      cases root with
      | none => exact groupUpdate_none _ hid h
      | some hash =>
          obtain ⟨page, hpage, rfl, hnode⟩ := Kind.exists_page h
          cases page with
          | branch children =>
              have hdepth : 63 - left = pre.length := by omega
              obtain ⟨d, hdigit, hd⟩ := exists_digit (H.digits_length _) hid (Kind.branch_lt hnode)
              rw [groupUpdate_branch (read_of_mem hpage (hseen _ rfl).not_mem) (hdepth ▸ hdigit)]
              refine (ih (by simp; omega) hd (Kind.denotes_childAt hnode)
                (Kind.unseen_childAt hnode (hseen _ rfl))).bind ?_
              rintro ⟨s', next⟩ ⟨hs, hnext⟩
              rw [← narrow_changed (L := (groupKind H grown).layout) hd] at hnext
              refine (Kind.linkChild_ends hnode hpage rfl hs (fun x hx => ?_)
                (fun x hx => mem_changed_of_not_prefix hd hx) (fun hg => ?_) hnext).mono
                (fun _ h => h) fun r hr => ⟨List.Subset.trans hs hr.1, hr.2⟩
              · exact Kind.route_changed hid (fun y hy => Kind.denotes_route h hy) x hx
              · cases operation with
                | remove => exact absurd hg (hgrown rfl)
                | put =>
                    exact (Kind.wide_of_branch hnode hg).trans_le
                      (Set.encard_le_encard subset_changed_put)
          | leaf entries next => exact absurd hnode not_leaf
          | group ids next =>
              obtain ⟨rfl, hleaf⟩ := group_node hnode
              rw [groupUpdate_group (read_of_mem hpage (hseen _ rfl).not_mem)]
              exact groupLeaf_ends hleft hid hpage hleaf

theorem collect_group {left : Nat} {hash : η} (hread : read s hash seen = .ok (.group ids none))
    (hroute : ∀ x ∈ ids, pre <+: idRoute H x) :
    collect s left hash pre seen = .ok (hash :: seen, ids) := by
  have hall : (ids.all fun id => pre.isPrefixOf (idRoute H id)) = true := by
    simpa using hroute
  have hids : groupIds H pre (.group ids none) = .ok ids := if_pos hall
  cases left with
  | zero =>
      simp only [collect, hread]
      simp only [bind, Except.bind, hids]
      rfl
  | succ left =>
      simp only [collect, hread]
      simp only [bind, Except.bind, hids]
      rfl

theorem collect_branch {left : Nat} {hash : η} {children : List (Digit × η)}
    (hread : read s hash seen = .ok (.branch children)) :
    collect s (left + 1) hash pre seen = children.foldlM (fun r child => do
      let (seen, more) ← collect s left child.2 (pre ++ [child.1]) r.1
      pure (seen, r.2 ++ more)) (hash :: seen, []) := by
  simp only [collect, hread]
  rfl

theorem collect_group_ends {left : Nat} {next : Option η} (hpage : .group ids next ∈ s.list)
    (hnode : (groupKind H grown).Node s pre (.group ids next) S)
    (hapart : Apart (groupKind H grown).layout seen (.group ids next)) :
    Ends (fun _ => False) (collect s left (H.address (.group ids next)) pre seen) fun r =>
      r.2.Nodup ∧ (∀ x, x ∈ r.2 ↔ x ∈ S) ∧
        ∀ hash ∈ r.1, hash ∈ seen ∨ ∃ q, Relation.ReflTransGen
          (groupKind H grown).layout.Below q (.group ids next) ∧ H.address q = hash := by
  obtain ⟨rfl, ids', hsame, hvalid, hS, hroute⟩ := group_node hnode
  obtain ⟨rfl, _⟩ := IndexPage.group.inj hsame
  rw [collect_group (read_of_mem hpage hapart.not_mem) hroute]
  refine ⟨(recordIds_iff.mp hvalid).2.2.imp fun hlt => hlt.ne, fun x => (hS x).symm, ?_⟩
  intro hash hhash
  rcases List.mem_cons.mp hhash with rfl | hhash
  · exact .inr ⟨_, .refl, rfl⟩
  · exact .inl hhash

/-- All of a group is found, and no page of it is read twice. -/
theorem collect_ends (left : Nat) (hleft : pre.length + left = 64) {page : IndexPage η τ ι}
    (hpage : page ∈ s.list) (hnode : (groupKind H grown).Node s pre page S)
    (hapart : Apart (groupKind H grown).layout seen page) :
    Ends (fun _ => False) (collect s left (H.address page) pre seen) fun r =>
      r.2.Nodup ∧ (∀ x, x ∈ r.2 ↔ x ∈ S) ∧
        ∀ hash ∈ r.1, hash ∈ seen ∨ ∃ q,
          Relation.ReflTransGen (groupKind H grown).layout.Below q page ∧ H.address q = hash := by
  induction left generalizing pre page S seen with
  | zero =>
      cases page with
      | branch children => exact absurd (Kind.branch_lt hnode) (by omega)
      | leaf entries next => exact absurd hnode not_leaf
      | group ids next => exact collect_group_ends hpage hnode hapart
  | succ left ih =>
      cases page with
      | leaf entries next => exact absurd hnode not_leaf
      | group ids next => exact collect_group_ends hpage hnode hapart
      | branch children =>
          rw [collect_branch (read_of_mem hpage hapart.not_mem)]
          refine (Ends.foldlM (I := Collected (groupKind H grown) S pre
            (H.address (.branch children) :: seen)) collected_nil ?_).mono (fun _ h => h) ?_
          · rintro done c rest ⟨seen', ids⟩ rfl hdone
            obtain ⟨page, hchild, hhash, hnode'⟩ :=
              Kind.exists_page (hnode.holds_child rfl (c := c) (by simp))
            have hapart' := collected_apart hnode hpage hapart hhash hnode' hdone
            rw [hhash]
            refine (ih (by simp; omega) hchild hnode' hapart').bind ?_
            rintro ⟨seen'', more⟩ ⟨hnodup, hmore, hseen⟩
            exact collected_concat hpage hdone hhash hnodup hmore hseen
          · rintro ⟨seen', ids⟩ h
            refine ⟨h.nodup, fun x => ?_, fun hash hmem => ?_⟩
            · rw [h.mem]
              constructor
              · rintro ⟨c, _, hx⟩
                exact hx.1
              · intro hx
                obtain ⟨c, hc, hstarts⟩ := hnode.cover rfl hx
                exact ⟨c, hc, hx, hstarts⟩
            · rcases h.seen hash hmem with hmem | ⟨c, hc, p, q, hp, hq, heq⟩
              · rcases List.mem_cons.mp hmem with rfl | hmem
                · exact .inr ⟨_, .refl, rfl⟩
                · exact .inl hmem
              · exact .inr ⟨q, hq.tail (List.mem_map.mpr ⟨c, hc, hp.symm⟩), heq⟩

/-- The identifiers of a group are found in order. -/
theorem groupLookup_ends {hash : η} (h : (groupKind H grown).Denotes s [] (some hash) S) :
    Ends (fun _ => False) (groupLookup s hash) fun ids =>
      ids.Pairwise (· < ·) ∧ ∀ x, x ∈ ids ↔ x ∈ S := by
  obtain ⟨page, hpage, rfl, hnode⟩ := Kind.exists_page h
  refine (collect_ends 64 (by simp) hpage hnode apart_nil).bind ?_
  rintro ⟨seen, ids⟩ ⟨hnodup, hmem, _⟩
  exact ⟨sortIds_sorted hnodup, fun x => mem_sortIds.trans (hmem x)⟩

end

end Acc.Storage.IndexTree
