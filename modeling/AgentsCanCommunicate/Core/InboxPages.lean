import AgentsCanCommunicate.Core.InboxScan

/-!
# Following the cursors of a listing

A page ends where its size or its limit ends it, and names the last message it
shows.  The next page starts after that message.  So a reader who follows the
cursors to the end sees everything that is selected, newest first and each
message once (`walk_eq`), as long as one item fits a page.
-/

namespace Acc.Core

open Library (Keyed)

variable {ι : Type} {size : List ι → Id → Nat} {messages : List Viewed} {input : PageInput}
  {include_ : Viewed → Bool} {project : Viewed → ι} {anchor : Option Message}

/-- Every item by itself is within the size of a page. -/
def Fits (size : List ι → Id → Nat) : Prop := ∀ item cursor, size [item] cursor ≤ pageBytes

/-- Every one of these is by itself within the size of a page. -/
def FitAlone (size : List ι → Id → Nat) (project : Viewed → ι) (shown : List Viewed) : Prop :=
  ∀ v ∈ shown, size [project v] v.1.messageId ≤ pageBytes

/-- The pages that follow from a cursor, to the last one. -/
inductive Walk (list : PageInput → Result (Page ι)) (input : PageInput) :
    Option Id → List ι → Prop where
  | last {cursor : Option Id} {page : Page ι} :
      list { input with cursor } = .ok page → page.nextCursor = none →
      Walk list input cursor page.items
  | next {cursor : Option Id} {page : Page ι} {after : Id} {rest : List ι} :
      list { input with cursor } = .ok page → page.nextCursor = some after →
      Walk list input (some after) rest → Walk list input cursor (page.items ++ rest)

/-! ## One page -/

/-- A page shows the first few of what is left, up to one with which it is still within its
size. -/
theorem fillPage_within (items : List ι) (left : List Viewed) :
    fillPage size project items left = items ∨ ∃ before last rest,
      left = before ++ last :: rest ∧
        fillPage size project items left = items ++ (before ++ [last]).map project ∧
        size (items ++ (before ++ [last]).map project) last.1.messageId ≤ pageBytes := by
  induction left generalizing items with
  | nil => exact .inl rfl
  | cons m left ih =>
      rw [fillPage]
      split
      next => exact .inl rfl
      next hfits =>
        have hone : items ++ [project m] = items ++ ([] ++ [m]).map project := rfl
        rcases ih (items ++ [project m]) with heq | ⟨before, last, rest, rfl, heq, hsize⟩
        · exact .inr ⟨[], m, left, rfl, heq.trans hone, Nat.not_lt.mp hfits⟩
        · refine .inr ⟨m :: before, last, rest, rfl, ?_, ?_⟩
          · rw [heq, List.append_assoc]
            rfl
          · rw [List.append_assoc] at hsize
            exact hsize

/-- What a page shows of what is selected: all of it, or what comes before a rest that the
cursor leads to. -/
inductive Shown (size : List ι → Id → Nat) (project : Viewed → ι) (selected : List Viewed) :
    Page ι → Prop where
  | nothing : selected = [] → Shown size project selected ⟨[], none⟩
  | all {before : List Viewed} {last : Viewed} : selected = before ++ [last] →
      size ((before ++ [last]).map project) last.1.messageId ≤ pageBytes →
      Shown size project selected ⟨(before ++ [last]).map project, none⟩
  | some {before rest : List Viewed} {last : Viewed} : selected = before ++ last :: rest →
      rest ≠ [] → size ((before ++ [last]).map project) last.1.messageId ≤ pageBytes →
      Shown size project selected ⟨(before ++ [last]).map project, some last.1.messageId⟩

/-- A page that begins with something is not empty. -/
theorem fillPage_shows {left : List Viewed} (hfits : FitAlone size project left) (hleft : left ≠ []) :
    ∃ before last rest, left = before ++ last :: rest ∧
      fillPage size project [] left = (before ++ [last]).map project ∧
      size ((before ++ [last]).map project) last.1.messageId ≤ pageBytes := by
  rcases @fillPage_within ι size project [] left with heq | hshown
  · cases left with
    | nil => exact absurd rfl hleft
    | cons m left =>
        have hfirst := hfits m List.mem_cons_self
        rw [fillPage, List.nil_append, if_neg (not_lt.mpr hfirst)] at heq
        rcases @fillPage_within ι size project [project m] left with hone | ⟨_, _, _, _, hmore, _⟩
        · cases hone.symm.trans heq
        · cases hmore.symm.trans heq
  · exact hshown

/-- The page of the items that fit. -/
theorem shown_of_fill {selected before rest : List Viewed} {last : Viewed} {limit : Nat}
    (hsplit : selected.take limit = before ++ last :: rest)
    (hsize : size ((before ++ [last]).map project) last.1.messageId ≤ pageBytes) :
    Shown size project selected ⟨(before ++ [last]).map project,
      if ((before ++ [last]).map project).length < selected.length then
        (selected[((before ++ [last]).map project).length - 1]?).map fun m => m.1.messageId
      else none⟩ := by
  have hselected : selected = before ++ last :: (rest ++ selected.drop limit) := by
    have happend := List.take_append_drop limit selected
    rw [hsplit, List.append_assoc, List.cons_append] at happend
    exact happend.symm
  generalize rest ++ selected.drop limit = others at hselected
  have hlength : ((before ++ [last]).map project).length = before.length + 1 := by simp
  rw [hlength, Nat.add_sub_cancel]
  by_cases hothers : others = []
  · have hall : ¬before.length + 1 < selected.length := by
      rw [hselected, hothers]
      simp
    rw [if_neg hall]
    exact .all (hothers ▸ hselected) hsize
  · have hmore : before.length + 1 < selected.length := by
      have hpos := List.length_pos_iff.mpr hothers
      rw [hselected, List.length_append, List.length_cons]
      omega
    have hcursor : selected[before.length]? = some last := by
      rw [hselected, List.getElem?_append_right (Nat.le_refl _), Nat.sub_self,
        List.getElem?_cons_zero]
    rw [if_pos hmore, hcursor, Option.map_some]
    exact .some hselected hothers hsize

/-- A page of a limit that is allowed. -/
theorem messagePage_shows
    (hfits : FitAlone size project (pageSelection messages input include_ anchor))
    (hlimit : 1 ≤ input.limit.getD defaultLimit ∧ input.limit.getD defaultLimit ≤ 500)
    (hanchor : pageAnchor messages input = .ok anchor) :
    ∃ page, messagePage size messages input include_ project = .ok page ∧
      Shown size project (pageSelection messages input include_ anchor) page := by
  -- The items of the page decide it.
  have hok : ∀ {items : List ι}, fillPage size project []
        ((pageSelection messages input include_ anchor).take (input.limit.getD defaultLimit)) =
          items → (pageSelection messages input include_ anchor ≠ [] → items ≠ []) →
      messagePage size messages input include_ project = .ok ⟨items,
        if items.length < (pageSelection messages input include_ anchor).length then
          ((pageSelection messages input include_ anchor)[items.length - 1]?).map
            fun m => m.1.messageId
        else none⟩ := by
    intro items hitems hne
    simp only [messagePage, bind_eq_ok, pure_eq_ok, refuse_eq_ok, hanchor]
    refine ⟨(), by omega, anchor, rfl, (), ?_, by rw [hitems]⟩
    rw [hitems]
    rintro ⟨hsome, hzero⟩
    exact hne hsome (List.length_eq_zero_iff.mp hzero)
  generalize pageSelection messages input include_ anchor = selected at hfits hok ⊢
  by_cases hempty : selected = []
  · subst hempty
    have hpage := @hok [] (by rw [List.take_nil, fillPage]) fun h => absurd rfl h
    exact ⟨_, hpage, .nothing rfl⟩
  · have htaken : selected.take (input.limit.getD defaultLimit) ≠ [] := by
      intro hnil
      rcases List.take_eq_nil_iff.mp hnil with hzero | hnil
      · omega
      · exact hempty hnil
    have hfirst : FitAlone size project (selected.take (input.limit.getD defaultLimit)) :=
      fun v hv => hfits v (List.mem_of_mem_take hv)
    obtain ⟨before, last, rest, hsplit, hfill, hsize⟩ := fillPage_shows hfirst htaken
    exact ⟨_, hok hfill fun _ => by simp, shown_of_fill hsplit hsize⟩

/-- A page that was given shows of what is selected. -/
theorem shown_of_messagePage {page : Page ι}
    (hpage : messagePage size messages input include_ project = .ok page)
    (hanchor : pageAnchor messages input = .ok anchor) :
    Shown size project (pageSelection messages input include_ anchor) page := by
  simp only [messagePage, bind_eq_ok, pure_eq_ok, refuse_eq_ok, hanchor] at hpage
  obtain ⟨_, hlimit, _, hfound, _, hshown, rfl⟩ := hpage
  cases hfound
  generalize pageSelection messages input include_ anchor = selected at hshown ⊢
  rcases @fillPage_within ι size project [] (selected.take (input.limit.getD defaultLimit)) with
    hnone | ⟨before, last, rest, hsplit, hfill, hsize⟩
  · have hempty : selected = [] := by
      by_contra hne
      exact hshown ⟨hne, by rw [hnone]; rfl⟩
    subst hempty
    rw [hnone]
    exact .nothing rfl
  · rw [hfill]
    exact shown_of_fill hsplit hsize

/-! ## The next page -/

/-- The selection is sorted, and holds what is asked for after the anchor. -/
theorem mem_pageSelection {v : Viewed} :
    v ∈ pageSelection messages input include_ anchor ↔
      v ∈ messages ∧ include_ v = true ∧ (input.kind.all fun kind => v.1.kind = kind) = true ∧
        ∀ a, anchor = some a → pageKey v.1 < pageKey a := by
  simp only [pageSelection, List.mem_mergeSort, List.mem_filter, Bool.and_eq_true,
    Option.all_eq_true, Bool.not_eq_true', ← Bool.not_eq_true, newestFirst_iff, not_le]
  rw [and_assoc]

theorem pageSelection_sorted :
    (pageSelection messages input include_ anchor).Pairwise
      fun a b => newestFirst a.1 b.1 = true := by
  refine List.pairwise_mergeSort ?_ ?_ _
  · intro a b c hab hbc
    rw [newestFirst_iff] at hab hbc ⊢
    exact hbc.trans hab
  · intro a b
    rw [Bool.or_eq_true, newestFirst_iff, newestFirst_iff]
    exact le_total _ _

theorem pageSelection_strict (hdistinct : Distinct Prod.fst messages) (hnodup : messages.Nodup) :
    (pageSelection messages input include_ anchor).Pairwise
      fun a b => pageKey b.1 < pageKey a.1 := by
  have hdup : (pageSelection messages input include_ anchor).Nodup :=
    (List.mergeSort_perm _ _).nodup_iff.mpr (hnodup.filter _)
  have hsorted : (pageSelection messages input include_ anchor).Pairwise
      fun a b => newestFirst a.1 b.1 = true := pageSelection_sorted
  refine (hsorted.and hdup).imp_of_mem fun {a b} ha hb hab => ?_
  refine lt_of_le_of_ne (newestFirst_iff.mp hab.1) fun heq => hab.2 ?_
  exact hdistinct a (mem_pageSelection.mp ha).1 b (mem_pageSelection.mp hb).1
    (messageId_of_pageKey heq.symm)

theorem pageSelection_nodup (hnodup : messages.Nodup) :
    (pageSelection messages input include_ anchor).Nodup :=
  (List.mergeSort_perm _ _).nodup_iff.mpr (hnodup.filter _)

/-- After the last message of a page comes what the page left. -/
theorem pageSelection_after (hdistinct : Distinct Prod.fst messages) (hnodup : messages.Nodup)
    {k : Nat} {last : Viewed}
    (hlast : (pageSelection messages input include_ anchor)[k]? = some last) :
    pageSelection messages input include_ (some last.1) =
      (pageSelection messages input include_ anchor).drop (k + 1) := by
  have hsplit : pageSelection messages input include_ anchor =
      (pageSelection messages input include_ anchor).take k ++
        last :: (pageSelection messages input include_ anchor).drop (k + 1) := by
    obtain ⟨hk, heq⟩ := List.getElem?_eq_some_iff.mp hlast
    rw [← heq, ← List.drop_eq_getElem_cons hk, List.take_append_drop]
  have hsorted : (pageSelection messages input include_ anchor).Pairwise
      fun a b => newestFirst a.1 b.1 = true := pageSelection_sorted
  have hdup : (pageSelection messages input include_ anchor).Nodup := pageSelection_nodup hnodup
  rw [hsplit] at hsorted hdup
  have hbefore := (List.pairwise_append.mp hsorted).2.2
  have hafter := List.pairwise_cons.mp (List.pairwise_append.mp hsorted).2.1
  have hlastMem := mem_pageSelection.mp (List.mem_of_getElem? hlast)
  -- What the page left is what comes strictly after its last message.
  have hmem : ∀ v, v ∈ (pageSelection messages input include_ anchor).drop (k + 1) ↔
      v ∈ pageSelection messages input include_ anchor ∧ pageKey v.1 < pageKey last.1 := by
    intro v
    constructor
    · intro hv
      have hsel := List.mem_of_mem_drop hv
      refine ⟨hsel, lt_of_le_of_ne (newestFirst_iff.mp (hafter.1 v hv)) fun heq => ?_⟩
      have hvlast : v = last := hdistinct v (mem_pageSelection.mp hsel).1 last hlastMem.1
        (messageId_of_pageKey heq)
      rw [hvlast] at hv
      exact (List.nodup_cons.mp (List.nodup_append.mp hdup).2.1).1 hv
    · intro hfacts
      obtain ⟨hsel, hlt⟩ := hfacts
      rw [hsplit] at hsel
      rcases List.mem_append.mp hsel with htake | hrest
      · have hle := newestFirst_iff.mp (hbefore v htake last (List.mem_cons_self ..))
        exact absurd hlt (not_lt.mpr hle)
      · rcases List.mem_cons.mp hrest with rfl | hrest
        · exact absurd hlt (lt_irrefl _)
        · exact hrest
  have hperm : (pageSelection messages input include_ (some last.1)).Perm
      ((pageSelection messages input include_ anchor).drop (k + 1)) := by
    refine (List.perm_ext_iff_of_nodup (pageSelection_nodup hnodup)
      ((pageSelection_nodup hnodup).sublist (List.drop_sublist _ _))).mpr fun v => ?_
    rw [hmem, mem_pageSelection, mem_pageSelection]
    constructor
    · intro hfacts
      obtain ⟨hv, hinclude, hkind, hlt⟩ := hfacts
      have hvlast := hlt last.1 rfl
      exact ⟨⟨hv, hinclude, hkind, fun a ha => hvlast.trans (hlastMem.2.2.2 a ha)⟩, hvlast⟩
    · intro hfacts
      obtain ⟨⟨hv, hinclude, hkind, _⟩, hvlast⟩ := hfacts
      refine ⟨hv, hinclude, hkind, fun a ha => ?_⟩
      cases ha
      exact hvlast
  refine List.Perm.eq_of_pairwise ?_ pageSelection_sorted
    (pageSelection_sorted.sublist (List.drop_sublist _ _)) hperm
  intro a b ha hb hab hba
  refine hdistinct a (mem_pageSelection.mp ha).1 b
    (mem_pageSelection.mp (List.mem_of_mem_drop hb)).1 (messageId_of_pageKey ?_)
  exact le_antisymm (newestFirst_iff.mp hba) (newestFirst_iff.mp hab)

/-- A cursor whose message is in the list is found. -/
theorem pageAnchor_found (hdistinct : Distinct Prod.fst messages) {v : Viewed}
    (hmem : v ∈ messages) (hkind : (input.kind.all fun kind => v.1.kind = kind) = true) :
    pageAnchor messages { input with cursor := some v.1.messageId } = .ok (some v.1) := by
  have hfind : (messages.find? fun m => m.1.messageId = v.1.messageId) = some v := by
    cases hfind : messages.find? fun m => m.1.messageId = v.1.messageId with
    | none =>
        have hnone := List.find?_eq_none.mp hfind v hmem
        simp at hnone
    | some found =>
        have hid : found.1.messageId = v.1.messageId := by simpa using List.find?_some hfind
        rw [hdistinct found (List.mem_of_find?_eq_some hfind) v hmem hid]
  simp only [pageAnchor, hfind, Option.filter_some, hkind]
  rfl

/-! ## All pages -/

/-- Whoever followed the cursors to the end has seen everything selected, in order. -/
theorem Walk.items_eq (hdistinct : Distinct Prod.fst messages) (hnodup : messages.Nodup)
    {cursor : Option Id} {items : List ι}
    (hwalk : Walk (fun input => messagePage size messages input include_ project) input cursor items)
    (hanchor : pageAnchor messages { input with cursor } = .ok anchor) :
    items = (pageSelection messages input include_ anchor).map project := by
  induction hwalk generalizing anchor with
  | @last cursor page hpage hend =>
      have hshown := shown_of_messagePage hpage hanchor
      change Shown size project (pageSelection messages input include_ anchor) page at hshown
      cases hshown with
      | nothing hnothing => rw [hnothing]; rfl
      | all hall => rw [hall]
      | some => cases hend
  | @next cursor page after rest hpage hafter _ ih =>
      have hshown := shown_of_messagePage hpage hanchor
      change Shown size project (pageSelection messages input include_ anchor) page at hshown
      cases hshown with
      | nothing => cases hafter
      | all => cases hafter
      | @some before others last hsplit =>
          cases hafter
          have hat : (pageSelection messages input include_ anchor)[before.length]? = .some last := by
            rw [hsplit, List.getElem?_append_right (Nat.le_refl _), Nat.sub_self,
              List.getElem?_cons_zero]
          obtain ⟨hmem, -, hkind, -⟩ := mem_pageSelection.mp (List.mem_of_getElem? hat)
          have hrest : rest = others.map project := by
            rw [ih (pageAnchor_found hdistinct hmem hkind), pageSelection_after hdistinct hnodup hat,
              hsplit, List.append_cons, List.drop_left' (by simp)]
          rw [hrest, hsplit, ← List.map_append, List.append_assoc, List.singleton_append]

/-- What a page is asked of. -/
structure Listing (ι : Type) where
  messages : List Viewed
  include_ : Viewed → Bool
  project : Viewed → ι

/-- A message that a listing would show. -/
def Listing.Lists (listing : Listing ι) (kind : Option MessageKind) (m : Message) : Prop :=
  ∃ v ∈ listing.messages, v.1 = m ∧ listing.include_ v = true ∧ (kind.all fun k => m.kind = k) = true

/-- A listing of distinct messages, each of which fits a page, with the items told apart by
the messages they are of. -/
structure Listing.Sound (size : List ι → Id → Nat) (idOf : ι → Id) (listing : Listing ι) :
    Prop where
  distinct : Distinct Prod.fst listing.messages
  nodup : listing.messages.Nodup
  fits : FitAlone size listing.project (listing.messages.filter listing.include_)
  idOf : ∀ v, idOf (listing.project v) = v.1.messageId

/-- Every message of the first stays in the second, listed or not. -/
def Listing.Stays (listing later : Listing ι) : Prop :=
  ∀ v ∈ listing.messages, ∃ v' ∈ later.messages, v'.1 = v.1

/-- The items of the first `n` pages, each asked of the listing of its time, and the cursor
that the last of them gives. -/
inductive Followed (size : List ι → Id → Nat) (listings : Nat → Listing ι) (input : PageInput) :
    Nat → List ι → Option Id → Prop where
  | start : Followed size listings input 0 [] none
  | step {n : Nat} {shown : List ι} {cursor : Option Id} {page : Page ι} {after : Id} :
      Followed size listings input n shown cursor →
      messagePage size (listings n).messages { input with cursor } (listings n).include_
        (listings n).project = .ok page →
      page.nextCursor = some after →
      Followed size listings input (n + 1) (shown ++ page.items) (some after)

variable {listings : Nat → Listing ι} {idOf : ι → Id}

/-- What holds after some pages: the messages shown stand newest first, the cursor is the last
of them, and what was listed all the time was shown or comes after it. -/
structure Followed.Inv (listings : Nat → Listing ι) (idOf : ι → Id) (input : PageInput) (n : Nat)
    (shown : List ι) (cursor : Option Id) (told : List Message) (anchor : Option Message) :
    Prop where
  shown : shown.map idOf = told.map Message.messageId
  sorted : told.Pairwise fun a b => pageKey b < pageKey a
  fresh : anchor = none → told = []
  least : ∀ a, anchor = some a → ∀ m ∈ told, pageKey a ≤ pageKey m
  cursor : cursor = anchor.map Message.messageId
  stays : ∀ a, anchor = some a → (∃ v ∈ (listings n).messages, v.1 = a) ∧
    (input.kind.all fun kind => a.kind = kind) = true
  listed : ∀ m, (∀ i < n, (listings i).Lists input.kind m) →
    m ∈ told ∨ ∀ a, anchor = some a → pageKey m < pageKey a

variable {n : Nat} {shown : List ι} {cursor : Option Id} {told : List Message}

theorem Followed.Inv.initial : Followed.Inv listings idOf input 0 [] none [] none where
  shown := rfl
  sorted := .nil
  fresh := fun _ => rfl
  least := fun _ h => absurd h.symm (Option.some_ne_none _)
  cursor := rfl
  stays := fun _ h => absurd h.symm (Option.some_ne_none _)
  listed := fun _ _ => .inr fun _ h => absurd h.symm (Option.some_ne_none _)

/-- The next page is never refused. -/
theorem Followed.Inv.page (h : Followed.Inv listings idOf input n shown cursor told anchor)
    (hsound : (listings n).Sound size idOf)
    (hlimit : 1 ≤ input.limit.getD defaultLimit ∧ input.limit.getD defaultLimit ≤ 500) :
    ∃ page, messagePage size (listings n).messages { input with cursor } (listings n).include_
        (listings n).project = .ok page ∧
      Shown size (listings n).project
        (pageSelection (listings n).messages input (listings n).include_ anchor) page := by
  have hanchor : pageAnchor (listings n).messages { input with cursor } = .ok anchor := by
    cases hanchor : anchor with
    | none =>
        rw [h.cursor, hanchor]
        rfl
    | some a =>
        obtain ⟨⟨v, hv, rfl⟩, hkind⟩ := h.stays a hanchor
        rw [h.cursor, hanchor]
        exact pageAnchor_found hsound.distinct hv hkind
  have hfits : FitAlone size (listings n).project (pageSelection (listings n).messages
      { input with cursor } (listings n).include_ anchor) := by
    intro v hv
    obtain ⟨hmem, hinclude, -⟩ := mem_pageSelection.mp hv
    exact hsound.fits v (List.mem_filter.mpr ⟨hmem, hinclude⟩)
  exact messagePage_shows hfits hlimit hanchor

/-- What is listed now and comes after the cursor is selected. -/
theorem Followed.Inv.selected (h : Followed.Inv listings idOf input n shown cursor told anchor)
    {m : Message} (hm : ∀ i ≤ n, (listings i).Lists input.kind m) :
    m ∈ told ∨ ∃ v ∈ pageSelection (listings n).messages input (listings n).include_ anchor,
      v.1 = m := by
  rcases h.listed m fun i hi => hm i (Nat.le_of_lt hi) with htold | hafter
  · exact .inl htold
  · obtain ⟨v, hv, rfl, hinclude, hkind⟩ := hm n (Nat.le_refl n)
    exact .inr ⟨v, mem_pageSelection.mpr ⟨hv, hinclude, hkind, hafter⟩, rfl⟩

/-- What a page selects comes after what was shown before. -/
theorem Followed.Inv.later (h : Followed.Inv listings idOf input n shown cursor told anchor)
    {v : Viewed} (hv : v ∈ pageSelection (listings n).messages input (listings n).include_ anchor)
    {m : Message} (hm : m ∈ told) : pageKey v.1 < pageKey m := by
  cases hanchor : anchor with
  | none =>
      rw [h.fresh hanchor] at hm
      cases hm
  | some a =>
      have hbefore := (mem_pageSelection.mp hv).2.2.2 a hanchor
      exact lt_of_lt_of_le hbefore (h.least a hanchor m hm)

theorem Listing.Sound.strict {listing : Listing ι} (h : listing.Sound size idOf)
    (input : PageInput) (anchor : Option Message) :
    (pageSelection listing.messages input listing.include_ anchor).Pairwise
      fun a b => pageKey b.1 < pageKey a.1 :=
  pageSelection_strict h.distinct h.nodup

theorem Listing.Sound.map_idOf {listing : Listing ι} (h : listing.Sound size idOf)
    (first : List Viewed) :
    (first.map listing.project).map idOf = (first.map Prod.fst).map Message.messageId := by
  rw [List.map_map, List.map_map]
  exact List.map_congr_left fun v _ => h.idOf v

/-- A page that shows the beginning of what is selected goes on newest first. -/
theorem Followed.Inv.sorted_append
    (h : Followed.Inv listings idOf input n shown cursor told anchor)
    (hsound : (listings n).Sound size idOf) {first rest : List Viewed}
    (hsplit : pageSelection (listings n).messages input (listings n).include_ anchor =
      first ++ rest) :
    (told ++ first.map Prod.fst).Pairwise fun a b => pageKey b < pageKey a := by
  have hstrict := hsound.strict input anchor
  rw [hsplit] at hstrict
  refine List.pairwise_append.mpr ⟨h.sorted, ?_, ?_⟩
  · exact List.pairwise_map.mpr (List.pairwise_append.mp hstrict).1
  · intro m hm m' hm'
    obtain ⟨v, hv, rfl⟩ := List.mem_map.mp hm'
    exact h.later (hsplit ▸ List.mem_append_left _ hv) hm

/-- A page that has a successor keeps what holds. -/
theorem Followed.Inv.next (h : Followed.Inv listings idOf input n shown cursor told anchor)
    (hsound : (listings n).Sound size idOf) (hstays : (listings n).Stays (listings (n + 1)))
    {before rest : List Viewed} {last : Viewed}
    (hsplit : pageSelection (listings n).messages input (listings n).include_ anchor =
      before ++ last :: rest) :
    Followed.Inv listings idOf input (n + 1)
      (shown ++ (before ++ [last]).map (listings n).project) (some last.1.messageId)
      (told ++ (before ++ [last]).map Prod.fst) (some last.1) := by
  have hsplit' : pageSelection (listings n).messages input (listings n).include_ anchor =
      (before ++ [last]) ++ rest := by
    rw [hsplit, List.append_assoc, List.singleton_append]
  have hlast : last ∈ pageSelection (listings n).messages input (listings n).include_ anchor := by
    rw [hsplit]
    exact List.mem_append_right _ List.mem_cons_self
  have hstrict := hsound.strict input anchor
  rw [hsplit] at hstrict
  obtain ⟨-, hrest, hbefore⟩ := List.pairwise_append.mp hstrict
  refine ⟨?_, h.sorted_append hsound hsplit', fun h => absurd h (Option.some_ne_none _), ?_, rfl,
    ?_, ?_⟩
  · rw [List.map_append, h.shown, hsound.map_idOf, ← List.map_append]
  · rintro _ ⟨⟩ m hm
    rcases List.mem_append.mp hm with hm | hm
    · exact (h.later hlast hm).le
    · obtain ⟨v, hv, rfl⟩ := List.mem_map.mp hm
      rcases List.mem_append.mp hv with hv | hv
      · exact (hbefore v hv last List.mem_cons_self).le
      · rw [List.mem_singleton.mp hv]
  · rintro _ ⟨⟩
    obtain ⟨hmem, -, hkind, -⟩ := mem_pageSelection.mp hlast
    exact ⟨hstays last hmem, hkind⟩
  · intro m hm
    rcases h.selected fun i hi => hm i (Nat.lt_succ_of_le hi) with htold | ⟨v, hv, rfl⟩
    · exact .inl (List.mem_append_left _ htold)
    · rw [hsplit'] at hv
      rcases List.mem_append.mp hv with hv | hv
      · exact .inl (List.mem_append_right _ (List.mem_map_of_mem hv))
      · right
        rintro _ ⟨⟩
        exact (List.pairwise_cons.mp hrest).1 v hv

/-- What holds after every page. -/
theorem Followed.inv (hsound : ∀ n, (listings n).Sound size idOf)
    (hstays : ∀ n, (listings n).Stays (listings (n + 1)))
    (hlimit : 1 ≤ input.limit.getD defaultLimit ∧ input.limit.getD defaultLimit ≤ 500)
    (h : Followed size listings input n shown cursor) :
    ∃ told anchor, Followed.Inv listings idOf input n shown cursor told anchor := by
  induction h with
  | start => exact ⟨[], none, .initial⟩
  | @step n shown cursor page after _ hpage hafter ih =>
      obtain ⟨told, anchor, hinv⟩ := ih
      obtain ⟨page', hpage', hshows⟩ := hinv.page (hsound n) hlimit
      rw [hpage] at hpage'
      cases hpage'
      cases hshows with
      | nothing => cases hafter
      | all => cases hafter
      | some hsplit =>
          cases hafter
          exact ⟨_, _, hinv.next (hsound n) (hstays n) hsplit⟩

/-- The last page completes what was shown: it stands newest first, and holds each message
that was listed all the time. -/
theorem Followed.Inv.complete (h : Followed.Inv listings idOf input n shown cursor told anchor)
    (hsound : (listings n).Sound size idOf) {page : Page ι}
    (hshows : Shown size (listings n).project
      (pageSelection (listings n).messages input (listings n).include_ anchor) page)
    (hlast : page.nextCursor = none) :
    ∃ all : List Message, (shown ++ page.items).map idOf = all.map Message.messageId ∧
      all.Pairwise (fun a b => pageKey b < pageKey a) ∧
      ∀ m, (∀ i ≤ n, (listings i).Lists input.kind m) → m ∈ all := by
  have hitems : page.items = (pageSelection (listings n).messages input
      (listings n).include_ anchor).map (listings n).project := by
    cases hshows with
    | nothing hnothing => rw [hnothing]; rfl
    | all hall => rw [hall]
    | some => cases hlast
  refine ⟨told ++ (pageSelection (listings n).messages input (listings n).include_ anchor).map
    Prod.fst, ?_, h.sorted_append hsound (List.append_nil _).symm, fun m hm => ?_⟩
  · rw [hitems, List.map_append, h.shown, hsound.map_idOf, List.map_append]
  · rcases h.selected hm with htold | ⟨v, hv, rfl⟩
    · exact List.mem_append_left _ htold
    · exact List.mem_append_right _ (List.mem_map_of_mem hv)

end Acc.Core
