import AgentsCanCommunicate.Storage.IndexMultimap
import Mathlib.Data.Finset.Sort
import Mathlib.Logic.Encodable.Basic
import Mathlib.Logic.Equiv.List

/-!
# The roots of index trees

Trees are made by `build` and `apply`, one root from another.  `Produced` says of a root that it
was made so, whatever else was written between.

A lookup of a produced root never fails and tells a finite set in order, applying changes tells
what the changes make of it, and no root is changed by it (`apply_lookups`).  What only puts made
depends on nothing but what was put: building a tree at once and applying the puts in any order
give one root (`build_eq_apply`).
-/

namespace Acc.Storage.IndexTree

open Library

variable {η τ ι : Type} [LinearOrder τ] [LinearOrder ι] {H : Digests η τ ι} {s s' : Pages H}
  {grown : Prop} {S : Set (τ × ι)} {root root' : Option η} {deltas puts : List (Delta τ ι)}

/-! ## Changes one after another -/

/-- The items after changes. -/
def applied (deltas : List (Delta τ ι)) (S : Set (τ × ι)) : Set (τ × ι) :=
  deltas.foldl (fun S delta => changed delta.operation (delta.tuple, delta.id) S) S

theorem apply_ends [DecidableEq η]
    (hgrown : ∀ delta ∈ deltas, delta.operation = .remove → ¬ grown)
    (h : (tupleKind H grown).Denotes s [] root S) :
    Ends (Refused H) (apply s root deltas) fun r =>
      s.list ⊆ r.1.list ∧ (tupleKind H grown).Denotes r.1 [] r.2 (applied deltas S) := by
  let made (done : List (Delta τ ι)) (r : Pages H × Option η) : Prop :=
    s.list ⊆ r.1.list ∧ (tupleKind H grown).Denotes r.1 [] r.2 (applied done S)
  refine Ends.foldlM (I := made) ⟨List.Subset.refl _, h⟩ ?_
  rintro done delta rest ⟨s', root'⟩ rfl ⟨hs, hroot⟩
  refine (update_ends (hgrown delta (by simp)) List.nil_prefix hroot Kind.unseen_nil).mono
    (fun _ h => h) ?_
  rintro ⟨s'', root''⟩ ⟨hs', hroot'⟩
  refine ⟨List.Subset.trans hs hs', ?_⟩
  rw [applied, List.foldl_append]
  exact hroot'

/-! ## What only puts made -/

/-- What is put. -/
def putItems (puts : List (Delta τ ι)) : Set (τ × ι) := {x | ∃ put ∈ puts, (put.tuple, put.id) = x}

theorem applied_puts (hputs : ∀ put ∈ puts, put.operation = .put) :
    applied puts S = S ∪ putItems puts := by
  induction puts generalizing S with
  | nil => simp [applied, putItems]
  | cons put puts ih =>
      have hput := hputs put (by simp)
      rw [applied, List.foldl_cons, ← applied, ih fun p hp => hputs p (List.mem_cons_of_mem _ hp)]
      ext x
      simp only [Set.mem_union, mem_changed, hput, and_true, putItems, Set.mem_ofPred_eq,
        List.mem_cons, exists_eq_or_imp]
      by_cases hx : x = (put.tuple, put.id)
      · simp [hx]
      · simp [hx, Ne.symm hx]

omit [LinearOrder τ] in
theorem foldl_addId (as : List (Delta τ ι)) {ids : List ι} (h : ids.Nodup) :
    (as.foldl addId ids).Nodup ∧
      ∀ id, id ∈ as.foldl addId ids ↔ id ∈ ids ∨ ∃ put ∈ as, put.id = id := by
  induction as generalizing ids with
  | nil => simpa using h
  | cons put as ih =>
      have hnodup : (addId ids put).Nodup := by
        unfold addId
        split
        next => exact h
        next hnot => exact List.concat_eq_append ▸ h.concat hnot
      have hmem : ∀ id, id ∈ addId ids put ↔ id ∈ ids ∨ put.id = id := by
        intro id
        unfold addId
        split
        next hin =>
            constructor
            · exact .inl
            · rintro (hid | rfl)
              · exact hid
              · exact hin
        next => simp [eq_comm]
      obtain ⟨hnodup', hmem'⟩ := ih hnodup
      refine ⟨hnodup', fun id => ?_⟩
      rw [List.foldl_cons, hmem', hmem]
      simp [or_assoc]

/-- A group is what was put under its tuple. -/
theorem mem_groupsOf {group : τ × List ι} (h : group ∈ groupsOf puts) :
    group.2.Nodup ∧ ∀ id, id ∈ group.2 ↔ (group.1, id) ∈ putItems puts := by
  rw [groupsOf, InsertionMap.mem_entries, gather_get] at h
  have hfold : (puts.filter fun put => some put.tuple = some group.1).foldl addId [] = group.2 := by
    cases hputs : puts.filter fun put => some put.tuple = some group.1 with
    | nil =>
        rw [hputs] at h
        cases h
    | cons put rest =>
        rw [hputs] at h
        exact Option.some.inj h
  obtain ⟨hnodup, hmem⟩ := foldl_addId (puts.filter fun put => some put.tuple = some group.1)
    List.nodup_nil
  rw [hfold] at hnodup hmem
  refine ⟨hnodup, fun id => ?_⟩
  rw [hmem]
  simp [putItems, and_assoc]

theorem groupsOf_tuples : (groupsOf puts).map Prod.fst =
    (gather (fun put : Delta τ ι => some put.tuple) (fun _ => []) addId puts).keys :=
  InsertionMap.entries_keys _

theorem groupsOf_nodup : ((groupsOf puts).map Prod.fst).Nodup := by
  rw [groupsOf_tuples]
  exact InsertionMap.nodup _

theorem mem_groupsOf_tuples {tuple : τ} :
    tuple ∈ (groupsOf puts).map Prod.fst ↔ ∃ put ∈ puts, put.tuple = tuple := by
  rw [groupsOf_tuples, mem_gather_keys]
  simp

variable (grown) in
theorem groupEntry_ends {group : τ × List ι} (h : group ∈ groupsOf puts) :
    Ends (Refused H) (groupEntry s group.1 group.2) fun r =>
      s.list ⊆ r.1.list ∧ r.2.tuple = group.1 ∧
        EntryHolds grown r.1 [] (putItems puts) r.2 := by
  obtain ⟨hnodup, hmem⟩ := mem_groupsOf h
  obtain ⟨put, hput, htuple⟩ := mem_groupsOf_tuples.mp (List.mem_map_of_mem h)
  have hne : sortIds group.2 ≠ [] := by
    rw [Ne, sortIds_nil]
    exact List.ne_nil_of_mem ((hmem put.id).mpr ⟨put, hput, by rw [htuple]⟩)
  have hsorted := sortIds_sorted hnodup
  have hids : under (putItems puts) group.1 = {x | x ∈ sortIds group.2} := by
    ext id
    exact ((mem_sortIds).trans (hmem id)).symm
  unfold groupEntry
  dsimp only
  split
  next hsmall =>
      refine ⟨List.Subset.refl _, rfl, rfl, List.nil_prefix, ?_, fun x => ?_⟩
      · exact recordIds_iff.mpr ⟨hne, hsmall, hsorted⟩
      · exact Set.ext_iff.mp hids x
  next hlarge =>
      have hnodup' : (sortIds group.2).Nodup := hsorted.imp fun hlt => hlt.ne
      have hpages : Ends (Refused H) (groupPages 64 s (sortIds group.2)) fun r =>
          s.list ⊆ r.1.list ∧
            (groupKind H grown).Denotes r.1 [] (some r.2) {x | x ∈ sortIds group.2} :=
        groupPages_ends 64 (by simp) hnodup' hne fun _ _ => List.nil_prefix
      refine hpages.bind ?_
      rintro ⟨s', hash⟩ ⟨hs, hhash⟩
      refine ⟨hs, rfl, rfl, List.nil_prefix, ?_⟩
      rw [hids]
      refine ⟨hhash, fun _ => ?_⟩
      rw [encard_list hnodup']
      exact_mod_cast not_le.mp hlarge

variable (grown) in
/-- A tree that is built holds what is put. -/
theorem build_ends (hputs : ∀ put ∈ puts, put.operation = .put) :
    Ends (Refused H) (build s puts) fun r =>
      s.list ⊆ r.1.list ∧ (tupleKind H grown).Denotes r.1 [] r.2 (putItems puts) := by
  have hany : (puts.any fun put => put.operation ≠ .put) = false := by
    simpa using hputs
  unfold build
  rw [if_neg (Bool.eq_false_iff.mp hany)]
  split
  next hnil =>
      refine ⟨List.Subset.refl _, Set.eq_empty_of_forall_notMem ?_⟩
      rintro x ⟨put, hput, rfl⟩
      have hin : put.tuple ∈ (groupsOf puts).map Prod.fst :=
        mem_groupsOf_tuples.mpr ⟨put, hput, rfl⟩
      simp [hnil] at hin
  next hne =>
      let made (done : List (τ × List ι)) (r : Pages H × List (LeafEntry η τ ι)) : Prop :=
        s.list ⊆ r.1.list ∧ r.2.map LeafEntry.tuple = done.map Prod.fst ∧
          ∀ entry ∈ r.2, EntryHolds grown r.1 [] (putItems puts) entry
      have hrun : Ends (Refused H) ((groupsOf puts).foldlM (fun r group => do
          let made ← groupEntry r.1 group.1 group.2
          pure (made.1, r.2 ++ [made.2])) (s, [])) (made (groupsOf puts)) := by
        refine Ends.foldlM (I := made) ⟨List.Subset.refl _, rfl, by simp⟩ ?_
        rintro done group rest ⟨s', entries⟩ hgroups ⟨hs, htuples, hentries⟩
        have hgroup : group ∈ groupsOf puts := by simp [hgroups]
        refine (groupEntry_ends grown hgroup).bind ?_
        rintro ⟨s'', entry⟩ ⟨hs', htuple, hentry⟩
        refine ⟨List.Subset.trans hs hs', ?_, fun entry' he' => ?_⟩
        · simp [htuples, show entry.tuple = group.1 from htuple]
        · rcases List.mem_append.mp he' with he' | he'
          · exact (hentries entry' he').mono hs'
          · rw [List.mem_singleton.mp he']
            exact hentry
      refine hrun.bind ?_
      rintro ⟨s', entries⟩ ⟨hs, htuples, hentries⟩
      dsimp only at hs htuples hentries ⊢
      have hne' : entries ≠ [] := by
        rintro rfl
        exact hne (List.map_eq_nil_iff.mp htuples.symm)
      have hothers : others entries (putItems puts) = ∅ := by
        refine Set.eq_empty_of_forall_notMem ?_
        rintro x ⟨⟨put, hput, rfl⟩, hnot⟩
        have hin : put.tuple ∈ entries.map LeafEntry.tuple :=
          htuples ▸ mem_groupsOf_tuples.mpr ⟨put, hput, rfl⟩
        obtain ⟨entry, he, heq⟩ := List.mem_map.mp hin
        exact hnot entry he heq
      exact named_ends ((split_ends 64 (by simp) hne' (htuples ▸ groupsOf_nodup) hentries
        hothers).mono (fun _ h => h) fun r hr => ⟨List.Subset.trans hs hr.1, hr.2⟩)

/-! ## One root for what is put -/

theorem IdsHold.same {ids ids' : GroupIds η ι} {T : Set ι} (h : IdsHold True s ids T)
    (h' : IdsHold True s' ids' T) : ids = ids' := by
  have hsmall : ∀ ids : List ι, recordIds ids inlineGroupIds = true → (∀ x, x ∈ T ↔ x ∈ ids) →
      ¬ (inlineGroupIds : ℕ∞) < T.encard := by
    intro ids hvalid hT hlt
    obtain ⟨_, hlength, hsorted⟩ := recordIds_iff.mp hvalid
    rw [show T = {x | x ∈ ids} from Set.ext hT, encard_list (hsorted.imp fun hlt => hlt.ne)] at hlt
    exact absurd (by exact_mod_cast hlt) hlength.not_gt
  cases ids with
  | inline ids =>
      cases ids' with
      | inline ids' => rw [ids_eq h.1 h'.1 fun x => by rw [← h.2, ← h'.2]]
      | paged hash' => exact absurd (h'.2 trivial) (hsmall ids h.1 h.2)
  | paged hash =>
      cases ids' with
      | inline ids' => exact absurd (h.2 trivial) (hsmall ids' h'.1 h'.2)
      | paged hash' => rw [Option.some.inj (group_same h.1 h'.1)]

/-- Where no two tuples have one digest, a leaf goes on in no other. -/
theorem leaf_alone (hinjective : Function.Injective (tupleRoute H)) {pre : List Digit}
    {page : IndexPage η τ ι} (h : TupleLeaf grown s pre page S) :
    ∃ entries, page = .leaf entries none ∧ validateIndexPage page = true ∧
      (∀ entry ∈ entries, EntryHolds grown s pre S entry) ∧ others entries S = ∅ := by
  cases h with
  | last hvalid hentries hothers => exact ⟨_, rfl, hvalid, hentries, hothers⟩
  | more hvalid hlength hentries _ _ hmore =>
      obtain ⟨entry, he⟩ := List.exists_mem_of_ne_nil _ (validate_leaf.mp hvalid).1
      obtain ⟨x, hx⟩ := hmore.nonempty
      have hpre : ∀ tuple, pre <+: tupleRoute H tuple → tupleRoute H tuple = pre :=
        fun tuple hroute => (hroute.eq_of_length (hlength.trans (H.digits_length _).symm)).symm
      have hsame := (hpre _ (hentries entry he).route).trans (hpre _ (hmore.route x hx)).symm
      exact absurd (hinjective hsame) (hx.2 entry he)

theorem EntryHolds.same {pre : List Digit} {entry entry' : LeafEntry η τ ι}
    (h : EntryHolds True s pre S entry) (h' : EntryHolds True s' pre S entry')
    (htuple : entry.tuple = entry'.tuple) : entry = entry' := by
  have hids : entry.ids = entry'.ids := h.ids.same (htuple ▸ h'.ids)
  have hdigest : entry.digest = entry'.digest := by rw [h.digest, h'.digest, htuple]
  cases entry
  cases entry'
  simp_all

/-- The entries of one leaf are among those of the other. -/
theorem entries_subset {pre : List Digit} {entries entries' : List (LeafEntry η τ ι)}
    (h : ∀ entry ∈ entries, EntryHolds True s pre S entry)
    (h' : ∀ entry ∈ entries', EntryHolds True s' pre S entry) (hothers : others entries' S = ∅) :
    ∀ entry ∈ entries, entry ∈ entries' := by
  intro entry he
  obtain ⟨id, hid⟩ := (h entry he).ids.nonempty
  by_contra hnot
  have hin : (entry.tuple, id) ∈ others entries' S := ⟨hid, fun entry' he' htuple =>
    hnot ((h entry he).same (h' entry' he') htuple.symm ▸ he')⟩
  rw [hothers] at hin
  exact hin

/-- A tree that only puts made has one root. -/
theorem tree_same (hinjective : Function.Injective (tupleRoute H))
    (h : (tupleKind H True).Denotes s [] root S) (h' : (tupleKind H True).Denotes s' [] root' S) :
    root = root' := by
  refine Kind.denotes_same ?_ ?_ h h'
  · intro s s' pre page page' S h h'
    obtain ⟨entries, rfl, hvalid, hentries, hothers⟩ := leaf_alone hinjective h
    obtain ⟨entries', rfl, hvalid', hentries', hothers'⟩ := leaf_alone hinjective h'
    rw [eq_of_pairwise_lt (validate_leaf.mp hvalid).2.2.2 (validate_leaf.mp hvalid').2.2.2
      fun entry => ⟨entries_subset hentries hentries' hothers' entry,
        entries_subset hentries' hentries hothers entry⟩]
  · intro s pre page S h hwide
    obtain ⟨entries, rfl, hvalid, hentries, hothers⟩ := leaf_alone hinjective h
    obtain ⟨_, hlength, _, hsorted⟩ := validate_leaf.mp hvalid
    have hlt := hwide trivial
    rw [encard_tuples (hsorted.imp fun hlt => hlt.ne) hentries hothers] at hlt
    exact absurd (by exact_mod_cast hlt) hlength.not_gt

/-- The tree that is built at once has the root that the puts make one after another, in whatever
order and however often they come. -/
theorem build_eq_apply [DecidableEq η] (s s' : Pages H) {puts puts' : List (Delta τ ι)}
    (hinjective : Function.Injective (tupleRoute H))
    (hputs : ∀ put ∈ puts, put.operation = .put) (hputs' : ∀ put ∈ puts', put.operation = .put)
    (hsame : ∀ tuple id, (∃ put ∈ puts, put.tuple = tuple ∧ put.id = id) ↔
      ∃ put ∈ puts', put.tuple = tuple ∧ put.id = id) :
    Ends (Refused H) (build s puts) fun built =>
      Ends (Refused H) (apply s' none puts') fun made => built.2 = made.2 := by
  have hitems : putItems puts = applied puts' ∅ := by
    rw [applied_puts hputs', Set.empty_union]
    ext ⟨tuple, id⟩
    simpa [putItems] using hsame tuple id
  refine (build_ends True hputs).mono (fun _ h => h) fun built hbuilt => ?_
  have hnone : (tupleKind H True).Denotes s' [] none ∅ := rfl
  refine (apply_ends (fun put hput hremove => ?_) hnone).mono (fun _ h => h) fun made hmade => ?_
  · rw [hputs' put hput] at hremove
    cases hremove
  · exact tree_same hinjective (hitems ▸ hbuilt.2) hmade.2

/-! ## Roots that were made -/

/-- A root that building and applying made among the pages, others of which may have been written
since. -/
inductive Produced [DecidableEq η] : Pages H → Option η → Prop where
  | none (s : Pages H) : Produced s none
  | build {s s' : Pages H} {puts : List (Delta τ ι)} {root : Option η} :
      build s puts = .ok (s', root) → Produced s' root
  | apply {s s' : Pages H} {root root' : Option η} {deltas : List (Delta τ ι)} :
      Produced s root → apply s root deltas = .ok (s', root') → Produced s' root'
  | written {s s' : Pages H} {root : Option η} :
      Produced s root → s.list ⊆ s'.list → Produced s' root

/-- The identifiers of a tuple after a change of them. -/
def idsChange (ids : Finset ι) (delta : Delta τ ι) : Finset ι :=
  match delta.operation with
  | .put => insert delta.id ids
  | .remove => ids.erase delta.id

/-- The identifiers of a tuple after changes. -/
def idsAfter (deltas : List (Delta τ ι)) (tuple : τ) (ids : Finset ι) : Finset ι :=
  (deltas.filter fun delta => delta.tuple = tuple).foldl idsChange ids

omit [LinearOrder τ] in
theorem mem_idsChange {delta : Delta τ ι} {ids : Finset ι}
    (h : ∀ id, id ∈ ids ↔ (delta.tuple, id) ∈ S) (id : ι) : id ∈ idsChange ids delta ↔
      (delta.tuple, id) ∈ changed delta.operation (delta.tuple, delta.id) S := by
  rw [idsChange, mem_changed, Prod.mk.injEq, eq_self, true_and, ← h]
  cases delta.operation with
  | put => by_cases hid : id = delta.id <;> simp [hid]
  | remove => simp

theorem mem_idsAfter {tuple : τ} {ids : Finset ι} (h : ∀ id, id ∈ ids ↔ (tuple, id) ∈ S) :
    ∀ id, id ∈ idsAfter deltas tuple ids ↔ (tuple, id) ∈ applied deltas S := by
  induction deltas generalizing S ids with
  | nil => exact h
  | cons delta deltas ih =>
      by_cases htuple : delta.tuple = tuple
      · subst htuple
        have hids : idsAfter (delta :: deltas) delta.tuple ids =
            idsAfter deltas delta.tuple (idsChange ids delta) := by
          simp [idsAfter]
        rw [hids]
        exact ih (mem_idsChange h)
      · have hids : idsAfter (delta :: deltas) tuple ids = idsAfter deltas tuple ids := by
          simp [idsAfter, htuple]
        rw [hids]
        refine ih (S := changed delta.operation (delta.tuple, delta.id) S) fun id => ?_
        rw [h, mem_changed_other (Ne.symm htuple)]

section

variable [DecidableEq η]

theorem Produced.denotes (h : Produced s root) :
    ∃ S, (tupleKind H False).Denotes s [] root S := by
  induction h with
  | none s => exact ⟨∅, rfl⟩
  | @build s s' puts root hbuild =>
      have hputs : ∀ put ∈ puts, put.operation = .put := by
        by_contra hnot
        have hany : (puts.any fun put => put.operation ≠ .put) = true := by
          simpa using hnot
        rw [IndexTree.build, if_pos hany] at hbuild
        cases hbuild
      exact ⟨_, ((build_ends False hputs).value hbuild).2⟩
  | apply _ happly ih =>
      obtain ⟨S, hS⟩ := ih
      exact ⟨_, ((apply_ends (fun _ _ _ h => h) hS).value happly).2⟩
  | written _ hs ih =>
      obtain ⟨S, hS⟩ := ih
      exact ⟨S, Kind.denotes_mono hs hS⟩

/-- A lookup tells the identifiers of a tuple in order. -/
theorem lookup_eq_sort {tuple : τ} {ids : Finset ι} (h : (tupleKind H grown).Denotes s [] root S)
    (hids : ∀ id, id ∈ ids ↔ (tuple, id) ∈ S) :
    lookup s root tuple = .ok (ids.sort (· ≤ ·)) := by
  obtain ⟨found, hfound, hsorted, hmem⟩ := (lookup_ends h tuple).exists_ok
  have hset : found.toFinset = ids := by
    ext id
    rw [List.mem_toFinset, hmem, hids]
  have hnodup : found.Nodup := hsorted.imp fun hlt => hlt.ne
  rw [hfound, ← hset, (List.toFinset_sort _ hnodup).mpr (hsorted.imp le_of_lt)]

/-- A tree of pages is a multimap: looking a tuple up tells its identifiers in order, changes are
told by the new root alone, and no fault is met but a page that is refused. -/
theorem apply_lookups (h : Produced s root) :
    ∃ ids : τ → Finset ι, (∀ tuple, lookup s root tuple = .ok ((ids tuple).sort (· ≤ ·))) ∧
      ∀ deltas, Ends (Refused H) (apply s root deltas) fun r => ∀ tuple,
        lookup r.1 r.2 tuple = .ok ((idsAfter deltas tuple (ids tuple)).sort (· ≤ ·)) ∧
          lookup r.1 root tuple = .ok ((ids tuple).sort (· ≤ ·)) := by
  obtain ⟨S, hS⟩ := h.denotes
  have hids : ∀ tuple, ∃ ids : Finset ι, ∀ id, id ∈ ids ↔ (tuple, id) ∈ S := by
    intro tuple
    obtain ⟨found, _, _, hmem⟩ := (lookup_ends hS tuple).exists_ok
    exact ⟨found.toFinset, fun id => List.mem_toFinset.trans (hmem id)⟩
  choose ids hids using hids
  refine ⟨ids, fun tuple => lookup_eq_sort hS (hids tuple), fun deltas => ?_⟩
  refine (apply_ends (fun _ _ _ h => h) hS).mono (fun _ h => h) fun r hr tuple => ?_
  exact ⟨lookup_eq_sort hr.2 (mem_idsAfter (hids tuple)),
    lookup_eq_sort (Kind.denotes_mono hr.1 hS) (hids tuple)⟩

end

/-! ## Digests by numbers -/

/-- A group as a list of identifiers or a number. -/
def groupCode : GroupIds ℕ ℕ → List ℕ ⊕ ℕ
  | .inline ids => .inl ids
  | .paged hash => .inr hash

theorem groupCode_injective : Function.Injective groupCode := by
  intro ids ids' h
  cases ids <;> cases ids' <;> simp_all [groupCode]

def entryCode (entry : LeafEntry ℕ Bool ℕ) : ℕ × Bool × (List ℕ ⊕ ℕ) :=
  (entry.digest, entry.tuple, groupCode entry.ids)

theorem entryCode_injective : Function.Injective entryCode := by
  rintro ⟨digest, tuple, ids⟩ ⟨digest', tuple', ids'⟩ h
  simp only [entryCode, Prod.mk.injEq] at h
  obtain ⟨rfl, rfl, hids⟩ := h
  rw [groupCode_injective hids]

def pageCode : IndexPage ℕ Bool ℕ →
    List (Digit × ℕ) ⊕ (List (ℕ × Bool × (List ℕ ⊕ ℕ)) × Option ℕ) ⊕ (List ℕ × Option ℕ)
  | .branch children => .inl children
  | .leaf entries next => .inr (.inl (entries.map entryCode, next))
  | .group ids next => .inr (.inr (ids, next))

theorem pageCode_injective : Function.Injective pageCode := by
  intro page page' h
  cases page <;> cases page' <;> simp only [pageCode, Sum.inl.injEq, Sum.inr.injEq, reduceCtorEq,
    Prod.mk.injEq] at h
  · rw [h]
  · rw [List.map_injective_iff.mpr entryCode_injective h.1, h.2]
  · rw [h.1, h.2]

local instance hexadecimal : NeZero 16 := ⟨by decide⟩

/-- Numbers for the pages and the tuples, with their 64 lowest hexadecimal digits. -/
def numbered : Digests ℕ Bool ℕ where
  address page := Encodable.encode (pageCode page)
  digestTuple tuple := tuple.toNat
  idDigest id := id
  digits hash := (List.range 64).map fun i => Fin.ofNat 16 (hash / 16 ^ i)
  fits _ := true
  digits_length _ := by rw [List.length_map, List.length_range]
  address_injective := Encodable.encode_injective.comp pageCode_injective

theorem numbered_injective : Function.Injective (tupleRoute numbered) := by
  have hdigit : ∀ tuple, (tupleRoute numbered tuple)[0]? = some (Fin.ofNat 16 tuple.toNat) := by
    intro tuple
    simp [tupleRoute, numbered]
  intro tuple tuple' h
  have hsame : Fin.ofNat 16 tuple.toNat = Fin.ofNat 16 tuple'.toNat := by
    refine Option.some.inj ?_
    rw [← hdigit, ← hdigit, h]
  revert hsame
  cases tuple <;> cases tuple' <;> decide

theorem build_eq_apply_numbered : Ends (Refused numbered)
    (build (.empty : Pages numbered) [⟨true, 3, .put⟩, ⟨false, 5, .put⟩]) fun built =>
      Ends (Refused numbered)
        (apply (.empty : Pages numbered) none
          [⟨false, 5, .put⟩, ⟨true, 3, .put⟩, ⟨false, 5, .put⟩]) fun made => built.2 = made.2 :=
  build_eq_apply .empty .empty numbered_injective (by decide) (by decide)
    fun tuple id => by simp [or_comm]

theorem apply_lookups_numbered :
    ∃ ids : Bool → Finset ℕ,
      (∀ tuple, lookup (Pages.empty : Pages numbered) none tuple = .ok ((ids tuple).sort (· ≤ ·))) ∧
      ∀ deltas, Ends (Refused numbered) (apply (.empty : Pages numbered) none deltas) fun r =>
        ∀ tuple, lookup r.1 r.2 tuple = .ok ((idsAfter deltas tuple (ids tuple)).sort (· ≤ ·)) ∧
          lookup r.1 none tuple = .ok ((ids tuple).sort (· ≤ ·)) :=
  apply_lookups (.none .empty)

end Acc.Storage.IndexTree
