import AgentsCanCommunicate.Core.DecisionState

/-!
# What the status of a decision depends on

`decisionView` searches one group after another, in the order of its list.  Here
its answer is given without that order: a decision has the status of its place
in its group (`decisionView_eq`), and any list that holds the whole group of a
decision gives it the same status (`decisionView_closed`).
-/

namespace Acc.Core

open Library (Keyed search Leads mem_search search_nodup)

/-! ## Groups as a relation -/

/-- No two of the messages have one id. -/
def Unique (messages : List Message) : Prop :=
  ∀ a ∈ messages, ∀ b ∈ messages, a.messageId = b.messageId → a = b

/-- Two decisions of which one names the other. -/
def Beside (decisions : List Message) (i j : Id) : Prop :=
  ∃ d ∈ decisions, ∃ e ∈ decisions, d.messageId = i ∧ e.messageId = j ∧
    (j ∈ targets d ∨ i ∈ targets e)

/-- Two decisions of one group. -/
abbrev Together (decisions : List Message) : Id → Id → Prop :=
  Relation.ReflTransGen (Beside decisions)

variable {decisions decisions' messages : List Message} {d : Message} {i j : Id}

theorem Unique.sublist (h : Unique messages) (hsub : ∀ m ∈ decisions, m ∈ messages) :
    Unique decisions := by
  intro a ha b hb
  exact h a (hsub a ha) b (hsub b hb)

theorem mem_decisionsOf {m : Message} :
    m ∈ decisionsOf messages ↔ m ∈ messages ∧ m.kind = .decision := by
  simp [decisionsOf]

theorem Beside.symm (h : Beside decisions i j) : Beside decisions j i := by
  obtain ⟨d, hd, e, he, hi, hj, hnamed⟩ := h
  exact ⟨e, he, d, hd, hj, hi, hnamed.symm⟩

theorem Together.symm (h : Together decisions i j) : Together decisions j i := by
  induction h with
  | refl => exact .refl
  | tail _ hstep ih => exact .head hstep.symm ih

/-- What is together with a decision is a decision. -/
theorem Together.listed (h : Together decisions i j) (hi : ∃ d ∈ decisions, d.messageId = i) :
    ∃ d ∈ decisions, d.messageId = j := by
  induction h with
  | refl => exact hi
  | tail _ hstep _ =>
      obtain ⟨_, _, e, he, _, hj, _⟩ := hstep
      exact ⟨e, he, hj⟩

/-- A longer list has the links of a shorter one. -/
theorem Together.mono (hsub : ∀ m ∈ decisions, m ∈ decisions') (h : Together decisions i j) :
    Together decisions' i j := by
  induction h with
  | refl => exact .refl
  | tail _ hstep ih =>
      obtain ⟨d, hd, e, he, hlink⟩ := hstep
      exact ih.tail ⟨d, hsub d hd, e, hsub e he, hlink⟩

theorem findDecision_eq_some (hu : Unique decisions) :
    findDecision decisions i = some d ↔ d ∈ decisions ∧ d.messageId = i := by
  rw [findDecision]
  constructor
  · intro h
    exact ⟨List.mem_of_find?_eq_some h, by simpa using List.find?_some h⟩
  · intro hfacts
    obtain ⟨hd, hid⟩ := hfacts
    cases hfind : decisions.find? fun m => m.messageId = i with
    | none => exact absurd hid (by simpa using List.find?_eq_none.mp hfind d hd)
    | some e =>
        have hkey : e.messageId = i := by simpa using List.find?_some hfind
        rw [hu e (List.mem_of_find?_eq_some hfind) d hd (hkey.trans hid.symm)]

theorem findDecision_isSome :
    (findDecision decisions i).isSome = true ↔ ∃ d ∈ decisions, d.messageId = i := by
  simp [findDecision]

theorem mem_naming : d ∈ naming decisions i ↔ d ∈ decisions ∧ i ∈ targets d := by
  simp [naming]

theorem isReplaced_iff : isReplaced decisions i = true ↔ ∃ d ∈ decisions, i ∈ targets d := by
  rw [isReplaced, decide_eq_true_eq]
  constructor
  · intro h
    obtain ⟨d, hd⟩ := List.exists_mem_of_ne_nil _ h
    exact ⟨d, mem_naming.mp hd⟩
  · intro hfacts
    obtain ⟨d, hd⟩ := hfacts
    exact List.ne_nil_of_mem (mem_naming.mpr hd)

/-! ## The search of a group -/

theorem mem_neighbours (hu : Unique decisions) (hd : d ∈ decisions) :
    j ∈ neighbours decisions d.messageId ↔ Beside decisions d.messageId j := by
  have hfind : findDecision decisions d.messageId = some d :=
    (findDecision_eq_some hu).mpr ⟨hd, rfl⟩
  simp only [neighbours, hfind, Option.map_some, Option.getD_some, List.mem_append,
    List.mem_filter, findDecision_isSome, List.mem_map, mem_naming]
  constructor
  · rintro (⟨htarget, e, he, rfl⟩ | ⟨e, ⟨he, hnames⟩, rfl⟩)
    · exact ⟨d, hd, e, he, rfl, rfl, Or.inl htarget⟩
    · exact ⟨d, hd, e, he, rfl, rfl, Or.inr hnames⟩
  · rintro ⟨d', hd', e, he, hid, rfl, htarget | hnames⟩
    · rw [hu d' hd' d hd hid] at htarget
      exact Or.inl ⟨htarget, e, he, rfl⟩
    · exact Or.inr ⟨e, ⟨he, hnames⟩, rfl⟩

theorem leads_iff_together (hu : Unique decisions) (hi : ∃ d ∈ decisions, d.messageId = i) :
    Leads (neighbours decisions) i j ↔ Together decisions i j := by
  constructor
  · intro h
    induction h with
    | refl => exact .refl
    | tail _ hstep ih =>
        obtain ⟨e, he, rfl⟩ := ih.listed hi
        exact ih.tail ((mem_neighbours hu he).mp hstep)
  · intro h
    induction h with
    | refl => exact .refl
    | tail hbefore hstep ih =>
        obtain ⟨e, he, rfl⟩ := Together.listed hbefore hi
        exact ih.tail ((mem_neighbours hu he).mpr hstep)

/-- The search finds the group. -/
theorem mem_groupOf (hu : Unique decisions) (hi : ∃ d ∈ decisions, d.messageId = i) :
    j ∈ groupOf decisions i ↔ Together decisions i j := by
  have hvertices : ∀ a ∈ decisions.map Message.messageId, ∀ b ∈ neighbours decisions a,
      b ∈ decisions.map Message.messageId := by
    intro a ha b hb
    obtain ⟨e, he, rfl⟩ := List.mem_map.mp ha
    obtain ⟨_, _, e', he', _, rfl, _⟩ := (mem_neighbours hu he).mp hb
    exact List.mem_map_of_mem he'
  have hseeds : ∀ a ∈ [i], a ∈ decisions.map Message.messageId := by
    intro a ha
    obtain ⟨e, he, rfl⟩ := hi
    rw [List.mem_singleton.mp ha]
    exact List.mem_map_of_mem he
  have hfound : j ∈ groupOf decisions i ↔ ∃ s ∈ [i], Leads (neighbours decisions) s j :=
    mem_search hvertices hseeds (List.nodup_singleton i) (by simp)
  rw [hfound, ← leads_iff_together hu hi]
  simp

theorem groupOf_nodup : (groupOf decisions i).Nodup := search_nodup (List.nodup_singleton i)

/-- The members of a group find the same group, in some order. -/
theorem groupOf_perm (hu : Unique decisions) (hi : ∃ d ∈ decisions, d.messageId = i)
    (h : Together decisions i j) : (groupOf decisions i).Perm (groupOf decisions j) := by
  refine (List.perm_ext_iff_of_nodup groupOf_nodup groupOf_nodup).mpr fun k => ?_
  rw [mem_groupOf hu hi, mem_groupOf hu (h.listed hi)]
  exact ⟨fun hk => (Together.symm h).trans hk, fun hk => Relation.ReflTransGen.trans h hk⟩

/-! ## Statuses without an order -/

theorem firstId_perm {ids ids' : List Id} {fallback : Id} (h : ids.Perm ids') :
    firstId ids fallback = firstId ids' fallback := by
  have hsorted : ∀ l : List Id, (l.mergeSort fun a b =>
      decide (codeUnits a.val ≤ codeUnits b.val)).Pairwise
        fun a b => decide (codeUnits a.val ≤ codeUnits b.val) = true := by
    intro l
    refine List.pairwise_mergeSort ?_ ?_ l
    · intro a b c hab hbc
      simp only [decide_eq_true_eq] at hab hbc ⊢
      exact hab.trans hbc
    · intro a b
      simpa using le_total (codeUnits a.val) (codeUnits b.val)
  have heq : ids.mergeSort (fun a b => decide (codeUnits a.val ≤ codeUnits b.val)) =
      ids'.mergeSort fun a b => decide (codeUnits a.val ≤ codeUnits b.val) := by
    refine List.Perm.eq_of_pairwise ?_ (hsorted ids) (hsorted ids') ?_
    · intro a b _ _ hab hba
      simp only [decide_eq_true_eq] at hab hba
      exact Id.codeUnits_injective (le_antisymm hab hba)
    · exact ((List.mergeSort_perm ids _).trans h).trans (List.mergeSort_perm ids' _).symm
  rw [firstId, firstId, heq]

/-- A member has the same status in two groups of the same members, seen among
decisions that say the same about each of them. -/
theorem statusIn_congr {group group' : List Id} (h : group.Perm group') (hi : i ∈ group)
    (hfind : ∀ k ∈ group, findDecision decisions k = findDecision decisions' k)
    (hreplaced : ∀ k ∈ group, isReplaced decisions k = isReplaced decisions' k) :
    statusIn decisions group i = statusIn decisions' group' i := by
  have hheads : (group.filter fun k => !isReplaced decisions k).Perm
      (group'.filter fun k => !isReplaced decisions' k) := by
    rw [List.filter_congr fun k hk => by rw [hreplaced k hk]]
    exact h.filter _
  have hroots : (group.filter fun k =>
        (findDecision decisions k).all fun m => m.decisionChange = none).Perm
      (group'.filter fun k =>
        (findDecision decisions' k).all fun m => m.decisionChange = none) := by
    rw [List.filter_congr fun k hk => by rw [hfind k hk]]
    exact h.filter _
  have hdecision : ((group.filter fun k => !isReplaced decisions k).any fun k =>
        !(findDecision decisions k).any withdraws) =
      (group'.filter fun k => !isReplaced decisions' k).any fun k =>
        !(findDecision decisions' k).any withdraws := by
    rw [← hheads.any_eq, Bool.eq_iff_iff, List.any_eq_true, List.any_eq_true]
    refine exists_congr fun k => and_congr_right fun hk => ?_
    rw [hfind k (List.mem_filter.mp hk).1]
  have hcurrent : (if (group.filter fun k => !isReplaced decisions k).length = 1 then
        (group.filter fun k => !isReplaced decisions k).head? else none) =
      if (group'.filter fun k => !isReplaced decisions' k).length = 1 then
        (group'.filter fun k => !isReplaced decisions' k).head? else none := by
    rw [← hheads.length_eq]
    split
    next hone =>
      obtain ⟨head, hhead⟩ := List.length_eq_one_iff.mp hone
      rw [hhead] at hheads ⊢
      rw [List.perm_singleton.mp hheads.symm]
    next => rfl
  have hgroupId : ∀ roots roots' : List Id, roots.Perm roots' →
      firstId (if roots = [] then group else roots) i =
        firstId (if roots' = [] then group' else roots') i := by
    intro roots roots' hperm
    have hempty : roots = [] ↔ roots' = [] := by
      rw [← List.length_eq_zero_iff, ← List.length_eq_zero_iff, hperm.length_eq]
    split
    next hnil =>
      rw [if_pos (hempty.mp hnil)]
      exact firstId_perm h
    next hne =>
      rw [if_neg fun hnil => hne (hempty.mpr hnil)]
      exact firstId_perm hperm
  simp only [statusIn, hreplaced i hi, hfind i hi, hdecision, hheads.length_eq]
  congr 1
  · simpa only [hheads.length_eq] using hcurrent
  · exact hgroupId _ _ hroots

/-! ## The view -/

/-- Every status given so far is that of its decision in its group. -/
def Assigned (decisions : List Message) (statuses : List (Id × DecisionStatus)) : Prop :=
  ∀ s ∈ statuses, (∃ d ∈ decisions, d.messageId = s.1) ∧
    s.2 = statusIn decisions (groupOf decisions s.1) s.1

theorem assignGroup_assigned (hu : Unique decisions) {statuses : List (Id × DecisionStatus)}
    (h : Assigned decisions statuses) (hd : d ∈ decisions) :
    Assigned decisions (assignGroup decisions statuses d.messageId) := by
  rw [assignGroup]
  split
  · exact h
  · intro s hs
    rcases List.mem_append.mp hs with hs | hs
    · exact h s hs
    · obtain ⟨k, hk, rfl⟩ := List.mem_map.mp hs
      have hlisted : ∃ e ∈ decisions, e.messageId = d.messageId := ⟨d, hd, rfl⟩
      have htogether := (mem_groupOf hu hlisted).mp hk
      exact ⟨htogether.listed hlisted, statusIn_congr (groupOf_perm hu hlisted htogether) hk
        (fun _ _ => rfl) fun _ _ => rfl⟩

/-- A status that was given stays, and the decision in turn has one. -/
theorem assignGroup_covers {statuses : List (Id × DecisionStatus)} :
    (∀ s ∈ statuses, s ∈ assignGroup decisions statuses i) ∧
      ∃ s ∈ assignGroup decisions statuses i, s.1 = i := by
  rw [assignGroup]
  split
  next hfound =>
    obtain ⟨s, hs, hkey⟩ := List.any_eq_true.mp hfound
    exact ⟨fun _ h => h, s, hs, by simpa using hkey⟩
  next =>
    refine ⟨fun _ h => List.mem_append_left _ h, _, List.mem_append_right _
      (List.mem_map_of_mem (a := i) ?_), rfl⟩
    exact Library.subset_search (List.mem_singleton_self i)

theorem foldl_assignGroup (hu : Unique decisions) {starts : List Message}
    {statuses : List (Id × DecisionStatus)} (h : Assigned decisions statuses)
    (hstarts : ∀ e ∈ starts, e ∈ decisions) :
    let result := (starts.map Message.messageId).foldl (assignGroup decisions) statuses
    Assigned decisions result ∧ (∀ s ∈ statuses, s ∈ result) ∧
      ∀ e ∈ starts, ∃ s ∈ result, s.1 = e.messageId := by
  induction starts generalizing statuses with
  | nil => exact ⟨h, fun _ hs => hs, by simp⟩
  | cons e starts ih =>
      have hnext := assignGroup_assigned hu h (hstarts e (List.mem_cons_self ..))
      obtain ⟨hall, hkept, hcovers⟩ := ih hnext fun e' he' => hstarts e' (List.mem_cons_of_mem _ he')
      obtain ⟨hstays, s, hs, hkey⟩ := @assignGroup_covers decisions e.messageId statuses
      refine ⟨hall, fun s hs => hkept s (hstays s hs), ?_⟩
      intro e' he'
      rcases List.mem_cons.mp he' with rfl | he'
      · exact ⟨s, hkept s hs, hkey⟩
      · exact hcovers e' he'

/-- A decision has the status of its place in its group. -/
theorem decisionView_eq (hu : Unique messages) {m : Message} (hm : m ∈ messages)
    (hkind : m.kind = .decision) :
    decisionView messages m = some (statusIn (decisionsOf messages)
      (groupOf (decisionsOf messages) m.messageId) m.messageId) := by
  have hunique : Unique (decisionsOf messages) := hu.sublist fun d hd => (mem_decisionsOf.mp hd).1
  have hempty : Assigned (decisionsOf messages) [] := by
    intro s hs
    cases hs
  obtain ⟨hright, _, hcovers⟩ := foldl_assignGroup hunique hempty fun _ h => h
  obtain ⟨s, hs, hkey⟩ := hcovers m (mem_decisionsOf.mpr ⟨hm, hkind⟩)
  rw [decisionView]
  cases hfind : (decisionStatuses messages).find? fun s => s.1 = m.messageId with
  | none => exact absurd hkey (by simpa using List.find?_eq_none.mp hfind s hs)
  | some found =>
      have hfoundKey : found.1 = m.messageId := by simpa using List.find?_some hfind
      have hstatus := (hright found (List.mem_of_find?_eq_some hfind)).2
      rw [Option.map_some, hstatus, hfoundKey]

/-- What is no decision has no status. -/
theorem decisionView_eq_none {m : Message} (hu : Unique messages)
    (hm : ∀ d ∈ messages, d.kind = .decision → d.messageId ≠ m.messageId) :
    decisionView messages m = none := by
  have hunique : Unique (decisionsOf messages) := hu.sublist fun d hd => (mem_decisionsOf.mp hd).1
  have hempty : Assigned (decisionsOf messages) [] := by
    intro s hs
    cases hs
  obtain ⟨hright, _, _⟩ := foldl_assignGroup hunique hempty fun _ h => h
  rw [decisionView, Option.map_eq_none_iff, List.find?_eq_none]
  intro s hs hkey
  obtain ⟨⟨d, hd, hid⟩, _⟩ := hright s hs
  obtain ⟨hmem, hkind⟩ := mem_decisionsOf.mp hd
  exact hm d hmem hkind (hid.trans (by simpa using hkey))

/-- A message that is no decision has no status, whatever is known. -/
theorem decisionView_of_ne {known : List Message} {m : Message} (hu : Unique messages)
    (hsub : ∀ d ∈ known, d ∈ messages) (hm : m ∈ messages) (hkind : m.kind ≠ .decision) :
    decisionView known m = none := by
  refine decisionView_eq_none (hu.sublist hsub) fun d hd hdecision heq => ?_
  rw [hu d (hsub d hd) m hm heq] at hdecision
  exact hkind hdecision

/-- Some of the messages, which hold the whole group of a decision. -/
structure Closed (known messages : List Message) (i : Id) : Prop where
  sub : ∀ m ∈ known, m ∈ messages
  whole : ∀ d ∈ decisionsOf messages, Together (decisionsOf messages) i d.messageId → d ∈ known

theorem Closed.together {known : List Message} (h : Closed known messages i) :
    Together (decisionsOf known) i j ↔ Together (decisionsOf messages) i j := by
  constructor
  · refine Together.mono fun d hd => ?_
    obtain ⟨hmem, hkind⟩ := mem_decisionsOf.mp hd
    exact mem_decisionsOf.mpr ⟨h.sub d hmem, hkind⟩
  · intro htogether
    induction htogether with
    | refl => exact .refl
    | tail hbefore hstep ih =>
        have hafter := hbefore.tail hstep
        obtain ⟨d, hd, e, he, rfl, rfl, hnamed⟩ := hstep
        have hdknown := mem_decisionsOf.mpr ⟨h.whole d hd hbefore, (mem_decisionsOf.mp hd).2⟩
        have heknown := mem_decisionsOf.mpr ⟨h.whole e he hafter, (mem_decisionsOf.mp he).2⟩
        exact ih.tail ⟨d, hdknown, e, heknown, rfl, rfl, hnamed⟩

/-- A list that holds the whole group of a decision gives it the status that the
longer list gives it. -/
theorem decisionView_closed {known : List Message} {m : Message} (hu : Unique messages)
    (hm : m ∈ known) (hkind : m.kind = .decision) (h : Closed known messages m.messageId) :
    decisionView known m = decisionView messages m := by
  have huknown : Unique known := hu.sublist h.sub
  have hall : Unique (decisionsOf messages) := hu.sublist fun d hd => (mem_decisionsOf.mp hd).1
  have hpart : Unique (decisionsOf known) := huknown.sublist fun d hd => (mem_decisionsOf.mp hd).1
  have hlisted : ∃ d ∈ decisionsOf messages, d.messageId = m.messageId :=
    ⟨m, mem_decisionsOf.mpr ⟨h.sub m hm, hkind⟩, rfl⟩
  have hlistedKnown : ∃ d ∈ decisionsOf known, d.messageId = m.messageId :=
    ⟨m, mem_decisionsOf.mpr ⟨hm, hkind⟩, rfl⟩
  have hperm : (groupOf (decisionsOf known) m.messageId).Perm
      (groupOf (decisionsOf messages) m.messageId) := by
    refine (List.perm_ext_iff_of_nodup groupOf_nodup groupOf_nodup).mpr fun k => ?_
    rw [mem_groupOf hpart hlistedKnown, mem_groupOf hall hlisted, h.together]
  -- A member of the group, with the decision it is.
  have hmember : ∀ k ∈ groupOf (decisionsOf known) m.messageId,
      Together (decisionsOf messages) m.messageId k ∧
        ∃ d ∈ decisionsOf known, d ∈ decisionsOf messages ∧ d.messageId = k := by
    intro k hk
    have htogether := h.together.mp ((mem_groupOf hpart hlistedKnown).mp hk)
    obtain ⟨d, hd, rfl⟩ := htogether.listed hlisted
    exact ⟨htogether, d, mem_decisionsOf.mpr ⟨h.whole d hd htogether, (mem_decisionsOf.mp hd).2⟩,
      hd, rfl⟩
  rw [decisionView_eq huknown hm hkind, decisionView_eq hu (h.sub m hm) hkind]
  refine congrArg some (statusIn_congr hperm ((mem_groupOf hpart hlistedKnown).mpr .refl) ?_ ?_)
  · intro k hk
    obtain ⟨_, d, hdknown, hd, hid⟩ := hmember k hk
    rw [(findDecision_eq_some hpart).mpr ⟨hdknown, hid⟩, (findDecision_eq_some hall).mpr ⟨hd, hid⟩]
  · intro k hk
    obtain ⟨htogether, d, hdknown, hd, rfl⟩ := hmember k hk
    rw [Bool.eq_iff_iff, isReplaced_iff, isReplaced_iff]
    constructor
    · intro hfacts
      obtain ⟨e, he, hnames⟩ := hfacts
      obtain ⟨hmem, hkinde⟩ := mem_decisionsOf.mp he
      exact ⟨e, mem_decisionsOf.mpr ⟨h.sub e hmem, hkinde⟩, hnames⟩
    · intro hfacts
      obtain ⟨e, he, hnames⟩ := hfacts
      have hbeside : Beside (decisionsOf messages) d.messageId e.messageId :=
        ⟨d, hd, e, he, rfl, rfl, Or.inr hnames⟩
      exact ⟨e, mem_decisionsOf.mpr ⟨h.whole e he (htogether.tail hbeside),
        (mem_decisionsOf.mp he).2⟩, hnames⟩

end Acc.Core
