import AgentsCanCommunicate.Core.DecisionView
import AgentsCanCommunicate.Core.Run

/-!
# Groups of decisions

A decision names only decisions that were there before it.  So the links have no
cycle, every group has a head, and a decision that names every head of the groups
it touches is afterwards the only head of the one group they become.

The invariant is `Grounded`.  It says that the decisions can be ranked, and that a
change went to everyone whom the decisions it names concern.  A prune breaks it,
because it may take a decision away that another one still names, so it is about
runs in which nothing is pruned.
-/

namespace Acc.Core

open Library (Keyed)

section

variable [LinearOrder ReceiptId]

variable {w w' : Workspace} {ports : Ports} {m d : Message} {i j : Id}

theorem unique_messages (w : Workspace) : Unique w.messages.list := by
  intro a ha b hb heq
  exact Keyed.eq_of_key (Keyed.mem_list.mp ha) (Keyed.mem_list.mp hb) heq

/-- The decisions of a workspace. -/
def Workspace.decisions (w : Workspace) : List Message := decisionsOf w.messages.list

theorem mem_decisions : m ∈ w.decisions ↔ m ∈ w.messages ∧ m.kind = .decision := by
  rw [Workspace.decisions, mem_decisionsOf, Keyed.mem_list]

theorem unique_decisions (w : Workspace) : Unique w.decisions :=
  (unique_messages w).sublist fun _ h => (mem_decisionsOf.mp h).1

/-- A message names a decision. -/
def Names (w : Workspace) (i j : Id) : Prop :=
  ∃ m ∈ w.messages, m.messageId = i ∧ j ∈ targets m

/-- The status a message has among all the messages. -/
def statusOf (w : Workspace) (message : Message) : Option DecisionStatus :=
  decisionView w.messages.list message

/-- Two messages are in one group of decisions. -/
def SameGroup (w : Workspace) (i j : Id) : Prop := Together w.decisions i j

/-! ## The invariant -/

structure Grounded (w : Workspace) : Prop where
  /-- Every decision comes after those it names. -/
  ranked : ∃ rank : Id → Nat, ∀ m ∈ w.messages, ∀ i ∈ targets m, rank i < rank m.messageId
  named : ∀ m ∈ w.messages, ∀ i ∈ targets m, ∃ d ∈ w.messages, d.messageId = i ∧ d.kind = .decision
  decision : ∀ m ∈ w.messages, targets m ≠ [] → m.kind = .decision
  /-- A change went to everyone whom a decision it names concerns, but its sender. -/
  reached : ∀ m ∈ w.messages, ∀ d ∈ w.messages, d.messageId ∈ targets m → ∀ i, Concerns w d i →
    i ≠ m.fromParticipantId → ∃ r ∈ w.receipts, r.receiptId = ⟨m.messageId, i⟩

theorem grounded_initial (workspaceId : Id) : Grounded (.initial workspaceId) := by
  constructor
  case ranked => exact ⟨fun _ => 0, fun m hm => absurd hm Keyed.mem_empty⟩
  all_goals
    intro m hm
    exact absurd hm Keyed.mem_empty

omit [LinearOrder ReceiptId] in
/-- Only a decision passes its check with a change. -/
theorem decision_of_validateMessage (h : validateMessage m = .ok ()) (hnames : targets m ≠ []) :
    m.kind = .decision := by
  simp only [validateMessage, bind_eq_ok] at h
  obtain ⟨_, _, _, _, _, _, _, _, _, _, hsemantics⟩ := h
  simp only [assertMessageSemantics, bind_eq_ok, refuse_eq_ok] at hsemantics
  obtain ⟨_, hchange, _⟩ := hsemantics
  by_contra hkind
  refine hchange ⟨fun hnone => hnames ?_, hkind⟩
  rw [targets, hnone]
  rfl

/-- Writing a receipt again concerns the same participants. -/
theorem concerns_putReceipt {r r' : Receipt} (hr : r ∈ w.receipts)
    (hkey : r'.receiptId = r.receiptId) : Concerns (w.putReceipt r') d i ↔ Concerns w d i := by
  refine or_congr_right ?_
  constructor
  · rintro ⟨s, hs, hsid⟩
    rcases Keyed.mem_put.mp hs with rfl | ⟨hs, -⟩
    · exact ⟨r, hr, hkey.symm.trans hsid⟩
    · exact ⟨s, hs, hsid⟩
  · rintro ⟨s, hs, hsid⟩
    by_cases heq : s.receiptId = r'.receiptId
    · exact ⟨r', Keyed.mem_put.mpr (Or.inl rfl), heq.symm.trans hsid⟩
    · exact ⟨s, Keyed.mem_put.mpr (Or.inr ⟨hs, heq⟩), hsid⟩

theorem Grounded.putReceipt (h : Grounded w) {r r' : Receipt} (hr : r ∈ w.receipts)
    (hkey : r'.receiptId = r.receiptId) : Grounded (w.putReceipt r') := by
  refine ⟨h.ranked, h.named, h.decision, ?_⟩
  intro m hm d hd hnamed i hi hne
  obtain ⟨s, hs, hsid⟩ := h.reached m hm d hd hnamed i ((concerns_putReceipt hr hkey).mp hi) hne
  have hstill : Concerns (w.putReceipt r') m i :=
    (concerns_putReceipt hr hkey).mpr (Or.inr ⟨s, hs, hsid⟩)
  exact hstill.resolve_left fun heq => hne heq.symm

/-- A new message concerns the participants of the ones before it no more and no
less. -/
theorem concerns_recorded {recipients : List Id} {now : Timestamp} (hd : d.messageId ≠ m.messageId) :
    Concerns (recordedMessage w m recipients now) d i ↔ Concerns w d i := by
  refine or_congr_right ?_
  have hunnamed : (⟨d.messageId, i⟩ : ReceiptId) ∉
      (recipients.map fun i => queuedReceipt m i now).map Receipt.receiptId := by
    intro hmem
    obtain ⟨r, hr, heq⟩ := List.mem_map.mp hmem
    obtain ⟨p, -, rfl⟩ := List.mem_map.mp hr
    exact hd (congrArg ReceiptId.messageId heq).symm
  constructor
  · rintro ⟨r, hr, hrid⟩
    rcases Keyed.mem_putAll hr with hr | ⟨hr, -⟩
    · exact absurd (hrid ▸ List.mem_map_of_mem hr) hunnamed
    · exact ⟨r, hr, hrid⟩
  · rintro ⟨r, hr, hrid⟩
    exact ⟨r, Keyed.mem_putAll_of_mem hr (hrid ▸ hunnamed), hrid⟩

/-- A new decision names older ones and is named by none. -/
theorem Grounded.recorded (h : Grounded w) {recipients : List Id} {now : Timestamp}
    (hm : NewMessage w m recipients) : Grounded (recordedMessage w m recipients now) := by
  have hfresh : ∀ d ∈ w.messages, d.messageId ≠ m.messageId := Keyed.get?_eq_none.mp hm.fresh
  have hunnamed : ∀ d ∈ w.messages, m.messageId ∉ targets d := by
    intro d hd hnamed
    obtain ⟨e, he, hid, _⟩ := h.named d hd _ hnamed
    exact hfresh e he hid
  have hself : m.messageId ∉ targets m := by
    intro hnamed
    obtain ⟨e, he, hid, _⟩ := hm.named _ hnamed
    exact hfresh e he hid
  constructor
  · -- The new decision is ranked above all that it names.
    obtain ⟨rank, hrank⟩ := h.ranked
    refine ⟨fun k => if k = m.messageId then ((targets m).map rank).sum + 1 else rank k, ?_⟩
    intro d hd i hi
    rcases Keyed.mem_put.mp hd with rfl | ⟨hd, hne⟩
    · have hne : i ≠ d.messageId := fun heq => hself (heq ▸ hi)
      dsimp only
      rw [if_neg hne, if_pos rfl]
      exact Nat.lt_succ_of_le (List.single_le_sum (fun _ _ => Nat.zero_le _) _
        (List.mem_map_of_mem hi))
    · have hne' : i ≠ m.messageId := fun heq => hunnamed d hd (heq ▸ hi)
      dsimp only
      rw [if_neg hne', if_neg hne]
      exact hrank d hd i hi
  · intro d hd i hi
    have hold : ∃ e ∈ w.messages, e.messageId = i ∧ e.kind = .decision := by
      rcases Keyed.mem_put.mp hd with rfl | ⟨hd, -⟩
      · exact hm.named i hi
      · exact h.named d hd i hi
    obtain ⟨e, he, hid, hkind⟩ := hold
    exact ⟨e, Keyed.mem_put.mpr (Or.inr ⟨he, hfresh e he⟩), hid, hkind⟩
  · intro d hd hnames
    rcases Keyed.mem_put.mp hd with rfl | ⟨hd, -⟩
    · exact decision_of_validateMessage hm.valid hnames
    · exact h.decision d hd hnames
  · intro d hd e he hnamed i hi hne
    have heold : e ∈ w.messages := by
      rcases Keyed.mem_put.mp he with rfl | ⟨he, -⟩
      · rcases Keyed.mem_put.mp hd with rfl | ⟨hd, -⟩
        · exact absurd hnamed hself
        · exact absurd hnamed (hunnamed d hd)
      · exact he
    have hconcerns := (concerns_recorded (hfresh e heold)).mp hi
    rcases Keyed.mem_put.mp hd with rfl | ⟨hd, hdne⟩
    · have hrecipient := hm.reached e heold hnamed i hconcerns hne
      exact Keyed.exists_mem_putAll
        (Or.inr ⟨queuedReceipt d i now, List.mem_map_of_mem hrecipient, rfl⟩)
    · obtain ⟨r, hr, hrid⟩ := h.reached d hd e heold hnamed i hconcerns hne
      exact Keyed.exists_mem_putAll (Or.inl ⟨r, hr, hrid⟩)

theorem Change.grounded (h : Change w w') (hw : Grounded w) : Grounded w' := by
  cases h with
  | message hm => exact hw.recorded hm
  | receipt hr => exact hw.putReceipt hr.mem hr.receiptId
  | _ => exact ⟨hw.ranked, hw.named, hw.decision, hw.reached⟩

theorem Changes.grounded (h : Changes w w') (hw : Grounded w) : Grounded w' := by
  induction h with
  | refl => exact hw
  | tail _ hstep ih => exact hstep.grounded ih

theorem Unpruned.grounded (h : Unpruned w) : Grounded w :=
  h.invariant grounded_initial (fun _ _ _ _ hw hstep => hstep.grounded hw)
    fun _ _ hr hw => hw.putReceipt hr rfl

/-! ## Links and heads -/

theorem Grounded.acyclic (h : Grounded w) (i : Id) : ¬Relation.TransGen (Names w) i i := by
  obtain ⟨rank, hrank⟩ := h.ranked
  have hdown : ∀ i j, Relation.TransGen (Names w) i j → rank j < rank i := by
    intro i j hij
    induction hij with
    | single hstep =>
        obtain ⟨m, hm, rfl, hnamed⟩ := hstep
        exact hrank m hm _ hnamed
    | tail _ hstep ih =>
        obtain ⟨m, hm, rfl, hnamed⟩ := hstep
        exact (hrank m hm _ hnamed).trans ih
  intro hcycle
  exact (hdown i i hcycle).false

/-- A message that no decision names. -/
def IsHead (w : Workspace) (message : Message) : Prop :=
  isCurrentDecision (statusOf w message) = true

theorem statusOf_decision (hd : d ∈ w.decisions) :
    statusOf w d = some (statusIn w.decisions (groupOf w.decisions d.messageId) d.messageId) :=
  decisionView_eq (unique_messages w) (Keyed.mem_list.mpr (mem_decisions.mp hd).1)
    (mem_decisions.mp hd).2

theorem isHead_iff (hd : d ∈ w.decisions) :
    IsHead w d ↔ ∀ m ∈ w.decisions, d.messageId ∉ targets m := by
  rw [IsHead, statusOf_decision hd]
  have hreplaced : isReplaced w.decisions d.messageId = false ↔
      ∀ m ∈ w.decisions, d.messageId ∉ targets m := by
    rw [← Bool.not_eq_true, isReplaced_iff]
    simp
  rw [← hreplaced]
  simp [isCurrentDecision, statusIn]

/-- The decision that was recorded last in a group is a head. -/
theorem Grounded.exists_head (h : Grounded w) (hd : d ∈ w.decisions) :
    ∃ e ∈ w.decisions, SameGroup w d.messageId e.messageId ∧ IsHead w e := by
  obtain ⟨rank, hrank⟩ := h.ranked
  have hlisted : ∃ e ∈ w.decisions, e.messageId = d.messageId := ⟨d, hd, rfl⟩
  have hself : d.messageId ∈ (groupOf w.decisions d.messageId).toFinset :=
    List.mem_toFinset.mpr ((mem_groupOf (unique_decisions w) hlisted).mpr .refl)
  obtain ⟨last, hlast, hmax⟩ := Finset.exists_max_image _ rank ⟨_, hself⟩
  have htogether : SameGroup w d.messageId last :=
    (mem_groupOf (unique_decisions w) hlisted).mp (List.mem_toFinset.mp hlast)
  obtain ⟨e, he, rfl⟩ := htogether.listed hlisted
  refine ⟨e, he, htogether, (isHead_iff he).mpr ?_⟩
  intro m hm hnamed
  have hbeside : Beside w.decisions e.messageId m.messageId :=
    ⟨e, he, m, hm, rfl, rfl, Or.inr hnamed⟩
  have hlater := hmax m.messageId (List.mem_toFinset.mpr
    ((mem_groupOf (unique_decisions w) hlisted).mpr (htogether.tail hbeside)))
  exact absurd (hrank m (mem_decisions.mp hm).1 _ hnamed) (not_lt.mpr hlater)

/-- Messages that hold the whole group of a message give it its status. -/
theorem statusOf_local {known : List Message} (hd : d ∈ w.messages)
    (hknown : ∀ m ∈ known, m ∈ w.messages)
    (hwhole : ∀ m ∈ w.messages, SameGroup w d.messageId m.messageId → m ∈ known) :
    decisionView known d = statusOf w d := by
  have hclosed : Closed known w.messages.list d.messageId := by
    constructor
    · intro m hm
      exact Keyed.mem_list.mpr (hknown m hm)
    · intro m hm hgroup
      exact hwhole m (Keyed.mem_list.mp (mem_decisionsOf.mp hm).1) hgroup
  by_cases hkind : d.kind = .decision
  · exact decisionView_closed (unique_messages w) (hwhole d hd .refl) hkind hclosed
  · have hlisted := Keyed.mem_list.mpr hd
    rw [statusOf, decisionView_of_ne (unique_messages w) (fun _ h => h) hlisted hkind]
    exact decisionView_of_ne (unique_messages w) hclosed.sub hlisted hkind

/-! ## A change that settles groups -/

/-- A message names every head of each group it names a decision of. -/
def NamesHeads (w : Workspace) (message : Message) : Prop :=
  ∀ i ∈ targets message, ∀ d ∈ w.decisions, SameGroup w i d.messageId → IsHead w d →
    d.messageId ∈ targets message

/-- A decision stands alone at the head of a group, for every member of it. -/
def Settles (w : Workspace) (message : Message) : Prop :=
  ∀ d ∈ w.messages, SameGroup w message.messageId d.messageId → ∃ status,
    statusOf w d = some status ∧ status.headCount = 1 ∧ status.conflicted = false ∧
      status.currentMessageId = some message.messageId ∧ (status.isHead = true ↔ d = message)

omit [LinearOrder ReceiptId] in
/-- In a group with one head every member sees that head. -/
theorem statusIn_soleHead {decisions : List Message} {group : List Id} (hgroup : group.Nodup)
    (hj : j ∈ group) (hsole : ∀ k ∈ group, isReplaced decisions k = false ↔ k = j)
    (hi : i ∈ group) :
    (statusIn decisions group i).headCount = 1 ∧
      (statusIn decisions group i).conflicted = false ∧
      (statusIn decisions group i).currentMessageId = some j ∧
      ((statusIn decisions group i).isHead = true ↔ i = j) := by
  have hheads : (group.filter fun k => !isReplaced decisions k) = [j] := by
    refine List.perm_singleton.mp ((List.perm_ext_iff_of_nodup (hgroup.filter _)
      (List.nodup_singleton j)).mpr fun k => ?_)
    simp only [List.mem_filter, Bool.not_eq_true', List.mem_singleton]
    constructor
    · intro hfacts
      obtain ⟨hk, hhead⟩ := hfacts
      exact (hsole k hk).mp hhead
    · rintro rfl
      exact ⟨hj, (hsole k hj).mpr rfl⟩
  simp only [statusIn, hheads, List.length_singleton, Bool.not_eq_true', hsole i hi]
  simp

/-- What is together with a new decision is that decision, or was together with
one it names. -/
theorem together_recorded {recipients : List Id} {now : Timestamp} (h : Grounded w)
    (hm : NewMessage w m recipients)
    (hgroup : SameGroup (recordedMessage w m recipients now) m.messageId j) :
    j = m.messageId ∨ ∃ i ∈ targets m, SameGroup w i j := by
  have hfresh : ∀ d ∈ w.messages, d.messageId ≠ m.messageId := Keyed.get?_eq_none.mp hm.fresh
  have hunnamed : ∀ d ∈ (recordedMessage w m recipients now).decisions,
      m.messageId ∉ targets d := by
    intro d hd hnamed
    rcases Keyed.mem_put.mp (mem_decisions.mp hd).1 with rfl | ⟨hd, -⟩
    · obtain ⟨e, he, hid, _⟩ := hm.named _ hnamed
      exact hfresh e he hid
    · obtain ⟨e, he, hid, _⟩ := h.named d hd _ hnamed
      exact hfresh e he hid
  have hnew : ∀ d ∈ (recordedMessage w m recipients now).decisions,
      d = m ∨ (d ∈ w.decisions ∧ d.messageId ≠ m.messageId) := by
    intro d hd
    obtain ⟨hmem, hkind⟩ := mem_decisions.mp hd
    rcases Keyed.mem_put.mp hmem with heq | ⟨hmem, hne⟩
    · exact Or.inl heq
    · exact Or.inr ⟨mem_decisions.mpr ⟨hmem, hkind⟩, hne⟩
  induction hgroup with
  | refl => exact Or.inl rfl
  | tail _ hstep ih =>
      obtain ⟨x, hx, y, hy, rfl, rfl, hnamed⟩ := hstep
      rcases hnew y hy with rfl | ⟨hyOld, -⟩
      · exact Or.inl rfl
      · right
        rcases hnew x hx with rfl | ⟨hxOld, hxne⟩
        · exact ⟨y.messageId, hnamed.resolve_right (hunnamed y hy), .refl⟩
        · obtain ⟨i, hi, hix⟩ := ih.resolve_left hxne
          exact ⟨i, hi, hix.tail ⟨x, hxOld, y, hyOld, rfl, rfl, hnamed⟩⟩

/-- The groups a new decision names become its own. -/
theorem sameGroup_recorded {recipients : List Id} {now : Timestamp}
    (hm : NewMessage w m recipients) (hi : i ∈ targets m) (hgroup : SameGroup w i j) :
    SameGroup (recordedMessage w m recipients now) m.messageId j := by
  have hkind := decision_of_validateMessage hm.valid (List.ne_nil_of_mem hi)
  have hkept : ∀ d ∈ w.decisions, d ∈ (recordedMessage w m recipients now).decisions := by
    intro d hd
    obtain ⟨hmem, hkind⟩ := mem_decisions.mp hd
    exact mem_decisions.mpr ⟨Keyed.mem_put.mpr
      (Or.inr ⟨hmem, Keyed.get?_eq_none.mp hm.fresh d hmem⟩), hkind⟩
  obtain ⟨d, hd, rfl, hdkind⟩ := hm.named i hi
  have hbeside : Beside (recordedMessage w m recipients now).decisions m.messageId d.messageId :=
    ⟨m, mem_decisions.mpr ⟨Keyed.mem_put.mpr (Or.inl rfl), hkind⟩, d,
      hkept d (mem_decisions.mpr ⟨hd, hdkind⟩), rfl, rfl, Or.inl hi⟩
  exact (Relation.ReflTransGen.single hbeside).trans (Together.mono hkept hgroup)

theorem settles_recorded {recipients : List Id} {now : Timestamp} (h : Grounded w)
    (hm : NewMessage w m recipients) (hnames : targets m ≠ []) (hheads : NamesHeads w m) :
    Settles (recordedMessage w m recipients now) m := by
  have hunique := unique_decisions (recordedMessage w m recipients now)
  have hmdecision : m ∈ (recordedMessage w m recipients now).decisions :=
    mem_decisions.mpr ⟨Keyed.mem_put.mpr (Or.inl rfl), decision_of_validateMessage hm.valid hnames⟩
  have hfresh : ∀ d ∈ w.messages, d.messageId ≠ m.messageId := Keyed.get?_eq_none.mp hm.fresh
  have hlisted : ∃ e ∈ (recordedMessage w m recipients now).decisions,
      e.messageId = m.messageId := ⟨m, hmdecision, rfl⟩
  -- The heads of its group: itself, which nothing names, and no other.
  have hsole : ∀ k, SameGroup (recordedMessage w m recipients now) m.messageId k →
      (isReplaced (recordedMessage w m recipients now).decisions k = false ↔ k = m.messageId) := by
    intro k hk
    rw [← Bool.not_eq_true, isReplaced_iff]
    constructor
    · intro hhead
      by_contra hne
      obtain ⟨i, hi, hik⟩ := (together_recorded h hm hk).resolve_left hne
      obtain ⟨d₀, hd₀, rfl, hkind₀⟩ := hm.named i hi
      obtain ⟨d, hd, rfl⟩ := Together.listed hik ⟨d₀, mem_decisions.mpr ⟨hd₀, hkind₀⟩, rfl⟩
      have hdhead : IsHead w d := by
        refine (isHead_iff hd).mpr fun e he hnamed => hhead ?_
        obtain ⟨hmem, hkind⟩ := mem_decisions.mp he
        exact ⟨e, mem_decisions.mpr
          ⟨Keyed.mem_put.mpr (Or.inr ⟨hmem, hfresh e hmem⟩), hkind⟩, hnamed⟩
      exact hhead ⟨m, hmdecision, hheads d₀.messageId hi d hd hik hdhead⟩
    · rintro rfl ⟨e, he, hnamed⟩
      rcases Keyed.mem_put.mp (mem_decisions.mp he).1 with rfl | ⟨hmem, -⟩
      · obtain ⟨x, hx, hid, _⟩ := hm.named _ hnamed
        exact hfresh x hx hid
      · obtain ⟨x, hx, hid, _⟩ := h.named e hmem _ hnamed
        exact hfresh x hx hid
  intro d hd hgroup
  obtain ⟨e, he, hid⟩ := Together.listed hgroup hlisted
  have hdd : d ∈ (recordedMessage w m recipients now).decisions := by
    rw [Keyed.eq_of_key hd (mem_decisions.mp he).1 hid.symm]
    exact he
  have hperm := groupOf_perm hunique hlisted hgroup
  have hmem : ∀ k, k ∈ groupOf (recordedMessage w m recipients now).decisions d.messageId ↔
      SameGroup (recordedMessage w m recipients now) m.messageId k := by
    intro k
    rw [← hperm.mem_iff, mem_groupOf hunique hlisted]
    rfl
  obtain ⟨hcount, hconflicted, hcurrent, hhead⟩ := statusIn_soleHead groupOf_nodup
    ((hmem _).mpr .refl) (fun k hk => hsole k ((hmem k).mp hk)) ((hmem _).mpr hgroup)
  refine ⟨_, statusOf_decision hdd, hcount, hconflicted, hcurrent, hhead.trans ?_⟩
  constructor
  · intro heq
    exact Keyed.eq_of_key hd (mem_decisions.mp hmdecision).1 heq
  · rintro rfl
    rfl

/-! ## Recording a change -/

/-- A message that was sent is found, or recorded after all that its call wrote
before. -/
theorem sendMessage_eq_ok {input : SendInput} (hw : Homed w)
    (h : sendMessage w ports input = .ok (w', m)) :
    ∃ w₁, Changes w w₁ ∧ w₁.messages = w.messages ∧ w₁.receipts = w.receipts ∧
      ((m ∈ w₁.messages ∧ w' = w₁) ∨
        ∃ recipients, NewMessage w₁ m recipients ∧ w' = recordedMessage w₁ m recipients ports.now) := by
  simp only [sendMessage, bind_eq_ok] at h
  obtain ⟨session, hsession, w₁, hw₁, htx⟩ := h
  have hid := hw.located (requireSession_eq_ok hsession).1
  have hensured := (ensureMaterialised_writes hw hid hw₁).changes hw
  have htx := Workspace.transaction_eq_ok htx
  simp only [bind_eq_ok, pure_eq_ok, Prod.mk.injEq] at htx
  obtain ⟨⟨w₂, done⟩, hdone, rfl, rfl⟩ := htx
  refine ⟨w₁, hensured, untouched_messages.ensureMaterialised hw₁,
    untouched_receipts.ensureMaterialised hw₁, ?_⟩
  obtain ⟨_, prepared, hprepared, hcases⟩ := recordMessage_eq_ok hdone
  rcases hcases with ⟨message, hretry, rfl, rfl⟩ |
    ⟨message, recipients, hretry, hmessage, hrecipients, hfresh, rfl, rfl⟩
  · exact Or.inl ⟨(findMessageRetry_some hretry).mem, rfl⟩
  · exact Or.inr ⟨recipients, newMessage (hensured.homed hw) (hid.trans hensured.workspaceId.symm)
      (prepareMessage_eq_ok hprepared) hretry (messageRecord_eq_ok hmessage) hrecipients hfresh, rfl⟩

/-- What holds of the decisions of a workspace. -/
structure WellFormedGroups (w : Workspace) : Prop where
  /-- The links have no cycle. -/
  acyclic : ∀ i, ¬Relation.TransGen (Names w) i i
  /-- Every group has a head. -/
  head : ∀ d ∈ w.decisions, ∃ e ∈ w.decisions, SameGroup w d.messageId e.messageId ∧ IsHead w e
  /-- A status depends on the messages of its own group only. -/
  alone : ∀ d ∈ w.messages, ∀ known : List Message, (∀ m ∈ known, m ∈ w.messages) →
    (∀ m ∈ w.messages, SameGroup w d.messageId m.messageId → m ∈ known) →
    decisionView known d = decisionView w.messages.list d
  /-- A change has a receipt for everyone whom a decision it names concerns, but
  its sender. -/
  reached : ∀ m ∈ w.messages, ∀ d ∈ w.messages, d.messageId ∈ targets m → ∀ i, Concerns w d i →
    i ≠ m.fromParticipantId → ∃ r ∈ w.receipts, r.receiptId = ⟨m.messageId, i⟩
  /-- A change that names the heads of a group is from then on its only head. -/
  settles : ∀ ports input w' m, sendMessage w ports input = .ok (w', m) → m ∉ w.messages →
    targets m ≠ [] → NamesHeads w m →
    Settles w' m ∧ ∀ i ∈ targets m, ∀ j, SameGroup w i j → SameGroup w' m.messageId j

/-- Groups of decisions are well formed wherever nothing was pruned. -/
theorem groups_wellFormed (h : Unpruned w) : WellFormedGroups w where
  acyclic := h.grounded.acyclic
  head _ hd := h.grounded.exists_head hd
  alone _ hd _ hknown hwhole := statusOf_local hd hknown hwhole
  reached := h.grounded.reached
  settles := by
    intro ports input w' m hsend hnew hnames hheads
    obtain ⟨w₁, hchanges, hmessages, _, hcases⟩ := sendMessage_eq_ok h.reachable.homed hsend
    have hground : Grounded w₁ := hchanges.grounded h.grounded
    have hdecisions : w₁.decisions = w.decisions := by
      rw [Workspace.decisions, hmessages]
      rfl
    rcases hcases with ⟨hfound, -⟩ | ⟨recipients, hm, rfl⟩
    · exact absurd (hmessages ▸ hfound) hnew
    · have hheads₁ : NamesHeads w₁ m := by
        simpa only [NamesHeads, SameGroup, IsHead, statusOf, hdecisions, hmessages] using hheads
      refine ⟨settles_recorded hground hm hnames hheads₁, ?_⟩
      intro i hi j hij
      refine sameGroup_recorded hm hi ?_
      rw [SameGroup, hdecisions]
      exact hij

end

/-! ## A decision that was replaced -/

/-- One session sends a decision, and the other replaces it. -/
def sampleReplacedCalls : List (Ports × Call) :=
  [ (samplePorts 0 (sampleId "generation_a"),
      .openSession (sampleOpen (sampleId "session_a") (sampleId "ann") "claude")),
    (samplePorts 10 (sampleId "generation_b"),
      .openSession (sampleOpen (sampleId "session_b") (sampleId "bob") "codex")),
    (samplePorts 20 (sampleId "decision_1"),
      .sendMessage ⟨sampleId "session_a", none, sampleId "generation_a",
        sampleMessage (sampleId "client_1") ["bob"] .decision .acknowledge, none⟩),
    (samplePorts 30 (sampleId "decision_2"),
      .sendMessage ⟨sampleId "session_b", none, sampleId "generation_b",
        { sampleMessage (sampleId "client_2") [] .decision .acknowledge with
          supersedes := some [sampleId "decision_1"] }, none⟩)]

theorem sampleReplaced_runs :
    ((Workspace.initial (sampleId "workspace_1")).calls sampleReplacedCalls).toOption.isSome =
      true := by decide +kernel

def sampleReplaced : Workspace :=
  ((Workspace.initial (sampleId "workspace_1")).calls sampleReplacedCalls).toOption.get
    sampleReplaced_runs

theorem sampleReplaced_unpruned : Unpruned sampleReplaced :=
  (Unpruned.initial _).calls (eq_ok_get sampleReplaced_runs)

theorem groups_wellFormed_replaced :
    (∃ m ∈ sampleReplaced.messages.list, targets m ≠ []) ∧ WellFormedGroups sampleReplaced :=
  ⟨by decide +kernel, groups_wellFormed sampleReplaced_unpruned⟩

end Acc.Core
