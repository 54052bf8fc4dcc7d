import AgentsCanCommunicate.Core.DecisionGroups

/-!
# The inbox as a scan

The listing and the reading of an inbox fetch records through indexes.  Here is
what they would be if they looked at everything: every receipt that is the
reader's, every message that has one, and the status each decision has among all
decisions.

The two agree on every reachable workspace (`inbox_eq_scan`).  Nothing listable
lies outside the buckets of the index, since a receipt that is left out was read
and asks for nothing more, and a walk along links reaches a whole group.
-/

namespace Acc.Core

open Library (Keyed search Leads mem_search)

section

variable [LinearOrder ReceiptId]

/-! ## The scan -/

/-- The reader's receipts, among all receipts. -/
def scanReceipts (w : Workspace) (session : Session) : List Receipt :=
  w.receipts.list.filter fun r =>
    r.workspaceId = session.workspaceId ∧ r.recipientParticipantId = session.participantId

/-- The messages of these receipts, among all messages, each with its status
among all decisions. -/
def scanMessages (w : Workspace) (receipts : List Receipt) : List Viewed :=
  (w.messages.list.filter fun m => receipts.any fun r => r.messageId = m.messageId).map
    fun m => (m, decisionView w.messages.list m)

def scanList (size : List InboxItem → Id → Nat) (w : Workspace) (input : ListInput) :
    Result (Page InboxItem) := do
  let session ← requireOpen (locateSession w input.sessionId input.workspaceId) input.generation
    "list the inbox"
  let _ ← requireOpen (sessionIn w input.sessionId) input.generation "list the inbox"
  let receipts := scanReceipts w session
  inboxPage size receipts (scanMessages w receipts) input.page

def scanRead (w : Workspace) (ports : Ports) (input : ReadInput) :
    Result (Workspace × List (Viewed × Receipt)) := do
  let session ← requireOpen (locateSession w input.sessionId input.workspaceId) input.generation
    "read the inbox"
  w.transaction fun w => do
    let _ ← requireOpen (sessionIn w input.sessionId) input.generation "read the inbox"
    let receipts := scanReceipts w session
    let selected ← selectRead receipts (scanMessages w receipts) input.messageId
    selected.foldlM (readOne session ports.now) (w, [])

variable {w : Workspace} {session : Session} {m : Message} {r : Receipt} {i j : Id}

/-! ## Receipts of one reader -/

/-- Receipts of one reader, of which a message names at most one. -/
structure OwnReceipts (w : Workspace) (session : Session) (receipts : List Receipt) : Prop where
  mem : ∀ r ∈ receipts, r ∈ w.receipts
  recipient : ∀ r ∈ receipts, r.recipientParticipantId = session.participantId

theorem OwnReceipts.eq {receipts : List Receipt} (h : OwnReceipts w session receipts)
    {s : Receipt} (hr : r ∈ receipts) (hs : s ∈ w.receipts)
    (hrecipient : s.recipientParticipantId = session.participantId)
    (hid : r.messageId = s.messageId) : r = s := by
  refine Keyed.eq_of_key (h.mem r hr) hs ?_
  rw [Receipt.receiptId, Receipt.receiptId, hid, hrecipient, h.recipient r hr]

theorem OwnReceipts.receiptOf {receipts : List Receipt} (h : OwnReceipts w session receipts) :
    receiptOf receipts i = some r ↔ r ∈ receipts ∧ r.messageId = i := by
  rw [Core.receiptOf]
  constructor
  · intro hfind
    exact ⟨List.mem_of_find?_eq_some hfind, by simpa using List.find?_some hfind⟩
  · intro hfacts
    obtain ⟨hr, hid⟩ := hfacts
    cases hfind : receipts.find? fun r => r.messageId = i with
    | none => exact absurd hid (by simpa using List.find?_eq_none.mp hfind r hr)
    | some s =>
        have hs := List.mem_of_find?_eq_some hfind
        have hsid : s.messageId = i := by simpa using List.find?_some hfind
        rw [h.eq hs (h.mem r hr) (h.recipient r hr) (hsid.trans hid.symm)]

theorem mem_scanReceipts (hw : Homed w) (hid : session.workspaceId = w.workspaceId) :
    r ∈ scanReceipts w session ↔
      r ∈ w.receipts ∧ r.recipientParticipantId = session.participantId := by
  simp only [scanReceipts, List.mem_filter, Keyed.mem_list, decide_eq_true_eq]
  constructor
  · intro hfacts
    obtain ⟨hr, _, hrecipient⟩ := hfacts
    exact ⟨hr, hrecipient⟩
  · intro hfacts
    obtain ⟨hr, hrecipient⟩ := hfacts
    exact ⟨hr, (hw.receipts r hr).trans hid.symm, hrecipient⟩

theorem ownReceipts_scan : OwnReceipts w session (scanReceipts w session) := by
  constructor <;> intro r hr <;>
    simp only [scanReceipts, List.mem_filter, Keyed.mem_list, decide_eq_true_eq] at hr
  · exact hr.1
  · exact hr.2.2

theorem nodup_ownReceipt : (ownReceipt w session i).toList.Nodup := by
  cases ownReceipt w session i with
  | none => exact List.nodup_nil
  | some r => exact List.nodup_singleton r

/-- The reader's receipts in one bucket of the index. -/
def bucket (w : Workspace) (session : Session) (state : ReceiptState) : List Receipt :=
  receiptsInState w session [state]

theorem receiptsInState_eq {states : List ReceiptState} :
    receiptsInState w session states = states.flatMap (bucket w session) := by
  refine List.flatMap_congr fun state _ => ?_
  rw [bucket, receiptsInState, List.flatMap_singleton]

theorem mem_bucket (hw : Homed w) (hid : session.workspaceId = w.workspaceId)
    {state : ReceiptState} :
    r ∈ bucket w session state ↔
      r ∈ w.receipts ∧ r.recipientParticipantId = session.participantId ∧ r.state = state ∧
        waiting r = true := by
  simp only [bucket, receiptsInState, List.flatMap_singleton, List.mem_filterMap,
    mem_lookupReceipts]
  constructor
  · rintro ⟨_, ⟨s, hs, hkey, rfl⟩, hget⟩
    obtain ⟨hwaiting, _, hrecipient, hstate⟩ := receiptsByRecipientState_mem.mp hkey
    rw [Keyed.mem_def.mp hs] at hget
    cases hget
    exact ⟨hs, hrecipient, hstate, hwaiting⟩
  · rintro ⟨hr, hrecipient, rfl, hwaiting⟩
    exact ⟨r.receiptId, ⟨r, hr, receiptsByRecipientState_mem.mpr
      ⟨hwaiting, (hw.receipts r hr).trans hid.symm, hrecipient, rfl⟩, rfl⟩, hr⟩

/-- A bucket lists no receipt twice. -/
theorem bucket_nodup {state : ReceiptState} : (bucket w session state).Nodup := by
  rw [bucket, receiptsInState, List.flatMap_singleton]
  refine List.Nodup.filterMap ?_ ?_
  · intro a b s ha hb
    exact (Keyed.key_of_get? ha).symm.trans (Keyed.key_of_get? hb)
  · exact (w.receipts.keys_nodup).sublist (List.filter_sublist.map _)

theorem mem_receiptsInState (hw : Homed w) (hid : session.workspaceId = w.workspaceId)
    {states : List ReceiptState} :
    r ∈ receiptsInState w session states ↔
      r ∈ w.receipts ∧ r.recipientParticipantId = session.participantId ∧ r.state ∈ states ∧
        waiting r = true := by
  rw [receiptsInState_eq]
  simp only [List.mem_flatMap, mem_bucket hw hid]
  constructor
  · rintro ⟨_, hstate, hr, hrecipient, rfl, hwaiting⟩
    exact ⟨hr, hrecipient, hstate, hwaiting⟩
  · rintro ⟨hr, hrecipient, hstate, hwaiting⟩
    exact ⟨r.state, hstate, hr, hrecipient, rfl, hwaiting⟩

theorem nodup_receiptsInState (hw : Homed w) (hid : session.workspaceId = w.workspaceId)
    {states : List ReceiptState} (hstates : states.Nodup) :
    (receiptsInState w session states).Nodup := by
  rw [receiptsInState_eq]
  refine List.nodup_flatMap.mpr ⟨fun _ _ => bucket_nodup, hstates.imp ?_⟩
  intro s t hst r hrs hrt
  exact hst (((mem_bucket hw hid).mp hrs).2.2.1.symm.trans ((mem_bucket hw hid).mp hrt).2.2.1)

theorem ownReceipts_inState (hw : Homed w) (hid : session.workspaceId = w.workspaceId)
    {states : List ReceiptState} : OwnReceipts w session (receiptsInState w session states) := by
  constructor <;> intro r hr
  · exact ((mem_receiptsInState hw hid).mp hr).1
  · exact ((mem_receiptsInState hw hid).mp hr).2.1

theorem mem_ownReceipt : r ∈ (ownReceipt w session i).toList ↔
    r ∈ w.receipts ∧ r.recipientParticipantId = session.participantId ∧ r.messageId = i := by
  rw [ownReceipt, Option.mem_toList, Keyed.get?_eq_some]
  refine and_congr_right fun _ => ?_
  rw [Receipt.receiptId, ReceiptId.mk.injEq]
  exact and_comm

/-! ## Walking groups -/

/-- The walk follows every link of a decision. -/
theorem mem_walkNext (hw : Homed w) (hid : session.workspaceId = w.workspaceId)
    (h : Beside w.decisions i j) : j ∈ walkNext w session i := by
  obtain ⟨d, hd, e, he, rfl, rfl, hnamed⟩ := h
  obtain ⟨hdmem, hdkind⟩ := mem_decisions.mp hd
  obtain ⟨hemem, hekind⟩ := mem_decisions.mp he
  have hdget : w.messages.get? d.messageId = some d := Keyed.mem_def.mp hdmem
  have heget : w.messages.get? e.messageId = some e := Keyed.mem_def.mp hemem
  refine List.mem_filter.mpr ⟨?_, by simp [heget, hekind]⟩
  rcases hnamed with hnames | hnamed
  · exact List.mem_append_left _ (by simpa [hdget] using hnames)
  · refine List.mem_append_right _ (mem_lookupMessages.mpr ⟨e, hemem, ?_, rfl⟩)
    exact decisionsByTarget_mem.mpr ⟨hekind, (hw.messages e hemem).trans hid.symm, hnamed⟩

/-- A walk goes to messages that are there. -/
theorem walkNext_listed (h : j ∈ walkNext w session i) :
    j ∈ w.messages.list.map Message.messageId := by
  obtain ⟨e, he, _⟩ := (Option.any_eq_true _ _).mp (List.mem_filter.mp h).2
  exact List.mem_map.mpr ⟨e, Keyed.mem_list.mpr (Keyed.mem_of_get? he), Keyed.key_of_get? he⟩

theorem leads_of_sameGroup (hw : Homed w) (hid : session.workspaceId = w.workspaceId)
    (h : SameGroup w i j) : Leads (walkNext w session) i j := by
  induction h with
  | refl => exact .refl
  | tail _ hstep ih => exact ih.tail (mem_walkNext hw hid hstep)

/-- The walk from some decisions holds the group of each of them. -/
theorem walkGroups_closed (hw : Homed w) (hid : session.workspaceId = w.workspaceId)
    {seeds : List Id} (hnodup : seeds.Nodup)
    (hseeds : ∀ i ∈ seeds, i ∈ w.messages.list.map Message.messageId) (hi : i ∈ seeds) :
    Closed (walkGroups w session seeds) w.messages.list i := by
  constructor
  · intro d hd
    obtain ⟨k, _, hget⟩ := List.mem_filterMap.mp hd
    exact Keyed.mem_list.mpr (Keyed.mem_of_get? hget)
  · intro d hd hgroup
    have hmem := Keyed.mem_list.mp (mem_decisionsOf.mp hd).1
    refine List.mem_filterMap.mpr ⟨d.messageId, ?_, Keyed.mem_def.mp hmem⟩
    have hfound : d.messageId ∈ search (walkNext w session) w.messages.list.length seeds
        seeds.reverse ↔ ∃ s ∈ seeds, Leads (walkNext w session) s d.messageId :=
      mem_search (fun _ _ _ hb => walkNext_listed hb) hseeds hnodup (by simp)
    exact hfound.mpr ⟨i, hi, leads_of_sameGroup hw hid hgroup⟩

/-- The messages of receipts, and the decisions among them from which groups are
walked. -/
def messagesOf (w : Workspace) (receipts : List Receipt) : List Message :=
  receipts.filterMap fun r => w.messages.get? r.messageId

theorem mem_messagesOf {receipts : List Receipt} :
    m ∈ messagesOf w receipts ↔ m ∈ w.messages ∧ ∃ r ∈ receipts, r.messageId = m.messageId := by
  simp only [messagesOf, List.mem_filterMap, Keyed.get?_eq_some]
  constructor
  · rintro ⟨r, hr, hm, hid⟩
    exact ⟨hm, r, hr, hid.symm⟩
  · rintro ⟨hm, r, hr, hid⟩
    exact ⟨r, hr, hm, hid.symm⟩

theorem messagesOf_nodup {receipts : List Receipt} (h : OwnReceipts w session receipts)
    (hnodup : receipts.Nodup) : ((messagesOf w receipts).map Message.messageId).Nodup := by
  have hdistinct : receipts.Pairwise fun a b => a.messageId ≠ b.messageId := by
    refine hnodup.imp_of_mem ?_
    intro a b ha hb hne hid
    exact hne (h.eq ha (h.mem b hb) (h.recipient b hb) hid)
  refine List.pairwise_map.mpr (List.Pairwise.filterMap _ ?_ hdistinct)
  intro a b hab m hm m' hm'
  rw [Keyed.key_of_get? hm, Keyed.key_of_get? hm']
  exact hab

/-- Each message of the reader is shown with the status it has among all
decisions. -/
theorem messagesFor_eq (hw : Homed w) (hid : session.workspaceId = w.workspaceId)
    {receipts : List Receipt} (h : OwnReceipts w session receipts) (hnodup : receipts.Nodup) :
    messagesFor w session receipts =
      (messagesOf w receipts).map fun m => (m, statusOf w m) := by
  refine List.map_congr_left fun m hm => ?_
  have hmem : m ∈ w.messages := (mem_messagesOf.mp hm).1
  have hseeds : (((messagesOf w receipts).filter fun m => m.kind = .decision).map
      Message.messageId).Nodup :=
    (messagesOf_nodup h hnodup).sublist (List.filter_sublist.map _)
  have hlisted : ∀ i ∈ ((messagesOf w receipts).filter fun m => m.kind = .decision).map
      Message.messageId, i ∈ w.messages.list.map Message.messageId := by
    intro i hi
    obtain ⟨d, hd, rfl⟩ := List.mem_map.mp hi
    exact List.mem_map_of_mem
      (Keyed.mem_list.mpr (mem_messagesOf.mp (List.mem_filter.mp hd).1).1)
  refine congrArg (Prod.mk m) ?_
  by_cases hkind : m.kind = .decision
  · have hseed : m.messageId ∈ ((messagesOf w receipts).filter fun m => m.kind = .decision).map
        Message.messageId :=
      List.mem_map_of_mem (List.mem_filter.mpr ⟨hm, by simpa using hkind⟩)
    have hclosed := walkGroups_closed hw hid hseeds hlisted hseed
    have hself : m ∈ decisionsOf w.messages.list :=
      mem_decisionsOf.mpr ⟨Keyed.mem_list.mpr hmem, hkind⟩
    exact decisionView_closed (unique_messages w) (hclosed.whole m hself .refl) hkind hclosed
  · have hsub : ∀ d ∈ walkGroups w session (((messagesOf w receipts).filter
        fun m => m.kind = .decision).map Message.messageId), d ∈ w.messages.list := by
      intro d hd
      obtain ⟨k, _, hget⟩ := List.mem_filterMap.mp hd
      exact Keyed.mem_list.mpr (Keyed.mem_of_get? hget)
    rw [statusOf, decisionView_of_ne (unique_messages w) (fun _ h => h)
      (Keyed.mem_list.mpr hmem) hkind]
    exact decisionView_of_ne (unique_messages w) hsub (Keyed.mem_list.mpr hmem) hkind

/-! ## The order of pages -/

/-- What pages are ordered by. -/
def pageKey (message : Message) : Timestamp ×ₗ (List Nat ×ₗ (List Nat ×ₗ List Char)) :=
  toLex (message.sentAt, message.messageId.localeKey)

omit [LinearOrder ReceiptId] in
theorem newestFirst_iff {a b : Message} : newestFirst a b = true ↔ pageKey b ≤ pageKey a := by
  simp only [newestFirst, Bool.decide_or, Bool.decide_and, Bool.or_eq_true, Bool.and_eq_true,
    decide_eq_true_eq, pageKey, Prod.Lex.toLex_le_toLex]
  rw [@eq_comm _ a.sentAt]

omit [LinearOrder ReceiptId] in
theorem messageId_of_pageKey {a b : Message} (h : pageKey a = pageKey b) :
    a.messageId = b.messageId := Id.localeKey_injective (congrArg (fun k => (ofLex k).2) h)

/-- The items are told apart by the ids of their messages. -/
def Distinct {α : Type} (f : α → Message) (items : List α) : Prop :=
  ∀ a ∈ items, ∀ b ∈ items, (f a).messageId = (f b).messageId → a = b

omit [LinearOrder ReceiptId] in
/-- The same items are sorted to the same list. -/
theorem mergeSort_perm {α : Type} {f : α → Message} {le : Message → Message → Bool}
    {items items' : List α} (htotal : ∀ a b, (le a b || le b a) = true)
    (htrans : ∀ a b c, le a b = true → le b c = true → le a c = true)
    (hantisymm : ∀ a b, le a b = true → le b a = true → a.messageId = b.messageId)
    (h : items.Perm items') (hdistinct : Distinct f items) :
    (items.mergeSort fun a b => le (f a) (f b)) = items'.mergeSort fun a b => le (f a) (f b) := by
  have hsorted : ∀ l : List α,
      (l.mergeSort fun a b => le (f a) (f b)).Pairwise fun a b => le (f a) (f b) = true :=
    fun l => List.pairwise_mergeSort (fun a b c => htrans (f a) (f b) (f c))
      (fun a b => htotal (f a) (f b)) l
  refine List.Perm.eq_of_pairwise ?_ (hsorted items) (hsorted items') ?_
  · intro a b ha hb hab hba
    refine hdistinct a (List.mem_mergeSort.mp ha) b ?_ (hantisymm _ _ hab hba)
    exact h.mem_iff.mpr (List.mem_mergeSort.mp hb)
  · exact ((List.mergeSort_perm items _).trans h).trans (List.mergeSort_perm items' _).symm

omit [LinearOrder ReceiptId] in
theorem newestFirst_perm {α : Type} {f : α → Message} {items items' : List α}
    (h : items.Perm items') (hdistinct : Distinct f items) :
    (items.mergeSort fun a b => newestFirst (f a) (f b)) =
      items'.mergeSort fun a b => newestFirst (f a) (f b) := by
  refine mergeSort_perm ?_ ?_ ?_ h hdistinct
  · intro a b
    rw [Bool.or_eq_true, newestFirst_iff, newestFirst_iff]
    exact le_total _ _
  · intro a b c hab hbc
    rw [newestFirst_iff] at hab hbc ⊢
    exact hbc.trans hab
  · intro a b hab hba
    rw [newestFirst_iff] at hab hba
    exact messageId_of_pageKey (le_antisymm hba hab)

omit [LinearOrder ReceiptId] in
theorem oldestFirst_perm {α : Type} {f : α → Message} {items items' : List α}
    (h : items.Perm items') (hdistinct : Distinct f items) :
    (items.mergeSort fun a b => oldestFirst (f a) (f b)) =
      items'.mergeSort fun a b => oldestFirst (f a) (f b) := by
  refine mergeSort_perm ?_ ?_ ?_ h hdistinct
  · intro a b
    rw [Bool.or_eq_true, oldestFirst, oldestFirst, newestFirst_iff, newestFirst_iff]
    exact le_total _ _
  · intro a b c hab hbc
    rw [oldestFirst, newestFirst_iff] at hab hbc ⊢
    exact hab.trans hbc
  · intro a b hab hba
    rw [oldestFirst, newestFirst_iff] at hab hba
    exact messageId_of_pageKey (le_antisymm hab hba)

/-! ## Pages of the same messages -/

omit [LinearOrder ReceiptId] in
theorem fillPage_congr {ι : Type} {size : List ι → Id → Nat} {project project' : Viewed → ι}
    {messages : List Viewed} (h : ∀ m ∈ messages, project m = project' m) {items : List ι} :
    fillPage size project items messages = fillPage size project' items messages := by
  induction messages generalizing items with
  | nil => rfl
  | cons m messages ih =>
      rw [fillPage, fillPage, h m (List.mem_cons_self ..)]
      simp only [ih fun m' hm' => h m' (List.mem_cons_of_mem _ hm')]

omit [LinearOrder ReceiptId] in
/-- The message of an id is found in one list as in another that has it too. -/
theorem find_viewed_congr {messages messages' : List Viewed}
    (hdistinct : Distinct Prod.fst messages)
    (h : ∀ m : Viewed, m.1.messageId = i → (m ∈ messages ↔ m ∈ messages')) :
    (messages.find? fun m => m.1.messageId = i) = messages'.find? fun m => m.1.messageId = i := by
  cases hfind : messages'.find? fun m => m.1.messageId = i with
  | none =>
      refine List.find?_eq_none.mpr fun m hm hid => ?_
      have hid : m.1.messageId = i := by simpa using hid
      exact absurd hid (by simpa using List.find?_eq_none.mp hfind m ((h m hid).mp hm))
  | some m' =>
      have hid' : m'.1.messageId = i := by simpa using List.find?_some hfind
      have hmem' := (h m' hid').mpr (List.mem_of_find?_eq_some hfind)
      cases hfind' : messages.find? fun m => m.1.messageId = i with
      | none => exact absurd hid' (by simpa using List.find?_eq_none.mp hfind' m' hmem')
      | some m =>
          have hid : m.1.messageId = i := by simpa using List.find?_some hfind'
          rw [hdistinct m (List.mem_of_find?_eq_some hfind') m' hmem' (hid.trans hid'.symm)]

omit [LinearOrder ReceiptId] in
theorem messagePage_congr {ι : Type} {size : List ι → Id → Nat} {messages messages' : List Viewed}
    {input : PageInput} {include_ include' : Viewed → Bool} {project project' : Viewed → ι}
    (hanchor : pageAnchor messages input = pageAnchor messages' input)
    (hperm : (messages.filter include_).Perm (messages'.filter include'))
    (hdistinct : Distinct Prod.fst messages)
    (hproject : ∀ m ∈ messages, include_ m = true → project m = project' m) :
    messagePage size messages input include_ project =
      messagePage size messages' input include' project' := by
  have hsplit : ∀ (l : List Viewed) (p : Viewed → Bool) (anchor : Option Message),
      (l.filter fun m => p m && (input.kind.all fun kind => m.1.kind = kind)
          && anchor.all fun a => !newestFirst m.1 a) =
        (l.filter p).filter fun m => (input.kind.all fun kind => m.1.kind = kind)
          && anchor.all fun a => !newestFirst m.1 a := by
    intro l p anchor
    rw [List.filter_filter]
    refine List.filter_congr fun m _ => ?_
    rw [Bool.and_assoc, Bool.and_comm]
  have hselection : ∀ anchor, pageSelection messages input include_ anchor =
      pageSelection messages' input include' anchor := by
    intro anchor
    refine newestFirst_perm ?_ ?_
    · rw [hsplit, hsplit]
      exact hperm.filter _
    · intro a ha b hb
      exact hdistinct a (List.mem_filter.mp ha).1 b (List.mem_filter.mp hb).1
  have hitems : ∀ anchor n,
      fillPage size project [] ((pageSelection messages' input include' anchor).take n) =
        fillPage size project' [] ((pageSelection messages' input include' anchor).take n) := by
    intro anchor n
    refine fillPage_congr fun m hm => ?_
    rw [← hselection anchor] at hm
    have hmem := List.mem_filter.mp (List.mem_mergeSort.mp (List.mem_of_mem_take hm))
    simp only [Bool.and_eq_true] at hmem
    exact hproject m hmem.1 hmem.2.1.1
  simp only [messagePage, hanchor, hselection, hitems]

/-! ## What the indexes leave out -/

theorem mem_messagesFor (hw : Homed w) (hid : session.workspaceId = w.workspaceId)
    {receipts : List Receipt} (h : OwnReceipts w session receipts) (hnodup : receipts.Nodup)
    {v : Viewed} :
    v ∈ messagesFor w session receipts ↔
      v.1 ∈ w.messages ∧ (∃ r ∈ receipts, r.messageId = v.1.messageId) ∧ v.2 = statusOf w v.1 := by
  rw [messagesFor_eq hw hid h hnodup, List.mem_map]
  constructor
  · rintro ⟨m, hm, rfl⟩
    obtain ⟨hmem, hreceipt⟩ := mem_messagesOf.mp hm
    exact ⟨hmem, hreceipt, rfl⟩
  · rintro ⟨hmem, hreceipt, hstatus⟩
    exact ⟨v.1, mem_messagesOf.mpr ⟨hmem, hreceipt⟩, by rw [← hstatus]⟩

theorem mem_scanMessages {receipts : List Receipt} {v : Viewed} :
    v ∈ scanMessages w receipts ↔
      v.1 ∈ w.messages ∧ (∃ r ∈ receipts, r.messageId = v.1.messageId) ∧ v.2 = statusOf w v.1 := by
  simp only [scanMessages, List.mem_map, List.mem_filter, Keyed.mem_list, List.any_eq_true,
    decide_eq_true_eq]
  constructor
  · rintro ⟨m, ⟨hmem, hreceipt⟩, rfl⟩
    exact ⟨hmem, hreceipt, rfl⟩
  · rintro ⟨hmem, hreceipt, hstatus⟩
    refine ⟨v.1, ⟨hmem, hreceipt⟩, ?_⟩
    rw [statusOf] at hstatus
    rw [← hstatus]

theorem distinct_viewed {items : List Viewed}
    (h : ∀ v ∈ items, v.1 ∈ w.messages ∧ v.2 = statusOf w v.1) : Distinct Prod.fst items := by
  intro a ha b hb hid
  have heq : a.1 = b.1 := Keyed.eq_of_key (h a ha).1 (h b hb).1 hid
  exact Prod.ext heq (by rw [(h a ha).2, (h b hb).2, heq])

theorem messagesFor_nodup (hw : Homed w) (hid : session.workspaceId = w.workspaceId)
    {receipts : List Receipt} (h : OwnReceipts w session receipts) (hnodup : receipts.Nodup) :
    (messagesFor w session receipts).Nodup := by
  rw [messagesFor_eq hw hid h hnodup]
  refine List.Nodup.map ?_ (messagesOf_nodup h hnodup).of_map
  intro a b hab
  exact congrArg Prod.fst hab

theorem scanMessages_nodup {receipts : List Receipt} : (scanMessages w receipts).Nodup := by
  refine List.Nodup.map ?_ (w.messages.list_nodup.filter _)
  intro a b hab
  exact congrArg Prod.fst hab

/-- What can be listed stands in the bucket of a pending state: a receipt that
was read and is in none asks for nothing more. -/
theorem waiting_of_listable (hlinked : Linked w) (hr : r ∈ w.receipts) (hm : m ∈ w.messages)
    (hid : m.messageId = r.messageId) (h : listable m r = true) :
    r.state ∈ pendingStates ∧ waiting r = true := by
  simp only [listable, Bool.decide_or, Bool.decide_and, Bool.or_eq_true, Bool.and_eq_true,
    decide_eq_true_eq] at h
  rcases h with hqueued | hoffered | ⟨hretrieved, hobligation⟩
  · simp [pendingStates, waiting, hqueued]
  · simp [pendingStates, waiting, hoffered]
  · have hkept : r.obligation ≠ some .none := by
      intro hnone
      rcases hlinked.obligation r hr m hm hid with h | h
      · rw [hnone] at h
        cases h
      · rw [hnone] at h
        exact hobligation (Option.some.inj h).symm
    simp [pendingStates, waiting, hretrieved, hkept]

/-- Receipts that leave out none of the reader's that can be listed. -/
def Complete (w : Workspace) (session : Session) (receipts : List Receipt) : Prop :=
  ∀ r ∈ w.receipts, r.recipientParticipantId = session.participantId →
    ∀ m ∈ w.messages, m.messageId = r.messageId → listable m r = true → r ∈ receipts

theorem complete_pending (hw : Homed w) (hlinked : Linked w)
    (hid : session.workspaceId = w.workspaceId) :
    Complete w session (receiptsInState w session pendingStates) := by
  intro r hr hrecipient m hm hmid hlistable
  obtain ⟨hstate, hwaiting⟩ := waiting_of_listable hlinked hr hm hmid hlistable
  exact (mem_receiptsInState hw hid).mpr ⟨hr, hrecipient, hstate, hwaiting⟩

/-- The reader's receipts that were fetched give a message the receipt that all
the reader's receipts give it. -/
theorem receiptOf_scan (hw : Homed w) (hid : session.workspaceId = w.workspaceId)
    {receipts : List Receipt} (h : OwnReceipts w session receipts)
    (hr : receiptOf receipts i = some r) : receiptOf (scanReceipts w session) i = some r := by
  obtain ⟨hmem, hmid⟩ := h.receiptOf.mp hr
  exact ownReceipts_scan.receiptOf.mpr
    ⟨(mem_scanReceipts hw hid).mpr ⟨h.mem r hmem, h.recipient r hmem⟩, hmid⟩

/-- What is listable by the receipts that were fetched is listable by all of the
reader's, and the other way round. -/
theorem listable_scan (hw : Homed w) (hid : session.workspaceId = w.workspaceId)
    {receipts : List Receipt} (h : OwnReceipts w session receipts)
    (hcomplete : Complete w session receipts) (hm : m ∈ w.messages) :
    (receiptOf receipts m.messageId).any (listable m) = true ↔
      (receiptOf (scanReceipts w session) m.messageId).any (listable m) = true := by
  rw [Option.any_eq_true, Option.any_eq_true]
  constructor
  · rintro ⟨r, hr, hlistable⟩
    exact ⟨r, receiptOf_scan hw hid h hr, hlistable⟩
  · rintro ⟨r, hr, hlistable⟩
    obtain ⟨hscan, hmid⟩ := ownReceipts_scan.receiptOf.mp hr
    obtain ⟨hmem, hrecipient⟩ := (mem_scanReceipts hw hid).mp hscan
    exact ⟨r, h.receiptOf.mpr ⟨hcomplete r hmem hrecipient m hm hmid.symm hlistable, hmid⟩,
      hlistable⟩

/-! ## Listing -/

theorem inboxPage_eq_scan {size : List InboxItem → Id → Nat} {page : PageInput} (hw : Homed w)
    (hid : session.workspaceId = w.workspaceId) {receipts : List Receipt}
    (h : OwnReceipts w session receipts) (hnodup : receipts.Nodup)
    (hcomplete : Complete w session receipts)
    (hcursor : ∀ cursor, page.cursor = some cursor → ∀ r ∈ w.receipts,
      r.recipientParticipantId = session.participantId → r.messageId = cursor → r ∈ receipts) :
    inboxPage size receipts (messagesFor w session receipts) page =
      inboxPage size (scanReceipts w session) (scanMessages w (scanReceipts w session)) page := by
  have hmem : ∀ v ∈ messagesFor w session receipts, v.1 ∈ w.messages ∧ v.2 = statusOf w v.1 := by
    intro v hv
    obtain ⟨hmem, _, hstatus⟩ := (mem_messagesFor hw hid h hnodup).mp hv
    exact ⟨hmem, hstatus⟩
  have hsubset : ∀ r ∈ receipts, r ∈ scanReceipts w session := by
    intro r hr
    exact (mem_scanReceipts hw hid).mpr ⟨h.mem r hr, h.recipient r hr⟩
  refine messagePage_congr ?_ ?_ (distinct_viewed hmem) ?_
  · rw [pageAnchor, pageAnchor]
    split
    next => rfl
    next cursor heq =>
      rw [find_viewed_congr (distinct_viewed hmem)]
      intro v hv
      rw [mem_messagesFor hw hid h hnodup, mem_scanMessages]
      refine and_congr_right fun _ => and_congr_left fun _ => ?_
      constructor
      · rintro ⟨r, hr, hmid⟩
        exact ⟨r, hsubset r hr, hmid⟩
      · rintro ⟨r, hr, hmid⟩
        obtain ⟨hmem, hrecipient⟩ := (mem_scanReceipts hw hid).mp hr
        exact ⟨r, hcursor cursor heq r hmem hrecipient (hmid.trans hv), hmid⟩
  · refine (List.perm_ext_iff_of_nodup ((messagesFor_nodup hw hid h hnodup).filter _)
      (scanMessages_nodup.filter _)).mpr fun v => ?_
    simp only [List.mem_filter, Bool.and_eq_true, mem_messagesFor hw hid h hnodup,
      mem_scanMessages]
    constructor
    · rintro ⟨⟨hmem, ⟨r, hr, hmid⟩, hstatus⟩, hcurrent, hlistable⟩
      exact ⟨⟨hmem, ⟨r, hsubset r hr, hmid⟩, hstatus⟩, hcurrent,
        (listable_scan hw hid h hcomplete hmem).mp hlistable⟩
    · rintro ⟨⟨hmem, _, hstatus⟩, hcurrent, hlistable⟩
      have hfetched := (listable_scan hw hid h hcomplete hmem).mpr hlistable
      obtain ⟨r, hr, _⟩ := (Option.any_eq_true _ _).mp hfetched
      exact ⟨⟨hmem, ⟨r, h.receiptOf.mp hr⟩, hstatus⟩, hcurrent, hfetched⟩
  · intro v _ hincluded
    obtain ⟨r, hr, _⟩ := (Option.any_eq_true _ _).mp (Bool.and_eq_true _ _ ▸ hincluded).2
    rw [hr, receiptOf_scan hw hid h hr]

/-- The receipts a listing fetches, the anchor's among them. -/
theorem mem_listed {cursor : Option Id} :
    r ∈ receiptsInState w session pendingStates ++
        anchorReceipt w session (receiptsInState w session pendingStates) cursor ↔
      r ∈ receiptsInState w session pendingStates ∨
        ∃ c, cursor = some c ∧
          receiptOf (receiptsInState w session pendingStates) c = none ∧ r ∈ w.receipts ∧
            r.recipientParticipantId = session.participantId ∧ r.messageId = c := by
  rw [List.mem_append]
  refine or_congr_right ?_
  cases cursor with
  | none => simp [anchorReceipt]
  | some c =>
      rw [anchorReceipt]
      split
      next hsome =>
        constructor
        · intro h
          cases h
        · rintro ⟨c', heq, hnone, _⟩
          cases heq
          rw [hnone] at hsome
          cases hsome
      next hnone =>
        rw [mem_ownReceipt]
        constructor
        · intro h
          exact ⟨c, rfl, by simpa using hnone, h⟩
        · rintro ⟨c', heq, _, h⟩
          cases heq
          exact h

/-- The receipts a listing fetches are the reader's, each once. -/
theorem ownReceipts_listed (hw : Homed w) (hid : session.workspaceId = w.workspaceId)
    {cursor : Option Id} :
    OwnReceipts w session (receiptsInState w session pendingStates ++
        anchorReceipt w session (receiptsInState w session pendingStates) cursor) ∧
      (receiptsInState w session pendingStates ++
        anchorReceipt w session (receiptsInState w session pendingStates) cursor).Nodup := by
  have hpending : OwnReceipts w session (receiptsInState w session pendingStates) :=
    ownReceipts_inState hw hid
  refine ⟨⟨?_, ?_⟩, ?_⟩
  · intro r hr
    rcases mem_listed.mp hr with hr | ⟨_, _, _, hr, _⟩
    · exact hpending.mem r hr
    · exact hr
  · intro r hr
    rcases mem_listed.mp hr with hr | ⟨_, _, _, _, hrecipient, _⟩
    · exact hpending.recipient r hr
    · exact hrecipient
  · refine List.Nodup.append (nodup_receiptsInState hw hid (by decide)) ?_ ?_
    · cases cursor with
      | none => exact List.nodup_nil
      | some c =>
          rw [anchorReceipt]
          split
          · exact List.nodup_nil
          · exact nodup_ownReceipt
    · intro r hr hanchor
      cases cursor with
      | none => cases hanchor
      | some c =>
          rw [anchorReceipt] at hanchor
          split at hanchor
          next => cases hanchor
          next hnone =>
            have hfetched := hpending.receiptOf.mpr ⟨hr, (mem_ownReceipt.mp hanchor).2.2⟩
            rw [hfetched] at hnone
            exact hnone rfl

theorem listInbox_eq_scan {size : List InboxItem → Id → Nat} {input : ListInput} (hw : Homed w)
    (hlinked : Linked w) : listInbox size w input = scanList size w input := by
  refine bind_congr_ok fun session hlocated => bind_congr_ok fun _ _ => ?_
  have hid := hw.located (requireOpen_eq_ok hlocated).1
  have hpending : OwnReceipts w session (receiptsInState w session pendingStates) :=
    ownReceipts_inState hw hid
  obtain ⟨hown, hnodup⟩ := @ownReceipts_listed _ w session hw hid input.page.cursor
  refine inboxPage_eq_scan hw hid hown hnodup ?_ ?_
  · intro r hr hrecipient m hm hmid hlistable
    exact List.mem_append_left _
      (complete_pending hw hlinked hid r hr hrecipient m hm hmid hlistable)
  · intro cursor hcursor r hr hrecipient hmid
    refine mem_listed.mpr ?_
    cases hfetched : receiptOf (receiptsInState w session pendingStates) cursor with
    | none => exact Or.inr ⟨cursor, hcursor, hfetched, hr, hrecipient, hmid⟩
    | some s =>
        obtain ⟨hs, hsid⟩ := hpending.receiptOf.mp hfetched
        rw [← hpending.eq hs hr hrecipient (hsid.trans hmid.symm)]
        exact Or.inl hs

/-! ## Reading -/

/-- The messages found with their receipts. -/
def foundWith (receipts : List Receipt) (messages : List Viewed) : List (Viewed × Receipt) :=
  messages.filterMap fun m => (receiptOf receipts m.1.messageId).map fun r => (m, r)

omit [LinearOrder ReceiptId] in
theorem mem_foundWith {receipts : List Receipt} {messages : List Viewed} {item : Viewed × Receipt} :
    item ∈ foundWith receipts messages ↔
      item.1 ∈ messages ∧ receiptOf receipts item.1.1.messageId = some item.2 := by
  simp only [foundWith, List.mem_filterMap, Option.map_eq_some_iff]
  constructor
  · rintro ⟨m, hm, r, hr, rfl⟩
    exact ⟨hm, hr⟩
  · rintro ⟨hm, hr⟩
    exact ⟨item.1, hm, item.2, hr, rfl⟩

omit [LinearOrder ReceiptId] in
theorem foundWith_nodup {receipts : List Receipt} {messages : List Viewed} (h : messages.Nodup) :
    (foundWith receipts messages).Nodup := by
  refine h.filterMap ?_
  intro a b item ha hb
  simp only [Option.mem_def, Option.map_eq_some_iff] at ha hb
  obtain ⟨_, _, rfl⟩ := ha
  obtain ⟨_, _, hab⟩ := hb
  exact (congrArg Prod.fst hab).symm

/-- The items a read selects. -/
def selectsRead (messageId : Option Id) (item : Viewed × Receipt) : Bool :=
  match messageId with
  | none => listable item.1.1 item.2 && isCurrentDecision item.1.2
  | some messageId => item.1.1.messageId = messageId

omit [LinearOrder ReceiptId] in
theorem selectRead_eq {receipts : List Receipt} {messages : List Viewed} {messageId : Option Id} :
    selectRead receipts messages messageId = (do
      let selected := (foundWith receipts messages).filter (selectsRead messageId)
      refuse (messageId ≠ none ∧ selected = [])
        ⟨.conflict, "that message is not recoverable by this participant"⟩
      return selected.mergeSort fun a b => oldestFirst a.1.1 b.1.1) := by
  cases messageId <;> rfl

theorem selectRead_eq_scan {messageId : Option Id} (hw : Homed w)
    (hid : session.workspaceId = w.workspaceId) {receipts : List Receipt}
    (h : OwnReceipts w session receipts) (hnodup : receipts.Nodup)
    (hselected : ∀ r ∈ w.receipts, r.recipientParticipantId = session.participantId →
      ∀ m ∈ w.messages, m.messageId = r.messageId → ∀ status,
        selectsRead messageId ((m, status), r) = true → r ∈ receipts) :
    selectRead receipts (messagesFor w session receipts) messageId =
      selectRead (scanReceipts w session) (scanMessages w (scanReceipts w session)) messageId := by
  have hperm : ((foundWith receipts (messagesFor w session receipts)).filter
      (selectsRead messageId)).Perm ((foundWith (scanReceipts w session)
        (scanMessages w (scanReceipts w session))).filter (selectsRead messageId)) := by
    refine (List.perm_ext_iff_of_nodup
      ((foundWith_nodup (messagesFor_nodup hw hid h hnodup)).filter _)
      ((foundWith_nodup scanMessages_nodup).filter _)).mpr fun item => ?_
    simp only [List.mem_filter, mem_foundWith, mem_messagesFor hw hid h hnodup, mem_scanMessages]
    refine and_congr_left fun hselects => ?_
    constructor
    · rintro ⟨⟨hmem, _, hstatus⟩, hr⟩
      have hscan := receiptOf_scan hw hid h hr
      exact ⟨⟨hmem, ⟨item.2, ownReceipts_scan.receiptOf.mp hscan⟩, hstatus⟩, hscan⟩
    · rintro ⟨⟨hmem, _, hstatus⟩, hr⟩
      obtain ⟨hscan, hmid⟩ := ownReceipts_scan.receiptOf.mp hr
      obtain ⟨hrmem, hrecipient⟩ := (mem_scanReceipts hw hid).mp hscan
      have hfetched := hselected item.2 hrmem hrecipient item.1.1 hmem hmid.symm item.1.2 hselects
      exact ⟨⟨hmem, ⟨item.2, hfetched, hmid⟩, hstatus⟩, h.receiptOf.mpr ⟨hfetched, hmid⟩⟩
  have hdistinct : Distinct (fun item : Viewed × Receipt => item.1.1)
      ((foundWith receipts (messagesFor w session receipts)).filter (selectsRead messageId)) := by
    intro a ha b hb hab
    obtain ⟨hamem, har⟩ := mem_foundWith.mp (List.mem_filter.mp ha).1
    obtain ⟨hbmem, hbr⟩ := mem_foundWith.mp (List.mem_filter.mp hb).1
    obtain ⟨ham, _, hastatus⟩ := (mem_messagesFor hw hid h hnodup).mp hamem
    obtain ⟨hbm, _, hbstatus⟩ := (mem_messagesFor hw hid h hnodup).mp hbmem
    have hmessage : a.1.1 = b.1.1 := Keyed.eq_of_key ham hbm hab
    have hreceipt : a.2 = b.2 := by
      rw [hmessage, hbr] at har
      exact (Option.some.inj har).symm
    exact Prod.ext (Prod.ext hmessage (by rw [hastatus, hbstatus, hmessage])) hreceipt
  rw [selectRead_eq, selectRead_eq]
  have hempty : (foundWith receipts (messagesFor w session receipts)).filter
      (selectsRead messageId) = [] ↔ (foundWith (scanReceipts w session)
        (scanMessages w (scanReceipts w session))).filter (selectsRead messageId) = [] := by
    rw [← List.length_eq_zero_iff, ← List.length_eq_zero_iff, hperm.length_eq]
  simp only [hempty, oldestFirst_perm hperm hdistinct]

theorem readInbox_eq_scan {ports : Ports} {input : ReadInput} (hw : Homed w)
    (hlinked : Linked w) : readInbox w ports input = scanRead w ports input := by
  refine bind_congr_ok fun session hlocated => ?_
  have hid := hw.located (requireOpen_eq_ok hlocated).1
  refine Workspace.transaction_congr (bind_congr_ok fun _ _ => ?_)
  have hselect : selectRead (readReceipts w session input.messageId)
        (messagesFor w session (readReceipts w session input.messageId)) input.messageId =
      selectRead (scanReceipts w session) (scanMessages w (scanReceipts w session))
        input.messageId := by
    cases input.messageId with
    | none =>
        refine selectRead_eq_scan hw hid (ownReceipts_inState hw hid)
          (nodup_receiptsInState hw hid (by decide)) ?_
        intro r hr hrecipient m hm hmid status hselects
        exact complete_pending hw hlinked hid r hr hrecipient m hm hmid
          ((Bool.and_eq_true _ _).mp hselects).1
    | some messageId =>
        have hown : OwnReceipts w session (ownReceipt w session messageId).toList :=
          ⟨fun r hr => (mem_ownReceipt.mp hr).1, fun r hr => (mem_ownReceipt.mp hr).2.1⟩
        refine selectRead_eq_scan hw hid hown nodup_ownReceipt ?_
        intro r hr hrecipient m hm hmid status hselects
        exact mem_ownReceipt.mpr ⟨hr, hrecipient, hmid.symm.trans (of_decide_eq_true hselects)⟩
  dsimp only
  rw [hselect]

/-- The indexed inbox is the scanned one: the same pages and the same refusals,
the same messages read and the same receipts written. -/
theorem inbox_eq_scan (h : Reachable w) :
    (∀ size input, listInbox size w input = scanList size w input) ∧
      ∀ ports input, readInbox w ports input = scanRead w ports input :=
  ⟨fun _ _ => listInbox_eq_scan h.homed h.linked, fun _ _ => readInbox_eq_scan h.homed h.linked⟩

end

/-! ## A receipt of an earlier version -/

/-- The receipt of the question has lost the obligation. -/
def sampleEarlier : Workspace :=
  match (sampleTalk.receipts.get? ⟨sampleId "message_1", sampleId "bob"⟩) with
  | none => sampleTalk
  | some r => sampleTalk.putReceipt { r with obligation := none }

theorem sampleEarlier_reachable : Reachable sampleEarlier := by
  rw [sampleEarlier]
  split
  next => exact sampleTalk_reachable
  next r hr => exact sampleTalk_reachable.step (.earlier (Keyed.mem_of_get? hr))

theorem inbox_eq_scan_earlier :
    ((scanList (fun items _ => items.length) sampleEarlier
        ⟨sampleId "session_b", none, sampleId "generation_b", ⟨none, none, none⟩⟩).toOption.map
          fun page => page.items.length) = some 1 ∧
      (∀ size input, listInbox size sampleEarlier input = scanList size sampleEarlier input) ∧
        ∀ ports input, readInbox sampleEarlier ports input = scanRead sampleEarlier ports input :=
  ⟨by decide +kernel, inbox_eq_scan sampleEarlier_reachable⟩

end Acc.Core
