import AgentsCanCommunicate.Core.DecisionGroups
import AgentsCanCommunicate.Core.PruneReferences

/-!
# Replaced decisions across a prune

A prune judges each message by its own receipts and its own event.  A decision
that was replaced may therefore stay while the decisions that replaced it go, and
then it is a head again.

A prune, wherever it stops, leaves every replaced decision replaced exactly if
each of them is named by a decision that stays, or goes no later than one that
names it (`prune_keeps_replaced`).
-/

namespace Acc.Core

open Library (Keyed)

section

variable [LinearOrder ReceiptId]

variable {w : Workspace} {ports : Ports} {input : PruneInput} {m d : Message} {n : Nat}

/-- No decision that stays becomes a head. -/
def KeepsReplaced (w w' : Workspace) : Prop :=
  ∀ m ∈ w'.messages, m.kind = .decision → ¬IsHead w m → ¬IsHead w' m

/-- A message that a prune may take: nobody is owed it, and its event is in the
range. -/
def Prunable (w : Workspace) (input : PruneInput) (message : Message) : Prop :=
  message ∈ (envelopesFor w input).messages ∧ Settled w input message.messageId

/-- A replaced decision is named by one that stays, or that goes no earlier than
itself. -/
def ReplacedStays (w : Workspace) (input : PruneInput) : Prop :=
  ∀ m ∈ w.decisions, ¬IsHead w m → ∃ d ∈ w.decisions, m.messageId ∈ targets d ∧
    (Prunable w input d → Prunable w input m ∧ m.messageId ≤ d.messageId)

/-! ## The order of messages in a plan -/

theorem mem_plan_messages_iff_prunable :
    m ∈ (planPrune w ports input).messages ↔ Prunable w input m := mem_plan_messages_iff_settled

/-- Messages are taken in the order of their ids. -/
theorem plan_messages_sorted : (planPrune w ports input).messages.Pairwise
    fun a b => a.messageId < b.messageId := by
  have hsub : (planPrune w ports input).messages.Sublist w.messages.list := by
    cases hbefore : input.before with
    | none =>
        simp only [planPrune, hbefore, if_true]
        exact List.nil_sublist _
    | some before =>
        simp only [planPrune, hbefore, reduceCtorEq, if_false, resolvedMessages, stateEnvelopes]
        exact List.filter_sublist.trans List.filter_sublist
  exact w.messages.list_sorted.sublist hsub

/-- One message stands before another in a plan. -/
def MessageBefore (e e' : Entry) : Prop := ∃ i j, e = .message i ∧ e' = .message j ∧ i < j

omit [LinearOrder ReceiptId] in
theorem not_messageBefore {e e' : Entry} (h : e.rank ≠ 1 ∨ e'.rank ≠ 1) :
    ¬MessageBefore e' e := by
  rintro ⟨i, j, rfl, rfl, -⟩
  simp [Entry.rank] at h

theorem entries_messageBefore : (planPrune w ports input).entries.Pairwise
    fun e e' => ¬MessageBefore e' e := by
  have hmessages : ((planPrune w ports input).messages.map fun r =>
      Entry.message r.messageId).Pairwise fun e e' => ¬MessageBefore e' e := by
    refine List.pairwise_map.mpr (plan_messages_sorted.imp ?_)
    rintro a b hab ⟨i, j, hi, hj, hij⟩
    cases hi
    cases hj
    exact absurd hab (not_lt.mpr hij.le)
  -- Entries of another kind stand before no message.
  simp only [PrunePlan.entries, List.pairwise_append, List.mem_append, List.mem_map]
  refine ⟨⟨⟨⟨⟨?_, hmessages, ?_⟩, ?_, ?_⟩, ?_, ?_⟩, ?_, ?_⟩, ?_, ?_⟩
  all_goals first
    | refine List.pairwise_map.mpr (List.pairwise_of_forall fun _ _ => not_messageBefore ?_)
      simp [Entry.rank]
    | intro a ha b hb
      refine not_messageBefore ?_
      grind [Entry.rank]

/-- A plan names a message of the workspace exactly if it may be taken. -/
theorem message_entry_iff (hm : m ∈ w.messages) :
    .message m.messageId ∈ (planPrune w ports input).entries ↔ Prunable w input m := by
  rw [message_mem_entries]
  constructor
  · rintro ⟨m', hplan, hid⟩
    have hgoes := mem_plan_messages_iff_prunable.mp hplan
    have hstored : m' ∈ w.messages := Keyed.mem_list.mp (List.mem_filter.mp hgoes.1).1
    rwa [← Keyed.eq_of_key hstored hm hid]
  · intro hgoes
    exact ⟨m, mem_plan_messages_iff_prunable.mpr hgoes, rfl⟩

/-- A pass that took a message took every message of the plan before it. -/
theorem message_gone_before (hd : .message d.messageId ∈ gone w ports input n)
    (hm : Prunable w input m) (hle : m.messageId ≤ d.messageId) :
    .message m.messageId ∈ gone w ports input n := by
  rcases hle.lt_or_eq with hlt | heq
  · refine mem_take_of_before entries_messageBefore hd ?_ ⟨_, _, rfl, rfl, hlt⟩
    exact message_mem_entries.mpr ⟨m, mem_plan_messages_iff_prunable.mpr hm, rfl⟩
  · rw [heq]
    exact hd

/-- A pass can stop right before a message, when it took the messages before
it. -/
theorem gone_until (hm : Prunable w input m) :
    ∃ n, .message m.messageId ∉ gone w ports input n ∧
      ∀ d, Prunable w input d → d.messageId < m.messageId →
        .message d.messageId ∈ gone w ports input n := by
  have hmem : .message m.messageId ∈ (planPrune w ports input).entries :=
    message_mem_entries.mpr ⟨m, mem_plan_messages_iff_prunable.mpr hm, rfl⟩
  obtain ⟨before, after, hsplit, hfirst⟩ := List.eq_append_cons_of_mem hmem
  have hgone : gone w ports input before.length = before := by
    rw [gone, hsplit, List.take_left']
    rfl
  refine ⟨before.length, ?_, ?_⟩
  · rw [hgone]
    exact hfirst
  intro d hd hlt
  have hentry : .message d.messageId ∈ (planPrune w ports input).entries :=
    message_mem_entries.mpr ⟨d, mem_plan_messages_iff_prunable.mpr hd, rfl⟩
  have hmore : .message m.messageId ∈ gone w ports input (before.length + 1) := by
    rw [gone, hsplit, List.take_append]
    simp
  -- One entry more is the message itself.
  have htaken := mem_take_of_before entries_messageBefore hmore hentry ⟨_, _, rfl, rfl, hlt⟩
  rw [hsplit, List.take_append] at htaken
  rw [hgone]
  rcases List.mem_append.mp htaken with hbefore | hself
  · exact List.mem_of_mem_take hbefore
  · simp at hself
    exact absurd hself hlt.ne

/-! ## Passes -/

/-- A pass that comes to `n` entries and is not cut short. -/
def stopAt (n : Nat) : Budget where
  limit := n + 1
  leftovers := some 0
  owns := fun _ => false
  recordsExpired := fun _ => false
  eventsExpired := fun _ => false
  recordsDiscarded := true
  eventsDiscarded := true

omit [LinearOrder ReceiptId] in
theorem takenRecords_stopAt {entries : List Entry} {spent reading : Nat} :
    takenRecords (stopAt n) spent reading entries = min (n - spent) entries.length := by
  induction entries generalizing spent reading with
  | nil => simp [takenRecords]
  | cons entry entries ih =>
      rw [takenRecords, ih]
      simp only [stopAt, Bool.toNat_false, List.length_cons, Bool.false_eq_true, or_false]
      split <;> omega

theorem prune_messages {budget : Budget} :
    (prune w ports input budget).1.messages =
      (reclaimStateRecords w (planPrune w ports input).entries budget).1.messages := by
  rw [prune]
  cases input.before with
  | none => rfl
  | some before =>
      dsimp only
      split
      next => rfl
      next trimmed htrim =>
        rw [trimEventLog] at htrim
        split at htrim
        · cases htrim
          rfl
        · simp only [bind_eq_ok, pure_eq_ok] at htrim
          obtain ⟨_, _, rfl⟩ := htrim
          rfl

theorem mem_messages_prune_stopAt :
    m ∈ (prune w ports input (stopAt n)).1.messages ↔
      m ∈ w.messages ∧ .message m.messageId ∉ gone w ports input n := by
  have htaken : (planPrune w ports input).entries.take
      (takenRecords (stopAt n) 0 1 (planPrune w ports input).entries) = gone w ports input n := by
    rw [takenRecords_stopAt, Nat.sub_zero, ← List.take_eq_take_min]
  rw [prune_messages, ← mem_messages_removeEntries, ← htaken]
  rfl

/-- Every pass leaves the messages that are outside a prefix of the plan. -/
theorem mem_messages_prune {budget : Budget} :
    ∃ n, ∀ m, m ∈ (prune w ports input budget).1.messages ↔
      m ∈ w.messages ∧ .message m.messageId ∉ gone w ports input n := by
  obtain ⟨n, events, floor, heq⟩ := @prune_eq _ w ports input budget
  refine ⟨n, fun m => ?_⟩
  rw [heq, ← mem_messages_removeEntries]

/-- Wherever a prune stops it leaves every replaced decision replaced exactly if
each of them keeps a decision that names it. -/
theorem prune_keeps_replaced :
    (∀ budget, KeepsReplaced w (prune w ports input budget).1) ↔ ReplacedStays w input := by
  constructor
  · intro h m hm hreplaced
    by_contra hnone
    have hnone : ∀ d ∈ w.decisions, m.messageId ∈ targets d →
        Prunable w input d ∧ (Prunable w input m → d.messageId < m.messageId) := by
      intro d hd hnamed
      by_contra hstays
      exact hnone ⟨d, hd, hnamed, by grind⟩
    obtain ⟨hmem, hkind⟩ := mem_decisions.mp hm
    -- A pass that leaves the decision and takes all that name it.
    obtain ⟨n, hleft, htaken⟩ : ∃ n, .message m.messageId ∉ gone w ports input n ∧
        ∀ d ∈ w.decisions, m.messageId ∈ targets d →
          .message d.messageId ∈ gone w ports input n := by
      by_cases hgoes : Prunable w input m
      · obtain ⟨n, hleft, htaken⟩ := @gone_until _ w ports input m hgoes
        refine ⟨n, hleft, fun d hd hnamed => ?_⟩
        exact htaken d (hnone d hd hnamed).1 ((hnone d hd hnamed).2 hgoes)
      · refine ⟨(planPrune w ports input).entries.length, ?_, ?_⟩
        · rw [gone, List.take_length, message_entry_iff hmem]
          exact hgoes
        · intro d hd hnamed
          rw [gone, List.take_length, message_entry_iff (mem_decisions.mp hd).1]
          exact (hnone d hd hnamed).1
    have hstays := mem_messages_prune_stopAt.mpr ⟨hmem, hleft⟩
    refine h (stopAt n) m hstays hkind hreplaced ?_
    refine (isHead_iff (mem_decisions.mpr ⟨hstays, hkind⟩)).mpr fun d hd hnamed => ?_
    obtain ⟨hdmem, hdkind⟩ := mem_decisions.mp hd
    obtain ⟨hdold, hdleft⟩ := mem_messages_prune_stopAt.mp hdmem
    exact hdleft (htaken d (mem_decisions.mpr ⟨hdold, hdkind⟩) hnamed)
  · intro h budget m hm hkind hreplaced hhead
    obtain ⟨n, hleft⟩ := @mem_messages_prune _ w ports input budget
    obtain ⟨hmem, hmleft⟩ := (hleft m).mp hm
    obtain ⟨d, hd, hnamed, hwith⟩ := h m (mem_decisions.mpr ⟨hmem, hkind⟩) hreplaced
    obtain ⟨hdmem, hdkind⟩ := mem_decisions.mp hd
    refine (isHead_iff (mem_decisions.mpr ⟨hm, hkind⟩)).mp hhead d
      (mem_decisions.mpr ⟨(hleft d).mpr ⟨hdmem, fun hgone => ?_⟩, hdkind⟩) hnamed
    obtain ⟨hgoes, hle⟩ := hwith ((message_entry_iff hdmem).mp (mem_entries_of_gone hgone))
    exact hmleft (message_gone_before hgone hgoes hle)

end

/-! ## A replacement that goes first -/

/-- The decision that replaced another is acknowledged, and the other is not. -/
def sampleSettledCalls : List (Ports × Call) :=
  sampleReplacedCalls ++
    [ (samplePorts 40 (sampleId "unused"),
        .acknowledgeMessage ⟨sampleId "session_a", none, sampleId "generation_a",
          sampleId "decision_2"⟩) ]

theorem sampleSettled_runs :
    ((Workspace.initial (sampleId "workspace_1")).calls sampleSettledCalls).toOption.isSome =
      true := by decide +kernel

def sampleSettled : Workspace :=
  ((Workspace.initial (sampleId "workspace_1")).calls sampleSettledCalls).toOption.get
    sampleSettled_runs

theorem sampleSettled_reachable : Reachable sampleSettled :=
  (Reachable.initial _).calls (eq_ok_get sampleSettled_runs)

/-- All that the log holds, with a limit that is not reached. -/
def sampleSettledPrune : Workspace :=
  (prune sampleSettled (samplePorts 50 (sampleId "unused")) ⟨none, none, some 6⟩
    (stopAt 100)).1

theorem prune_revives_decision :
    ¬∀ w, Reachable w → ∀ ports input budget, KeepsReplaced w (prune w ports input budget).1 := by
  intro h
  have hkeeps := h sampleSettled sampleSettled_reachable (samplePorts 50 (sampleId "unused"))
    ⟨none, none, some 6⟩ (stopAt 100)
  have hrevived : ∃ m ∈ sampleSettledPrune.messages.list, m.kind = .decision ∧
      isCurrentDecision (statusOf sampleSettled m) = false ∧
      isCurrentDecision (statusOf sampleSettledPrune m) = true := by decide +kernel
  obtain ⟨m, hm, hkind, hbefore, hafter⟩ := hrevived
  refine hkeeps m (Keyed.mem_list.mp hm) hkind ?_ hafter
  rw [IsHead, hbefore]
  exact Bool.false_ne_true

end Acc.Core
