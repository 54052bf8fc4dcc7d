import AgentsCanCommunicate.Protocol.Records

/-!
# Transaction indexes

The indexes a transaction looks records up by, and the keys under which each
index files a record.  An index keys each record by its fields, or by a rule of
its own, which may give no key or several.
-/

namespace Acc

inductive Index where
  | messageByClientKey
  | receiptsByMessage
  | receiptsByRecipientState
  | decisionsByTarget
deriving DecidableEq, Repr

/-- The values of the key fields of an index. -/
abbrev Tuple := List String

/-- A receipt that can still be listed.  One from before receipts kept their
obligation may be listable while it is retrieved. -/
def waiting (receipt : Receipt) : Bool :=
  receipt.state ≠ .acknowledged
    ∧ ¬(receipt.state = .retrieved ∧ receipt.obligation = some .none)

/-- `indexKeysFor("message", message)`. -/
def messageKeys (message : Message) : List (Index × Tuple) :=
  (.messageByClientKey, [message.workspaceId.val, message.fromParticipantId.val,
      message.clientMessageId.val])
    :: if message.kind = .decision then
        ((message.decisionChange.map DecisionChange.messageIds).getD []).map fun target =>
          (.decisionsByTarget, [message.workspaceId.val, target.val])
      else []

/-- `indexKeysFor("receipt", receipt)`. -/
def receiptKeys (receipt : Receipt) : List (Index × Tuple) :=
  (.receiptsByMessage, [receipt.workspaceId.val, receipt.messageId.val])
    :: if waiting receipt then
        [(.receiptsByRecipientState, [receipt.workspaceId.val, receipt.recipientParticipantId.val,
          receipt.state.word])]
      else []

theorem Id.val_injective : Function.Injective Id.val := by
  intro i j h
  cases i
  cases j
  cases h
  rfl

theorem ReceiptState.word_injective : Function.Injective ReceiptState.word := by
  intro s t h
  cases s <;> cases t <;> first | rfl | exact absurd h (by decide)

theorem messageByClientKey_mem {message : Message} {workspaceId participantId clientId : Id} :
    (.messageByClientKey, [workspaceId.val, participantId.val, clientId.val])
        ∈ messageKeys message ↔
      message.workspaceId = workspaceId ∧ message.fromParticipantId = participantId
        ∧ message.clientMessageId = clientId := by
  have hrest : ((.messageByClientKey, [workspaceId.val, participantId.val, clientId.val])
      : Index × Tuple) ∉ (if message.kind = .decision then
        ((message.decisionChange.map DecisionChange.messageIds).getD []).map fun target =>
          (Index.decisionsByTarget, [message.workspaceId.val, target.val])
      else []) := by
    split <;> simp
  rw [messageKeys, List.mem_cons, or_iff_left hrest]
  simp only [Prod.mk.injEq, List.cons.injEq, true_and, and_true]
  constructor
  · intro ⟨hw, hp, hc⟩
    exact ⟨Id.val_injective hw.symm, Id.val_injective hp.symm, Id.val_injective hc.symm⟩
  · intro ⟨hw, hp, hc⟩
    rw [hw, hp, hc]
    exact ⟨rfl, rfl, rfl⟩

theorem receiptsByMessage_mem {receipt : Receipt} {workspaceId messageId : Id} :
    (.receiptsByMessage, [workspaceId.val, messageId.val]) ∈ receiptKeys receipt ↔
      receipt.workspaceId = workspaceId ∧ receipt.messageId = messageId := by
  have hrest : ((.receiptsByMessage, [workspaceId.val, messageId.val]) : Index × Tuple) ∉
      (if waiting receipt then [(Index.receiptsByRecipientState, [receipt.workspaceId.val,
        receipt.recipientParticipantId.val, receipt.state.word])] else []) := by
    split <;> simp
  rw [receiptKeys, List.mem_cons, or_iff_left hrest]
  simp only [Prod.mk.injEq, List.cons.injEq, true_and, and_true]
  constructor
  · intro ⟨hw, hm⟩
    exact ⟨Id.val_injective hw.symm, Id.val_injective hm.symm⟩
  · intro ⟨hw, hm⟩
    rw [hw, hm]
    exact ⟨rfl, rfl⟩

theorem receiptsByRecipientState_mem {receipt : Receipt} {workspaceId participantId : Id}
    {state : ReceiptState} :
    (.receiptsByRecipientState, [workspaceId.val, participantId.val, state.word])
        ∈ receiptKeys receipt ↔
      waiting receipt = true ∧ receipt.workspaceId = workspaceId
        ∧ receipt.recipientParticipantId = participantId ∧ receipt.state = state := by
  rw [receiptKeys, List.mem_cons]
  split
  next hw =>
    simp only [Prod.mk.injEq, reduceCtorEq, false_and, false_or, List.mem_singleton,
      List.cons.injEq, true_and, and_true, hw]
    constructor
    · intro ⟨h₁, h₂, h₃⟩
      exact ⟨Id.val_injective h₁.symm, Id.val_injective h₂.symm,
        ReceiptState.word_injective h₃.symm⟩
    · intro ⟨h₁, h₂, h₃⟩
      rw [h₁, h₂, h₃]
      exact ⟨rfl, rfl, rfl⟩
  next hw => simp [hw]

theorem decisionsByTarget_mem {message : Message} {workspaceId target : Id} :
    (.decisionsByTarget, [workspaceId.val, target.val]) ∈ messageKeys message ↔
      message.kind = .decision ∧ message.workspaceId = workspaceId
        ∧ target ∈ (message.decisionChange.map DecisionChange.messageIds).getD [] := by
  rw [messageKeys, List.mem_cons]
  split
  next hk =>
    simp only [Prod.mk.injEq, reduceCtorEq, false_and, false_or, List.mem_map, List.cons.injEq,
      true_and, and_true, hk]
    constructor
    · intro ⟨t, ht, hw, heq⟩
      exact ⟨Id.val_injective hw, Id.val_injective heq ▸ ht⟩
    · intro ⟨hw, ht⟩
      exact ⟨target, ht, by rw [hw], rfl⟩
  next hk => simp [hk]

end Acc
