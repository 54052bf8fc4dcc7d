import AgentsCanCommunicate.Library.Search
import AgentsCanCommunicate.Core.Workspace

/-!
# The state of a decision

A decision is replaced or withdrawn by other decisions that name it, so what it
is now is read from all of its group: the decisions that can be reached through
such links, in either direction.  A decision that none names is a head.

`decisionView` is the read model of the source.  It takes the decisions one
after another, searches the group of each that has no status yet, and gives
every member of the group its status.
-/

namespace Acc.Core

open Library (Keyed search Leads)

inductive DecisionState where
  | current | superseded | withdrawn
deriving DecidableEq, Repr

structure DecisionStatus where
  state : DecisionState
  isHead : Bool
  conflicted : Bool
  headCount : Nat
  currentMessageId : Option Id
  groupId : Id
deriving DecidableEq

/-- `message.decisionChange?.messageIds ?? []`. -/
def targets (message : Message) : List Id :=
  (message.decisionChange.map DecisionChange.messageIds).getD []

theorem mem_targets {message : Message} {i : Id} :
    i ∈ targets message ↔ ∃ change, message.decisionChange = some change ∧ i ∈ change.messageIds := by
  rw [targets]
  cases message.decisionChange <;> simp

/-- `message.decisionChange?.action === "withdraw"`. -/
def withdraws (message : Message) : Bool :=
  message.decisionChange.any fun change => change.action = .withdraw

/-! ## Groups -/

def decisionsOf (messages : List Message) : List Message :=
  messages.filter fun m => m.kind = .decision

def findDecision (decisions : List Message) (i : Id) : Option Message :=
  decisions.find? fun m => m.messageId = i

/-- The decisions that name a decision. -/
def naming (decisions : List Message) (i : Id) : List Message :=
  decisions.filter fun m => i ∈ targets m

/-- The decisions a decision names and those that name it. -/
def neighbours (decisions : List Message) (i : Id) : List Id :=
  (((findDecision decisions i).map targets).getD []).filter
      (fun target => (findDecision decisions target).isSome)
    ++ (naming decisions i).map Message.messageId

/-- A decision that another one names. -/
def isReplaced (decisions : List Message) (i : Id) : Bool := naming decisions i ≠ []

def groupOf (decisions : List Message) (start : Id) : List Id :=
  search (neighbours decisions) decisions.length [start] [start]

/-! ## Statuses -/

/-- `ids.sort()[0]`. -/
def firstId (ids : List Id) (fallback : Id) : Id :=
  (ids.mergeSort fun a b => decide (codeUnits a.val ≤ codeUnits b.val)).head?.getD fallback

/-- The status of one member of a group. -/
def statusIn (decisions : List Message) (group : List Id) (i : Id) : DecisionStatus :=
  let withdrawing := fun d => (findDecision decisions d).any withdraws
  let heads := group.filter fun d => !isReplaced decisions d
  let hasDecision := heads.any fun d => !withdrawing d
  let roots := group.filter fun d =>
    (findDecision decisions d).all fun m => m.decisionChange = none
  let isHead := !isReplaced decisions i
  { state :=
      if isHead then (if withdrawing i then .withdrawn else .current)
      else if hasDecision then .superseded else .withdrawn
    isHead
    conflicted := heads.length ≠ 1
    headCount := heads.length
    currentMessageId := if heads.length = 1 then heads.head? else none
    groupId := firstId (if roots = [] then group else roots) i }

/-- Give every member of the group of a decision its status, unless it has
one. -/
def assignGroup (decisions : List Message) (statuses : List (Id × DecisionStatus)) (start : Id) :
    List (Id × DecisionStatus) :=
  if statuses.any fun s => s.1 = start then statuses
  else
    let group := groupOf decisions start
    statuses ++ group.map fun i => (i, statusIn decisions group i)

def decisionStatuses (messages : List Message) : List (Id × DecisionStatus) :=
  let decisions := decisionsOf messages
  (decisions.map Message.messageId).foldl (assignGroup decisions) []

/-- The status of a message among messages, none unless it is a decision. -/
def decisionView (messages : List Message) (message : Message) : Option DecisionStatus :=
  ((decisionStatuses messages).find? fun s => s.1 = message.messageId).map Prod.snd

/-- `isCurrentDecision`. -/
def isCurrentDecision (status : Option DecisionStatus) : Bool :=
  status.all DecisionStatus.isHead

/-- Where there are no decisions, nothing has a status. -/
theorem decisionView_undecided {messages : List Message}
    (h : ∀ m ∈ messages, m.kind ≠ .decision)
    (m : Message) : decisionView messages m = none := by
  have hnone : decisionsOf messages = [] :=
    List.filter_eq_nil_iff.mpr fun m hm => by simpa using h m hm
  rw [decisionView, decisionStatuses, hnone]
  rfl

end Acc.Core
