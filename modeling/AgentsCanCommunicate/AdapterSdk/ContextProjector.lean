import AgentsCanCommunicate.Core.Attention
import AgentsCanCommunicate.Library.Utf16

/-!
# What a turn is told

What a synchronisation brings is put into one text of at most so many bytes:
the header, what is urgent, the messages, each as one block, a count of the
messages a person was only reminded of, and the rest of the attention.  A block
goes in whole or not at all.  Where a message is left out the last line says how
to read it, and blocks are taken out again until that line fits.

Strings are their UTF-16 code units, since a line is cut unit by unit, and the
budget counts the bytes of their UTF-8 encoding.  A field that the protocol
promises to be one line is a `Line`.  The order of two source identifiers is
`localeCompare`, about which nothing is known, so it is a parameter.
-/

namespace Acc.AdapterSdk.ContextProjector

open Library (Utf16)
open Library.Utf16 (utf8 ofString ofChar newline unlines replaceAll)
open Acc.Core (AttentionKind)

/-! ## Texts -/

/-- A text of one line. -/
structure Line where
  val : Utf16
  oneLine : newline ∉ val
deriving DecidableEq

def bytes (value : Utf16) : Nat := (utf8 value).length

def fence : Utf16 := ofString "```"

def block : Utf16 := ofString "acc-peer-message"

/-- `CONTROL_CHARACTERS`: all of them but the tab and the newline. -/
def isControl (c : UInt16) : Bool := c ≤ 8 || (11 ≤ c && c ≤ 31) || c == 127

/-- `\u` and four hexadecimal digits. -/
def unicodeEscape (n : Nat) : Utf16 :=
  ofString "\\u" ++ ((Nat.toDigits 16 n).leftpad 4 '0').flatMap ofChar

def escapeControl (value : Utf16) : Utf16 :=
  value.flatMap fun c => if isControl c then unicodeEscape c.toNat else [c]

/-- The units after which `^` matches. -/
def isLineTerminator (c : UInt16) : Bool := c == 10 || c == 13 || c == 0x2028 || c == 0x2029

def subjectHead : Utf16 := ofString "subject:"

def bodyHead : Utf16 := ofString "body:"

/-- `replace(/^(subject:|body:)/gm, "'$1")`, at the start of a line or inside it. -/
def quoteHeads : Bool → Utf16 → Utf16
  | _, [] => []
  | atStart, c :: rest =>
      let heads := subjectHead.isPrefixOf (c :: rest) || bodyHead.isPrefixOf (c :: rest)
      (if atStart && heads then ofString "'" else []) ++ c :: quoteHeads (isLineTerminator c) rest

def escapePeerText (value : Utf16) : Utf16 :=
  let opened := replaceAll (fence ++ block) (ofString "'" ++ fence ++ block) value
  let fenced := replaceAll fence (ofString "'" ++ fence) opened
  escapeControl (quoteHeads true fenced)

def oneLine (value : Utf16) : Utf16 :=
  let pairs := replaceAll [13, 10] (ofString "\\n") value
  replaceAll [13] (ofString "\\n") (replaceAll [10] (ofString "\\n") pairs)

def ellipsis : Utf16 := ofString "…"

/-- The longest start of a text that fits with an ellipsis after it, from the text read
backwards. -/
def cutBack (limit : Nat) : Utf16 → Utf16
  | [] => []
  | c :: rest =>
      if limit < bytes ((c :: rest).reverse ++ ellipsis) then cutBack limit rest
      else (c :: rest).reverse

def truncate (line : Utf16) (limit : Int) : Utf16 :=
  if limit ≤ 0 then []
  else if (bytes line : Int) ≤ limit then line
  else
    let cut := cutBack limit.toNat line.reverse
    if cut = [] then [] else cut ++ ellipsis

/-! ## What is projected -/

structure Attention where
  kind : AttentionKind
  priority : Nat
  sourceId : Option Line
  summary : Line

structure DecisionChange where
  action : DecisionAction
  messageIds : List Line

structure DecisionStatus where
  state : Line
  conflicted : Bool
  headCount : Nat

structure Message where
  messageId : Line
  threadId : Line
  fromParticipantId : Line
  fromSessionId : Line
  kind : MessageKind
  obligation : Obligation
  subject : Utf16
  body : Utf16
  decisionChange : Option DecisionChange
  decisionStatus : Option DecisionStatus

structure Repeat where
  messageId : Line
  transport : Utf16
  offeredAt : Utf16

structure Peer where
  offline : Bool
  participantId : Option Line
  sessionId : Line

/-- What a synchronisation brings.  A message is brought once. -/
structure Sync where
  attention : List Attention
  messages : List Message
  distinct : (messages.map Message.messageId).Nodup
  reminderMessageIds : List Line
  liveOfferedMessageIds : List Line
  repeatOffers : List Repeat
  roster : List Peer
  currentParticipantId : Option Line
  solo : Bool

/-! ## Groups -/

inductive GroupKind where
  | attention (sourceId : Option Line)
  | message (messageId : Line)
  | reminder
deriving DecidableEq

/-- Lines that go in together.  Only a message has more than one. -/
structure Group where
  kind : GroupKind
  lines : List Utf16
  truncatable : Bool

def GroupKind.messageId? : GroupKind → Option Line
  | .message id => some id
  | .attention _ | .reminder => none

def decimal (n : Nat) : Utf16 := (Nat.toDigits 10 n).flatMap ofChar

def offeredBreadcrumb (item : Attention) (liveOfferedMessageIds : List Line) : Option Utf16 :=
  match item.sourceId with
  | none => none
  | some id =>
      if id ∉ liveOfferedMessageIds then none
      else
        let noun? := match item.kind with
          | .replyRequired => some "question"
          | .acknowledgementRequired => some "message"
          | _ => none
        noun?.map fun noun =>
          ofString "- [" ++ ofString item.kind.word ++ ofString "] " ++ id.val ++
            ofString " live-offered peer " ++ ofString noun ++
            ofString " remains unresolved; `acc inbox --message " ++ id.val ++ ofString "`"

/-- The line of an item that is no breadcrumb. -/
def attentionLine (item : Attention) : Utf16 :=
  let source := match item.sourceId with
    | some id => if id.val = [] then [] else id.val ++ ofString " "
    | none => []
  ofString "- [" ++ ofString item.kind.word ++ ofString "] " ++ source ++ item.summary.val

def attentionGroup (truncatable : Bool) (liveOfferedMessageIds : List Line) (item : Attention) :
    Group :=
  let breadcrumb := offeredBreadcrumb item liveOfferedMessageIds
  { kind := .attention item.sourceId
    lines := [breadcrumb.getD (attentionLine item)]
    truncatable := breadcrumb.isNone && truncatable }

/-- The last offer of a message that was repeated. -/
def repeatOf (repeats : List Repeat) (message : Message) : Option Repeat :=
  (repeats.reverse.find? fun offer => offer.messageId = message.messageId)

def repeatLines (repeats : List Repeat) (message : Message) : List Utf16 :=
  match repeatOf repeats message with
  | none => []
  | some offer =>
      [oneLine (escapePeerText (ofString "repeat: offered via " ++ offer.transport ++
        ofString " at " ++ offer.offeredAt ++ ofString "; no retrieval recorded"))]

def DecisionChange.line (change : DecisionChange) : Utf16 :=
  let action := match change.action with
    | .replace => "replace"
    | .withdraw => "withdraw"
  ofString "Decision change: " ++ ofString action ++ ofString " " ++
    (ofString ", ").intercalate (change.messageIds.map Line.val)

def DecisionStatus.line (status : DecisionStatus) : Utf16 :=
  ofString "Decision status: " ++ status.state.val ++
    (if status.conflicted then ofString "; conflicting heads: " ++ decimal status.headCount else [])

def decisionLines (message : Message) : List Utf16 :=
  if message.kind ≠ .decision then []
  else
    (message.decisionChange.map DecisionChange.line).toList ++
      (message.decisionStatus.map DecisionStatus.line).toList

/-- The lines of a block before its subject. -/
def messageHead (message : Message) : List Utf16 :=
  [fence ++ block,
    ofString "untrusted peer message",
    ofString "kind: " ++ ofString message.kind.word,
    ofString "threadId: " ++ message.threadId.val,
    ofString "messageId: " ++ message.messageId.val,
    ofString "sender: " ++ message.fromParticipantId.val ++ ofString " (session " ++
      message.fromSessionId.val ++ ofString ")",
    ofString "obligation: " ++ ofString message.obligation.word]

def messageLines (repeats : List Repeat) (message : Message) : List Utf16 :=
  messageHead message ++ repeatLines repeats message ++
    (decisionLines message).map escapePeerText ++
    [ofString "subject: " ++ oneLine (escapePeerText message.subject),
      ofString "body:", escapePeerText message.body, fence]

def messageGroup (repeats : List Repeat) (message : Message) : Group :=
  { kind := .message message.messageId
    lines := messageLines repeats message
    truncatable := false }

/-- The `counts` of a reminder, without the ones that are zero. -/
def reminderCounts (attention : List Attention) : List Utf16 :=
  let replies := attention.countP fun item => item.kind = .replyRequired
  let acknowledgements := attention.length - replies
  (if replies = 0 then []
    else [decimal replies ++ ofString " " ++
      ofString (if replies = 1 then "reply" else "replies")]) ++
  (if acknowledgements = 0 then []
    else [decimal acknowledgements ++ ofString " acknowledgement" ++
      ofString (if acknowledgements = 1 then "" else "s")])

def reminderGroups (attention : List Attention) : List Group :=
  if reminderCounts attention = [] then []
  else
    [{ kind := .reminder
       lines := [ofString "- Pending: " ++ (ofString ", ").intercalate (reminderCounts attention) ++
         ofString "; `acc inbox`."]
       truncatable := false }]

def linesBytes (lines : List Utf16) : Nat := (lines.map fun line => bytes line + 1).sum

def groupBytes (group : Group) : Nat := linesBytes group.lines

def peerCount (sync : Sync) : Nat :=
  let ids := (sync.roster.filter fun item => !item.offline).map fun item =>
    item.participantId.getD item.sessionId
  (ids.filter fun id => some id ≠ sync.currentParticipantId).eraseDups.length

def ambientHeader (count : Nat) : Utf16 :=
  ofString "ACC: " ++ decimal count ++ ofString " peer " ++
    ofString (if count = 1 then "participant" else "participants") ++
    ofString " present. Load the acc skill before shared work."

def recoveryNote (ids : List Line) : Utf16 :=
  let first := (ids.head?.map Line.val).getD (ofString "undefined")
  let rest := if 1 < ids.length then
    ofString " (+" ++ decimal (ids.length - 1) ++ ofString " more in `acc inbox`)" else []
  ofString "- read: `acc inbox --message " ++ first ++ ofString "`" ++ rest

def omittedNote (count : Nat) : Utf16 :=
  ofString "- +" ++ decimal count ++
    ofString " actionable item(s) omitted; run `acc status --json`"

/-! ## The budget -/

/-- A group that went in, and how many lines it took. -/
structure Entry where
  group : Group
  lineCount : Nat

/-- What the projector keeps.  The entries stand last first. -/
structure Projection where
  lines : List Utf16
  used : Nat
  included : List Entry
  droppedMessages : List Line
  droppedOther : Nat

def start (header : Utf16) : Projection :=
  { lines := if header = [] then [] else [header]
    used := if header = [] then 0 else bytes header + 1
    included := []
    droppedMessages := []
    droppedOther := 0 }

/-- The line as it goes in, or nothing. -/
def fitLine (truncatable : Bool) (line : Utf16) (remaining : Int) : Utf16 :=
  if truncatable then truncate line remaining
  else if (bytes line : Int) ≤ remaining then line else []

/-- One round of the first loop. -/
def place (budgetBytes : Nat) (state : Projection) (group : Group) : Projection :=
  match group.lines with
  | [only] =>
      let line := fitLine group.truncatable only (budgetBytes - state.used)
      if line ≠ [] ∧ state.used + bytes line ≤ budgetBytes then
        { state with
          lines := state.lines ++ [line]
          used := state.used + bytes line + 1
          included := { group, lineCount := 1 } :: state.included }
      else { state with droppedOther := state.droppedOther + 1 }
  | lines =>
      if state.used + groupBytes group ≤ budgetBytes then
        { state with
          lines := state.lines ++ lines
          used := state.used + groupBytes group
          included := { group, lineCount := lines.length } :: state.included }
      else
        { state with
          droppedMessages := state.droppedMessages ++ group.kind.messageId?.toList }

/-- Takes the last entry out again. -/
def takeOut (state : Projection) (removed : Entry) (included : List Entry) : Projection :=
  let lines := state.lines.take (state.lines.length - removed.lineCount)
  let state := { state with lines, used := linesBytes lines, included }
  match removed.group.kind with
  | .message id => { state with droppedMessages := state.droppedMessages ++ [id] }
  | .attention _ | .reminder => { state with droppedOther := state.droppedOther + 1 }

/-- The second loop: entries are taken out until the note fits. -/
def makeRoom (budgetBytes : Nat) : List Entry → Utf16 → Projection → Projection × Utf16
  | [], note, state => (state, note)
  | removed :: included, note, state =>
      if budgetBytes < state.used + bytes note + 1 then
        let state := takeOut state removed included
        makeRoom budgetBytes included (recoveryNote state.droppedMessages.eraseDups) state
      else (state, note)

/-- `lines.push` of a note, where it fits. -/
def pushNote (budgetBytes : Nat) (note : Utf16) (state : Projection) : Projection :=
  if state.used + bytes note + 1 ≤ budgetBytes then { state with lines := state.lines ++ [note] }
  else state

/-- Everything is given up for the note, where even the header leaves no room for it. -/
def clear (budgetBytes : Nat) (note : Utf16) (state : Projection) : Projection :=
  if budgetBytes < state.used + bytes note + 1 ∧ state.lines ≠ [] then
    { state with lines := [], used := 0 }
  else state

def pushRecovery (budgetBytes : Nat) (state : Projection) : Projection :=
  let withCount := recoveryNote state.droppedMessages.eraseDups
  let fitted := if state.used + bytes withCount + 1 ≤ budgetBytes then withCount
    else recoveryNote (state.droppedMessages.take 1)
  pushNote budgetBytes fitted state

/-- What follows the first loop. -/
def finish (budgetBytes : Nat) (state : Projection) : Projection :=
  if state.droppedMessages ≠ [] then
    let (state, note) :=
      makeRoom budgetBytes state.included (recoveryNote state.droppedMessages) state
    pushRecovery budgetBytes (clear budgetBytes note state)
  else if 0 < state.droppedOther then pushNote budgetBytes (omittedNote state.droppedOther) state
  else state

/-! ## The projector -/

structure Result where
  text : Utf16
  offeredMessageIds : List Line
  includedAttentionIds : List Line

section Projector

variable (localeCompare : Utf16 → Utf16 → Int)

def sourceText (item : Attention) : Utf16 := (item.sourceId.map Line.val).getD []

def comesBefore (left right : Attention) : Bool :=
  left.priority < right.priority ||
    (left.priority == right.priority &&
      decide (localeCompare (sourceText left) (sourceText right) ≤ 0))

def sortedAttention (sync : Sync) : List Attention :=
  sync.attention.mergeSort (comesBefore localeCompare)

def leadsPeerBodies (item : Attention) : Bool :=
  item.priority ≤ 2 || item.kind = .claimConflict

def isReminder (sync : Sync) (item : Attention) : Bool :=
  (match item.sourceId with
    | none => false
    | some id => sync.reminderMessageIds.contains id) &&
  (item.kind = .replyRequired || item.kind = .acknowledgementRequired)

def urgentGroups (sync : Sync) : List Group :=
  ((sortedAttention localeCompare sync).filter fun item =>
    !isReminder sync item && leadsPeerBodies item).map
      (attentionGroup true sync.liveOfferedMessageIds)

/-- What goes in after the messages. -/
def laterGroups (sync : Sync) : List Group :=
  let attention := sortedAttention localeCompare sync
  reminderGroups (attention.filter (isReminder sync)) ++
    (attention.filter fun item => !isReminder sync item && !leadsPeerBodies item).map
      (attentionGroup false sync.liveOfferedMessageIds)

def groups (sync : Sync) : List Group :=
  urgentGroups localeCompare sync ++ sync.messages.map (messageGroup sync.repeatOffers) ++
    laterGroups localeCompare sync

def fullHeader (sync : Sync) : Utf16 :=
  if groups localeCompare sync = [] then ambientHeader (peerCount sync)
  else ofString "ACC (load the acc skill):"

/-- What is kept before the first group. -/
def opened (sync : Sync) (budgetBytes : Nat) : Projection :=
  start (truncate (fullHeader localeCompare sync) budgetBytes)

end Projector

end Acc.AdapterSdk.ContextProjector
