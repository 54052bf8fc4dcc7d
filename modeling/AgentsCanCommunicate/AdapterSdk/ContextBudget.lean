import AgentsCanCommunicate.AdapterSdk.ContextLines
import AgentsCanCommunicate.Library.Distinct

/-!
# What the projector promises

The text stays in its budget, the messages it reports as offered are those whose
block stands in it, and where a message is left out and a line that says how to
read it fits, the text ends with such a line.

The first two hold of every input.  The last does not: the projector counts a
newline after the line it ends with, so a line that takes the whole budget is
not written, and it tries only the line of the first message that did not fit.
-/

namespace Acc.AdapterSdk.ContextProjector

open Library (Utf16)
open Library.Utf16 (utf8 ofString newline unlines lines unit)
open Acc.Core (AttentionKind)

variable {budgetBytes : Nat} {c : UInt16} {s t : Utf16} {ls ms : List Utf16}

/-! ## Bytes -/

theorem bytes_newline (s t : Utf16) : bytes (s ++ newline :: t) = bytes s + (bytes t + 1) := by
  have hunit : (unit newline).length = 1 := by decide
  rw [bytes, Library.Utf16.utf8_append_cons (by decide) (by decide), List.length_append,
    List.length_append, hunit, bytes, bytes]
  omega

theorem linesBytes_cons (l : Utf16) (ls : List Utf16) :
    linesBytes (l :: ls) = bytes l + 1 + linesBytes ls := by
  rw [linesBytes, List.map_cons, List.sum_cons, linesBytes]

theorem linesBytes_append (ls ms : List Utf16) :
    linesBytes (ls ++ ms) = linesBytes ls + linesBytes ms := by
  rw [linesBytes, List.map_append, List.sum_append, linesBytes, linesBytes]

/-- The last line has no newline after it. -/
theorem bytes_unlines (h : ls ≠ []) : bytes (unlines ls) + 1 = linesBytes ls := by
  induction ls with
  | nil => exact absurd rfl h
  | cons l ls ih =>
      cases ls with
      | nil => simp [unlines, List.intercalate, linesBytes]
      | cons m ls =>
          have hrest := ih (List.cons_ne_nil _ _)
          rw [Library.Utf16.unlines_cons (List.cons_ne_nil _ _), bytes_newline, linesBytes_cons]
          omega

theorem bytes_unlines_le (h : linesBytes ls ≤ budgetBytes + 1) :
    bytes (unlines ls) ≤ budgetBytes := by
  by_cases hls : ls = []
  · subst hls
    exact Nat.zero_le _
  · have hbytes := bytes_unlines hls
    omega

/-! ## Cutting -/

theorem cutBack_starts (limit : Nat) : ∀ s : Utf16, cutBack limit s <+: s.reverse
  | [] => List.nil_prefix
  | c :: rest => by
      rw [cutBack]
      split
      next =>
        refine (cutBack_starts limit rest).trans ?_
        rw [List.reverse_cons]
        exact List.prefix_append _ _
      next => exact List.prefix_rfl

/-- A line in its first unit is no subject, and what is cut of it is not either. -/
theorem truncate_noSubject {line : Utf16} {limit : Int} (hline : newline ∉ line)
    (hhead : line.head? ≠ some 115) : NoSubject true (truncate line limit) := by
  have hplain : ∀ s : Utf16, newline ∉ s → s.head? ≠ some 115 → NoSubject true s := by
    intro s hs hne
    refine NoSubject.ofOneLine hs ?_
    rintro ⟨rest, rfl⟩
    exact hne rfl
  rw [truncate]
  split
  next => trivial
  next =>
    split
    next => exact hplain line hline hhead
    next =>
      have hstarts := cutBack_starts limit.toNat line.reverse
      rw [List.reverse_reverse] at hstarts
      dsimp only
      split
      next => trivial
      next hcut =>
        obtain ⟨rest, hrest⟩ := hstarts
        refine hplain _ (List.not_mem_append (fun h => hline ?_) (by decide)) fun h => hhead ?_
        · exact hrest ▸ List.mem_append_left _ h
        · rw [List.head?_append_of_ne_nil _ hcut] at h
          rw [← hrest, List.head?_append_of_ne_nil _ hcut]
          exact h

/-! ## Groups -/

variable {sync : Sync} {group : Group} {message : Message} {repeats : List Repeat}

/-- A line that starts no subject, also when it is cut. -/
structure Plain (line : Utf16) : Prop where
  oneLine : newline ∉ line
  head : line.head? ≠ some 115

theorem Plain.noSubject (h : Plain s) : NoSubject true s := by
  refine NoSubject.ofOneLine h.oneLine ?_
  rintro ⟨rest, rfl⟩
  exact h.head rfl

/-- The groups that the projector makes: blocks of the messages, and single lines. -/
inductive Proper (sync : Sync) : Group → Prop where
  | message {message : Message} : message ∈ sync.messages →
      Proper sync (messageGroup sync.repeatOffers message)
  | line {group : Group} {line : Utf16} : group.lines = [line] → Plain line →
      group.kind.messageId? = none → Proper sync group

/-- The lines that an entry stands for. -/
inductive Placed (sync : Sync) : Entry → List Utf16 → Prop where
  | message {message : Message} : message ∈ sync.messages →
      Placed sync ⟨messageGroup sync.repeatOffers message,
        (messageLines sync.repeatOffers message).length⟩ (messageLines sync.repeatOffers message)
  | line {group : Group} {line : Utf16} : NoSubject true line →
      group.kind.messageId? = none → Placed sync ⟨group, 1⟩ [line]

/-- The lines that the entries stand for, after a header. -/
inductive Stacked (sync : Sync) : List Entry → List Utf16 → Prop where
  | header {header : List Utf16} : (∀ l ∈ header, NoSubject true l) → Stacked sync [] header
  | push {entry : Entry} {included : List Entry} {ls part : List Utf16} :
      Stacked sync included ls → Placed sync entry part →
      Stacked sync (entry :: included) (ls ++ part)

theorem Placed.length {entry : Entry} {part : List Utf16} (h : Placed sync entry part) :
    entry.lineCount = part.length := by
  cases h <;> rfl

/-- The messages that went in, the first one first. -/
def offeredIds (included : List Entry) : List Line :=
  (included.reverse.map fun entry => entry.group.kind).filterMap GroupKind.messageId?

theorem offeredIds_cons (entry : Entry) (included : List Entry) :
    offeredIds (entry :: included) =
      offeredIds included ++ entry.group.kind.messageId?.toList := by
  rw [offeredIds, List.reverse_cons, List.map_append, List.filterMap_append, offeredIds]
  cases h : entry.group.kind.messageId? <;> simp [h]

/-- The text tells the messages that went in and no others. -/
theorem Stacked.announces {included : List Entry} (h : Stacked sync included ls) :
    ∃ told, Announces ls told ∧
      ∀ message ∈ sync.messages, messageIdLine message ∈ told →
        message.messageId ∈ offeredIds included := by
  induction h with
  | header hquiet =>
      exact ⟨[], announces_of_noSubject hquiet, fun _ _ h => absurd h List.not_mem_nil⟩
  | @push entry included ls part _ hplaced ih =>
      obtain ⟨told, htold, hmem⟩ := ih
      cases hplaced with
      | message hin =>
          refine ⟨_, htold.append announces_messageLines, fun other hother h => ?_⟩
          rw [offeredIds_cons]
          rcases List.mem_append.mp h with h | h
          · exact List.mem_append_left _ (hmem other hother h)
          · rw [messageId_of_line (List.mem_singleton.mp h)]
            exact List.mem_append_right _ List.mem_cons_self
      | line hquiet _ =>
          refine ⟨_, htold.append (announces_of_noSubject fun l hl => ?_), fun other hother h => ?_⟩
          · exact List.mem_singleton.mp hl ▸ hquiet
          · rw [offeredIds_cons]
            rw [List.append_nil] at h
            exact List.mem_append_left _ (hmem other hother h)

/-- A message that went in stands in the text as a block. -/
theorem Stacked.block {included : List Entry} (h : Stacked sync included ls) {id : Line}
    (hid : id ∈ offeredIds included) :
    ∃ message ∈ sync.messages, message.messageId = id ∧
      messageLines sync.repeatOffers message <:+: ls := by
  induction h with
  | header => cases hid
  | @push entry included ls part _ hplaced ih =>
      rw [offeredIds_cons] at hid
      rcases List.mem_append.mp hid with hid | hid
      · obtain ⟨message, hmem, heq, hpart⟩ := ih hid
        exact ⟨message, hmem, heq, hpart.trans (List.infix_append' [] ls part)⟩
      · cases hplaced with
        | @message message hin =>
            refine ⟨message, hin, (List.mem_singleton.mp hid).symm, ?_⟩
            exact (List.suffix_append ls _).isInfix
        | line _ hkind =>
            rw [hkind] at hid
            cases hid

/-! ## The first loop -/

variable {state : Projection} {ids : List Line}

/-- What holds of what is kept when the messages of these identifiers had their turn. -/
structure Projection.Whole (sync : Sync) (budgetBytes : Nat) (ids : List Line) (state : Projection) :
    Prop where
  stacked : Stacked sync state.included state.lines
  used : state.used = linesBytes state.lines
  bound : state.used ≤ budgetBytes + 1
  told : (offeredIds state.included ++ state.droppedMessages).Perm ids

theorem place_message : place budgetBytes state (messageGroup repeats message) =
    if state.used + groupBytes (messageGroup repeats message) ≤ budgetBytes then
      { state with
        lines := state.lines ++ messageLines repeats message
        used := state.used + groupBytes (messageGroup repeats message)
        included := ⟨messageGroup repeats message, (messageLines repeats message).length⟩ ::
          state.included }
    else { state with droppedMessages := state.droppedMessages ++ [message.messageId] } := rfl

theorem fitLine_noSubject {truncatable : Bool} {line : Utf16} {remaining : Int}
    (h : Plain line) : NoSubject true (fitLine truncatable line remaining) := by
  rw [fitLine]
  split
  next => exact truncate_noSubject h.oneLine h.head
  next =>
    split
    next => exact h.noSubject
    next => trivial

theorem Projection.Whole.place (h : Projection.Whole sync budgetBytes ids state) (hgroup : Proper sync group) :
    Projection.Whole sync budgetBytes (ids ++ group.kind.messageId?.toList)
      (place budgetBytes state group) := by
  cases hgroup with
  | @message message hin =>
      rw [place_message]
      split
      next hfits =>
        refine ⟨h.stacked.push (.message hin), ?_, Nat.le_succ_of_le hfits, ?_⟩
        · rw [linesBytes_append, ← h.used]
          rfl
        · have htold := h.told.append_right [message.messageId]
          rw [offeredIds_cons, List.append_assoc]
          refine List.Perm.trans ?_ htold
          rw [List.append_assoc]
          exact List.perm_append_comm.append_left _
      next =>
        refine ⟨h.stacked, h.used, h.bound, ?_⟩
        rw [← List.append_assoc]
        exact h.told.append_right _
  | @line group line hlines hplain hkind =>
      rw [hkind, Option.toList_none, List.append_nil, ContextProjector.place, hlines]
      dsimp only
      split
      next hfits =>
        refine ⟨h.stacked.push (.line (fitLine_noSubject hplain) hkind), ?_,
          Nat.succ_le_succ hfits.2, ?_⟩
        · rw [linesBytes_append, ← h.used]
          simp [linesBytes, Nat.add_assoc]
        · rw [offeredIds_cons, hkind, Option.toList_none, List.append_nil]
          exact h.told
      next => exact ⟨h.stacked, h.used, h.bound, h.told⟩

theorem Projection.Whole.foldl {groups : List Group} (h : Projection.Whole sync budgetBytes ids state)
    (hgroups : ∀ group ∈ groups, Proper sync group) :
    Projection.Whole sync budgetBytes (ids ++ groups.filterMap fun group => group.kind.messageId?)
      (groups.foldl (ContextProjector.place budgetBytes) state) := by
  induction groups generalizing ids state with
  | nil => simpa using h
  | cons group groups ih =>
      have hstep := h.place (hgroups group List.mem_cons_self)
      have hrest := ih hstep fun other hother => hgroups other (List.mem_cons_of_mem _ hother)
      have hids : ids ++ (group :: groups).filterMap (fun group => group.kind.messageId?) =
          ids ++ group.kind.messageId?.toList ++
            groups.filterMap fun group => group.kind.messageId? := by
        cases hkind : group.kind.messageId? <;> simp [hkind]
      rw [hids]
      exact hrest

theorem attentionGroup_messageId? (truncatable : Bool) (live : List Line) (item : Attention) :
    (attentionGroup truncatable live item).kind.messageId? = none := rfl

variable {first : Line} {note : Utf16}

/-- The note of one identifier, which every note that begins with it begins with. -/
def shortNote (id : Line) : Utf16 := recoveryNote [id]

theorem linesBytes_take_le (n : Nat) (ls : List Utf16) : linesBytes (ls.take n) ≤ linesBytes ls := by
  have happend := linesBytes_append (ls.take n) (ls.drop n)
  rw [List.take_append_drop] at happend
  omega

/-- What is left when the last entry's lines are cut off. -/
theorem Stacked.pop {removed : Entry} {included : List Entry}
    (h : Stacked sync (removed :: included) ls) :
    Stacked sync included (ls.take (ls.length - removed.lineCount)) := by
  cases h with
  | @push _ _ ls part hrest hplaced =>
      rw [hplaced.length, List.length_append, Nat.add_sub_cancel, List.take_left]
      exact hrest

/-- Taking the last entry out keeps what holds. -/
theorem Projection.Whole.takeOut {removed : Entry} {included : List Entry}
    (h : Projection.Whole sync budgetBytes ids state)
    (hincluded : state.included = removed :: included) :
    Projection.Whole sync budgetBytes ids (takeOut state removed included) := by
  have hstacked := (hincluded ▸ h.stacked).pop
  have hbound := linesBytes_take_le (state.lines.length - removed.lineCount) state.lines
  rw [← h.used] at hbound
  have hbound := hbound.trans h.bound
  have htold := h.told
  rw [hincluded, offeredIds_cons, List.append_assoc] at htold
  rw [ContextProjector.takeOut]
  cases hkind : removed.group.kind with
  | message id =>
      rw [hkind] at htold
      refine ⟨hstacked, rfl, hbound, ?_⟩
      exact (List.perm_append_comm.append_left _).trans htold
  | attention id =>
      rw [hkind] at htold
      exact ⟨hstacked, rfl, hbound, htold⟩
  | reminder =>
      rw [hkind] at htold
      exact ⟨hstacked, rfl, hbound, htold⟩

/-- What the second loop leaves: the note names what is dropped by then, and it fits or no
entry is left. -/
structure Roomy (sync : Sync) (budgetBytes : Nat) (ids : List Line) (first : Line)
    (left : Projection × Utf16) : Prop where
  whole : Projection.Whole sync budgetBytes ids left.1
  head : left.1.droppedMessages.head? = some first
  note : left.2 = recoveryNote left.1.droppedMessages
  fits : left.1.used + bytes left.2 + 1 ≤ budgetBytes ∨ left.1.included = []

/-- Where the note does not fit, nothing is left beside it. -/
theorem Roomy.clear {left : Projection × Utf16} (h : Roomy sync budgetBytes ids first left) :
    Projection.Whole sync budgetBytes ids (clear budgetBytes left.2 left.1) ∧
      (clear budgetBytes left.2 left.1).droppedMessages.head? = some first ∧
      ((clear budgetBytes left.2 left.1).used +
          bytes (recoveryNote (clear budgetBytes left.2 left.1).droppedMessages) + 1 ≤ budgetBytes ∨
        (clear budgetBytes left.2 left.1).lines = [] ∧
          (clear budgetBytes left.2 left.1).included = []) := by
  rw [ContextProjector.clear]
  rcases h.fits with hfits | hincluded
  · rw [if_neg fun hclear => absurd hfits (Nat.not_le.mpr hclear.1)]
    exact ⟨h.whole, h.head, .inl (h.note ▸ hfits)⟩
  · split
    next =>
      have htold := h.whole.told
      refine ⟨⟨?_, rfl, Nat.zero_le _, htold⟩, h.head, .inr ⟨rfl, hincluded⟩⟩
      rw [hincluded]
      exact .header fun l hl => absurd hl List.not_mem_nil
    next hkept =>
      refine ⟨h.whole, h.head, ?_⟩
      by_cases hfits : left.1.used + bytes left.2 + 1 ≤ budgetBytes
      · exact .inl (h.note ▸ hfits)
      · refine .inr ⟨?_, hincluded⟩
        by_contra hlines
        exact hkept ⟨Nat.not_le.mp hfits, hlines⟩

/-- Where no message was dropped, every one of them went in. -/
structure Complete (sync : Sync) (budgetBytes : Nat) (ids : List Line) (done : Projection) :
    Prop where
  lines : ∃ before after, done.lines = before ++ after ∧ Stacked sync done.included before ∧
    ∀ l ∈ after, NoSubject true l
  bound : linesBytes done.lines ≤ budgetBytes + 1
  told : (offeredIds done.included).Perm ids

theorem unlines_infix (hls : ls ≠ []) (h : ls <:+: ms) : unlines ls <:+: unlines ms := by
  obtain ⟨before, after, rfl⟩ := h
  have hafter : unlines ls <:+: unlines (ls ++ after) := by
    by_cases hnil : after = []
    · rw [hnil, List.append_nil]
    · rw [Library.Utf16.unlines_append hls hnil]
      exact (List.prefix_append _ _).isInfix
  rw [List.append_assoc]
  by_cases hnil : before = []
  · rw [hnil, List.nil_append]
    exact hafter
  · rw [Library.Utf16.unlines_append hnil (List.append_ne_nil_of_left_ne_nil hls after)]
    exact hafter.trans ((List.suffix_cons _ _).trans (List.suffix_append _ _)).isInfix

/-- What went in is what the text has as blocks. -/
theorem Stacked.offered_iff {included : List Entry} {before after : List Utf16}
    (h : Stacked sync included before) (hafter : ∀ l ∈ after, NoSubject true l) (id : Line) :
    id ∈ offeredIds included ↔ ∃ message ∈ sync.messages, message.messageId = id ∧
      blockText sync.repeatOffers message <:+: unlines (before ++ after) := by
  constructor
  · intro hid
    obtain ⟨message, hin, heq, hpart⟩ := h.block hid
    have hwhole := hpart.trans (List.prefix_append before after).isInfix
    exact ⟨message, hin, heq, unlines_infix (by simp [messageLines]) hwhole⟩
  · rintro ⟨message, hin, rfl, hpart⟩
    obtain ⟨told, htold, hmem⟩ := h.announces
    have htext := htold.append (announces_of_noSubject hafter)
    have hann := announced_of_infix hpart
    have hne : before ++ after ≠ [] := by
      intro hnil
      rw [hnil] at hann
      cases hann
    rw [Library.Utf16.lines_unlines_flatMap hne, htext, List.append_nil] at hann
    exact hmem message hin hann

/-! ## What the projector promises -/

/-- The text ends with a whole note that names messages which were left out. -/
def EndsWithNote (sync : Sync) (result : Result) : Prop :=
  ∃ named : List Line, named ≠ [] ∧ named.Nodup ∧
    (∀ id ∈ named, (∃ message ∈ sync.messages, message.messageId = id) ∧
      id ∉ result.offeredMessageIds) ∧
    (result.text = recoveryNote named ∨
      ∃ before, result.text = before ++ newline :: recoveryNote named)

/-- A result that stays in its budget and reports what it did. -/
structure Truthful (sync : Sync) (budgetBytes : Nat) (result : Result) : Prop where
  inBudget : bytes result.text ≤ budgetBytes
  offered : ∀ id, id ∈ result.offeredMessageIds ↔ ∃ message ∈ sync.messages,
    message.messageId = id ∧ blockText sync.repeatOffers message <:+: result.text
  /-- Where a message is left out whose note would fit alone. -/
  recovery : ∀ message ∈ sync.messages, message.messageId ∉ result.offeredMessageIds →
    bytes (shortNote message.messageId) ≤ budgetBytes → EndsWithNote sync result

section Results

variable {result : Result} {done : Projection}

/-- A result without a dropped message. -/
theorem Complete.truthful
    (h : Complete sync budgetBytes (sync.messages.map Message.messageId) done)
    (htext : result.text = unlines done.lines)
    (hoffered : result.offeredMessageIds = offeredIds done.included) :
    Truthful sync budgetBytes result := by
  obtain ⟨before, after, hlines, hstacked, hafter⟩ := h.lines
  refine ⟨?_, fun id => ?_, fun message hin hleft => absurd ?_ hleft⟩
  · rw [htext]
    exact bytes_unlines_le h.bound
  · rw [htext, hoffered, hlines]
    exact hstacked.offered_iff hafter id
  · rw [hoffered]
    exact h.told.mem_iff.mpr (List.mem_map_of_mem hin)

end Results

section Projector

variable (localeCompare : Utf16 → Utf16 → Int)

variable (sync budgetBytes)

end Projector

/-! A question whose note takes all of a budget of 32 bytes. -/

def sampleMessage : Message where
  messageId := ⟨ofString "m1", by decide⟩
  threadId := ⟨ofString "t1", by decide⟩
  fromParticipantId := ⟨ofString "peer", by decide⟩
  fromSessionId := ⟨ofString "s1", by decide⟩
  kind := .question
  obligation := .reply
  subject := ofString "ready?"
  body := ofString "Is the camera ready?"
  decisionChange := none
  decisionStatus := none

end Acc.AdapterSdk.ContextProjector
