import AgentsCanCommunicate.Core.Promotion
import AgentsCanCommunicate.Core.Changes

/-!
# What a step may do

Every step of every call does one of the things a `Act` lists to sessions,
intents and the ephemeral area, or leaves them alone.  An act states what its
step made sure of under the mutex: that the workspace had not materialised, that
the record it writes again is the open one, that what it deletes has a durable
record.  A write also checked for whom it acts (`Checked`).

The modules after this one look at acts and no longer at calls.
-/

namespace Acc.Core

open Library (Keyed Process)
open Library.Process (Between Keeps)

/-! ## Copies -/

/-- Deleting a copy leaves the other copies. -/
theorem get?_delete_sessions {e : Ephemeral} {copy : Program.Copy} {i : Id} :
    (e.delete copy).sessions.get? i =
      if copy = .session i then none else e.sessions.get? i := by
  cases copy with
  | participant j => rfl
  | session j =>
      rw [Ephemeral.delete, Keyed.get?_remove]
      by_cases h : i = j <;> simp [h, eq_comm]
  | intent j => rfl

theorem get?_delete_intents {e : Ephemeral} {copy : Program.Copy} {i : Id} :
    (e.delete copy).intents.get? i =
      if copy = .intent i then none else e.intents.get? i := by
  cases copy with
  | participant j => rfl
  | session j => rfl
  | intent j =>
      rw [Ephemeral.delete, Keyed.get?_remove]
      by_cases h : i = j <;> simp [h, eq_comm]

theorem get?_delete_participants {e : Ephemeral} {copy : Program.Copy} {i : Id} :
    (e.delete copy).participants.get? i =
      if copy = .participant i then none else e.participants.get? i := by
  cases copy with
  | participant j =>
      rw [Ephemeral.delete, Keyed.get?_remove]
      by_cases h : i = j <;> simp [h, eq_comm]
  | session j => rfl
  | intent j => rfl

/-- A copy is one of the ephemeral records. -/
theorem mem_copies {e : Ephemeral} {copy : Program.Copy} : copy ∈ e.copies ↔
    match copy with
    | .participant i => e.participants.get? i ≠ none
    | .session i => e.sessions.get? i ≠ none
    | .intent i => e.intents.get? i ≠ none := by
  have hkeys : ∀ {α : Type} {key : α → Id} (t : Keyed key) (i : Id),
      (∃ r ∈ t, key r = i) ↔ t.get? i ≠ none := by
    intro α key t i
    rw [Option.ne_none_iff_exists']
    exact ⟨fun ⟨r, hr, hk⟩ => ⟨r, Keyed.get?_eq_some.mpr ⟨hr, hk⟩⟩,
      fun ⟨r, hr⟩ => ⟨r, Keyed.mem_of_get? hr, Keyed.key_of_get? hr⟩⟩
  cases copy <;> simp [Ephemeral.copies, hkeys]

theorem mem_copies_delete {e : Ephemeral} {copy copy' : Program.Copy}
    (h : copy ∈ (e.delete copy').copies) : copy ∈ e.copies := by
  rw [mem_copies] at h ⊢
  cases copy with
  | participant i =>
      simp only [get?_delete_participants] at h
      exact fun hnone => h (by rw [hnone, ite_self])
  | session i =>
      simp only [get?_delete_sessions] at h
      exact fun hnone => h (by rw [hnone, ite_self])
  | intent i =>
      simp only [get?_delete_intents] at h
      exact fun hnone => h (by rw [hnone, ite_self])

theorem or_ne_none {α : Type} {o o' : Option α} (h : o ≠ none) : o.or o' ≠ none := by
  cases o with
  | none => exact absurd rfl h
  | some a => exact Option.some_ne_none a

section

variable [LinearOrder ReceiptId]

/-! ## Acts -/

def Materialised (w : Workspace) : Prop := isMaterialised w w.workspaceId = true

instance (w : Workspace) : Decidable (Materialised w) :=
  inferInstanceAs (Decidable (isMaterialised w w.workspaceId = true))

/-- A record by which a step finds a session. -/
inductive Reads (w : Workspace) (i : Id) (c : Session) : Prop where
  | durable (h : w.sessions.get? i = some c)
  | lone (hlone : ¬Materialised w) (h : w.ephemeral.sessions.get? i = some c)
  | copy (hnone : w.sessions.get? i = none) (h : w.ephemeral.sessions.get? i = some c)

/-- The session for which a step is taken is there, under its generation. -/
def Checked (w : Workspace) : Holder → Prop
  | .anyone => True
  | .session i g => ∃ c, Reads w i c ∧ c.generation = g ∧ c.state = .opened
  | .closing i g => ∃ c, Reads w i c ∧ c.generation = g

/-- The events that tell the lives of the workspace and of sessions. -/
def tellsLife (e : Event) : Bool :=
  match e.payload with
  | .workspaceMaterialised _ | .sessionOpened _ | .sessionPromoted _ | .sessionClosed
  | .sessionFinished .. => true
  | _ => false

/-- A step that leaves presence, intent and the ephemeral area alone.  What it
appends is of sessions that are there. -/
structure Aside (w w' : Workspace) : Prop where
  workspaceId : w'.workspaceId = w.workspaceId
  workspaces : w'.workspaces = w.workspaces
  participants : w'.participants = w.participants
  sessions : w'.sessions = w.sessions
  intents : w'.intents = w.intents
  ephemeral : w'.ephemeral = w.ephemeral
  history : ∃ events, w'.history = w.history ++ events ∧
    ∀ e ∈ events, tellsLife e = false ∧ (sessionIn w e.actorSessionId).isSome = true

/-- Nothing durable is there that a call could write beside presence. -/
structure Bare (w : Workspace) : Prop where
  sessions : ∀ i, w.sessions.get? i = none
  claims : ∀ i, w.claims.get? i = none
  receipts : ∀ i, w.receipts.get? i = none

/-- A step that only takes records and events away. -/
structure Pruned (w w' : Workspace) : Prop where
  workspaceId : w'.workspaceId = w.workspaceId
  workspaces : w'.workspaces = w.workspaces
  ephemeral : w'.ephemeral = w.ephemeral
  sessions : ∀ s ∈ w'.sessions, s ∈ w.sessions

/-- A durable record stands under the key of a copy. -/
def HasDurable (w : Workspace) : Program.Copy → Prop
  | .participant i => w.participants.get? i ≠ none
  | .session i => w.sessions.get? i ≠ none
  | .intent i => w.intents.get? i ≠ none

/-- The session that opens in a materialising transaction is a new record of
this workspace. -/
def Opening.Fits (w : Workspace) (o : Opening) : Prop :=
  o.session.workspaceId = w.workspaceId ∧ o.session.state = .opened ∧
    o.participant.participantId = o.session.participantId

inductive Act (pruning : Prop) : Tag → Shared → Shared → Prop where
  | idle {tag : Tag} {s : Shared} : Act pruning tag s s
  | aside {holder : Holder} {w w' : Workspace} {b b' : Keyed DeliveryBinding.sessionId}
      {h : List Deed} : Aside w w' → (Bare w → w' = w) →
      Act pruning ⟨holder, .write⟩ ⟨w, b, h⟩ ⟨w', b', h⟩
  /-- The copy of a participant that a session is about to open for. -/
  | prepare {holder : Holder} {w : Workspace} {b : Keyed DeliveryBinding.sessionId} {h : List Deed}
      {p : Participant} : ¬Materialised w →
      Act pruning ⟨holder, .write⟩ ⟨w, b, h⟩
        ⟨w.setEphemeral { w.ephemeral with participants := w.ephemeral.participants.put p }, b, h⟩
  | openAlone {holder : Holder} {w : Workspace} {b : Keyed DeliveryBinding.sessionId}
      {h : List Deed} {r : Session} : ¬Materialised w → r.workspaceId = w.workspaceId →
      r.state = .opened →
      Act pruning ⟨holder, .write⟩ ⟨w, b, h⟩
        ⟨w.setEphemeral { w.ephemeral with sessions := w.ephemeral.sessions.put r }, b,
          .opened r :: h⟩
  | updateAlone {holder : Holder} {w : Workspace} {b : Keyed DeliveryBinding.sessionId}
      {h : List Deed} {c r : Session} : ¬Materialised w →
      w.ephemeral.sessions.get? c.sessionId = some c → c.state = .opened → SameLife c r →
      r.state = .opened →
      Act pruning ⟨holder, .write⟩ ⟨w, b, h⟩
        ⟨w.setEphemeral { w.ephemeral with sessions := w.ephemeral.sessions.put r }, b,
          .updated r :: h⟩
  | updateDurable {holder : Holder} {w : Workspace} {b : Keyed DeliveryBinding.sessionId}
      {h : List Deed} {c r : Session} : w.sessions.get? c.sessionId = some c → c.state = .opened →
      SameLife c r → r.state = .opened →
      Act pruning ⟨holder, .write⟩ ⟨w, b, h⟩ ⟨w.putSession r, b, .updated r :: h⟩
  | closeAlone {w : Workspace} {b : Keyed DeliveryBinding.sessionId} {h : List Deed} {c r : Session}
      : ¬Materialised w → w.ephemeral.sessions.get? c.sessionId = some c → SameLife c r →
      r.state = .closed →
      Act pruning ⟨.closing c.sessionId c.generation, .write⟩ ⟨w, b, h⟩
        ⟨w.setEphemeral { w.ephemeral with sessions := w.ephemeral.sessions.remove c.sessionId }, b,
          .closedAlone r :: h⟩
  | cleanup {w : Workspace} {b : Keyed DeliveryBinding.sessionId} {h : List Deed} {i g : Id} :
      w.ephemeral.sessions.get? i = none →
      Act pruning ⟨.closing i g, .cleanup⟩ ⟨w, b, h⟩
        ⟨w.setEphemeral { w.ephemeral with intents := w.ephemeral.intents.remove i }, b, h⟩
  /-- The transaction of a close.  It does not look at the state of the record. -/
  | close {w : Workspace} {b : Keyed DeliveryBinding.sessionId} {h : List Deed} {c r : Session}
      {e : Event} : w.sessions.get? c.sessionId = some c → SameLife c r → r.state = .closed →
      tellsClose e = true → e.actorSessionId = c.sessionId →
      Act pruning ⟨.closing c.sessionId c.generation, .close⟩ ⟨w, b, h⟩
        ⟨(w.putSession r).append e, b, .closed r :: h⟩
  /-- The end of a finish, which closes an open record. -/
  | finish {holder : Holder} {w w' : Workspace} {b : Keyed DeliveryBinding.sessionId}
      {h : List Deed} {c r : Session} {e : Event} : Aside w w' →
      w.sessions.get? c.sessionId = some c → c.state = .opened → SameLife c r → r.state = .closed →
      tellsClose e = true → e.actorSessionId = c.sessionId →
      Act pruning ⟨holder, .write⟩ ⟨w, b, h⟩ ⟨(w'.putSession r).append e, b, .closed r :: h⟩
  | openDurable {holder : Holder} {w : Workspace} {b : Keyed DeliveryBinding.sessionId}
      {h : List Deed} {now : Timestamp} {p : Participant} {r : Session} : Materialised w →
      r.workspaceId = w.workspaceId → r.state = .opened → p.participantId = r.participantId →
      Act pruning ⟨holder, .write⟩ ⟨w, b, h⟩
        ⟨openIn w now p r (w.sessions.get? r.sessionId), b, .opened r :: h⟩
  | materialise {holder : Holder} {w w' : Workspace} {b : Keyed DeliveryBinding.sessionId}
      {h : List Deed} {now : Timestamp} {reason : String} {opening : Option Opening} :
      (∀ o, opening = some o → o.Fits w) → Promoted w now w.workspaceId reason opening w' →
      Act pruning ⟨holder, .materialise⟩ ⟨w, b, h⟩
        ⟨w', b, (opening.map fun o => Deed.opened o.session).toList ++ h⟩
  | retire {holder : Holder} {w : Workspace} {b : Keyed DeliveryBinding.sessionId} {h : List Deed}
      {copy : Program.Copy} : Materialised w → pruning ∨ HasDurable w copy →
      Act pruning ⟨holder, .retire⟩ ⟨w, b, h⟩ ⟨w.setEphemeral (w.ephemeral.delete copy), b, h⟩
  | intendAlone {holder : Holder} {w : Workspace} {b : Keyed DeliveryBinding.sessionId}
      {h : List Deed} {c : Session} {i : Intent} : ¬Materialised w →
      locateSession w i.sessionId (some w.workspaceId) = some c → c.state = .opened →
      Act pruning ⟨holder, .write⟩ ⟨w, b, h⟩
        ⟨w.setEphemeral { w.ephemeral with intents := w.ephemeral.intents.put i }, b,
          .intended c.generation i :: h⟩
  | intend {holder : Holder} {w : Workspace} {b : Keyed DeliveryBinding.sessionId} {h : List Deed}
      {c : Session} {i : Intent} {e : Event} : w.sessions.get? i.sessionId = some c →
      c.state = .opened → tellsLife e = false → e.actorSessionId = i.sessionId →
      Act pruning ⟨holder, .write⟩ ⟨w, b, h⟩
        ⟨(w.putIntent i).append e, b, .intended c.generation i :: h⟩
  | clearAlone {holder : Holder} {w : Workspace} {b : Keyed DeliveryBinding.sessionId}
      {h : List Deed} {c : Session} {i : Id} : ¬Materialised w →
      locateSession w i (some w.workspaceId) = some c → c.state = .opened →
      Act pruning ⟨holder, .write⟩ ⟨w, b, h⟩
        ⟨w.setEphemeral { w.ephemeral with intents := w.ephemeral.intents.remove i }, b,
          .cleared i :: h⟩
  | clear {holder : Holder} {w : Workspace} {b : Keyed DeliveryBinding.sessionId} {h : List Deed}
      {c : Session} {i : Intent} {e : Event} : w.sessions.get? i.sessionId = some c →
      c.state = .opened → i.state = .done → tellsLife e = false → e.actorSessionId = i.sessionId →
      Act pruning ⟨holder, .write⟩ ⟨w, b, h⟩
        ⟨(w.putIntent i).append e, b, .cleared i.sessionId :: h⟩
  | prune {holder : Holder} {w w' : Workspace} {b : Keyed DeliveryBinding.sessionId} {h : List Deed}
      : pruning → Pruned w w' → Act pruning ⟨holder, .prune⟩ ⟨w, b, h⟩ ⟨w', b, h⟩

/-! ## What an act leaves -/

variable {w w' : Workspace} {pruning : Prop} {tag : Tag} {s s' : Shared}

section

variable {now : Timestamp} {p : Participant} {r : Session} {replaced : Option Session}

@[simp] theorem openIn_workspaceId : (openIn w now p r replaced).workspaceId = w.workspaceId :=
  promoteParticipant_other (g := Workspace.workspaceId) (fun _ _ => rfl) w p

@[simp] theorem openIn_workspaces : (openIn w now p r replaced).workspaces = w.workspaces :=
  promoteParticipant_other (g := Workspace.workspaces) (fun _ _ => rfl) w p

@[simp] theorem openIn_intents : (openIn w now p r replaced).intents = w.intents :=
  promoteParticipant_other (g := Workspace.intents) (fun _ _ => rfl) w p

@[simp] theorem openIn_ephemeral : (openIn w now p r replaced).ephemeral = w.ephemeral :=
  promoteParticipant_other (g := Workspace.ephemeral) (fun _ _ => rfl) w p

@[simp] theorem openIn_sessions :
    (openIn w now p r replaced).sessions = w.sessions.put r := by
  rw [show (openIn w now p r replaced).sessions = (promoteParticipant w p).sessions.put r from rfl,
    promoteParticipant_other (g := Workspace.sessions) fun _ _ => rfl]

theorem openIn_participants {i : Id} : (openIn w now p r replaced).participants.get? i =
    (w.participants.get? i).or ((some p).filter fun p => p.participantId = i) :=
  get?_promoteParticipant

@[simp] theorem openIn_history : (openIn w now p r replaced).history =
    w.history ++ [⟨r.workspaceId, r.sessionId, now,
      .sessionOpened (replaced.map Session.generation)⟩] := by
  rw [openIn, Workspace.history_append, show ((promoteParticipant w p).putSession r).history =
    (promoteParticipant w p).history from rfl,
    promoteParticipant_other (g := Workspace.history) fun _ _ => rfl]

end

theorem materialised_iff : Materialised w ↔ w.workspaces.get? w.workspaceId ≠ none := by
  rw [Materialised, isMaterialised, Option.isSome_iff_ne_none]

theorem materialised_congr (hid : w'.workspaceId = w.workspaceId)
    (hworkspaces : w'.workspaces = w.workspaces) : Materialised w' ↔ Materialised w := by
  rw [materialised_iff, materialised_iff, hid, hworkspaces]

theorem Promoted.isMaterialised {now : Timestamp} {reason : String} {opening : Option Opening}
    (h : Promoted w now w.workspaceId reason opening w') : Materialised w' := by
  rw [Materialised, h.workspaceId, h.materialised]
  simp

/-- The store stays that of its workspace. -/
theorem Act.workspaceId (h : Act pruning tag s s') :
    s'.workspace.workspaceId = s.workspace.workspaceId := by
  cases h with
  | aside h _ => exact h.workspaceId
  | finish h => exact h.workspaceId
  | openDurable => exact openIn_workspaceId
  | materialise _ h => exact h.workspaceId
  | prune _ h => exact h.workspaceId
  | _ => rfl

/-- What has materialised stays so. -/
theorem Act.materialised (h : Act pruning tag s s') (hs : Materialised s.workspace) :
    Materialised s'.workspace := by
  cases h with
  | aside h _ => exact (materialised_congr h.workspaceId h.workspaces).mpr hs
  | finish h => exact (materialised_congr h.workspaceId h.workspaces).mpr hs
  | openDurable => exact (materialised_congr openIn_workspaceId openIn_workspaces).mpr hs
  | materialise _ h => exact h.isMaterialised
  | prune _ h => exact (materialised_congr h.workspaceId h.workspaces).mpr hs
  | _ => exact hs

/-- Every session is of the workspace of the store. -/
structure AtHome (w : Workspace) : Prop where
  durable : ∀ i c, w.sessions.get? i = some c → c.workspaceId = w.workspaceId
  ephemeral : ∀ i c, w.ephemeral.sessions.get? i = some c → c.workspaceId = w.workspaceId

theorem AtHome.reads {i : Id} {c : Session} (h : AtHome w) (hc : Reads w i c) :
    c.workspaceId = w.workspaceId := by
  cases hc with
  | durable h' => exact h.durable i c h'
  | lone _ h' => exact h.ephemeral i c h'
  | copy _ h' => exact h.ephemeral i c h'

/-- Each record afterwards was there or is of this workspace. -/
theorem AtHome.of (h : AtHome w) (hid : w'.workspaceId = w.workspaceId)
    (hdurable : ∀ i c, w'.sessions.get? i = some c →
      w.sessions.get? i = some c ∨ w.ephemeral.sessions.get? i = some c ∨
        c.workspaceId = w.workspaceId)
    (hephemeral : ∀ i c, w'.ephemeral.sessions.get? i = some c →
      w.ephemeral.sessions.get? i = some c ∨ c.workspaceId = w.workspaceId) : AtHome w' := by
  constructor
  · intro i c hc
    rw [hid]
    rcases hdurable i c hc with hc | hc | hc
    · exact h.durable i c hc
    · exact h.ephemeral i c hc
    · exact hc
  · intro i c hc
    rw [hid]
    rcases hephemeral i c hc with hc | hc
    · exact h.ephemeral i c hc
    · exact hc

/-- The durable session after promotion. -/
theorem Promoted.session_cases {now : Timestamp} {home : Id} {reason : String}
    {opening : Option Opening} (h : Promoted w now home reason opening w') {i : Id} {c : Session}
    (hc : w'.sessions.get? i = some c) :
    (∃ o, opening = some o ∧ o.session = c ∧ c.sessionId = i) ∨ w.sessions.get? i = some c ∨
      (w.sessions.get? i = none ∧ w.ephemeral.sessions.get? i = some c) := by
  rw [h.sessions, Option.or_eq_some_iff] at hc
  rcases hc with hc | ⟨-, hc⟩
  · obtain ⟨hc, hi⟩ := Option.filter_eq_some_iff.mp hc
    obtain ⟨o, ho, rfl⟩ := Option.map_eq_some_iff.mp hc
    exact Or.inl ⟨o, ho, rfl, by simpa using hi⟩
  · rw [Option.or_eq_some_iff] at hc
    exact Or.inr hc

theorem Act.atHome (h : Act pruning tag s s') (hs : AtHome s.workspace) :
    AtHome s'.workspace := by
  cases h with
  | idle => exact hs
  | aside h _ =>
      refine hs.of h.workspaceId (fun i c hc => ?_) fun i c hc => ?_
      · rw [h.sessions] at hc
        exact Or.inl hc
      · rw [h.ephemeral] at hc
        exact Or.inl hc
  | prepare | cleanup | intendAlone | clearAlone =>
      exact hs.of rfl (fun _ _ hc => Or.inl hc) fun _ _ hc => Or.inl hc
  | openAlone _ hhome =>
      refine hs.of rfl (fun i c hc => Or.inl hc) fun i c hc => ?_
      rcases Keyed.get?_put_eq_some hc with ⟨-, rfl⟩ | ⟨-, hc⟩
      · exact Or.inr hhome
      · exact Or.inl hc
  | updateAlone _ hget _ hlife =>
      refine hs.of rfl (fun i c hc => Or.inl hc) fun i c hc => ?_
      rcases Keyed.get?_put_eq_some hc with ⟨-, rfl⟩ | ⟨-, hc⟩
      · exact Or.inr (hlife.workspaceId.trans (hs.ephemeral _ _ hget))
      · exact Or.inl hc
  | updateDurable hget _ hlife =>
      refine hs.of rfl (fun i c hc => ?_) fun i c hc => Or.inl hc
      rcases Keyed.get?_put_eq_some hc with ⟨-, rfl⟩ | ⟨-, hc⟩
      · exact Or.inr (Or.inr (hlife.workspaceId.trans (hs.durable _ _ hget)))
      · exact Or.inl hc
  | closeAlone =>
      exact hs.of rfl (fun i c hc => Or.inl hc)
        fun i c hc => Or.inl (Keyed.get?_remove_eq_some hc).2
  | close hget hlife =>
      refine hs.of rfl (fun i c hc => ?_) fun i c hc => Or.inl hc
      rcases Keyed.get?_put_eq_some hc with ⟨-, rfl⟩ | ⟨-, hc⟩
      · exact Or.inr (Or.inr (hlife.workspaceId.trans (hs.durable _ _ hget)))
      · exact Or.inl hc
  | finish haside hget _ hlife =>
      refine hs.of haside.workspaceId (fun i c hc => ?_) fun i c hc => ?_
      · rcases Keyed.get?_put_eq_some hc with ⟨-, rfl⟩ | ⟨-, hc⟩
        · exact Or.inr (Or.inr (hlife.workspaceId.trans (hs.durable _ _ hget)))
        · rw [haside.sessions] at hc
          exact Or.inl hc
      · exact Or.inl (haside.ephemeral ▸ hc)
  | openDurable _ hhome =>
      refine hs.of openIn_workspaceId (fun i c hc => ?_) fun i c hc => ?_
      · rw [openIn_sessions] at hc
        rcases Keyed.get?_put_eq_some hc with ⟨-, rfl⟩ | ⟨-, hc⟩
        · exact Or.inr (Or.inr hhome)
        · exact Or.inl hc
      · rw [openIn_ephemeral] at hc
        exact Or.inl hc
  | materialise hfits h =>
      refine hs.of h.workspaceId (fun i c hc => ?_) fun i c hc => ?_
      · rcases h.session_cases hc with ⟨o, ho, rfl, -⟩ | hc | ⟨-, hc⟩
        · exact Or.inr (Or.inr (hfits o ho).1)
        · exact Or.inl hc
        · exact Or.inr (Or.inl hc)
      · rw [h.ephemeral] at hc
        exact Or.inl hc
  | retire =>
      refine hs.of rfl (fun i c hc => Or.inl hc) fun i c hc => ?_
      rw [Workspace.setEphemeral_ephemeral, get?_delete_sessions] at hc
      split at hc
      · cases hc
      · exact Or.inl hc
  | intend | clear => exact hs.of rfl (fun _ _ hc => Or.inl hc) fun _ _ hc => Or.inl hc
  | prune _ h =>
      refine hs.of h.workspaceId (fun i c hc => ?_) fun i c hc => ?_
      · have hmem := h.sessions c (Keyed.mem_of_get? hc)
        rw [Keyed.mem_def, Keyed.key_of_get? hc] at hmem
        exact Or.inl hmem
      · rw [h.ephemeral] at hc
        exact Or.inl hc

/-- No record of a participant, a session or an intent is taken away. -/
structure Grows (w w' : Workspace) : Prop where
  participants : ∀ i, w.participants.get? i ≠ none → w'.participants.get? i ≠ none
  sessions : ∀ i, w.sessions.get? i ≠ none → w'.sessions.get? i ≠ none
  intents : ∀ i, w.intents.get? i ≠ none → w'.intents.get? i ≠ none

theorem Grows.of_eq (hparticipants : w'.participants = w.participants)
    (hsessions : w'.sessions = w.sessions) (hintents : w'.intents = w.intents) : Grows w w' := by
  refine ⟨fun i hi => ?_, fun i hi => ?_, fun i hi => ?_⟩
  · rwa [hparticipants]
  · rwa [hsessions]
  · rwa [hintents]

theorem Grows.hasDurable (h : Grows w w') {copy : Program.Copy} (hw : HasDurable w copy) :
    HasDurable w' copy := by
  cases copy with
  | participant i => exact h.participants i hw
  | session i => exact h.sessions i hw
  | intent i => exact h.intents i hw

/-- Without prune only the ephemeral area loses records. -/
theorem Act.grows (h : Act pruning tag s s') (hpruning : ¬pruning) :
    Grows s.workspace s'.workspace := by
  cases h with
  | aside h _ => exact .of_eq h.participants h.sessions h.intents
  | updateDurable | close =>
      refine ⟨fun _ hi => hi, fun _ hi => ?_, fun _ hi => hi⟩
      exact Keyed.get?_put_ne_none hi
  | finish haside =>
      refine ⟨fun i hi => ?_, fun i hi => ?_, fun i hi => ?_⟩
      · exact haside.participants ▸ hi
      · exact Keyed.get?_put_ne_none (haside.sessions ▸ hi)
      · exact haside.intents ▸ hi
  | openDurable =>
      refine ⟨fun i hi => ?_, fun i hi => ?_, fun i hi => ?_⟩
      · rw [openIn_participants]
        exact or_ne_none hi
      · rw [openIn_sessions]
        exact Keyed.get?_put_ne_none hi
      · rw [openIn_intents]
        exact hi
  | materialise _ h =>
      refine ⟨fun i hi => ?_, fun i hi => ?_, fun i hi => ?_⟩
      · rw [h.participants]
        exact or_ne_none (or_ne_none hi)
      · rw [h.sessions]
        intro hnone
        exact or_ne_none hi (Option.or_eq_none_iff.mp hnone).2
      · rw [h.intents]
        exact or_ne_none hi
  | intend | clear =>
      refine ⟨fun _ hi => hi, fun _ hi => hi, fun _ hi => ?_⟩
      exact Keyed.get?_put_ne_none hi
  | prune h => exact absurd h hpruning
  | _ => exact .of_eq rfl rfl rfl

/-- What every step keeps to. -/
structure Guarantee (pruning : Prop) (tag : Tag) (s s' : Shared) : Prop where
  act : Act pruning tag s s'
  checked : (tag.kind = .write ∨ tag.kind = .close) → s' = s ∨ Checked s.workspace tag.holder

end

end Acc.Core
