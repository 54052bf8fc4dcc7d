import AgentsCanCommunicate.Core.Replies

/-!
# Finishing with a handoff

A finish puts the goal, the status and three lists into one body.  Each entry is
a line of its own and is checked as one, but the body is prose and holds 4000
code units, however many entries there are.  A finish whose parts are all valid
is recorded as long as the parts together fit.

The rest of a finish does not fail: the workspace materialises, the session is
found durably, the message is new and its recipient known.  Only the sequences of
the event log bound it as well.
-/

namespace Acc

/-! ## Joined lines -/

theorem length_codeUnits_join (t : String) (ts : List String) :
    (codeUnits ("\n".intercalate (t :: ts))).length =
      (codeUnits t).length + (ts.map fun t => (codeUnits t).length + 1).sum := by
  induction ts generalizing t with
  | nil => simp
  | cons u us ih =>
      have hbreak : (codeUnits "\n").length = 1 := by decide
      rw [String.intercalate_cons_cons, codeUnits_append, codeUnits_append, List.length_append,
        List.length_append, ih, hbreak]
      simp only [List.map_cons, List.sum_cons]
      omega

theorem hasControl_join (ts : List String) :
    hasControl ("\n".intercalate ts) true = ts.any fun t => hasControl t true := by
  induction ts with
  | nil => rfl
  | cons t ts ih =>
      cases ts with
      | nil => simp
      | cons u us =>
          have hbreak : hasControl "\n" true = false := by decide
          rw [String.intercalate_cons_cons, hasControl_append, hasControl_append, ih, hbreak]
          simp

theorem isBlank_join {t : String} {ts : List String} (h : ¬t.toList.all isBlank) :
    ¬("\n".intercalate (t :: ts)).toList.all isBlank := by
  cases ts with
  | nil => simpa using h
  | cons u us =>
      rw [String.intercalate_cons_cons, String.toList_append, String.toList_append,
        List.all_append, List.all_append, Bool.eq_false_of_not_eq_true h]
      exact Bool.false_ne_true

/-- What a line may not hold, prose may not hold either. -/
theorem hasControl_of_line {t : String} (h : hasControl t false = false) :
    hasControl t true = false := by
  simp only [hasControl, List.any_eq_false, Bool.false_and, Bool.not_false, Bool.true_and] at h ⊢
  intro c hc hbad
  exact h c hc (Bool.and_eq_true_iff.mp hbad).2

theorem listOf_eq_ok {α : Type} {check : α → String → Result Unit} {values : List α}
    {field : String} (h : listOf check values field = .ok ()) :
    ∀ v ∈ values, ∃ path, check v path = .ok () := by
  have hfrom : ∀ start, ((values.zipIdx start).forM fun item =>
      check item.1 s!"{field}[{item.2}]") = .ok () → ∀ v ∈ values, ∃ path, check v path = .ok () := by
    clear h
    induction values with
    | nil => exact fun _ _ v hv => by cases hv
    | cons a as ih =>
        intro start h v hv
        simp only [List.zipIdx_cons, List.forM_eq_forM, List.forM_cons, bind_eq_ok] at h ih
        obtain ⟨_, ha, has⟩ := h
        rcases List.mem_cons.mp hv with rfl | hv
        · exact ⟨_, ha⟩
        · exact ih _ has v hv
  exact hfrom 0 h

theorem listOf_ok {α : Type} {check : α → String → Result Unit} {values : List α}
    (h : ∀ v ∈ values, ∀ path, check v path = .ok ()) (field : String) :
    listOf check values field = .ok () := by
  have hfrom : ∀ start, ((values.zipIdx start).forM fun item =>
      check item.1 s!"{field}[{item.2}]") = .ok () := by
    induction values with
    | nil => exact fun _ => rfl
    | cons a as ih =>
        intro start
        have hrest := ih (fun v hv => h v (List.mem_cons_of_mem _ hv)) (start + 1)
        simp only [List.zipIdx_cons, List.forM_eq_forM, List.forM_cons, bind_eq_ok] at hrest ⊢
        exact ⟨(), h a (List.mem_cons_self ..) _, hrest⟩
  exact hfrom 0

end Acc

namespace Acc.Core

open Library (Table Keyed)

/-! ## The body of a handoff -/

/-- The code units of one list of a handoff, each line with the break before
it. -/
def partUnits (label : String) (items : List String) : Nat :=
  if items = [] then 0
  else label.length + 2 + (items.map fun item => (codeUnits item).length + 3).sum

/-- The code units of a handoff body, from those of its parts. -/
def handoffUnits (goal : String) (handoff : Handoff) : Nat :=
  (codeUnits goal).length + handoff.status.word.length + 1 +
    (partUnits "completed" handoff.completed + partUnits "remaining" handoff.remaining +
      partUnits "blockers" handoff.blockers)

/-- The lines of one list of a handoff. -/
def partLines (label : String) (items : List String) : List String :=
  if items = [] then [] else s!"{label}:" :: items.map fun item => s!"- {item}"

theorem handoffBody_eq (goal : String) (handoff : Handoff) :
    handoffBody goal handoff = "\n".intercalate (goal :: handoff.status.word ::
      (partLines "completed" handoff.completed ++ partLines "remaining" handoff.remaining ++
        partLines "blockers" handoff.blockers)) := by
  simp only [handoffBody, partLines, List.cons_append, List.nil_append]

theorem units_partLines {label : String}
    (hlabel : (codeUnits s!"{label}:").length = label.length + 1) (items : List String) :
    ((partLines label items).map fun t => (codeUnits t).length + 1).sum =
      partUnits label items := by
  have hitem : ∀ item : String, (codeUnits s!"- {item}").length = (codeUnits item).length + 2 := by
    intro item
    have hdash : (codeUnits "- ").length = 2 := by decide
    rw [show s!"- {item}" = "- " ++ item from rfl, codeUnits_append, List.length_append, hdash,
      Nat.add_comm]
  rw [partLines, partUnits]
  split
  · rfl
  · rw [List.map_cons, List.sum_cons, hlabel, List.map_map]
    refine congrArg (label.length + 2 + ·) (congrArg List.sum (List.map_congr_left ?_))
    intro item _
    rw [Function.comp_apply, hitem]

/-- A handoff body has the units of its parts. -/
theorem codeUnits_handoffBody (goal : String) (handoff : Handoff) :
    (codeUnits (handoffBody goal handoff)).length = handoffUnits goal handoff := by
  have hstatus : (codeUnits handoff.status.word).length = handoff.status.word.length := by
    cases handoff.status <;> decide
  rw [handoffBody_eq, length_codeUnits_join, List.map_cons, List.sum_cons, List.map_append,
    List.map_append, List.sum_append, List.sum_append, units_partLines (by decide),
    units_partLines (by decide), units_partLines (by decide), hstatus, handoffUnits]
  omega

theorem hasControl_partLines {label : String} (hlabel : hasControl s!"{label}:" true = false)
    {items : List String} (hitems : ∀ item ∈ items, hasControl item false = false) :
    ∀ t ∈ partLines label items, hasControl t true = false := by
  intro t ht
  rw [partLines] at ht
  split at ht
  next => cases ht
  next =>
    rcases List.mem_cons.mp ht with rfl | ht
    · exact hlabel
    · obtain ⟨item, hitem, rfl⟩ := List.mem_map.mp ht
      have hdash : hasControl "- " true = false := by decide
      rw [show s!"- {item}" = "- " ++ item from rfl, hasControl_append, hdash,
        hasControl_of_line (hitems item hitem)]
      rfl

/-- The lines of a list that was checked hold no control characters. -/
theorem hasControl_of_listOf {items : List String} {field : String}
    (h : listOf line items field = .ok ()) : ∀ item ∈ items, hasControl item false = false := by
  intro item hitem
  obtain ⟨_, hline⟩ := listOf_eq_ok h item hitem
  exact (text_eq_ok.mp hline).2.2

/-- The body of valid parts is prose exactly if they fit together. -/
theorem prose_handoffBody {goal : String} {handoff : Handoff} {field path : String}
    (hgoal : line goal field = .ok ()) (hhandoff : handoffPayload handoff path = .ok ()) :
    prose (handoffBody goal handoff) "body" = .ok () ↔ handoffUnits goal handoff ≤ 4000 := by
  obtain ⟨hblank, -, hcontrol⟩ := text_eq_ok.mp hgoal
  simp only [handoffPayload, bind_eq_ok] at hhandoff
  obtain ⟨_, hcompleted, _, hremaining, _, hblockers, -⟩ := hhandoff
  have hstatus : hasControl handoff.status.word true = false := by
    cases handoff.status <;> decide
  have hlines : hasControl (handoffBody goal handoff) true = false := by
    rw [handoffBody_eq, hasControl_join, List.any_eq_false]
    intro t ht
    rw [Bool.not_eq_true]
    simp only [List.mem_cons, List.mem_append] at ht
    rcases ht with rfl | rfl | (ht | ht) | ht
    · exact hasControl_of_line hcontrol
    · exact hstatus
    · exact hasControl_partLines (by decide) (hasControl_of_listOf hcompleted) t ht
    · exact hasControl_partLines (by decide) (hasControl_of_listOf hremaining) t ht
    · exact hasControl_partLines (by decide) (hasControl_of_listOf hblockers) t ht
  rw [prose, text_eq_ok, codeUnits_handoffBody, hlines]
  constructor
  · exact fun h => h.2.1
  · refine fun h => ⟨?_, h, rfl⟩
    rw [handoffBody_eq]
    exact isBlank_join hblank

section

variable [LinearOrder ReceiptId]

/-! ## How many events a call appends -/

/-- A write takes one sequence for each event it appends. -/
theorem Write.newest {w w' : Workspace} (h : Write w w') :
    w'.newest + w.history.length = w.newest + w'.history.length := by
  have happend : ∀ (u : Workspace) (e : Event), (u.append e).newest + u.history.length =
      u.newest + (u.append e).history.length := by
    intro u e
    rw [Workspace.newest_append, Workspace.history_append, List.length_append,
      List.length_singleton]
    omega
  cases h with
  | @opened r e => exact happend (w.putSession r) e
  | @claim r e => exact happend (w.putClaim r) e
  | @message m recipients now => exact happend w _
  | @event e => exact happend w e
  | _ => rfl

theorem Writes.newest {w w' : Workspace} (h : Writes w w') :
    w'.newest + w.history.length = w.newest + w'.history.length := by
  induction h with
  | refl => rfl
  | tail _ hstep ih =>
      have hone := hstep.newest
      omega

/-- A write transaction that appends events which can be numbered. -/
theorem transaction_of_numbered {α : Type} {w w' : Workspace} {r : α}
    {body : Workspace → Result (Workspace × α)} (hbody : body w = .ok (w', r)) :
    w.transaction body = .ok (w', r) ↔ ¬(w.newest < w'.newest ∧ maxSafe < w'.newest) := by
  simp only [Workspace.transaction, hbody, bind_eq_ok, refuse_eq_ok, pure_eq_ok]
  constructor
  · rintro ⟨_, hdone, _, hnumbered, rfl⟩
    cases hdone
    exact hnumbered
  · exact fun hnumbered => ⟨_, rfl, (), hnumbered, rfl⟩

/-! ## Materialising for a durable object -/

variable {w w₁ : Workspace} {ports : Ports}

/-- A description whose texts are lines. -/
structure Descriptor.Valid (d : Descriptor) : Prop where
  displayName : ∀ name, d.displayName = some name → line name "displayName" = .ok ()
  roots : ∀ roots, d.roots = some roots → listOf line roots "roots" = .ok ()

omit [LinearOrder ReceiptId] in
theorem portableChar_range {c : Char} (h : isPortableChar c = true) :
    45 ≤ c.toNat ∧ c.toNat ≤ 122 := by
  simp only [isPortableChar, Char.isAlphanum, Char.isAlpha, Char.isUpper, Char.isLower,
    Char.isDigit, Bool.or_eq_true, Bool.and_eq_true, decide_eq_true_eq, ge_iff_le,
    UInt32.le_iff_toNat_le, beq_iff_eq] at h
  have hnat : c.toNat = c.val.toNat := rfl
  have hA : 'A'.val.toNat = 65 := rfl
  have hZ : 'Z'.val.toNat = 90 := rfl
  have ha : 'a'.val.toNat = 97 := rfl
  have hz : 'z'.val.toNat = 122 := rfl
  have h0 : '0'.val.toNat = 48 := rfl
  have h9 : '9'.val.toNat = 57 := rfl
  rcases h with ((h | rfl) | rfl) | rfl
  · omega
  all_goals decide

omit [LinearOrder ReceiptId] in
/-- An identifier is a line. -/
theorem line_id (i : Id) (field : String) : line i.val field = .ok () := by
  have hportable := i.portable
  rw [isPortableId] at hportable
  split at hportable
  next => cases hportable
  next first rest heq =>
    simp only [Bool.and_eq_true, List.all_eq_true, decide_eq_true_eq] at hportable
    obtain ⟨⟨⟨⟨hfirst, hrest⟩, hlength⟩, -⟩, -⟩ := hportable
    have hchars : ∀ c ∈ i.val.toList, 45 ≤ c.toNat ∧ c.toNat ≤ 122 := by
      intro c hc
      rw [heq] at hc
      rcases List.mem_cons.mp hc with rfl | hc
      · exact portableChar_range (by simp [isPortableChar, hfirst])
      · exact portableChar_range (hrest c hc)
    have hunits : (codeUnits i.val).length = rest.length + 1 := by
      have hplain : codeUnits i.val = i.val.toList.map Char.toNat := by
        rw [codeUnits, List.map_eq_flatMap]
        refine List.flatMap_congr fun c hc => ?_
        rw [if_pos (by have := (hchars c hc).2; omega)]
      rw [hplain, List.length_map, heq, List.length_cons]
    refine text_eq_ok.mpr ⟨?_, by omega, ?_⟩
    · obtain ⟨hlow, hhigh⟩ := hchars first (heq ▸ List.mem_cons_self ..)
      have hblank : isBlank first = false := by
        simp only [isBlank, Bool.or_eq_false_iff, Bool.and_eq_false_iff, beq_eq_false_iff_ne,
          decide_eq_false_iff_not]
        omega
      rw [heq, List.all_cons, hblank]
      exact Bool.false_ne_true
    · rw [hasControl, List.any_eq_false]
      intro c hc
      obtain ⟨hlow, hhigh⟩ := hchars c hc
      simp only [Bool.false_and, Bool.not_false, Bool.true_and, Bool.or_eq_true,
        decide_eq_true_eq, beq_iff_eq]
      omega

/-- The events with which a call for a durable object materialises. -/
def durableEvents (w : Workspace) (now : Timestamp) : Nat :=
  if isMaterialised w w.workspaceId then 0
  else (materialiseEvents w now w.workspaceId "durable_object" none).length

theorem materialiseRecord_ok (w : Workspace) (now : Timestamp) (reason : String)
    {descriptor : Option Descriptor} (hdescriptor : ∀ d, descriptor = some d → d.Valid) :
    ∃ w₁, materialiseRecord w now w.workspaceId descriptor reason = .ok w₁ := by
  rw [materialiseRecord]
  split
  · exact ⟨w, rfl⟩
  · have hname : line ((descriptor.bind Descriptor.displayName).getD w.workspaceId.val)
        "displayName" = .ok () := by
      cases hbind : descriptor.bind Descriptor.displayName with
      | none => exact line_id _ _
      | some name =>
          obtain ⟨d, hd, hgiven⟩ := Option.bind_eq_some_iff.mp hbind
          exact (hdescriptor d hd).displayName name hgiven
    have hroots : listOf line ((descriptor.bind Descriptor.roots).getD []) "roots" = .ok () := by
      cases hbind : descriptor.bind Descriptor.roots with
      | none => rfl
      | some roots =>
          obtain ⟨d, hd, hgiven⟩ := Option.bind_eq_some_iff.mp hbind
          exact (hdescriptor d hd).roots roots hgiven
    simp only [validateWorkspace, bind_eq_ok, pure_eq_ok]
    exact ⟨_, (), ⟨(), hname, hroots⟩, rfl⟩

/-- A call for a durable object numbers the events of materialising. -/
theorem ensureMaterialised_newest {descriptor : Option Descriptor} (hw : Homed w)
    (h : ensureMaterialised w ports w.workspaceId descriptor "durable_object" = .ok w₁) :
    w₁.newest = w.newest + durableEvents w ports.now := by
  have hnewest := (ensureMaterialised_writes hw rfl h).newest
  rw [durableEvents]
  rcases ensureMaterialised_eq_ok h with ⟨hdone, rfl⟩ | ⟨hbare, w₂, hpromoted, rfl⟩
  · rw [if_pos hdone]
    rfl
  · have hretired : (retireEphemeral w₂ w.ephemeral).history = w₂.history := rfl
    rw [hretired, hpromoted.history, List.length_append] at hnewest
    rw [hbare, if_neg Bool.false_ne_true]
    omega

/-- A call for a durable object materialises unless its events cannot be
numbered. -/
theorem ensureMaterialised_ok {descriptor : Option Descriptor} (hw : Homed w)
    (hdescriptor : ∀ d, descriptor = some d → d.Valid)
    (hnumbered : w.newest + durableEvents w ports.now ≤ maxSafe) :
    ∃ w₁, ensureMaterialised w ports w.workspaceId descriptor "durable_object" = .ok w₁ := by
  rw [ensureMaterialised]
  split
  next => exact ⟨w, rfl⟩
  next hbare =>
    obtain ⟨w₂, hrecord⟩ := materialiseRecord_ok w ports.now "durable_object" hdescriptor
    obtain ⟨hid, hephemeral, -, -, hsessions, hintents, -, hrecorded⟩ :=
      materialiseRecord_eq_ok hrecord
    obtain ⟨-, -, -, hpromoted⟩ := @promote_eq _ w₂ ports.now w.workspaceId none w.ephemeral
    have hwrites : Writes w (promote w₂ ports.now w.workspaceId w.ephemeral none) :=
      (materialiseRecord_writes rfl hrecord).trans
        (promote_writes hid.symm (hid.symm ▸ hw.ephemeral))
    have hhistory : (promote w₂ ports.now w.workspaceId w.ephemeral none).history =
        w.history ++ materialiseEvents w ports.now w.workspaceId "durable_object" none := by
      rw [hpromoted, hrecorded, hsessions, hintents, materialiseEvents]
      simp [ownCopy]
    have hnewest := hwrites.newest
    rw [hhistory, List.length_append] at hnewest
    rw [durableEvents, if_neg hbare] at hnumbered
    have htx : materialiseTransaction w ports w.workspaceId descriptor "durable_object" none =
        .ok (promote w₂ ports.now w.workspaceId w.ephemeral none, true) := by
      refine (transaction_of_numbered ?_).mpr (by omega)
      simp only [Option.all_none, if_true, hrecord, Except.bind, bind, joinIn]
      rfl
    simp only [materialise, htx, bind_eq_ok, pure_eq_ok]
    exact ⟨_, _, ⟨_, rfl, rfl⟩, rfl⟩

/-- The durable record of an open session, once the workspace has
materialised. -/
theorem current_of_ensured {session : Session} {sessionId : Id} {workspaceId : Option Id}
    {descriptor : Option Descriptor} (hw : Reachable w)
    (hlocated : locateSession w sessionId workspaceId = some session)
    (h : ensureMaterialised w ports session.workspaceId descriptor "durable_object" = .ok w₁) :
    w₁.sessions.get? session.sessionId = some session := by
  have hlocal := hw.homed.located hlocated
  have hid := locateSession_sessionId hlocated
  have hsome : w₁.sessions.get? session.sessionId ≠ none := by
    rw [hid]
    rcases ensureMaterialised_eq_ok h with ⟨hdone, rfl⟩ | ⟨-, w₂, hpromoted, rfl⟩
    · simp only [locateSession] at hlocated
      split at hlocated
      next durable hdurable =>
        rw [(Option.filter_eq_some_iff.mp hdurable).1]
        exact Option.some_ne_none _
      next =>
        have halone := Keyed.mem_of_get? (Option.filter_eq_some_iff.mp hlocated).1
        have hmaterialised : Durable w₁ := by
          rw [Durable, ← hlocal]
          exact hdone
        exact absurd halone ((hw.populated.retired hmaterialised).1 session)
    · have hfiled : w₂.sessions.get? sessionId ≠ none := by
        rw [hpromoted.sessions sessionId]
        have hin := sessionIn_of_located hw.homed hlocated
        rw [sessionIn] at hin
        simp [hin]
      exact hfiled
  obtain ⟨c, hc⟩ := Option.ne_none_iff_exists'.mp hsome
  rw [hc, located_current hw.homed hlocated h hc]

/-! ## The addressee -/

/-- A participant whom the workspace knows, durably or not. -/
def IsKnown (w : Workspace) (i : Id) : Prop :=
  ∃ p, (p ∈ w.participants ∨ p ∈ w.ephemeral.participants) ∧ p.participantId = i

/-- Another participant with an open session of a client. -/
def IsPeer (w : Workspace) (session : Session) (client : String) (i : Id) : Prop :=
  ∃ s, (s ∈ w.sessions ∨ s ∈ w.ephemeral.sessions) ∧ s.state = .opened ∧ s.harness = client ∧
    s.participantId ≠ session.participantId ∧ s.participantId = i

/-- A name that says whom a handoff is for: a participant, or a client of which
one other participant has a session open. -/
def Addresses (w : Workspace) (session : Session) (name : String) : Prop :=
  (∃ i, IsKnown w i ∧ i.val = name) ∨
    ∃ i, IsPeer w session name i ∧ ∀ j, IsPeer w session name j → j = i

/-- Materialising takes along whoever is known, and every open session. -/
structure Carried (w w₁ : Workspace) : Prop where
  participants : ∀ i, w₁.participants.get? i ≠ none ↔ IsKnown w i
  sessions : ∀ s, s ∈ w₁.sessions ↔ s ∈ w.sessions ∨ s ∈ w.ephemeral.sessions
  messages : w₁.messages = w.messages
  claims : w₁.claims = w.claims

theorem isKnown_iff {i : Id} : IsKnown w i ↔
    w.participants.get? i ≠ none ∨ w.ephemeral.participants.get? i ≠ none := by
  simp only [IsKnown, Option.ne_none_iff_exists', Keyed.get?_eq_some]
  constructor
  · rintro ⟨p, hp | hp, hid⟩
    · exact Or.inl ⟨p, hp, hid⟩
    · exact Or.inr ⟨p, hp, hid⟩
  · rintro (⟨p, hp, hid⟩ | ⟨p, hp, hid⟩)
    · exact ⟨p, Or.inl hp, hid⟩
    · exact ⟨p, Or.inr hp, hid⟩

/-- Materialising for a durable object loses nobody. -/
theorem carried_of_ensured {descriptor : Option Descriptor} (hw : Reachable w)
    (h : ensureMaterialised w ports w.workspaceId descriptor "durable_object" = .ok w₁) :
    Carried w w₁ := by
  have hmessages := untouched_messages.ensureMaterialised h
  have hclaims := untouched_claims.ensureMaterialised h
  rcases ensureMaterialised_eq_ok h with ⟨hdone, rfl⟩ | ⟨hbare, w₂, hpromoted, rfl⟩
  · obtain ⟨hsessions, hpeople⟩ := hw.populated.retired hdone
    refine ⟨fun i => ?_, fun s => ?_, rfl, rfl⟩
    · have halone : w₁.ephemeral.participants.get? i = none :=
        Keyed.get?_eq_none.mpr fun p hp => absurd hp (hpeople p)
      simp [isKnown_iff, halone]
    · simp [hsessions s]
  · refine ⟨fun i => ?_, fun s => ?_, hmessages, hclaims⟩
    · have hget : (retireEphemeral w₂ w.ephemeral).participants.get? i =
          (w.participants.get? i).or (w.ephemeral.participants.get? i) := by
        have hfiled : w₂.participants.get? i =
            (w.participants.get? i).or (w.ephemeral.participants.get? i) := by
          simpa using hpromoted.participants i
        exact hfiled
      rw [hget, isKnown_iff]
      cases w.participants.get? i <;> simp
    · have hget : (retireEphemeral w₂ w.ephemeral).sessions.get? s.sessionId =
          (w.sessions.get? s.sessionId).or (w.ephemeral.sessions.get? s.sessionId) := by
        have hfiled : w₂.sessions.get? s.sessionId =
            (w.sessions.get? s.sessionId).or (w.ephemeral.sessions.get? s.sessionId) := by
          simpa using hpromoted.sessions s.sessionId
        exact hfiled
      have hnone : ∀ r, ¬r ∈ w.sessions :=
        (hw.populated.bare (by rw [Durable, hbare]; exact Bool.false_ne_true)).1
      have hfree : w.sessions.get? s.sessionId = none :=
        Keyed.get?_eq_none.mpr fun r hr => absurd hr (hnone r)
      rw [Keyed.mem_def, hget, hfree, Option.none_or]
      simp only [hnone s, false_or]
      exact Iff.rfl

theorem mem_openPeers {session : Session} {test : Session → Bool} {i : Id} :
    i ∈ openPeers w session test ↔ ∃ s ∈ w.sessions, s.state = .opened ∧ test s = true ∧
      s.participantId ≠ session.participantId ∧ s.participantId = i := by
  simp [openPeers, sortIds, and_assoc]

theorem openPeers_nodup {session : Session} {test : Session → Bool} :
    (openPeers w session test).Nodup :=
  (List.mergeSort_perm _ _).nodup_iff.mpr (List.nodup_dedup _)

theorem Carried.mem_openPeers (h : Carried w w₁) {session : Session} {client : String} {i : Id} :
    i ∈ openPeers w₁ session (fun s => s.harness = client) ↔ IsPeer w session client i := by
  simp only [Core.mem_openPeers, h.sessions, IsPeer, decide_eq_true_eq]

omit [LinearOrder ReceiptId] in
theorem eq_singleton_of_unique {α : Type} {xs : List α} {a : α} (hnodup : xs.Nodup)
    (hmem : a ∈ xs) (hall : ∀ x ∈ xs, x = a) : xs = [a] := by
  cases xs with
  | nil => cases hmem
  | cons x rest =>
      obtain rfl := hall x (List.mem_cons_self ..)
      cases rest with
      | nil => rfl
      | cons y rest =>
          obtain rfl := hall y (List.mem_cons_of_mem _ (List.mem_cons_self ..))
          exact absurd (List.mem_cons_self ..) (List.nodup_cons.mp hnodup).1

theorem Populated.isKnown_of_isPeer (hw : Populated w) {session : Session} {client : String}
    {i : Id} (hpeer : IsPeer w session client i) : IsKnown w i := by
  obtain ⟨s, hs | hs, -, -, -, rfl⟩ := hpeer
  · exact isKnown_iff.mpr (Or.inl (hw.sessions s hs))
  · exact isKnown_iff.mpr (Or.inr (hw.alone s hs))

/-- A name that addresses somebody resolves to a participant that is known. -/
theorem Carried.resolves (h : Carried w w₁) (hw : Populated w) {session : Session} {name : String}
    (hname : Addresses w session name) :
    ∃ i, resolveAddressee w₁ session name = .ok i.val ∧ IsKnown w i := by
  rw [resolveAddressee]
  split
  next hknown =>
    obtain ⟨p, hp, hid⟩ := List.any_eq_true.mp hknown
    refine ⟨p.participantId, congrArg Except.ok (of_decide_eq_true hid).symm, ?_⟩
    rw [← h.participants, Keyed.mem_def.mp (Keyed.mem_list.mp hp)]
    exact Option.some_ne_none _
  next hunknown =>
    rcases hname with ⟨i, hknown, hid⟩ | ⟨i, hpeer, hunique⟩
    · obtain ⟨p, hp⟩ := Option.ne_none_iff_exists'.mp ((h.participants i).mpr hknown)
      refine absurd (List.any_eq_true.mpr ⟨p, Keyed.mem_list.mpr (Keyed.mem_of_get? hp), ?_⟩)
        hunknown
      rw [Keyed.key_of_get? hp]
      exact decide_eq_true hid
    · have hone : openPeers w₁ session (fun s => s.harness = name) = [i] :=
        eq_singleton_of_unique openPeers_nodup (h.mem_openPeers.mpr hpeer) fun j hj =>
          hunique j (h.mem_openPeers.mp hj)
      rw [hone]
      exact ⟨i, rfl, hw.isKnown_of_isPeer hpeer⟩

/-! ## Finishing -/

/-- The handoff of a finish. -/
def finishHandoff (input : FinishInput) : Handoff :=
  ⟨input.status.getD .partially, input.completed, input.remaining, input.blockers,
    input.verification⟩

/-- A finish of an open session whose parts are all valid. -/
structure Finishable (w : Workspace) (ports : Ports) (session : Session) (input : FinishInput) :
    Prop where
  located : locateSession w input.sessionId input.workspaceId = some session
  opened : session.state = .opened
  generation : session.generation = input.generation
  descriptor : ∀ d, input.descriptor = some d → d.Valid
  goal : line input.goal "subject" = .ok ()
  handoff : handoffPayload (finishHandoff input) "handoff" = .ok ()
  artifacts : listOf artifactRef input.artifacts "artifacts" = .ok ()
  addressee : ∀ name, input.toParticipantId = some name → Addresses w session name
  /-- The sender used the client id for no other message. -/
  unused : ∀ m ∈ w.messages, m.fromParticipantId = session.participantId →
    m.clientMessageId ≠ input.clientMessageId
  /-- The identifier that is drawn names no message. -/
  fresh : ∀ m ∈ w.messages, m.messageId ≠ ports.ids .message 0

/-- The handoff is recorded as a valid message, the session has no claim left,
and it is closed. -/
def Finished (w : Workspace) (ports : Ports) (session : Session) (input : FinishInput) : Prop :=
  ∃ w' outcome, finishSession w ports input = .ok (w', outcome) ∧ outcome.retry = false ∧
    validateMessage outcome.message = .ok () ∧ ¬outcome.message ∈ w.messages ∧
    outcome.message ∈ w'.messages ∧ outcome.message.handoff = some (finishHandoff input) ∧
    outcome.message.subject = input.goal ∧
    outcome.message.body = handoffBody input.goal (finishHandoff input) ∧
    (∀ c ∈ w'.claims, c.ownerSessionId ≠ session.sessionId) ∧
    ∃ s, w'.sessions.get? session.sessionId = some s ∧ s.state = .closed ∧
      s.generation = session.generation

/-- The claims a finish gives up. -/
def heldClaims (w : Workspace) (session : Session) : List Claim :=
  w.claims.list.filter fun c => c.ownerSessionId = session.sessionId

/-- The message of a finish, for whoever its addressee turned out to be. -/
def handoffRecord (ports : Ports) (session : Session) (input : FinishInput)
    (recipients : List Id) : Message :=
  builtMessage session { finishMessage input with toParticipantIds := recipients.map Id.val }
    ports.now (ports.ids .message 0) (ports.ids .message 0) recipients

/-- Who gets a receipt of the handoff. -/
def handoffRecipients (w : Workspace) (session : Session) (recipients : List Id) : List Id :=
  if recipients = [] then openPeers w session fun _ => true else recipients

namespace Finishable

variable {session : Session} {input : FinishInput}

/-- Whom a finish is for. -/
theorem resolves (h : Finishable w ports session input) (hw : Populated w)
    (hcarried : Carried w w₁) : ∃ recipients : List Id,
      resolveAddressees w₁ input.toParticipantId.toList session = .ok (recipients.map Id.val) ∧
      (recipients = [] ↔ input.toParticipantId = none) ∧ recipients.Nodup ∧
      ∀ i ∈ recipients, w₁.participants.get? i ≠ none := by
  cases hto : input.toParticipantId with
  | none => exact ⟨[], rfl, by simp, List.nodup_nil, fun i hi => by cases hi⟩
  | some name =>
      obtain ⟨i, hresolved, hknown⟩ := hcarried.resolves hw (h.addressee name hto)
      refine ⟨[i], ?_, by simp, List.nodup_singleton i, ?_⟩
      · simp only [Option.toList_some, resolveAddressees, List.mapM_cons, List.mapM_nil,
          hresolved]
        rfl
      · intro j hj
        rw [List.mem_singleton.mp hj]
        exact (hcarried.participants i).mpr hknown

/-- Only the body of the handoff may be refused. -/
theorem handoff_valid (h : Finishable w ports session input) {recipients : List Id}
    (hempty : recipients = [] ↔ input.toParticipantId = none) :
    validateMessage (handoffRecord ports session input recipients) = .ok () ↔
      handoffUnits input.goal (finishHandoff input) ≤ 4000 := by
  have hsemantics : assertMessageSemantics (handoffRecord ports session input recipients) =
      .ok () := by
    cases hto : input.toParticipantId with
    | none =>
        obtain rfl := hempty.mpr hto
        simp [assertMessageSemantics, handoffRecord, builtMessage, finishMessage, validObligations,
          refuse, hto]
    | some name =>
        have hne : recipients ≠ [] := fun heq => by simp [hempty.mp heq] at hto
        simp [assertMessageSemantics, handoffRecord, builtMessage, finishMessage, validObligations,
          refuse, hto, hne]
  rw [← prose_handoffBody h.goal h.handoff]
  simp only [validateMessage, bind_eq_ok]
  constructor
  · rintro ⟨_, _, _, hbody, -⟩
    exact hbody
  · intro hbody
    exact ⟨(), h.goal, (), hbody, (), h.artifacts, (), h.handoff, (), rfl, hsemantics⟩

/-- The transaction of a finish, but for the check of its message. -/
theorem transaction_eq (h : Finishable w ports session input) (hcarried : Carried w w₁)
    (hlinked : Linked w₁) (hcurrent : w₁.sessions.get? session.sessionId = some session)
    {recipients : List Id}
    (hresolved : resolveAddressees w₁ input.toParticipantId.toList session =
      .ok (recipients.map Id.val))
    (hnodup : recipients.Nodup) (hknown : ∀ i ∈ recipients, w₁.participants.get? i ≠ none) :
    finishTransaction w₁ ports session input = w₁.transaction fun _ =>
      validateMessage (handoffRecord ports session input recipients) >>= fun _ =>
        .ok (closeFinished (recordedMessage w₁ (handoffRecord ports session input recipients)
            (handoffRecipients w₁ session recipients) ports.now) ports.now session session
            (handoffRecord ports session input recipients) (heldClaims w₁ session),
          ⟨false, handoffRecord ports session input recipients, heldClaims w₁ session,
            { session with state := .closed, heartbeatAt := ports.now }⟩) := by
  have hnames : (finishMessage input).toParticipantIds = input.toParticipantId.toList := rfl
  have hfresh : ∀ m ∈ w₁.messages, m.messageId ≠ ports.ids .message 0 := by
    rw [hcarried.messages]
    exact h.fresh
  have hsession : Core.assertCurrentSession w₁ session "finish" = .ok () := by
    simp [Core.assertCurrentSession, hcurrent, h.opened]
  have hprepared : Core.prepareMessage w₁ session (finishMessage input) =
      .ok { finishMessage input with toParticipantIds := recipients.map Id.val } := by
    simp only [Core.prepareMessage, hnames, hresolved]
    simp [prepareDecisionChange, finishMessage, refuse]
  have hrecord : Core.messageRecord w₁ session
      { finishMessage input with toParticipantIds := recipients.map Id.val } ports.now
        (ports.ids .message 0) =
      (validateMessage (handoffRecord ports session input recipients) >>= fun _ =>
        .ok (handoffRecord ports session input recipients)) := messageRecord_built rfl rfl
  have hrecipients : Core.addressedRecipients w₁ (handoffRecord ports session input recipients)
      session = .ok (handoffRecipients w₁ session recipients) := by
    have hto : (handoffRecord ports session input recipients).toParticipantIds = recipients := rfl
    have hstrangers : (recipients.filter fun i => w₁.participants.get? i = none) = [] :=
      List.filter_eq_nil_iff.mpr fun i hi => by simpa using hknown i hi
    rw [Core.addressedRecipients, handoffRecipients, hto]
    split
    · rfl
    · simp only [bind_eq_ok, refuse_eq_ok, pure_eq_ok, hstrangers]
      exact ⟨(), not_not.mpr hnodup, (), not_not.mpr rfl, trivial⟩
  have hrecords : Core.createRecords w₁ (handoffRecord ports session input recipients)
      (handoffRecipients w₁ session recipients) ports.now =
        .ok (recordedMessage w₁ (handoffRecord ports session input recipients)
          (handoffRecipients w₁ session recipients) ports.now) := by
    refine createRecords_of_new (Keyed.get?_eq_none.mpr hfresh) ?_ fun i _ =>
      hlinked.receipt_none hfresh i
    rw [handoffRecipients]
    split
    · exact openPeers_nodup
    · exact hnodup
  have hretry : Core.findMessageRetry w₁ session
      { finishMessage input with toParticipantIds := recipients.map Id.val } = .ok none := by
    refine findMessageRetry_of_unused ?_
    rw [hcarried.messages]
    exact h.unused
  refine Workspace.transaction_congr ?_
  have hfound : ((w₁.sessions.get? session.sessionId).filter fun s =>
      s.generation = session.generation) = some session := by
    simp [hcurrent, Option.filter]
  simp only [hfound, hnames, hresolved, Except.bind, bind, hretry]
  cases hvalid : validateMessage (handoffRecord ports session input recipients) with
  | error e =>
      have hrefused : recordMessageInTransaction w₁ session (finishMessage input) ports.now
          (ports.ids .message 0) "finish" = .error e := by
        rw [recordMessageInTransaction, hsession, hprepared]
        simp only [Except.bind, bind, hretry, hrecord, hvalid]
      simp only [h.opened, hrefused, refuse]
      rfl
  | ok u =>
      rw [hvalid] at hrecord
      have hrecorded := recordMessage_of_new hsession hprepared hretry hrecord hrecipients hrecords
      simp only [h.opened, hrecorded, refuse]
      rfl

end Finishable

/-! ## When a finish is recorded -/

variable {session : Session} {input : FinishInput}

theorem foldl_releaseFinished_newest {now : Timestamp} {claims : List Claim} :
    (claims.foldl (releaseFinished now session) w).newest = w.newest + claims.length := by
  induction claims generalizing w with
  | nil => rfl
  | cons c cs ih =>
      have hone : (releaseFinished now session w c).newest = w.newest + 1 :=
        Workspace.newest_append
      rw [List.foldl_cons, ih, hone, List.length_cons]
      omega

/-- A finish numbers its message, each claim it gives up, and its end. -/
theorem closeFinished_newest {now : Timestamp} {current : Session} {message : Message}
    {recipients : List Id} {claims : List Claim} :
    (closeFinished (recordedMessage w message recipients now) now session current message
      claims).newest = w.newest + claims.length + 2 := by
  have hput : ∀ u : Workspace, (u.putSession { current with
      state := .closed, heartbeatAt := now }).newest = u.newest := fun _ => rfl
  rw [closeFinished, Workspace.newest_append, hput, foldl_releaseFinished_newest,
    recordedMessage_newest]
  omega

/-- What a finish leaves, once its message is recorded. -/
theorem finished_of_ok (h : Finishable w ports session input) {recipients targets : List Id}
    (hvalid : validateMessage (handoffRecord ports session input recipients) = .ok ())
    (hok : finishSession w ports input =
      .ok (closeFinished (recordedMessage w₁ (handoffRecord ports session input recipients) targets
          ports.now) ports.now session session (handoffRecord ports session input recipients)
          (heldClaims w₁ session),
        ⟨false, handoffRecord ports session input recipients, heldClaims w₁ session,
          { session with state := .closed, heartbeatAt := ports.now }⟩)) :
    Finished w ports session input := by
  refine ⟨_, _, hok, rfl, hvalid, fun hm => h.fresh _ hm rfl, ?_, rfl, rfl, rfl, ?_, ?_⟩
  · rw [closeFinished_other (g := Workspace.messages) (fun _ _ => rfl) (fun _ _ => rfl)
      fun _ _ => rfl]
    exact Keyed.mem_put.mpr (Or.inl rfl)
  · intro c hc howner
    rw [closeFinished_claims] at hc
    obtain ⟨hc, hkept⟩ := Keyed.mem_removeAll.mp hc
    refine hkept (List.mem_map_of_mem (List.mem_filter.mpr ⟨Keyed.mem_list.mpr hc, ?_⟩))
    exact decide_eq_true howner
  · refine ⟨{ session with state := .closed, heartbeatAt := ports.now }, ?_, rfl, rfl⟩
    rw [closeFinished_sessions]
    exact Keyed.get?_put_self

namespace Finishable

theorem requireSession (h : Finishable w ports session input) :
    Core.requireSession w input.sessionId input.workspaceId input.generation "finish" false =
      .ok session := by
  rw [Core.requireSession, h.located]
  simp [Option.filter, h.generation]

/-- What holds of the workspace in which the handoff is recorded. -/
theorem ensured (h : Finishable w ports session input) (hw : Reachable w)
    (hw₁ : ensureMaterialised w ports session.workspaceId input.descriptor "durable_object" =
      .ok w₁) :
    Carried w w₁ ∧ w₁.newest = w.newest + durableEvents w ports.now ∧
      w₁.sessions.get? session.sessionId = some session ∧ Linked w₁ := by
  have hcurrent := current_of_ensured hw h.located hw₁
  rw [hw.homed.located h.located] at hw₁
  exact ⟨carried_of_ensured hw hw₁, ensureMaterialised_newest hw.homed hw₁, hcurrent,
    ((ensureMaterialised_writes hw.homed rfl hw₁).changes hw.homed).linked hw.linked⟩

/-- The parts of a handoff that was recorded fit one body. -/
theorem fits (h : Finishable w ports session input) (hw : Reachable w)
    (hfinished : Finished w ports session input) :
    handoffUnits input.goal (finishHandoff input) ≤ 4000 ∧
      w.newest + durableEvents w ports.now + (heldClaims w session).length + 2 ≤ maxSafe := by
  obtain ⟨w', outcome, hfinish, -⟩ := hfinished
  simp only [finishSession, h.requireSession, bind_eq_ok, Except.ok.injEq,
    exists_eq_left'] at hfinish
  obtain ⟨w₁, hw₁, hfinish⟩ := hfinish
  obtain ⟨hcarried, hnewest, hcurrent, hlinked⟩ := h.ensured hw hw₁
  obtain ⟨recipients, hresolved, hempty, hnodup, hknown⟩ := h.resolves hw.populated hcarried
  rw [h.transaction_eq hcarried hlinked hcurrent hresolved hnodup hknown] at hfinish
  simp only [Workspace.transaction, bind_eq_ok, refuse_eq_ok, pure_eq_ok] at hfinish
  obtain ⟨_, ⟨_, hvalid, hdone⟩, _, hnumbered, -⟩ := hfinish
  cases hdone
  refine ⟨(h.handoff_valid hempty).mp hvalid, ?_⟩
  dsimp only at hnumbered
  rw [closeFinished_newest, heldClaims, hcarried.claims, hnewest] at hnumbered
  rw [heldClaims]
  omega

/-- Parts that fit one body are recorded. -/
theorem finished (h : Finishable w ports session input) (hw : Reachable w)
    (hfits : handoffUnits input.goal (finishHandoff input) ≤ 4000)
    (hnumbered : w.newest + durableEvents w ports.now + (heldClaims w session).length + 2 ≤
      maxSafe) : Finished w ports session input := by
  have hdurable : w.newest + durableEvents w ports.now ≤ maxSafe := by omega
  obtain ⟨w₁, hw₁⟩ := ensureMaterialised_ok hw.homed h.descriptor hdurable
  rw [← hw.homed.located h.located] at hw₁
  obtain ⟨hcarried, hnewest, hcurrent, hlinked⟩ := h.ensured hw hw₁
  obtain ⟨recipients, hresolved, hempty, hnodup, hknown⟩ := h.resolves hw.populated hcarried
  have hvalid := (h.handoff_valid hempty).mpr hfits
  have htransaction : finishTransaction w₁ ports session input =
      .ok (closeFinished (recordedMessage w₁ (handoffRecord ports session input recipients)
          (handoffRecipients w₁ session recipients) ports.now) ports.now session session
          (handoffRecord ports session input recipients) (heldClaims w₁ session),
        ⟨false, handoffRecord ports session input recipients, heldClaims w₁ session,
          { session with state := .closed, heartbeatAt := ports.now }⟩) := by
    rw [h.transaction_eq hcarried hlinked hcurrent hresolved hnodup hknown]
    refine (transaction_of_numbered ?_).mpr ?_
    · rw [hvalid]
      rfl
    · rw [closeFinished_newest, heldClaims, hcarried.claims, hnewest]
      rw [heldClaims] at hnumbered
      omega
  have hfinish : finishSession w ports input = finishTransaction w₁ ports session input := by
    simp only [finishSession, h.requireSession, hw₁, Except.bind, bind]
  exact finished_of_ok h hvalid (hfinish.trans htransaction)

end Finishable

/-- A finish with valid parts is recorded if its parts fit one body together, and
its events can be numbered. -/
theorem finishSession_records (hw : Reachable w) (h : Finishable w ports session input) :
    Finished w ports session input ↔
      handoffUnits input.goal (finishHandoff input) ≤ 4000 ∧
        w.newest + durableEvents w ports.now + (heldClaims w session).length + 2 ≤ maxSafe := by
  constructor
  · exact h.fits hw
  · exact fun ⟨hfits, hnumbered⟩ => h.finished hw hfits hnumbered

end

/-! ## A short handoff and a long one -/

theorem sampleFinish_finishable :
    Finishable sampleClaims (samplePorts 30 (sampleId "message_1")) sampleSender sampleFinish where
  located := by decide +kernel
  opened := rfl
  generation := by decide +kernel
  descriptor := fun d hd => by cases hd
  goal := by decide +kernel
  handoff := by decide +kernel
  artifacts := rfl
  addressee := by
    intro name hname
    cases hname
    have hbob : (sampleClaims.participants.get? (sampleId "bob")).isSome = true := by
      decide +kernel
    obtain ⟨p, hp⟩ := Option.isSome_iff_exists.mp hbob
    exact Or.inl ⟨sampleId "bob",
      ⟨p, Or.inl (Keyed.mem_of_get? hp), Keyed.key_of_get? hp⟩, by decide +kernel⟩
  unused := by
    have hall : ∀ m ∈ sampleClaims.messages.list,
        m.fromParticipantId = sampleSender.participantId →
          m.clientMessageId ≠ sampleFinish.clientMessageId := by decide +kernel
    exact fun m hm => hall m (Keyed.mem_list.mpr hm)
  fresh := by
    have hall : ∀ m ∈ sampleClaims.messages.list, m.messageId ≠ sampleId "message_1" := by
      decide +kernel
    exact fun m hm => hall m (Keyed.mem_list.mpr hm)

theorem finishSession_records_sample :
    Reachable sampleClaims ∧
      Finishable sampleClaims (samplePorts 30 (sampleId "message_1")) sampleSender sampleFinish ∧
      (Finished sampleClaims (samplePorts 30 (sampleId "message_1")) sampleSender sampleFinish ↔
        handoffUnits sampleFinish.goal (finishHandoff sampleFinish) ≤ 4000 ∧
          sampleClaims.newest + durableEvents sampleClaims 30 +
            (heldClaims sampleClaims sampleSender).length + 2 ≤ maxSafe) :=
  ⟨sampleClaims_unpruned.reachable, sampleFinish_finishable,
    finishSession_records sampleClaims_unpruned.reachable sampleFinish_finishable⟩

/-- Eight lines of 500 characters were completed. -/
def longFinish : FinishInput :=
  { sampleFinish with completed := List.replicate 8 (letters 500) }

theorem longFinish_finishable :
    Finishable sampleClaims (samplePorts 30 (sampleId "message_1")) sampleSender longFinish :=
  { sampleFinish_finishable with
    handoff := by
      simp only [handoffPayload, bind_eq_ok]
      refine ⟨(), listOf_ok (fun v hv path => ?_) _, (), rfl, (), rfl, rfl⟩
      rw [List.eq_of_mem_replicate hv]
      exact line_letters (by decide) le_rfl path }

/-- A handoff of eight lines of 500 characters is refused: the lines make a body
of more than 4000. -/
theorem finishSession_refused : Reachable sampleClaims ∧
    Finishable sampleClaims (samplePorts 30 (sampleId "message_1")) sampleSender longFinish ∧
    sampleClaims.newest + durableEvents sampleClaims 30 +
      (heldClaims sampleClaims sampleSender).length + 2 ≤ maxSafe ∧
    ¬Finished sampleClaims (samplePorts 30 (sampleId "message_1")) sampleSender longFinish := by
  refine ⟨sampleClaims_unpruned.reachable, longFinish_finishable, by decide +kernel,
    fun hfinished => ?_⟩
  have hfits := (longFinish_finishable.fits sampleClaims_unpruned.reachable hfinished).1
  have hcompleted : partUnits "completed" (List.replicate 8 (letters 500)) = 11 + 8 * 503 := by
    have hlabel : "completed".length = 9 := by decide
    rw [partUnits, if_neg (by simp), hlabel, List.map_replicate, codeUnits_letters]
    rfl
  have hpart : partUnits "completed" (finishHandoff longFinish).completed ≤
      handoffUnits longFinish.goal (finishHandoff longFinish) := by
    rw [handoffUnits]
    omega
  have hsame : (finishHandoff longFinish).completed = List.replicate 8 (letters 500) := rfl
  rw [hsame, hcompleted] at hpart
  omega

end Acc.Core
