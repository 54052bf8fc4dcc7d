import AgentsCanCommunicate.Core.DeliveryBindings

/-!
# Closing a session and its endpoint

`closeSession` of the service closes the session and then retires the binding of
its generation, as two writes.  The second one refuses a binding of another
generation, and by then the session is closed: the call throws and is not undone.

A binding of an earlier generation stays under the session's id when its session
was replaced without being closed.
-/

namespace Acc.Core

open Library (Keyed Process)

section

variable [LinearOrder ReceiptId]

/-! ## What is to hold -/

/-- The record of a session that is alone. -/
def aloneRecord (w : Workspace) (sessionId : Id) : Option Session :=
  (w.ephemeral.sessions.get? sessionId).filter fun s => !isMaterialised w s.workspaceId

/-- The record of a session: the ephemeral one as long as it is alone. -/
def currentRecord (w : Workspace) (sessionId : Id) : Option Session :=
  (aloneRecord w sessionId).or (w.sessions.get? sessionId)

/-- A call of the service's `closeSession`. -/
structure Closure where
  sessionId : Id
  workspaceId : Option Id
  generation : Id
  endReason : Option String

/-- What the call leaves, and how it ends. -/
def Closure.perform (c : Closure) (m : Outside) (s : Shared) : Shared × Result Unit :=
  (ServiceCall.closeSession c.sessionId c.workspaceId c.generation c.endReason).process.alone m s

namespace Closure

variable (c : Closure) (m : Outside) (s t : Shared)

/-- The record is of the generation and the workspace the call names. -/
def Owns (record : Session) : Prop :=
  record.workspaceId = c.workspaceId.getD s.workspace.workspaceId ∧ record.generation = c.generation

instance (record : Session) : Decidable (c.Owns s record) :=
  inferInstanceAs (Decidable (_ ∧ _))

/-- The call is by the current open generation. -/
def IsCurrent : Prop :=
  ∃ record, currentRecord s.workspace c.sessionId = some record ∧ record.state = .opened ∧
    c.Owns s record

/-- There is a sequence left for the event, which only a durable session needs. -/
def Countable : Prop :=
  (aloneRecord s.workspace c.sessionId).isSome = true ∨ s.workspace.newest < maxSafe

/-- No binding of another generation is filed under the session. -/
def Unshadowed : Prop :=
  ∀ binding, s.bindings.get? c.sessionId = some binding → binding.generation = c.generation

/-- The session is closed. -/
def Closes : Prop :=
  (∀ record, aloneRecord s.workspace c.sessionId = some record →
    t.workspace.ephemeral.sessions.get? c.sessionId = none) ∧
  (aloneRecord s.workspace c.sessionId = none →
    ∀ record, s.workspace.sessions.get? c.sessionId = some record →
      t.workspace.sessions.get? c.sessionId = some (closed record m.now c.endReason))

/-- The generation's own binding is retired, and every other one is as it was. -/
def Retires : Prop :=
  (∀ binding, s.bindings.get? c.sessionId = some binding → binding.generation = c.generation →
    ∃ binding', t.bindings.get? c.sessionId = some binding' ∧ binding'.retiredAt ≠ none ∧
      binding'.generation = c.generation) ∧
  ∀ sessionId, (∀ binding, s.bindings.get? sessionId = some binding →
      sessionId = c.sessionId → binding.generation ≠ c.generation) →
    t.bindings.get? sessionId = s.bindings.get? sessionId

/-- The session record, its binding and the event log are as they were. -/
def Untouched : Prop :=
  t.workspace.ephemeral.sessions.get? c.sessionId =
      s.workspace.ephemeral.sessions.get? c.sessionId ∧
    t.workspace.sessions.get? c.sessionId = s.workspace.sessions.get? c.sessionId ∧
    t.bindings.get? c.sessionId = s.bindings.get? c.sessionId ∧
    t.workspace.events = s.workspace.events

/-- The current open generation succeeds, and who does not has done nothing. -/
def AllOrNothing : Prop :=
  (c.IsCurrent s → (c.perform m s).2 = .ok () ∧ c.Closes m s (c.perform m s).1 ∧
    c.Retires s (c.perform m s).1) ∧
  ∀ e, (c.perform m s).2 = .error e → c.Untouched s (c.perform m s).1

end Closure

/-! ## The first write -/

namespace Closure

variable {c : Closure} {m : Outside} {s t : Shared} {record : Session}

/-- The first of the two writes. -/
def close (c : Closure) (m : Outside) (s : Shared) : Shared × Result Session :=
  (Program.closeSession c.sessionId c.workspaceId c.generation c.endReason).alone m s

/-- The second one. -/
def retire (c : Closure) (m : Outside) (s : Shared) : Shared × Result Unit :=
  (Program.clearDeliveryBinding c.sessionId c.generation none).alone m s

theorem perform_eq : c.perform m s = match c.close m s with
    | (t, .ok _) => c.retire m t
    | (t, .error e) => (t, .error e) := by
  rw [perform, ServiceCall.process, Process.alone_bind, close]
  generalize (Program.closeSession c.sessionId c.workspaceId c.generation c.endReason).alone m s
    = done
  obtain ⟨t, answer⟩ := done
  cases answer with
  | ok record => rfl
  | error e => rfl

@[simp] theorem assertGeneration_eq_ok {action : String} {u : Unit} :
    assertGeneration record c.generation action (c.workspaceId.getD s.workspace.workspaceId) =
      .ok u ↔ c.Owns s record := by
  simp [assertGeneration, Owns, bind_eq_ok]

/-- A call finds a record it can close. -/
def Finds (c : Closure) (s : Shared) : Prop :=
  ∃ record, currentRecord s.workspace c.sessionId = some record ∧ c.Owns s record ∧ c.Countable s

theorem alone_store {α : Type} {tag : Tag} {f : Outside → Workspace → Result (Workspace × α)}
    {deeds : α → List Deed} : (Program.store tag f deeds).alone m s = match f m s.workspace with
      | .ok (w, a) => ({ s with workspace := w, history := deeds a ++ s.history }, .ok a)
      | .error e => (s, .error e) := by
  rw [Program.store, Process.alone_atomically]
  cases f m s.workspace with
  | ok done => rfl
  | error e => rfl

theorem alone_store_ok {α : Type} {tag : Tag} {f : Outside → Workspace → Result (Workspace × α)}
    {deeds : α → List Deed} {w : Workspace} {a : α} (h : f m s.workspace = .ok (w, a)) :
    (Program.store tag f deeds).alone m s =
      ({ s with workspace := w, history := deeds a ++ s.history }, .ok a) := by
  rw [alone_store, h]

/-- What the intent leaves behind does not matter to the session. -/
theorem cleanIntent_alone : ∃ w, (Program.cleanIntent c.sessionId c.generation).alone m t =
      ({ t with workspace := w }, .ok ()) ∧
    w.ephemeral.sessions = t.workspace.ephemeral.sessions := by
  rw [Program.cleanIntent, alone_store]
  split
  next w a h =>
    refine ⟨w, rfl, ?_⟩
    split at h
    next => cases h; rfl
    next => cases h; rfl
  next h =>
    split at h
    next => cases h
    next => cases h

/-- A session that is alone is closed by taking its record away. -/
theorem close_alone (halone : aloneRecord s.workspace c.sessionId = some record)
    (howns : c.Owns s record) : ∃ t, c.close m s = (t, .ok (closed record m.now c.endReason)) ∧
      t.bindings = s.bindings ∧ t.workspace.ephemeral.sessions.get? c.sessionId = none := by
  have hassert : assertGeneration record c.generation "close"
      (c.workspaceId.getD s.workspace.workspaceId) = .ok () := assertGeneration_eq_ok.mpr howns
  rw [aloneRecord] at halone
  have hfirst : (Program.closeAlone c.sessionId c.workspaceId c.generation c.endReason).alone m s =
      ({ s with
          workspace := s.workspace.setEphemeral
            { s.workspace.ephemeral with
              sessions := s.workspace.ephemeral.sessions.remove c.sessionId }
          history := .closedAlone (closed record m.now c.endReason) :: s.history },
        .ok (some (closed record m.now c.endReason))) := by
    rw [Program.closeAlone, alone_store, halone]
    simp only [hassert]
    rfl
  rw [close, Program.closeSession, Process.alone_bind, hfirst]
  simp only [Process.alone_bind]
  obtain ⟨w, hclean, hsessions⟩ := cleanIntent_alone (c := c) (m := m) (t :=
    { s with
        workspace := s.workspace.setEphemeral
          { s.workspace.ephemeral with
            sessions := s.workspace.ephemeral.sessions.remove c.sessionId }
        history := .closedAlone (closed record m.now c.endReason) :: s.history })
  rw [hclean]
  refine ⟨_, rfl, rfl, ?_⟩
  rw [show _ = _ from hsessions]
  simp [Keyed.get?_remove]

/-- A durable session is closed by one more event. -/
theorem close_durable (halone : aloneRecord s.workspace c.sessionId = none)
    (hget : s.workspace.sessions.get? c.sessionId = some record) (howns : c.Owns s record)
    (hnewest : s.workspace.newest < maxSafe) :
    ∃ t, c.close m s = (t, .ok (closed record m.now c.endReason)) ∧ t.bindings = s.bindings ∧
      t.workspace.sessions.get? c.sessionId = some (closed record m.now c.endReason) ∧
      t.workspace.newest = s.workspace.newest + 1 ∧ t.workspace.floor = s.workspace.floor := by
  have hassert : assertGeneration record c.generation "close"
      (c.workspaceId.getD s.workspace.workspaceId) = .ok () := assertGeneration_eq_ok.mpr howns
  have hkey : record.sessionId = c.sessionId := Keyed.key_of_get? hget
  rw [aloneRecord] at halone
  have hfirst : (Program.closeAlone c.sessionId c.workspaceId c.generation c.endReason).alone m s =
      (s, .ok none) := by
    rw [Program.closeAlone, alone_store, halone]
    rfl
  have hcounted : ¬(s.workspace.newest < s.workspace.newest + 1 ∧
      maxSafe < s.workspace.newest + 1) := by omega
  have hnext : ((s.workspace.putSession (closed record m.now c.endReason)).append
      ⟨(closed record m.now c.endReason).workspaceId, c.sessionId, m.now, .sessionClosed⟩).newest =
        s.workspace.newest + 1 := Workspace.newest_append
  rw [close, Program.closeSession, Process.alone_bind, hfirst]
  refine ⟨_, alone_store_ok (w := (s.workspace.putSession (closed record m.now c.endReason)).append
      ⟨(closed record m.now c.endReason).workspaceId, c.sessionId, m.now, .sessionClosed⟩) ?_,
    rfl, ?_, hnext, rfl⟩
  · simp only [Workspace.transaction, hget, bind_eq_ok, refuse_eq_ok, pure_eq_ok]
    refine ⟨_, ⟨(), hassert, rfl⟩, (), ?_, rfl⟩
    rw [show _ = _ from hnext]
    exact hcounted
  · simp [closed, hkey]

theorem alone_store_refused {α : Type} {tag : Tag}
    {f : Outside → Workspace → Result (Workspace × α)} {deeds : α → List Deed}
    (h : ∀ done, f m s.workspace ≠ .ok done) :
    ∃ e, (Program.store tag f deeds).alone m s = (s, .error e) := by
  rw [alone_store]
  cases hf : f m s.workspace with
  | ok done => exact absurd hf (h done)
  | error e => exact ⟨e, rfl⟩

/-- Who finds nothing to close has written nothing. -/
theorem close_refused (h : ¬c.Finds s) : ∃ e, c.close m s = (s, .error e) := by
  rw [close, Program.closeSession, Process.alone_bind]
  cases halone : aloneRecord s.workspace c.sessionId with
  | some record =>
      have hfirst : ∃ e, (Program.closeAlone c.sessionId c.workspaceId c.generation
          c.endReason).alone m s = (s, .error e) := by
        refine alone_store_refused fun done hdone => h ⟨record, ?_, ?_, ?_⟩
        · rw [currentRecord, halone]
          rfl
        · rw [aloneRecord] at halone
          simp only [halone, bind_eq_ok] at hdone
          obtain ⟨_, hassert, -⟩ := hdone
          exact assertGeneration_eq_ok.mp hassert
        · exact Or.inl (by rw [halone]; rfl)
      obtain ⟨e, he⟩ := hfirst
      rw [he]
      exact ⟨e, rfl⟩
  | none =>
      have hfirst : (Program.closeAlone c.sessionId c.workspaceId c.generation
          c.endReason).alone m s = (s, .ok none) := by
        rw [aloneRecord] at halone
        rw [Program.closeAlone, alone_store, halone]
        rfl
      rw [hfirst]
      refine alone_store_refused fun done hdone => ?_
      simp only [Workspace.transaction, bind_eq_ok, refuse_eq_ok, pure_eq_ok] at hdone
      obtain ⟨written, hbody, -, hcounted, -⟩ := hdone
      split at hbody
      next => cases hbody
      next record hget =>
        simp only [bind_eq_ok, pure_eq_ok] at hbody
        obtain ⟨_, hassert, rfl⟩ := hbody
        refine h ⟨record, ?_, assertGeneration_eq_ok.mp hassert, Or.inr ?_⟩
        · rw [currentRecord, halone, hget]
          rfl
        · have hnext : ((s.workspace.putSession (closed record m.now c.endReason)).append
              ⟨(closed record m.now c.endReason).workspaceId, c.sessionId, m.now,
                .sessionClosed⟩).newest = s.workspace.newest + 1 := Workspace.newest_append
          rw [show _ = _ from hnext] at hcounted
          omega

/-- What the first write does when it finds a record. -/
theorem close_found (h : c.Finds s) : ∃ t record, c.close m s = (t, .ok record) ∧
    t.bindings = s.bindings ∧ c.Closes m s t ∧ ¬c.Untouched s t := by
  obtain ⟨record, hcurrent, howns, hcountable⟩ := h
  cases halone : aloneRecord s.workspace c.sessionId with
  | some other =>
      rw [currentRecord, halone] at hcurrent
      obtain rfl : other = record := by simpa using hcurrent
      obtain ⟨t, hclose, hbindings, hgone⟩ := close_alone (m := m) halone howns
      refine ⟨t, _, hclose, hbindings, ⟨fun _ _ => hgone, fun hnone => ?_⟩, ?_⟩
      · rw [halone] at hnone
        cases hnone
      · rintro ⟨hkept, -⟩
        obtain ⟨hget, -⟩ := Option.filter_eq_some_iff.mp halone
        rw [hgone, hget] at hkept
        cases hkept
  | none =>
      rw [currentRecord, halone] at hcurrent
      have hget : s.workspace.sessions.get? c.sessionId = some record := by simpa using hcurrent
      have hnewest : s.workspace.newest < maxSafe := by
        rcases hcountable with hsome | hnewest
        · rw [halone] at hsome
          cases hsome
        · exact hnewest
      obtain ⟨t, hclose, hbindings, hclosed, hnext, hfloor⟩ :=
        close_durable (m := m) halone hget howns hnewest
      refine ⟨t, _, hclose, hbindings, ⟨?_, ?_⟩, ?_⟩
      · intro other hother
        rw [halone] at hother
        cases hother
      · rintro - other hother
        rw [hget] at hother
        cases hother
        exact hclosed
      · rintro ⟨-, -, -, hevents⟩
        have hsame : t.workspace.newest = s.workspace.newest := by
          rw [Workspace.newest, Workspace.newest, hevents, hfloor]
        omega

/-! ## The second write -/

theorem retire_eq : c.retire m s = match s.bindings.get? c.sessionId with
    | none => (s, .ok ())
    | some seen =>
        if seen.generation ≠ c.generation then (s, .error ⟨.conflict,
          "cannot publish a delivery binding for anything but this open session generation"⟩)
        else if seen.retiredAt ≠ none then (s, .ok ())
        else ({ s with bindings :=
          s.bindings.put { seen with leaseUntil := m.now, retiredAt := some m.now } }, .ok ()) := by
  rw [retire, Program.clearDeliveryBinding, Process.alone_bind, Process.alone_look]
  cases hget : s.bindings.get? c.sessionId with
  | none => rfl
  | some seen =>
      by_cases hgeneration : seen.generation = c.generation
      · by_cases hretired : seen.retiredAt = none
        · simp [hgeneration, hretired, Program.bind, hget, refuse, bind, Except.bind, pure,
            Except.pure]
        · simp [hgeneration, hretired]
      · simp [hgeneration, Program.bind, hget, refuse, bind, Except.bind]

/-- The own binding is retired, and no other. -/
theorem retire_unshadowed (h : c.Unshadowed s) :
    ∃ b, c.retire m s = ({ s with bindings := b }, .ok ()) ∧
      c.Retires s { s with bindings := b } := by
  rw [retire_eq]
  cases hget : s.bindings.get? c.sessionId with
  | none =>
      refine ⟨s.bindings, rfl, ?_, fun _ _ => rfl⟩
      intro binding hbinding
      rw [hget] at hbinding
      cases hbinding
  | some seen =>
      have hgeneration := h seen hget
      by_cases hretired : seen.retiredAt = none
      · refine ⟨s.bindings.put { seen with leaseUntil := m.now, retiredAt := some m.now }, ?_, ?_, ?_⟩
        · simp [hgeneration, hretired]
        · rintro binding hbinding -
          rw [hget] at hbinding
          cases hbinding
          refine ⟨{ seen with leaseUntil := m.now, retiredAt := some m.now }, ?_, by simp,
            hgeneration⟩
          rw [← Keyed.key_of_get? hget]
          exact Keyed.get?_put_self
        · intro sessionId hother
          refine Keyed.get?_put_ne fun hkey => ?_
          have hkey' : seen.sessionId = sessionId := hkey
          rw [Keyed.key_of_get? hget] at hkey'
          exact hother seen (hkey' ▸ hget) hkey'.symm hgeneration
      · refine ⟨s.bindings, ?_, ?_, fun _ _ => rfl⟩
        · simp [hgeneration, hretired]
        · rintro binding hbinding hown
          rw [hget] at hbinding
          cases hbinding
          exact ⟨seen, hget, hretired, hgeneration⟩

/-- A binding of another generation is refused. -/
theorem retire_shadowed (h : ¬c.Unshadowed s) : ∃ e, c.retire m s = (s, .error e) := by
  simp only [Unshadowed, not_forall] at h
  obtain ⟨seen, hget, hgeneration⟩ := h
  rw [retire_eq, hget]
  simp [hgeneration]

/-! ## Both -/

/-- The call is all or nothing exactly when no binding of another generation is
filed under the session it finds, and there is a sequence left for its event. -/
theorem closeSession_all_or_nothing (c : Closure) (m : Outside) (s : Shared) :
    c.AllOrNothing m s ↔ (c.IsCurrent s → c.Countable s) ∧ (c.Finds s → c.Unshadowed s) := by
  constructor
  · rintro ⟨hsucceeds, hthrows⟩
    constructor
    · intro hcurrent
      by_contra hcountable
      have hfinds : ¬c.Finds s := fun ⟨_, _, _, h⟩ => hcountable h
      obtain ⟨e, hclose⟩ := close_refused (m := m) hfinds
      have hok := (hsucceeds hcurrent).1
      rw [perform_eq, hclose] at hok
      cases hok
    · intro hfinds
      by_contra hshadowed
      obtain ⟨t, record, hclose, hbindings, -, htouched⟩ := close_found (m := m) hfinds
      have hstill : ¬c.Unshadowed t := fun h => hshadowed fun b hb => h b (hbindings ▸ hb)
      obtain ⟨e, hretire⟩ := retire_shadowed (m := m) hstill
      have hperform : c.perform m s = (t, .error e) := by rw [perform_eq, hclose]; exact hretire
      rw [hperform] at hthrows
      exact htouched (hthrows e rfl)
  · rintro ⟨hcountable, hunshadowed⟩
    by_cases hfinds : c.Finds s
    · obtain ⟨t, record, hclose, hbindings, hcloses, -⟩ := close_found (m := m) hfinds
      have hclear : c.Unshadowed t := fun b hb => hunshadowed hfinds b (hbindings ▸ hb)
      obtain ⟨b, hretire, hretires⟩ := retire_unshadowed (m := m) hclear
      have hperform : c.perform m s = ({ t with bindings := b }, .ok ()) := by
        rw [perform_eq, hclose]
        exact hretire
      rw [AllOrNothing, hperform]
      refine ⟨fun _ => ⟨rfl, hcloses, ?_⟩, fun e h => by cases h⟩
      rw [Retires] at hretires ⊢
      rwa [hbindings] at hretires
    · obtain ⟨e, hclose⟩ := close_refused (m := m) hfinds
      have hperform : c.perform m s = (s, .error e) := by rw [perform_eq, hclose]
      rw [AllOrNothing, hperform]
      refine ⟨fun hcurrent => ?_, fun _ _ => ⟨rfl, rfl, rfl, rfl⟩⟩
      have hcounted := hcountable hcurrent
      obtain ⟨record, hget, -, howns⟩ := hcurrent
      exact absurd ⟨record, hget, howns, hcounted⟩ hfinds

end Closure

end

/-! ## A replaced session -/

section Sample

def replacedIds (generation : Id) : Drawn := fun _ _ => generation

/-- A session opens in a process, its endpoint is published, the process is gone
and the session is opened again under its id. -/
def replaced : Shared :=
  let first := (ServiceCall.call (replacedIds ⟨"generation_a", generation_a_portable⟩) (.openSession
      (sampleOpen ⟨"session_a", session_a_portable⟩ ⟨"ann", ann_portable⟩ "claude"))).process.alone
    ⟨0, fun _ => true⟩ (.initial ⟨"workspace_1", home_portable⟩)
  let published := (ServiceCall.publishDeliveryBinding sampleBinding).process.alone
    ⟨1, fun _ => true⟩ first.1
  ((ServiceCall.call (replacedIds ⟨"generation_b", generation_b_portable⟩) (.openSession
      (sampleOpen ⟨"session_a", session_a_portable⟩ ⟨"ann", ann_portable⟩ "claude"))).process.alone
    ⟨10, fun _ => false⟩ published.1).1

/-- The second generation closes. -/
def lateClosure : Closure :=
  ⟨⟨"session_a", session_a_portable⟩, none, ⟨"generation_b", generation_b_portable⟩, none⟩

/-- The current open generation closes, throws, and is closed. -/
theorem closeSession_torn : lateClosure.IsCurrent replaced ∧
    ¬lateClosure.AllOrNothing ⟨20, fun _ => true⟩ replaced := by
  have hrun : ((currentRecord replaced.workspace lateClosure.sessionId).any fun record =>
      decide (record.state = .opened ∧ lateClosure.Owns replaced record)) = true ∧
      (lateClosure.perform ⟨20, fun _ => true⟩ replaced).2.toOption = none := by decide +kernel
  obtain ⟨hcurrent, hthrows⟩ := hrun
  obtain ⟨record, hget, hrecord⟩ := (Option.any_eq_true _ _).mp hcurrent
  have hisCurrent : lateClosure.IsCurrent replaced := ⟨record, hget, of_decide_eq_true hrecord⟩
  refine ⟨hisCurrent, fun hall => ?_⟩
  rw [(hall.1 hisCurrent).1] at hthrows
  cases hthrows

end Sample

end Acc.Core
