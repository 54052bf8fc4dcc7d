import AgentsCanCommunicate.Core.Asides

/-!
# Every call keeps to the acts

Whatever the others do between two of its steps, every step of every call is an
act, and a step that writes for a session made sure that the session is there
(`Guarantee`).  What a call read before without the mutex is used only as far as
no step of the others can undo it: the workspace of the store, that the
workspace has materialised, and that a record which was promoted stays.
-/

namespace Acc.Core

open Library (Keyed Process)
open Library.Process (Between Keeps)

section

variable [LinearOrder ReceiptId]

variable {A : Tag → Shared → Shared → Prop} {pruning : Prop} {s t : Shared} {h : Holder}
  {α β : Type} {Q : α → Shared → Prop}

/-! ## What stays -/

theorem between_workspaceId (hst : Between A (Guarantee pruning) s t) :
    t.workspace.workspaceId = s.workspace.workspaceId :=
  hst.invariant (I := fun u => u.workspace.workspaceId = s.workspace.workspaceId)
    (fun _ _ _ _ hG hu => hG.act.workspaceId.trans hu) rfl

theorem between_materialised (hst : Between A (Guarantee pruning) s t)
    (hs : Materialised s.workspace) : Materialised t.workspace :=
  hst.invariant (fun _ _ _ _ hG hu => hG.act.materialised hu) hs

theorem between_atHome (hst : Between A (Guarantee pruning) s t) (hs : AtHome s.workspace) :
    AtHome t.workspace :=
  hst.invariant (fun _ _ _ _ hG hu => hG.act.atHome hu) hs

theorem between_hasDurable (hst : Between A (Guarantee pruning) s t) {copy : Program.Copy}
    (hs : pruning ∨ HasDurable s.workspace copy) : pruning ∨ HasDurable t.workspace copy := by
  by_cases hpruning : pruning
  · exact Or.inl hpruning
  · exact Or.inr (hst.invariant (I := fun u => HasDurable u.workspace copy)
      (fun _ _ _ _ hG hu => (hG.act.grows hpruning).hasDurable hu) (hs.resolve_left hpruning))

/-! ## Steps -/

theorem guarantee_idle {tag : Tag} : Guarantee pruning tag s s := ⟨.idle, fun _ => Or.inl rfl⟩

namespace Program

theorem keeps_refuse {p : Prop} [Decidable p] {e : AccError} {R : Unit → Shared → Prop}
    (hR : ¬p → R () s) : (refuse p e).Keeps A (Guarantee pruning) s R := by
  rw [refuse]
  split
  · trivial
  next hp => exact hR hp

theorem keeps_read {f : Workspace → α}
    (hQ : ∀ t, Between A (Guarantee pruning) s t → Q (f t.workspace) t) :
    (read h f).Keeps A (Guarantee pruning) s Q :=
  .look (fun _ => guarantee_idle) fun t _ ht => hQ t ht

theorem keeps_outside {R : Outside → Shared → Prop}
    (hR : ∀ t m, Between A (Guarantee pruning) s t → R m t) :
    (outside h).Keeps A (Guarantee pruning) s R :=
  .look (fun _ => guarantee_idle) fun t m ht => hR t m ht

theorem keeps_store {tag : Tag} {f : Outside → Workspace → Result (Workspace × α)}
    {deeds : α → List Deed}
    (hf : ∀ t m w a, Between A (Guarantee pruning) s t → f m t.workspace = .ok (w, a) →
      Guarantee pruning tag t ⟨w, t.bindings, deeds a ++ t.history⟩ ∧
        (Between A (Guarantee pruning) s ⟨w, t.bindings, deeds a ++ t.history⟩ →
          Q a ⟨w, t.bindings, deeds a ++ t.history⟩)) :
    (store tag f deeds).Keeps A (Guarantee pruning) s Q := by
  refine .atomically (fun _ => guarantee_idle) fun t m t' a ht hok hA => ?_
  simp only [bind_eq_ok, pure_eq_ok, Prod.mk.injEq] at hok
  obtain ⟨r, hr, rfl, rfl⟩ := hok
  obtain ⟨hG, hQ⟩ := hf t m r.1 r.2 ht hr
  exact ⟨hG, hQ (ht.tail ⟨tag, hA, hG⟩)⟩

/-- The session that is found is the one that was asked for, in the workspace of
the store. -/
theorem keeps_locate {sessionId : Id} {workspaceId : Option Id} (hs : AtHome s.workspace) :
    (locate h sessionId workspaceId).Keeps A (Guarantee pruning) s fun located t =>
      Between A (Guarantee pruning) s t ∧ ∀ c, located = some c →
        c.sessionId = sessionId ∧ c.workspaceId = t.workspace.workspaceId := by
  refine .bind (keeps_read fun t ht => ?_)
  refine .bind (keeps_read fun u hu => ?_)
  have hfound : ∀ (v : Workspace), AtHome v → v.workspaceId = u.workspace.workspaceId →
      ∀ c, (v.sessions.get? sessionId = some c ∨ v.ephemeral.sessions.get? sessionId = some c) →
        c.sessionId = sessionId ∧ c.workspaceId = u.workspace.workspaceId := by
    intro v hv hid c hc
    rcases hc with hc | hc
    · exact ⟨Keyed.key_of_get? hc, (hv.durable _ _ hc).trans hid⟩
    · exact ⟨Keyed.key_of_get? hc, (hv.ephemeral _ _ hc).trans hid⟩
  split
  next c hc =>
    refine ⟨ht.trans hu, fun c' hc' => ?_⟩
    cases hc'
    exact hfound u.workspace (between_atHome (ht.trans hu) hs) rfl c
      (Or.inl (Option.filter_eq_some_iff.mp hc).1)
  next =>
    refine ⟨ht.trans hu, fun c hc => ?_⟩
    exact hfound t.workspace (between_atHome ht hs) (between_workspaceId hu).symm c
      (Or.inr (Option.filter_eq_some_iff.mp hc).1)

/-! ## Materialisation -/

theorem keeps_retire {copies : List Copy} (hs : Materialised s.workspace)
    (hcopies : ∀ copy ∈ copies, pruning ∨ HasDurable s.workspace copy) :
    (retire h copies).Keeps A (Guarantee pruning) s fun _ t =>
      Between A (Guarantee pruning) s t := by
  induction copies generalizing s with
  | nil => exact .refl
  | cons copy copies ih =>
      refine .bind (keeps_store fun t m w a ht hok => ?_)
      cases hok
      refine ⟨⟨.retire (between_materialised ht hs)
        (between_hasDurable ht (hcopies copy (List.mem_cons_self ..))), ?_⟩, fun hown => ?_⟩
      · intro hkind
        cases hkind with
        | inl hwrite => cases hwrite
        | inr hclose => cases hclose
      · refine (ih (between_materialised hown hs) fun c hc => ?_).mono fun _ u hu => hown.trans hu
        exact between_hasDurable hown (hcopies c (List.mem_cons_of_mem _ hc))

end Program

/-- A transaction that is called off leaves the workspace. -/
theorem materialiseTransaction_false {w w' : Workspace} {ports : Ports} {home : Id}
    {descriptor : Option Descriptor} {reason : String} {opening : Option Opening}
    (hok : materialiseTransaction w ports home descriptor reason opening = .ok (w', false)) :
    w' = w := by
  have hok := Workspace.transaction_eq_ok hok
  dsimp only at hok
  split at hok
  next => simp [bind_eq_ok] at hok
  next =>
    cases hok
    rfl

/-- Each copy that was there has a durable record once it was promoted. -/
theorem Promoted.hasDurable {w w' : Workspace} {now : Timestamp} {home : Id} {reason : String}
    {opening : Option Opening} (h : Promoted w now home reason opening w') {copy : Program.Copy}
    (hcopy : copy ∈ w.ephemeral.copies) : HasDurable w' copy := by
  simp only [Ephemeral.copies, List.mem_append, List.mem_map, Keyed.mem_list] at hcopy
  rcases hcopy with (⟨r, hr, rfl⟩ | ⟨r, hr, rfl⟩) | ⟨r, hr, rfl⟩
  · rw [HasDurable, h.participants, Keyed.mem_def.mp hr]
    simp
  · rw [HasDurable, h.sessions, Keyed.mem_def.mp hr]
    simp
  · rw [HasDurable, h.intents, Keyed.mem_def.mp hr]
    simp

namespace Program

theorem keeps_materialise {ids : Drawn} {workspaceId : Id} {descriptor : Option Descriptor}
    {reason : String} {opening : Option ((Nat → Bool) → Opening)}
    (hhome : workspaceId = s.workspace.workspaceId)
    (hfits : ∀ o, opening = some o → ∀ pidIsAlive (w : Workspace), w.workspaceId = workspaceId →
      (o pidIsAlive).Fits w) :
    (materialise h ids workspaceId descriptor reason opening).Keeps A (Guarantee pruning) s
      fun _ t => Between A (Guarantee pruning) s t := by
  refine .bind (keeps_outside fun t m ht => ?_)
  refine .bind (keeps_store fun u m' w a hu hok => ?_)
  simp only [bind_eq_ok, pure_eq_ok, Prod.mk.injEq] at hok
  obtain ⟨⟨w', joined⟩, hok, rfl, rfl⟩ := hok
  have hid : u.workspace.workspaceId = workspaceId :=
    (between_workspaceId (ht.trans hu)).trans hhome.symm
  cases joined with
  | false =>
      have hsame : w' = u.workspace := materialiseTransaction_false hok
      subst hsame
      refine ⟨⟨.idle, fun _ => Or.inl rfl⟩, fun hown => ?_⟩
      exact ht.trans hown
  | true =>
      have hpromoted := materialiseTransaction_eq_ok hok
      rw [← hid] at hpromoted
      refine ⟨⟨.materialise (fun o ho => ?_) hpromoted, ?_⟩, fun hown => ?_⟩
      · obtain ⟨o', ho', rfl⟩ := Option.map_eq_some_iff.mp ho
        exact hfits o' ho' _ _ hid
      · intro hkind
        cases hkind with
        | inl hwrite => cases hwrite
        | inr hclose => cases hclose
      · refine .bind ((keeps_retire hpromoted.isMaterialised fun copy hcopy => ?_).mono
          fun _ v hv => (ht.trans hown).trans hv)
        exact Or.inr (hpromoted.hasDurable hcopy)

theorem keeps_ensureMaterialised {ids : Drawn} {workspaceId : Id}
    {descriptor : Option Descriptor} {reason : String}
    (hhome : workspaceId = s.workspace.workspaceId) :
    (ensureMaterialised h ids workspaceId descriptor reason).Keeps A (Guarantee pruning) s
      fun _ t => Between A (Guarantee pruning) s t := by
  refine .bind (keeps_read fun t ht => ?_)
  split
  · exact ht
  · refine .bind ((keeps_materialise ?_ fun _ ho => ?_).mono fun _ u hu => ?_)
    · exact hhome.trans (between_workspaceId ht).symm
    · cases ho
    · exact ht.trans hu

/-! ## Opening -/

theorem keeps_openDurable {ids : Drawn} {now : Timestamp} {input : OpenInput}
    {participant : Participant} {session : Session} (hs : Materialised s.workspace)
    (hhome : session.workspaceId = s.workspace.workspaceId) (hopen : session.state = .opened)
    (hparticipant : participant.participantId = session.participantId) :
    (openDurable ids now input participant session).Keeps A (Guarantee pruning) s
      fun _ _ => True := by
  refine keeps_store fun t m w a ht hok => ?_
  refine ⟨⟨?_, fun _ => Or.inr trivial⟩, fun _ => trivial⟩
  have hok := Workspace.transaction_eq_ok hok
  simp only [bind_eq_ok, pure_eq_ok, Prod.mk.injEq] at hok
  obtain ⟨_, _, rfl, rfl⟩ := hok
  exact .openDurable (between_materialised ht hs) (hhome.trans (between_workspaceId ht).symm) hopen
    hparticipant

theorem keeps_prepareParticipant {workspaceId : Id} {participant : Participant}
    (hhome : workspaceId = s.workspace.workspaceId) :
    (prepareParticipant workspaceId participant).Keeps A (Guarantee pruning) s
      fun _ t => Between A (Guarantee pruning) s t := by
  rw [prepareParticipant, plain]
  refine keeps_store fun t m w a ht hok => ?_
  refine ⟨⟨?_, fun _ => Or.inr trivial⟩, fun hown => hown⟩
  rw [hhome, ← between_workspaceId ht] at hok
  split at hok
  next =>
    cases hok
    exact .idle
  next hnot =>
    cases hok
    exact .prepare hnot

theorem keeps_openAlone {workspaceId : Id} {input : OpenInput} {session : Session}
    (hworkspace : workspaceId = s.workspace.workspaceId)
    (hhome : session.workspaceId = s.workspace.workspaceId) (hopen : session.state = .opened) :
    (openAlone workspaceId input session).Keeps A (Guarantee pruning) s fun opened t =>
      Between A (Guarantee pruning) s t ∧ (opened = none → Materialised t.workspace) := by
  refine keeps_store fun t m w a ht hok => ?_
  rw [hworkspace, ← between_workspaceId ht] at hok
  split at hok
  next hdone =>
    cases hok
    exact ⟨⟨.idle, fun _ => Or.inr trivial⟩, fun hown => ⟨hown, fun _ => hdone⟩⟩
  next hnot =>
    simp only [bind_eq_ok, pure_eq_ok, Prod.mk.injEq] at hok
    obtain ⟨_, _, rfl, rfl⟩ := hok
    refine ⟨⟨.openAlone hnot (hhome.trans (between_workspaceId ht).symm) hopen,
      fun _ => Or.inr trivial⟩, fun hown => ⟨hown, fun hnone => ?_⟩⟩
    cases hnone

theorem keeps_mustPromote {workspaceId : Id} :
    (mustPromote workspaceId).Keeps A (Guarantee pruning) s fun _ t =>
      Between A (Guarantee pruning) s t := by
  refine .bind (keeps_read fun t ht => ?_)
  split
  · exact ht
  · exact keeps_read fun u hu => ht.trans hu

theorem keeps_openEphemeral {ids : Drawn} {now : Timestamp} {workspaceId : Id}
    {input : OpenInput} {participant : Participant} {session : Session}
    (hworkspace : workspaceId = s.workspace.workspaceId)
    (hhome : session.workspaceId = s.workspace.workspaceId) (hopen : session.state = .opened)
    (hparticipant : participant.participantId = session.participantId) :
    (openEphemeral ids now workspaceId input participant session).Keeps A (Guarantee pruning) s
      fun _ _ => True := by
  refine .bind ((keeps_prepareParticipant hworkspace).mono fun _ t ht => ?_)
  have hid := between_workspaceId ht
  refine .bind ((keeps_openAlone (hworkspace.trans hid.symm) (hhome.trans hid.symm) hopen).mono
    fun opened u hu => ?_)
  obtain ⟨hu, hnone⟩ := hu
  have hid' := (between_workspaceId hu).trans hid
  split
  next => exact keeps_openDurable (hnone rfl) (hhome.trans hid'.symm) hopen hparticipant
  next =>
    refine .bind (keeps_mustPromote.mono fun promoted v hv => ?_)
    split
    · refine .bind ((keeps_materialise ?_ fun _ ho => ?_).mono fun _ _ _ => trivial)
      · exact hworkspace.trans ((between_workspaceId hv).trans hid').symm
      · cases ho
    · trivial

theorem keeps_openJoining {ids : Drawn} {workspaceId : Id} {input : OpenInput}
    {participant : Participant} {session : Session}
    (hworkspace : workspaceId = s.workspace.workspaceId)
    (hhome : session.workspaceId = workspaceId) (hopen : session.state = .opened)
    (hparticipant : participant.participantId = session.participantId) :
    (openJoining ids workspaceId input participant session).Keeps A (Guarantee pruning) s
      fun _ t => Between A (Guarantee pruning) s t := by
  refine .bind (keeps_read fun t ht => ?_)
  split
  · refine (keeps_materialise (hworkspace.trans (between_workspaceId ht).symm)
      fun o ho _ w hw => ?_).mono fun _ u hu => ht.trans hu
    cases ho
    exact ⟨hhome.trans hw.symm, hopen, hparticipant⟩
  · exact ht

theorem keeps_openSession {ids : Drawn} {input : OpenInput} (hs : AtHome s.workspace) :
    (openSession ids input).Keeps A (Guarantee pruning) s fun _ _ => True := by
  refine .bind (keeps_read fun t ht => ?_)
  refine .bind (keeps_refuse fun hhome => ?_)
  rw [not_not] at hhome
  refine .bind ((keeps_locate (between_atHome ht hs)).mono fun existing u hu => ?_)
  refine .bind (keeps_outside fun v m hv => ?_)
  have hid : v.workspace.workspaceId = t.workspace.workspaceId :=
    between_workspaceId (hu.1.trans hv)
  refine .bind (.ofExcept fun _ _ => ?_)
  refine .bind (.ofExcept fun _ _ => ?_)
  refine .bind (.ofExcept fun _ _ => ?_)
  refine .bind (keeps_read fun x hx => ?_)
  have hidx := (between_workspaceId hx).trans hid
  split
  next hdone =>
    refine keeps_openDurable ?_ (hhome.trans hidx.symm) rfl rfl
    rwa [hhome, ← hidx] at hdone
  next =>
    refine .bind ((keeps_openJoining (hhome.trans hidx.symm) rfl rfl rfl).mono fun joined y hy => ?_)
    have hidy := (between_workspaceId hy).trans hidx
    split
    · trivial
    · exact keeps_openEphemeral (hhome.trans hidy.symm) (hhome.trans hidy.symm) rfl rfl

/-! ## One session's own record -/

/-- A record that its holder writes again. -/
structure Rewrites (generation : Id) (c r : Session) : Prop where
  generation : c.generation = generation
  wasOpen : c.state = .opened
  same : SameLife c r
  isOpen : r.state = .opened

theorem keeps_updateAlone {sessionId generation : Id}
    {change : Outside → Workspace → Session → Result (Option Session)} (hs : AtHome s.workspace)
    (hchange : ∀ m w c r, change m w c = .ok (some r) → Rewrites generation c r) :
    (updateAlone (.session sessionId generation) sessionId change).Keeps A (Guarantee pruning) s
      fun _ t => Between A (Guarantee pruning) s t := by
  refine keeps_store fun t m w a ht hok => ?_
  split at hok
  next =>
    cases hok
    exact ⟨guarantee_idle, fun hown => hown⟩
  next c hc =>
    obtain ⟨hget, hlone⟩ := Option.filter_eq_some_iff.mp hc
    have hlone : ¬Materialised t.workspace := by
      rw [(between_atHome ht hs).ephemeral _ _ hget] at hlone
      simpa [Materialised] using hlone
    simp only [bind_eq_ok] at hok
    obtain ⟨next, hnext, hok⟩ := hok
    cases next with
    | none =>
        cases hok
        exact ⟨guarantee_idle, fun hown => hown⟩
    | some r =>
        cases hok
        have hr := hchange m t.workspace c r hnext
        have hkey : t.workspace.ephemeral.sessions.get? c.sessionId = some c := by
          rw [Keyed.key_of_get? hget, hget]
        refine ⟨⟨.updateAlone hlone hkey hr.wasOpen hr.same hr.isOpen, fun _ => Or.inr ?_⟩,
          fun hown => hown⟩
        exact ⟨c, .lone hlone hget, hr.generation, hr.wasOpen⟩

theorem keeps_updateDurable {sessionId generation : Id}
    {change : Outside → Workspace → Option Session → Result (Option Session)}
    (hchange : ∀ m w c r, change m w c = .ok (some r) → ∃ c', c = some c' ∧
      Rewrites generation c' r) :
    (updateDurable (.session sessionId generation) sessionId change).Keeps A (Guarantee pruning) s
      fun _ _ => True := by
  refine keeps_store fun t m w a ht hok => ?_
  have hok := Workspace.transaction_eq_ok hok
  simp only [bind_eq_ok] at hok
  obtain ⟨next, hnext, hok⟩ := hok
  cases next with
  | none =>
      cases hok
      exact ⟨guarantee_idle, fun _ => trivial⟩
  | some r =>
      cases hok
      obtain ⟨c, hget, hr⟩ := hchange m t.workspace _ r hnext
      have hkey : t.workspace.sessions.get? c.sessionId = some c := by
        rw [Keyed.key_of_get? hget, hget]
      refine ⟨⟨.updateDurable hkey hr.wasOpen hr.same hr.isOpen, fun _ => Or.inr ?_⟩,
        fun _ => trivial⟩
      exact ⟨c, .durable hget, hr.generation, hr.wasOpen⟩

theorem keeps_updateOwn {sessionId generation : Id}
    {change : Outside → Workspace → Session → Result Session} (hs : AtHome s.workspace)
    (hchange : ∀ m w c r, change m w c = .ok r → Rewrites generation c r) :
    (updateOwn (.session sessionId generation) sessionId change).Keeps A (Guarantee pruning) s
      fun _ _ => True := by
  have hsome : ∀ m w c r, some <$> change m w c = .ok (some r) → Rewrites generation c r := by
    intro m w c r hr
    refine hchange m w c r ?_
    cases hdone : change m w c with
    | ok r' =>
        rw [hdone] at hr
        cases hr
        rfl
    | error e =>
        rw [hdone] at hr
        cases hr
  have hseen : (updateSeen (.session sessionId generation) sessionId change).Keeps A
      (Guarantee pruning) s fun _ t => Between A (Guarantee pruning) s t := by
    refine .bind (keeps_read fun t ht => ?_)
    split
    next => exact ht
    next =>
      refine .bind (keeps_read fun u hu => ?_)
      split
      · exact ht.trans hu
      · exact (keeps_updateAlone (between_atHome (ht.trans hu) hs) hsome).mono
          fun _ _ hv => (ht.trans hu).trans hv
  refine .bind (hseen.mono fun ephemeral t ht => ?_)
  split
  next => trivial
  next =>
    refine keeps_updateDurable fun m w c r hr => ?_
    cases c with
    | none => cases hr
    | some c => exact ⟨c, rfl, hsome m w c r hr⟩

theorem assertHolder_eq_ok {w : Workspace} {current : Session} {workspaceId : Option Id}
    {generation : Id} {action : String} {u : Unit}
    (hok : assertHolder w current workspaceId generation action = .ok u) :
    current.generation = generation ∧ current.state = .opened := by
  simp only [assertHolder, assertGeneration, bind_eq_ok, refuse_eq_ok, not_not] at hok
  obtain ⟨_, ⟨_, _, hgeneration⟩, hopen⟩ := hok
  exact ⟨hgeneration, hopen⟩

theorem keeps_heartbeatSession {sessionId generation : Id} {workspaceId : Option Id}
    (hs : AtHome s.workspace) :
    (heartbeatSession sessionId workspaceId generation).Keeps A (Guarantee pruning) s
      fun _ _ => True := by
  refine keeps_updateOwn hs fun m w c r hr => ?_
  simp only [bind_eq_ok, pure_eq_ok] at hr
  obtain ⟨_, hholder, rfl⟩ := hr
  obtain ⟨hgeneration, hopen⟩ := assertHolder_eq_ok hholder
  exact ⟨hgeneration, hopen, ⟨rfl, rfl, rfl, rfl⟩, hopen⟩

theorem keeps_recordNotices {sessionId generation : Id} {workspaceId : Option Id}
    {messageIds : List String} (hs : AtHome s.workspace) :
    (recordNotices sessionId workspaceId generation messageIds).Keeps A (Guarantee pruning) s
      fun _ _ => True := by
  refine .bind (keeps_refuse fun _ => ?_)
  refine keeps_updateOwn hs fun m w c r hr => ?_
  simp only [bind_eq_ok, pure_eq_ok] at hr
  obtain ⟨_, hholder, rfl⟩ := hr
  obtain ⟨hgeneration, hopen⟩ := assertHolder_eq_ok hholder
  exact ⟨hgeneration, hopen, ⟨rfl, rfl, rfl, rfl⟩, hopen⟩

theorem resumed_eq_ok {m : Outside} {w : Workspace} {workspaceId : Option Id} {generation : Id}
    {metadata : ResumeInput} {current : Option Session} {r : Session}
    (hok : resumed m w workspaceId generation metadata current = .ok (some r)) :
    ∃ c, current = some c ∧ Rewrites generation c r := by
  rw [resumed] at hok
  split at hok
  next => cases hok
  next next hnext =>
    simp only [bind_eq_ok, pure_eq_ok] at hok
    obtain ⟨_, _, hok⟩ := hok
    cases hok
    obtain ⟨c, rfl, hresume⟩ := Option.bind_eq_some_iff.mp hnext
    rw [resume] at hresume
    split at hresume
    next => cases hresume
    next hstays =>
      simp only [not_or, not_not] at hstays
      cases hresume
      exact ⟨c, rfl, hstays.2.1, hstays.1, ⟨rfl, rfl, rfl, rfl⟩, hstays.1⟩

theorem keeps_resumeSession {sessionId generation : Id} {workspaceId : Option Id}
    {metadata : ResumeInput} (hs : AtHome s.workspace) :
    (resumeSession sessionId workspaceId generation metadata).Keeps A (Guarantee pruning) s
      fun _ _ => True := by
  refine .bind ((keeps_updateAlone hs fun m w c r hr => ?_).mono fun ephemeral t ht => ?_)
  · obtain ⟨c', hc', hrewrites⟩ := resumed_eq_ok hr
    cases hc'
    exact hrewrites
  · split
    next => trivial
    next => exact keeps_updateDurable fun m w c r hr => resumed_eq_ok hr

/-! ## Closing -/

omit [LinearOrder ReceiptId] in
theorem assertGeneration_eq_ok {current : Session} {generation : Id} {action : String}
    {workspaceId : Id} {u : Unit}
    (hok : assertGeneration current generation action workspaceId = .ok u) :
    current.generation = generation := by
  simp only [assertGeneration, bind_eq_ok, refuse_eq_ok, not_not] at hok
  obtain ⟨_, _, hgeneration⟩ := hok
  exact hgeneration

theorem keeps_closeSession {sessionId generation : Id} {workspaceId : Option Id}
    {endReason : Option String} (hs : AtHome s.workspace) :
    (closeSession sessionId workspaceId generation endReason).Keeps A (Guarantee pruning) s
      fun _ _ => True := by
  have halone : (closeAlone sessionId workspaceId generation endReason).Keeps A
      (Guarantee pruning) s fun _ _ => True := by
    refine keeps_store fun t m w a ht hok => ?_
    split at hok
    next =>
      cases hok
      exact ⟨guarantee_idle, fun _ => trivial⟩
    next c hc =>
      obtain ⟨hget, hlone⟩ := Option.filter_eq_some_iff.mp hc
      have hlone : ¬Materialised t.workspace := by
        rw [(between_atHome ht hs).ephemeral _ _ hget] at hlone
        simpa [Materialised] using hlone
      simp only [bind_eq_ok, pure_eq_ok, Prod.mk.injEq] at hok
      obtain ⟨_, hgeneration, rfl, rfl⟩ := hok
      have hkey := Keyed.key_of_get? hget
      have hgeneration := assertGeneration_eq_ok hgeneration
      subst hkey hgeneration
      refine ⟨⟨.closeAlone hlone hget ⟨rfl, rfl, rfl, rfl⟩ rfl, fun _ => Or.inr ?_⟩,
        fun _ => trivial⟩
      exact ⟨c, .lone hlone hget, rfl⟩
  refine .bind (halone.mono fun alone t _ => ?_)
  split
  next =>
    refine .bind (keeps_store fun u m w a _ hok => ?_)
    split at hok
    next hgone =>
      cases hok
      refine ⟨⟨.cleanup hgone, fun hkind => ?_⟩, fun _ => trivial⟩
      cases hkind with
      | inl hwrite => cases hwrite
      | inr hclose => cases hclose
    next =>
      cases hok
      exact ⟨guarantee_idle, fun _ => trivial⟩
  next =>
    refine keeps_store fun u m w a _ hok => ?_
    have hok := Workspace.transaction_eq_ok hok
    dsimp only at hok
    split at hok
    next => cases hok
    next c hget =>
      simp only [bind_eq_ok, pure_eq_ok, Prod.mk.injEq] at hok
      obtain ⟨_, hgeneration, rfl, rfl⟩ := hok
      have hkey := Keyed.key_of_get? hget
      have hgeneration := assertGeneration_eq_ok hgeneration
      subst hkey hgeneration
      refine ⟨⟨.close hget ⟨rfl, rfl, rfl, rfl⟩ rfl rfl rfl, fun _ => Or.inr ?_⟩,
        fun _ => trivial⟩
      exact ⟨c, .durable hget, rfl⟩

/-! ## Intents -/

/-- A session is found by a record that counts. -/
theorem reads_locateSession {w : Workspace} {sessionId : Id} {workspaceId : Option Id}
    {c : Session} (hw : AtHome w) (hc : locateSession w sessionId workspaceId = some c) :
    Reads w sessionId c := by
  rw [locateSession] at hc
  split at hc
  next durable hdurable =>
    cases hc
    exact .durable (Option.filter_eq_some_iff.mp hdurable).1
  next hnone =>
    obtain ⟨hget, hresolved⟩ := Option.filter_eq_some_iff.mp hc
    refine .copy ?_ hget
    cases hdurable : w.sessions.get? sessionId with
    | none => rfl
    | some d =>
        -- Both are of this workspace, so the durable record would have been found.
        rw [hdurable, Option.filter_eq_none_iff] at hnone
        refine absurd ?_ (hnone d rfl)
        rw [hw.durable _ _ hdurable]
        rwa [hw.ephemeral _ _ hget] at hresolved

omit [LinearOrder ReceiptId] in
theorem requireIntentOwner_found {current : Option Session} {generation : Id} {owner : Session}
    (hok : requireIntentOwner current generation = .ok owner) :
    current = some owner ∧ owner.generation = generation ∧ owner.state = .opened := by
  cases current with
  | none => cases hok
  | some c =>
      simp only [requireIntentOwner, bind_eq_ok, refuse_eq_ok, pure_eq_ok, not_not] at hok
      obtain ⟨_, hgeneration, _, hopen, rfl⟩ := hok
      exact ⟨rfl, hgeneration, hopen⟩

theorem keeps_requireOwner {sessionId : Id} {workspaceId : Option Id} {generation : Id}
    (hs : AtHome s.workspace) :
    (requireOwner h sessionId workspaceId generation).Keeps A (Guarantee pruning) s fun owner t =>
      Between A (Guarantee pruning) s t ∧ owner.workspaceId = t.workspace.workspaceId := by
  refine .bind ((keeps_locate hs).mono fun located t ht => ?_)
  refine .ofExcept fun owner howner => ?_
  exact ⟨ht.1, (ht.2 owner (requireIntentOwner_found howner).1).2⟩

theorem keeps_intendSeen {owner : Session} {input : IntentInput} {intent : Intent}
    (hs : AtHome s.workspace) (howner : owner.workspaceId = s.workspace.workspaceId)
    (hintent : intent.sessionId = input.sessionId) :
    (intendSeen (.session input.sessionId input.generation) owner input intent).Keeps A
      (Guarantee pruning) s fun _ t => Between A (Guarantee pruning) s t := by
  refine .bind (keeps_read fun t ht => ?_)
  split
  · exact ht
  · refine keeps_store fun u m w a hu hok => ?_
    have hid := (between_workspaceId hu).trans (between_workspaceId ht)
    rw [howner, ← hid] at hok
    split at hok
    next =>
      cases hok
      exact ⟨guarantee_idle, fun hown => ht.trans hown⟩
    next hlone =>
      simp only [bind_eq_ok, pure_eq_ok, Prod.mk.injEq] at hok
      obtain ⟨c, hc, rfl, rfl⟩ := hok
      obtain ⟨hc, hgeneration, hopen⟩ := requireIntentOwner_found hc
      have hu := between_atHome (ht.trans hu) hs
      rw [← hgeneration]
      refine ⟨⟨.intendAlone hlone (hintent ▸ hc) hopen, fun _ => Or.inr ?_⟩,
        fun hown => ht.trans hown⟩
      exact ⟨c, reads_locateSession hu hc, rfl, hopen⟩

theorem keeps_intendDurable {now : Timestamp} {owner : Session} {input : IntentInput}
    {intent : Intent} (hintent : intent.sessionId = input.sessionId) :
    (intendDurable (.session input.sessionId input.generation) now owner input intent).Keeps A
      (Guarantee pruning) s fun _ _ => True := by
  refine keeps_store fun u m w a _ hok => ?_
  have hok := Workspace.transaction_eq_ok hok
  simp only [bind_eq_ok, pure_eq_ok, Prod.mk.injEq] at hok
  obtain ⟨c, hc, rfl, rfl⟩ := hok
  obtain ⟨hc, hgeneration, hopen⟩ := requireIntentOwner_found hc
  rw [← hgeneration]
  refine ⟨⟨.intend (hintent ▸ hc) hopen rfl hintent.symm, fun _ => Or.inr ?_⟩, fun _ => trivial⟩
  exact ⟨c, .durable hc, rfl, hopen⟩

theorem keeps_setIntent {input : IntentInput} (hs : AtHome s.workspace) :
    (setIntent input).Keeps A (Guarantee pruning) s fun _ _ => True := by
  refine .bind ((keeps_requireOwner hs).mono fun owner t ht => ?_)
  obtain ⟨ht, howner⟩ := ht
  refine .bind (keeps_outside fun u m hu => ?_)
  refine .bind (.ofExcept fun _ _ => ?_)
  refine .bind ((keeps_intendSeen (between_atHome (ht.trans hu) hs)
    (howner.trans (between_workspaceId hu).symm) rfl).mono fun written v _ => ?_)
  split
  next => trivial
  next => exact keeps_intendDurable rfl

theorem keeps_clearAlone {owner : Session} {sessionId generation : Id} (hs : AtHome s.workspace)
    (howner : owner.workspaceId = s.workspace.workspaceId) :
    (clearAlone (.session sessionId generation) owner sessionId generation).Keeps A
      (Guarantee pruning) s fun _ t => Between A (Guarantee pruning) s t := by
  refine keeps_store fun t m w a ht hok => ?_
  rw [howner, ← between_workspaceId ht] at hok
  split at hok
  next =>
    cases hok
    exact ⟨guarantee_idle, fun hown => hown⟩
  next hboth =>
    simp only [bind_eq_ok, pure_eq_ok, Prod.mk.injEq] at hok
    obtain ⟨c, hc, rfl, rfl⟩ := hok
    obtain ⟨hc, hgeneration, hopen⟩ := requireIntentOwner_found hc
    have hlone : ¬Materialised t.workspace := fun hmat => hboth (Or.inr hmat)
    refine ⟨⟨.clearAlone hlone hc hopen, fun _ => Or.inr ?_⟩, fun hown => hown⟩
    exact ⟨c, reads_locateSession (between_atHome ht hs) hc, hgeneration, hopen⟩

theorem keeps_clearSeen {owner : Session} {sessionId generation : Id} (hs : AtHome s.workspace)
    (howner : owner.workspaceId = s.workspace.workspaceId) :
    (clearSeen (.session sessionId generation) owner sessionId generation).Keeps A
      (Guarantee pruning) s fun _ _ => True := by
  refine .bind (keeps_read fun t ht => ?_)
  split
  · trivial
  · refine .bind ((keeps_clearAlone (between_atHome ht hs)
      (howner.trans (between_workspaceId ht).symm)).mono fun cleared u hu => ?_)
    split
    · trivial
    · refine .bind ((keeps_requireOwner (between_atHome (ht.trans hu) hs)).mono fun _ v _ => ?_)
      exact .bind (keeps_read fun _ _ => trivial)

theorem keeps_clearDurable {now : Timestamp} {owner : Session} {sessionId generation : Id} :
    (clearDurable (.session sessionId generation) now owner sessionId generation).Keeps A
      (Guarantee pruning) s fun _ _ => True := by
  refine keeps_store fun t m w a _ hok => ?_
  have hok := Workspace.transaction_eq_ok hok
  simp only [bind_eq_ok] at hok
  obtain ⟨c, hc, hok⟩ := hok
  obtain ⟨hc, hgeneration, hopen⟩ := requireIntentOwner_found hc
  split at hok
  next =>
    cases hok
    exact ⟨guarantee_idle, fun _ => trivial⟩
  next current hcurrent =>
    cases hok
    have hkey := Keyed.key_of_get? hcurrent
    subst hkey
    refine ⟨⟨.clear (i := { current with state := .done, updatedAt := now }) hc hopen rfl rfl rfl,
      fun _ => Or.inr ?_⟩, fun _ => trivial⟩
    exact ⟨c, .durable hc, hgeneration, hopen⟩

theorem keeps_clearIntent {sessionId generation : Id} {workspaceId : Option Id}
    (hs : AtHome s.workspace) :
    (clearIntent sessionId workspaceId generation).Keeps A (Guarantee pruning) s
      fun _ _ => True := by
  refine .bind ((keeps_requireOwner hs).mono fun owner t ht => ?_)
  obtain ⟨ht, howner⟩ := ht
  refine .bind ((keeps_clearSeen (between_atHome ht hs) howner).mono fun settled u _ => ?_)
  split
  · trivial
  · refine .bind (keeps_outside fun v m _ => ?_)
    exact .bind (keeps_clearDurable.mono fun _ _ _ => trivial)

/-! ## Claims -/

/-- A write that leaves presence alone, for a session that is there. -/
theorem keeps_plain {f : Outside → Workspace → Result (Workspace × α)}
    (hf : ∀ t m w a, Between A (Guarantee pruning) s t → f m t.workspace = .ok (w, a) →
      Aside t.workspace w ∧ (Bare t.workspace → w = t.workspace) ∧ Checked t.workspace h) :
    (plain h f).Keeps A (Guarantee pruning) s fun _ _ => True := by
  refine keeps_store fun t m w a ht hok => ?_
  obtain ⟨haside, hbare, hchecked⟩ := hf t m w a ht hok
  exact ⟨⟨.aside haside hbare, fun _ => Or.inr hchecked⟩, fun _ => trivial⟩

omit [LinearOrder ReceiptId] in
theorem requireClaimOwner_found {current : Option Session} {generation : Id} {action : String}
    {owner : Session} (hok : requireClaimOwner current generation action = .ok owner) :
    current = some owner ∧ owner.generation = generation ∧ owner.state = .opened := by
  cases current with
  | none => cases hok
  | some c =>
      simp only [requireClaimOwner, bind_eq_ok, refuse_eq_ok, pure_eq_ok, not_not] at hok
      obtain ⟨_, hopen, _, hgeneration, rfl⟩ := hok
      exact ⟨rfl, hgeneration, hopen⟩

theorem keeps_requireClaimant {sessionId : Id} {workspaceId : Option Id} {generation : Id}
    {action : String} (hs : AtHome s.workspace) :
    (requireClaimant h sessionId workspaceId generation action).Keeps A (Guarantee pruning) s
      fun owner t => Between A (Guarantee pruning) s t ∧ owner.sessionId = sessionId ∧
        owner.workspaceId = t.workspace.workspaceId := by
  refine .bind ((keeps_locate hs).mono fun located t ht => ?_)
  refine .ofExcept fun owner howner => ?_
  exact ⟨ht.1, ht.2 owner (requireClaimOwner_found howner).1⟩

theorem acquireRecord_owner {w : Workspace} {ports : Ports} {session : Session}
    {input : AcquireInput} {expiresAt : Timestamp} {resource : String} {i : Nat}
    {item : Bool × Claim}
    (hok : acquireRecord w ports session input expiresAt resource i = .ok item) :
    item.2.ownerSessionId = session.sessionId := by
  simp only [acquireRecord, bind_eq_ok, pure_eq_ok] at hok
  obtain ⟨_, _, rfl⟩ := hok
  rfl

theorem keeps_acquire {ids : Drawn} {input : AcquireInput} {resources : List String}
    {batch : Bool} (hs : AtHome s.workspace) :
    (acquire ids input resources batch).Keeps A (Guarantee pruning) s fun _ _ => True := by
  refine .bind ((keeps_requireClaimant hs).mono fun session t ht => ?_)
  obtain ⟨ht, hsession, hhome⟩ := ht
  refine .bind (.ofExcept fun requested _ => ?_)
  refine .bind ((keeps_ensureMaterialised hhome).mono fun _ u hu => ?_)
  refine keeps_plain fun v m w a hv hok => ?_
  have hok := Workspace.transaction_eq_ok hok
  simp only [bind_eq_ok, pure_eq_ok, Prod.mk.injEq] at hok
  obtain ⟨owner, howner, _, _, _, _, items, hitems, rfl, rfl⟩ := hok
  obtain ⟨hget, hgeneration, hopen⟩ := requireClaimOwner_found howner
  have hpresent : (sessionIn v.workspace session.sessionId).isSome = true := by
    rw [hsession, sessionIn, hget]
    rfl
  refine ⟨aside_foldl (fun w hw item hitem => aside_fileClaim ?_) hpresent,
    fun hbare => hbare.absurd hget, ?_⟩
  · obtain ⟨source, _, hsource⟩ := mem_of_mapM_eq_ok hitems item hitem
    rw [acquireRecord_owner hsource]
    exact hw
  · exact ⟨owner, .durable hget, hgeneration, hopen⟩

theorem keeps_renewClaim {ids : Drawn} {input : RenewInput} (hs : AtHome s.workspace) :
    (renewClaim ids input).Keeps A (Guarantee pruning) s fun _ _ => True := by
  refine .bind ((keeps_requireClaimant hs).mono fun session t ht => ?_)
  obtain ⟨_, hsession, _⟩ := ht
  refine keeps_plain fun v m w a hv hok => ?_
  have hok := Workspace.transaction_eq_ok hok
  simp only [bind_eq_ok] at hok
  obtain ⟨owner, howner, hok⟩ := hok
  obtain ⟨hget, hgeneration, hopen⟩ := requireClaimOwner_found howner
  have hpresent : (sessionIn v.workspace session.sessionId).isSome = true := by
    rw [hsession, sessionIn, hget]
    rfl
  refine ⟨?_, fun hbare => hbare.absurd hget, owner, .durable hget, hgeneration, hopen⟩
  split at hok
  next => cases hok
  next existing _ =>
    simp only [bind_eq_ok, pure_eq_ok, Prod.mk.injEq] at hok
    obtain ⟨_, _, expiresAt, _, rfl, _⟩ := hok
    have hput : Aside v.workspace (v.workspace.putClaim
        { existing with expiresAt, generation := (m.ports ids).ids .generation 0 }) :=
      .quiet rfl rfl rfl rfl rfl rfl rfl
    exact hput.trans (aside_append rfl hpresent)

/-- What a release reads of its session counts. -/
theorem reads_sessionIn {w : Workspace} {sessionId : Id} {c : Session}
    (hc : sessionIn w sessionId = some c) : Reads w sessionId c := by
  rw [sessionIn, Option.or_eq_some_iff] at hc
  rcases hc with hc | ⟨hnone, hc⟩
  · exact .durable hc
  · exact .copy hnone hc

theorem keeps_removeClaims {ids : Drawn} {input : ReleaseInput} {selectors : Selectors}
    {authority reason : Option String} (hs : AtHome s.workspace) :
    (removeClaims ids input selectors authority reason).Keeps A (Guarantee pruning) s
      fun _ _ => True := by
  refine .bind ((keeps_requireClaimant hs).mono fun session t ht => ?_)
  obtain ⟨_, hsession, _⟩ := ht
  refine keeps_plain fun v m w a hv hok => ?_
  have hok := Workspace.transaction_eq_ok hok
  simp only [bind_eq_ok, pure_eq_ok, Prod.mk.injEq] at hok
  obtain ⟨owner, howner, selected, hselected, _, _, rfl, rfl⟩ := hok
  obtain ⟨hget, hgeneration, hopen⟩ := requireClaimOwner_found howner
  have hin : sessionIn v.workspace session.sessionId = some owner := by
    rw [hsession]
    exact hget
  refine ⟨aside_foldl (fun w hw c _ => aside_releaseOne hw) (by rw [hin]; rfl), fun hbare => ?_,
    owner, reads_sessionIn hget, hgeneration, hopen⟩
  -- Without claims nothing is selected.
  cases selected with
  | nil => rfl
  | cons c selected =>
      have hc := selectReleaseClaims_mem hselected c (List.mem_cons_self ..)
      rw [Keyed.mem_def, hbare.claims] at hc
      cases hc

/-! ## Messages -/

theorem keeps_requireSender {sessionId : Id} {workspaceId : Option Id} {generation : Id}
    {action : String} {mustBeOpen : Bool} (hs : AtHome s.workspace) :
    (requireSender h sessionId workspaceId generation action mustBeOpen).Keeps A
      (Guarantee pruning) s fun sender t => Between A (Guarantee pruning) s t ∧
        sender.sessionId = sessionId ∧ sender.generation = generation ∧
          sender.workspaceId = t.workspace.workspaceId := by
  refine .bind ((keeps_locate hs).mono fun located t ht => ?_)
  split
  next => trivial
  next sender hsender =>
    obtain ⟨hlocated, hfits⟩ := Option.filter_eq_some_iff.mp hsender
    obtain ⟨hid, hhome⟩ := ht.2 sender hlocated
    simp only [decide_eq_true_eq] at hfits
    exact ⟨ht.1, hid, hfits.1, hhome⟩

/-- Who records a message is there, under its generation. -/
theorem checked_sender {w : Workspace} {session : Session} {action : String} {u : Unit}
    (hok : assertCurrentSession w session action = .ok u) :
    Checked w (.session session.sessionId session.generation) := by
  obtain ⟨c, hc, hopen, hgeneration⟩ := assertCurrentSession_eq_ok hok
  exact ⟨c, .durable hc, hgeneration, hopen⟩

theorem keeps_sendMessage {ids : Drawn} {input : SendInput} (hs : AtHome s.workspace) :
    (sendMessage ids input).Keeps A (Guarantee pruning) s fun _ _ => True := by
  refine .bind ((keeps_requireSender hs).mono fun session t ht => ?_)
  obtain ⟨_, hsession, hgeneration, hhome⟩ := ht
  refine .bind ((keeps_ensureMaterialised hhome).mono fun _ u _ => ?_)
  refine keeps_plain fun v m w a hv hok => ?_
  have hok := Workspace.transaction_eq_ok hok
  simp only [bind_eq_ok, pure_eq_ok, Prod.mk.injEq] at hok
  obtain ⟨⟨w₁, done⟩, hdone, rfl, _⟩ := hok
  have hcurrent := (recordMessage_eq_ok hdone).1
  obtain ⟨c, hc, _, _⟩ := assertCurrentSession_eq_ok hcurrent
  rw [← hsession, ← hgeneration]
  exact ⟨aside_recordMessage hdone, fun hbare => hbare.absurd hc, checked_sender hcurrent⟩

theorem keeps_finishSession {ids : Drawn} {input : FinishInput} (hs : AtHome s.workspace) :
    (finishSession ids input).Keeps A (Guarantee pruning) s fun _ _ => True := by
  refine .bind ((keeps_requireSender hs).mono fun session t ht => ?_)
  obtain ⟨_, hsession, hgeneration, hhome⟩ := ht
  refine .bind ((keeps_ensureMaterialised hhome).mono fun _ u _ => ?_)
  refine keeps_store fun v m w a hv hok => ?_
  have hok := Workspace.transaction_eq_ok hok
  dsimp only at hok
  split at hok
  next => cases hok
  next current hcurrent =>
    obtain ⟨hget, hmine⟩ := Option.filter_eq_some_iff.mp hcurrent
    simp only [bind_eq_ok] at hok
    obtain ⟨_, _, existing, _, hok⟩ := hok
    cases existing with
    | some existing =>
        simp only [bind_eq_ok, pure_eq_ok, Prod.mk.injEq] at hok
        obtain ⟨_, _, rfl, rfl⟩ := hok
        exact ⟨guarantee_idle, fun _ => trivial⟩
    | none =>
        simp only [bind_eq_ok, refuse_eq_ok, pure_eq_ok, Prod.mk.injEq, not_not] at hok
        obtain ⟨_, hopen, ⟨w₁, recorded⟩, hrecorded, rfl, rfl⟩ := hok
        have hkey := Keyed.key_of_get? hget
        have hin : (sessionIn v.workspace session.sessionId).isSome = true := by
          rw [sessionIn, hget]
          rfl
        have hrecorded' := aside_recordMessage hrecorded
        have haside := hrecorded'.trans (@aside_releaseFinished _ _ (m.ports ids).now session
          (v.workspace.claims.list.filter fun c => c.ownerSessionId = session.sessionId)
          (by rw [hrecorded'.sessionIn_eq]; exact hin))
        refine ⟨⟨.finish haside (hkey.symm ▸ hget) hopen ⟨rfl, rfl, rfl, rfl⟩ rfl rfl hkey.symm,
          fun _ => Or.inr ?_⟩, fun _ => trivial⟩
        refine ⟨current, .durable (hsession ▸ hget), ?_, hopen⟩
        rw [← hgeneration]
        simpa using hmine

/-! ## The inbox -/

theorem keeps_requireReader {sessionId : Id} {workspaceId : Option Id} {generation : Id}
    {action : String} (hs : AtHome s.workspace) :
    (requireReader h sessionId workspaceId generation action).Keeps A (Guarantee pruning) s
      fun reader _ => reader.sessionId = sessionId ∧ reader.generation = generation := by
  refine .bind ((keeps_locate hs).mono fun located t ht => ?_)
  refine .ofExcept fun reader hreader => ?_
  obtain ⟨hlocated, _, hgeneration⟩ := requireOpen_eq_ok hreader
  exact ⟨(ht.2 reader hlocated).1, hgeneration⟩

/-- A reader that a transaction found again. -/
theorem reader_found {w : Workspace} {sessionId generation : Id} {action : String}
    {c : Session} (hok : requireOpen (sessionIn w sessionId) generation action = .ok c) :
    (sessionIn w sessionId).isSome = true ∧ Checked w (.session sessionId generation) := by
  obtain ⟨hc, hopen, hgeneration⟩ := requireOpen_eq_ok hok
  refine ⟨by rw [hc]; rfl, c, reads_sessionIn hc, hgeneration, hopen⟩

theorem requireOwnedReceipt_bare {w : Workspace} {session : Session} {messageId : Id}
    {owned : Message × Receipt} {p : Prop} (hw : Bare w)
    (hok : requireOwnedReceipt w session messageId = .ok owned) : p := by
  have hreceipt := (requireOwnedReceipt_eq_ok hok).2
  rw [hw.receipts] at hreceipt
  cases hreceipt

theorem readReceipts_bare {w : Workspace} {session : Session} {messageId : Option Id}
    (hw : Bare w) : readReceipts w session messageId = [] := by
  cases messageId with
  | none =>
      rw [readReceipts, receiptsInState, List.flatMap_eq_nil_iff]
      intro state _
      rw [List.filterMap_eq_nil_iff]
      exact fun i _ => hw.receipts i
  | some messageId => rw [readReceipts, ownReceipt, hw.receipts, Option.toList_none]

theorem selectRead_nil {w : Workspace} {session : Session} {messageId : Option Id}
    {selected : List (Viewed × Receipt)}
    (hok : selectRead [] (messagesFor w session []) messageId = .ok selected) : selected = [] := by
  simp only [selectRead, messagesFor, List.filterMap_nil, List.map_nil, bind_eq_ok,
    pure_eq_ok] at hok
  obtain ⟨_, _, rfl⟩ := hok
  cases messageId <;> simp

theorem keeps_readInbox {input : ReadInput} (hs : AtHome s.workspace) :
    (readInbox input).Keeps A (Guarantee pruning) s fun _ _ => True := by
  refine .bind ((keeps_requireReader hs).mono fun session t ht => ?_)
  refine keeps_plain fun v m w a _ hok => ?_
  have hok := Workspace.transaction_eq_ok hok
  simp only [bind_eq_ok] at hok
  obtain ⟨c, hc, selected, hselected, hok⟩ := hok
  obtain ⟨hpresent, hchecked⟩ := reader_found hc
  rw [← ht.1] at hpresent
  refine ⟨aside_readAll hpresent hok, fun hbare => ?_, hchecked⟩
  rw [readReceipts_bare hbare] at hselected
  rw [selectRead_nil hselected] at hok
  cases hok
  rfl

theorem keeps_acknowledgeMessage {input : SettleInput} (hs : AtHome s.workspace) :
    (acknowledgeMessage input).Keeps A (Guarantee pruning) s fun _ _ => True := by
  refine .bind ((keeps_requireReader hs).mono fun session t ht => ?_)
  refine keeps_plain fun v m w a _ hok => ?_
  have hok := Workspace.transaction_eq_ok hok
  simp only [bind_eq_ok, pure_eq_ok, Prod.mk.injEq] at hok
  obtain ⟨c, hc, _, howned, _, _, ⟨_, _⟩, hdone, rfl, _⟩ := hok
  obtain ⟨hpresent, hchecked⟩ := reader_found hc
  rw [← ht.1] at hpresent
  exact ⟨aside_advanceOwned hpresent hdone, fun hbare => requireOwnedReceipt_bare hbare howned,
    hchecked⟩

theorem keeps_replyToMessage {ids : Drawn} {input : ReplyInput} (hs : AtHome s.workspace) :
    (replyToMessage ids input).Keeps A (Guarantee pruning) s fun _ _ => True := by
  refine .bind ((keeps_requireReader hs).mono fun session t ht => ?_)
  obtain ⟨hsession, hgeneration⟩ := ht
  refine keeps_plain fun v m w a _ hok => ?_
  have hok := Workspace.transaction_eq_ok hok
  simp only [bind_eq_ok, pure_eq_ok, Prod.mk.injEq] at hok
  obtain ⟨_, _, ⟨w₁, recorded⟩, hrecorded, ⟨_, _⟩, hdone, rfl, _⟩ := hok
  have hcurrent := (recordMessage_eq_ok hrecorded).1
  obtain ⟨c, hc, _, _⟩ := assertCurrentSession_eq_ok hcurrent
  have haside := aside_recordMessage hrecorded
  have hpresent : (sessionIn w₁ session.sessionId).isSome = true := by
    rw [haside.sessionIn_eq, sessionIn, hc]
    rfl
  rw [← hsession, ← hgeneration]
  exact ⟨haside.trans (aside_advanceOwned hpresent hdone), fun hbare => hbare.absurd hc,
    checked_sender hcurrent⟩

/-! ## Offers, bindings and prune -/

theorem keeps_recordOfferSucceeded {ids : Drawn} {input : OfferInput} :
    (recordOfferSucceeded ids input).Keeps A (Guarantee pruning) s fun _ _ => True :=
  keeps_plain fun _ _ _ _ _ hok => ⟨(aside_recordOfferSucceeded hok).1,
    (aside_recordOfferSucceeded hok).2, trivial⟩

theorem keeps_recordOfferFailed {ids : Drawn} {input : OfferInput} {safeErrorCode : String} :
    (recordOfferFailed ids input safeErrorCode).Keeps A (Guarantee pruning) s fun _ _ => True :=
  keeps_plain fun _ _ _ _ _ hok => ⟨(aside_recordOfferFailed hok).1,
    (aside_recordOfferFailed hok).2, trivial⟩

theorem keeps_bind {f : Outside → Shared → Result (Keyed DeliveryBinding.sessionId)}
    (hf : ∀ t m b, Between A (Guarantee pruning) s t → f m t = .ok b →
      Checked t.workspace h) :
    (bind h f).Keeps A (Guarantee pruning) s fun _ t => Between A (Guarantee pruning) s t := by
  refine .atomically (fun _ => guarantee_idle) fun t m t' a ht hok hA => ?_
  simp only [bind_eq_ok, pure_eq_ok, Prod.mk.injEq] at hok
  obtain ⟨b, hb, rfl, _⟩ := hok
  have hG : Guarantee pruning ⟨h, .write⟩ t { t with bindings := b } :=
    ⟨.aside (.refl _) fun _ => rfl, fun _ => Or.inr (hf t m b ht hb)⟩
  exact ⟨hG, ht.tail ⟨_, hA, hG⟩⟩

omit [LinearOrder ReceiptId] in
theorem requireCurrent_eq_ok {current : Option Session} {generation : Id} {u : Unit}
    (hok : requireCurrent current generation = .ok u) :
    ∃ c, current = some c ∧ c.generation = generation ∧ c.state = .opened := by
  rw [requireCurrent] at hok
  split at hok
  next => cases hok
  next c hc =>
    obtain ⟨hcurrent, hfits⟩ := Option.filter_eq_some_iff.mp hc
    simp only [decide_eq_true_eq] at hfits
    exact ⟨c, hcurrent, hfits.2, hfits.1⟩

theorem keeps_publishDeliveryBinding {binding : DeliveryBinding} (hs : AtHome s.workspace) :
    (publishDeliveryBinding binding).Keeps A (Guarantee pruning) s fun _ _ => True := by
  refine .bind ((keeps_locate hs).mono fun _ t ht => ?_)
  refine .bind (.ofExcept fun _ _ => ?_)
  refine .bind (.ofExcept fun _ _ => ?_)
  refine .bind ((keeps_bind fun u m b hu hok => ?_).mono fun _ u hu => ?_)
  · simp only [bind_eq_ok] at hok
    obtain ⟨_, hcurrent, _⟩ := hok
    obtain ⟨c, hc, hgeneration, hopen⟩ := requireCurrent_eq_ok hcurrent
    have hu := between_atHome (ht.1.trans hu) hs
    exact ⟨c, reads_locateSession hu hc, hgeneration, hopen⟩
  · refine .bind ((keeps_locate (between_atHome (ht.1.trans hu) hs)).mono fun _ _ _ => ?_)
    exact .ofExcept fun _ _ => trivial

theorem keeps_clearDeliveryBinding {sessionId generation : Id}
    {opaqueEndpointRef : Option String} :
    (clearDeliveryBinding sessionId generation opaqueEndpointRef).Keeps A (Guarantee pruning) s
      fun _ _ => True := by
  refine .bind (.look (fun _ => guarantee_idle) fun t _ ht => ?_)
  split
  next => trivial
  next =>
    split
    · trivial
    · exact (keeps_bind (h := .anyone) fun _ _ _ _ _ => trivial).mono fun _ _ _ => trivial

theorem keeps_refreshDeliveryBinding {sessionId generation : Id} {leaseUntil : Timestamp}
    (hs : AtHome s.workspace) :
    (refreshDeliveryBinding sessionId generation leaseUntil).Keeps A (Guarantee pruning) s
      fun _ _ => True := by
  refine .bind ((keeps_locate hs).mono fun _ t _ => ?_)
  refine .bind (.ofExcept fun _ _ => ?_)
  exact (keeps_bind (h := .anyone) fun _ _ _ _ _ => trivial).mono fun _ _ _ => trivial

theorem pruned_removeEntries {w : Workspace} {entries : List Entry} :
    Pruned w (removeEntries w entries) :=
  ⟨removeEntries_workspaceId, removeEntries_workspaces, removeEntries_ephemeral,
    fun _ hc => (mem_sessions_removeEntries.mp hc).1⟩

theorem keeps_prune {ids : Drawn} {input : PruneInput} {budget : Budget} (hpruning : pruning) :
    (prune ids input budget).Keeps A (Guarantee pruning) s fun _ _ => True := by
  refine .bind (keeps_store fun t m w a ht hok => ?_)
  have hguarantee : ∀ {w w' : Workspace} {b : Keyed DeliveryBinding.sessionId} {h : List Deed},
      Pruned w w' → Guarantee pruning ⟨.anyone, .prune⟩ ⟨w, b, h⟩ ⟨w', b, h⟩ :=
    fun hpruned => ⟨.prune hpruning hpruned, fun _ => Or.inr trivial⟩
  cases hok
  refine ⟨hguarantee ?_, fun hown => ?_⟩
  · rw [reclaimStateRecords]
    split
    · exact ⟨rfl, rfl, rfl, fun _ hc => hc⟩
    · split
      · exact ⟨rfl, rfl, rfl, fun _ hc => hc⟩
      · exact pruned_removeEntries
  · split
    next => trivial
    next =>
      refine .bind (keeps_store fun u m' w' a' _ hok' => ⟨hguarantee ?_, fun _ => trivial⟩)
      rw [trimEventLog] at hok'
      split at hok'
      · cases hok'
        exact ⟨rfl, rfl, rfl, fun _ hc => hc⟩
      · simp only [bind_eq_ok, pure_eq_ok, Prod.mk.injEq] at hok'
        obtain ⟨_, _, rfl, _⟩ := hok'
        exact ⟨rfl, rfl, rfl, fun _ hc => hc⟩

/-! ## Requests -/

theorem keeps_run {x : Program α}
    (hx : x.Keeps A (Guarantee pruning) s fun _ _ => True) :
    (run x).Keeps A (Guarantee pruning) s fun _ _ => True :=
  .bind (hx.mono fun _ _ _ => trivial)

theorem keeps_call {ids : Drawn} {call : Call} (hs : AtHome s.workspace) :
    (Program.call ids call).Keeps A (Guarantee pruning) s fun _ _ => True := by
  cases call with
  | openSession => exact keeps_run (keeps_openSession hs)
  | heartbeatSession => exact keeps_run (keeps_heartbeatSession hs)
  | recordNotices => exact keeps_run (keeps_recordNotices hs)
  | resumeSession => exact keeps_run (keeps_resumeSession hs)
  | closeSession => exact keeps_run (keeps_closeSession hs)
  | setIntent => exact keeps_run (keeps_setIntent hs)
  | clearIntent => exact keeps_clearIntent hs
  | acquireClaim | acquireClaims => exact keeps_run (keeps_acquire hs)
  | renewClaim => exact keeps_run (keeps_renewClaim hs)
  | releaseClaims => exact .bind (.ofExcept fun _ _ => keeps_run (keeps_removeClaims hs))
  | releaseClaim | forceReleaseClaim => exact keeps_run (keeps_removeClaims hs)
  | sendMessage => exact keeps_run (keeps_sendMessage hs)
  | finishSession => exact keeps_run (keeps_finishSession hs)
  | readInbox => exact keeps_run (keeps_readInbox hs)
  | acknowledgeMessage => exact keeps_run (keeps_acknowledgeMessage hs)
  | replyToMessage => exact keeps_run (keeps_replyToMessage hs)
  | recordOfferSucceeded => exact keeps_run keeps_recordOfferSucceeded
  | recordOfferFailed => exact keeps_recordOfferFailed

end Program

/-- Every process keeps to the acts, those that prune where pruning is allowed. -/
theorem keeps_process {request : Request} (hpruning : request.isPrune = true → pruning)
    (hs : AtHome s.workspace) :
    request.process.Keeps A (Guarantee pruning) s fun _ _ => True := by
  cases request with
  | call => exact Program.keeps_call hs
  | publishDeliveryBinding => exact Program.keeps_publishDeliveryBinding hs
  | clearDeliveryBinding => exact Program.keeps_clearDeliveryBinding
  | refreshDeliveryBinding => exact Program.keeps_refreshDeliveryBinding hs
  | prune => exact Program.keeps_run (Program.keeps_prune (hpruning rfl))

end

end Acc.Core
