import AgentsCanCommunicate.Core.Processes

/-!
# What materialising leaves

The transaction that materialises adds to the durable records those ephemeral
ones whose key is free, with an event for each session and intent, and leaves
the ephemeral area as it is (`Promoted`).  The session that opens with it goes
over the record of its id.
-/

namespace Acc.Core

open Library (Keyed)

section

variable [LinearOrder ReceiptId]

variable {w w' : Workspace}

/-! ## Promoting one kind -/

/-- A step that files a record where its key is free. -/
structure Promotes {α : Type} {key : α → Id} (g : Workspace → Keyed key) (event : α → Option Event)
    (skip : α → Bool) (f : Workspace → α → Workspace) : Prop where
  keep : ∀ w r, skip r = true ∨ (g w).get? (key r) ≠ none → f w r = w
  file : ∀ w r, skip r = false → (g w).get? (key r) = none →
    g (f w r) = (g w).put r ∧ (f w r).history = w.history ++ (event r).toList

/-- Whether a record is filed. -/
def isFiled {α : Type} {key : α → Id} (t : Keyed key) (skip : α → Bool) (r : α) : Bool :=
  !skip r && (t.get? (key r)).isNone

theorem Promotes.foldl {α : Type} {key : α → Id} {g : Workspace → Keyed key}
    {event : α → Option Event} {skip : α → Bool} {f : Workspace → α → Workspace}
    (hf : Promotes g event skip f) (rs : List α) (hnodup : (rs.map key).Nodup) (w : Workspace) :
    (∀ k, (g (rs.foldl f w)).get? k =
        ((g w).get? k).or (rs.find? fun r => decide (key r = k) && !skip r)) ∧
      (rs.foldl f w).history = w.history ++ (rs.filter (isFiled (g w) skip)).filterMap event := by
  induction rs generalizing w with
  | nil => simp
  | cons r rs ih =>
      obtain ⟨hnotin, hnodup⟩ := List.nodup_cons.mp hnodup
      obtain ⟨hget, hhistory⟩ := ih hnodup (f w r)
      by_cases hfiled : isFiled (g w) skip r = true
      · have hfacts := hfiled
        simp only [isFiled, Bool.and_eq_true, Bool.not_eq_true', Option.isNone_iff_eq_none]
          at hfacts
        obtain ⟨hput, happend⟩ := hf.file w r hfacts.1 hfacts.2
        -- The records after it have other keys.
        have hsame : rs.filter (isFiled (g (f w r)) skip) = rs.filter (isFiled (g w) skip) := by
          refine List.filter_congr fun r' hr' => ?_
          have hne : key r ≠ key r' := fun heq => hnotin (heq ▸ List.mem_map_of_mem hr')
          simp only [isFiled, hput, Keyed.get?_put_ne hne]
        constructor
        · intro k
          rw [List.foldl_cons, hget k, hput, Keyed.get?_put]
          by_cases hk : key r = k
          · subst hk
            simp [hfacts.1, hfacts.2]
          · simp [hk]
        · rw [List.foldl_cons, hhistory, happend, hsame, List.filter_cons_of_pos hfiled,
            List.append_assoc]
          cases hevent : event r <;> simp [hevent]
      · have hfacts := hfiled
        simp only [isFiled, Bool.and_eq_true, Bool.not_eq_true', Option.isNone_iff_eq_none,
          not_and_or] at hfacts
        have hkeep : f w r = w := by
          refine hf.keep w r (hfacts.imp (fun h => ?_) fun h => h)
          simpa using h
        rw [hkeep] at hget hhistory
        constructor
        · intro k
          rw [List.foldl_cons, hkeep, hget k]
          by_cases hk : key r = k
          · subst hk
            rcases hfacts with hskip | htaken
            · simp [hskip]
            · obtain ⟨r₀, hr₀⟩ := Option.ne_none_iff_exists'.mp htaken
              simp [hr₀]
          · simp [hk]
        · rw [List.foldl_cons, hkeep, hhistory, List.filter_cons_of_neg hfiled]

theorem promotes_participant :
    Promotes Workspace.participants (fun _ => none) (fun _ => false) promoteParticipant := by
  constructor
  · intro w r h
    rw [promoteParticipant, if_pos (h.resolve_left Bool.false_ne_true)]
  · intro w r _ h
    rw [promoteParticipant, if_neg (not_not.mpr h)]
    exact ⟨rfl, by simp [Workspace.history]⟩

/-- The event of a promoted session. -/
def promotionEvent (now : Timestamp) (workspaceId : Id) (r : Session) : Event :=
  ⟨workspaceId, r.sessionId, now, .sessionPromoted r.sessionId⟩

theorem promotes_session {now : Timestamp} {workspaceId : Id} {own : Option Session} :
    Promotes Workspace.sessions (fun r => some (promotionEvent now workspaceId r))
      (fun r => decide (own = some r)) (promoteSession now workspaceId own) := by
  constructor
  · intro w r h
    rw [promoteSession, if_pos (by simpa using h)]
  · intro w r hskip h
    rw [promoteSession, if_neg (by simpa [h] using hskip)]
    exact ⟨rfl, Workspace.history_append⟩

/-- The event of a promoted intent. -/
def intentEvent (now : Timestamp) (workspaceId : Id) (r : Intent) : Event :=
  ⟨workspaceId, r.sessionId, now, .intentPromoted r.sessionId⟩

theorem promotes_intent {now : Timestamp} {workspaceId : Id} :
    Promotes Workspace.intents (fun r => some (intentEvent now workspaceId r)) (fun _ => false)
      (promoteIntent now workspaceId) := by
  constructor
  · intro w r h
    rw [promoteIntent, if_pos (h.resolve_left Bool.false_ne_true)]
  · intro w r _ h
    rw [promoteIntent, if_neg (not_not.mpr h)]
    exact ⟨rfl, Workspace.history_append⟩

/-! ## The whole transaction -/

omit [LinearOrder ReceiptId] in
@[simp] theorem filter_all {α : Type} (o : Option α) : o.filter (fun _ => true) = o := by
  cases o <;> rfl

theorem get?_promoteParticipant {r : Participant} {k : Id} :
    (promoteParticipant w r).participants.get? k =
      (w.participants.get? k).or ((some r).filter fun p => p.participantId = k) := by
  have h := (promotes_participant.foldl [r] (List.nodup_singleton _) w).1 k
  rw [List.foldl_cons, List.foldl_nil] at h
  rw [h]
  by_cases hk : r.participantId = k <;> simp [hk, Option.filter]

/-- The ephemeral record that an opening session replaces. -/
def ownCopy (w : Workspace) (opening : Option Opening) : Option Session :=
  opening.bind fun o => w.ephemeral.sessions.get? o.session.sessionId

/-- The events of a materialising transaction. -/
def materialiseEvents (w : Workspace) (now : Timestamp) (workspaceId : Id) (reason : String)
    (opening : Option Opening) : List Event :=
  (if isMaterialised w workspaceId then [] else
    [⟨workspaceId, (w.ephemeral.sessions.list.getLast?.map Session.sessionId).getD
      ⟨"session_bootstrap", bootstrap_portable⟩, now, .workspaceMaterialised reason⟩])
  ++ (w.ephemeral.sessions.list.filter
      (isFiled w.sessions fun r => decide (ownCopy w opening = some r))).map
      (promotionEvent now workspaceId)
  ++ (w.ephemeral.intents.list.filter (isFiled w.intents fun _ => false)).map
      (intentEvent now workspaceId)
  ++ (opening.map fun o => (⟨o.session.workspaceId, o.session.sessionId, now,
      .sessionOpened (((w.sessions.get? o.session.sessionId).or (ownCopy w opening)).map
        Session.generation)⟩ : Event)).toList

/-- What the transaction that materialises makes of a workspace. -/
structure Promoted (w : Workspace) (now : Timestamp) (home : Id) (reason : String)
    (opening : Option Opening) (w' : Workspace) : Prop where
  workspaceId : w'.workspaceId = w.workspaceId
  ephemeral : w'.ephemeral = w.ephemeral
  claims : w'.claims = w.claims
  materialised : ∀ k, isMaterialised w' k = (isMaterialised w k || decide (home = k))
  participants : ∀ k, w'.participants.get? k =
    ((w.participants.get? k).or (w.ephemeral.participants.get? k)).or
      ((opening.map Opening.participant).filter fun p => p.participantId = k)
  sessions : ∀ k, w'.sessions.get? k =
    ((opening.map Opening.session).filter fun s => s.sessionId = k).or
      ((w.sessions.get? k).or (w.ephemeral.sessions.get? k))
  intents : ∀ k, w'.intents.get? k = (w.intents.get? k).or (w.ephemeral.intents.get? k)
  history : w'.history = w.history ++ materialiseEvents w now home reason opening

/-- The workspace record is put once. -/
theorem materialiseRecord_eq_ok {now : Timestamp} {workspaceId : Id}
    {descriptor : Option Descriptor} {reason : String}
    (h : materialiseRecord w now workspaceId descriptor reason = .ok w') :
    w'.workspaceId = w.workspaceId ∧ w'.ephemeral = w.ephemeral ∧ w'.claims = w.claims ∧
      w'.participants = w.participants ∧ w'.sessions = w.sessions ∧ w'.intents = w.intents ∧
      (∀ k, isMaterialised w' k = (isMaterialised w k || decide (workspaceId = k))) ∧
      w'.history = w.history ++ (if isMaterialised w workspaceId then [] else
        [⟨workspaceId, (w.ephemeral.sessions.list.getLast?.map Session.sessionId).getD
          ⟨"session_bootstrap", bootstrap_portable⟩, now, .workspaceMaterialised reason⟩]) := by
  rw [materialiseRecord] at h
  split at h
  next hdone =>
    cases h
    refine ⟨rfl, rfl, rfl, rfl, rfl, rfl, fun k => ?_, by simp [hdone]⟩
    by_cases hk : workspaceId = k
    · subst hk
      simp [hdone]
    · simp [hk]
  next hnew =>
    simp only [bind_eq_ok, pure_eq_ok] at h
    obtain ⟨_, _, rfl⟩ := h
    refine ⟨rfl, rfl, rfl, rfl, rfl, rfl, fun k => ?_, ?_⟩
    · simp only [isMaterialised, Workspace.append, Workspace.putWorkspace, Keyed.get?_put]
      by_cases hk : workspaceId = k
      · simp [hk]
      · simp [hk]
    · rw [Workspace.history_append, if_neg hnew]
      rfl

section

variable {β : Type} {g : Workspace → β} {now : Timestamp} {home : Id} {own : Option Session}

theorem promoteParticipant_other (hparticipant : ∀ w r, g (w.putParticipant r) = g w)
    (w : Workspace) (r : Participant) : g (promoteParticipant w r) = g w := by
  rw [promoteParticipant]
  split
  · rfl
  · exact hparticipant w r

theorem promoteSession_other (hsession : ∀ w r, g (w.putSession r) = g w)
    (hevent : ∀ w e, g (w.append e) = g w) (w : Workspace) (r : Session) :
    g (promoteSession now home own w r) = g w := by
  rw [promoteSession]
  split
  · rfl
  · rw [hevent, hsession]

theorem promoteIntent_other (hintent : ∀ w r, g (w.putIntent r) = g w)
    (hevent : ∀ w e, g (w.append e) = g w) (w : Workspace) (r : Intent) :
    g (promoteIntent now home w r) = g w := by
  rw [promoteIntent]
  split
  · rfl
  · rw [hevent, hintent]

/-- Promoting leaves what is not about participants, sessions, intents and
events. -/
theorem promote_other {staged : Ephemeral} (hparticipant : ∀ w r, g (w.putParticipant r) = g w)
    (hsession : ∀ w r, g (w.putSession r) = g w) (hintent : ∀ w r, g (w.putIntent r) = g w)
    (hevent : ∀ w e, g (w.append e) = g w) : g (promote w now home staged own) = g w := by
  rw [promote, foldl_untouched (promoteIntent_other hintent hevent),
    foldl_untouched (promoteSession_other hsession hevent),
    foldl_untouched (promoteParticipant_other hparticipant)]

end

/-- Promoting adds the copies whose keys are free, and their events. -/
theorem promote_eq {now : Timestamp} {home : Id} {own : Option Session} {staged : Ephemeral} :
    (∀ k, (promote w now home staged own).participants.get? k =
        (w.participants.get? k).or (staged.participants.get? k)) ∧
      (∀ k, (promote w now home staged own).sessions.get? k =
        (w.sessions.get? k).or ((staged.sessions.get? k).filter fun r => !decide (own = some r))) ∧
      (∀ k, (promote w now home staged own).intents.get? k =
        (w.intents.get? k).or (staged.intents.get? k)) ∧
      (promote w now home staged own).history = w.history
        ++ (staged.sessions.list.filter
            (isFiled w.sessions fun r => decide (own = some r))).map (promotionEvent now home)
        ++ (staged.intents.list.filter (isFiled w.intents fun _ => false)).map
            (intentEvent now home) := by
  have hfold₁ := promotes_participant.foldl staged.participants.list staged.participants.keys_nodup w
  rw [promote]
  generalize hw₁ : staged.participants.list.foldl promoteParticipant w = w₁ at hfold₁ ⊢
  have hfold₂ := (@promotes_session _ now home own).foldl
    staged.sessions.list staged.sessions.keys_nodup w₁
  generalize hw₂ : staged.sessions.list.foldl (promoteSession now home own) w₁ = w₂ at hfold₂ ⊢
  have hfold₃ := (@promotes_intent _ now home).foldl
    staged.intents.list staged.intents.keys_nodup w₂
  have hsessions₁ : w₁.sessions = w.sessions := by
    rw [← hw₁]
    exact foldl_untouched (promoteParticipant_other fun _ _ => rfl) _ _
  have hintents₁ : w₁.intents = w.intents := by
    rw [← hw₁]
    exact foldl_untouched (promoteParticipant_other fun _ _ => rfl) _ _
  have hparticipants₂ : w₂.participants = w₁.participants := by
    rw [← hw₂]
    exact foldl_untouched (promoteSession_other (fun _ _ => rfl) fun _ _ => rfl) _ _
  have hintents₂ : w₂.intents = w₁.intents := by
    rw [← hw₂]
    exact foldl_untouched (promoteSession_other (fun _ _ => rfl) fun _ _ => rfl) _ _
  refine ⟨fun k => ?_, fun k => ?_, fun k => ?_, ?_⟩
  · rw [foldl_untouched (g := Workspace.participants)
      (promoteIntent_other (fun _ _ => rfl) fun _ _ => rfl), hparticipants₂, hfold₁.1]
    simp only [Keyed.find?_list, Bool.not_false, filter_all]
  · rw [foldl_untouched (g := Workspace.sessions)
      (promoteIntent_other (fun _ _ => rfl) fun _ _ => rfl), hfold₂.1, hsessions₁]
    simp only [Keyed.find?_list]
  · rw [hfold₃.1, hintents₂, hintents₁]
    simp only [Keyed.find?_list, Bool.not_false, filter_all]
  · rw [hfold₃.2, hfold₂.2, hfold₁.2, hintents₂, hintents₁, hsessions₁]
    simp

/-- The transaction that materialises, when it is not called off. -/
theorem materialiseTransaction_eq_ok {ports : Ports} {home : Id} {descriptor : Option Descriptor}
    {reason : String} {opening : Option Opening}
    (h : materialiseTransaction w ports home descriptor reason opening = .ok (w', true)) :
    Promoted w ports.now home reason opening w' := by
  have h := Workspace.transaction_eq_ok h
  dsimp only at h
  split at h
  next =>
    simp only [bind_eq_ok, pure_eq_ok, Prod.mk.injEq, and_true] at h
    obtain ⟨w₁, hrecord, w₂, hjoin, rfl⟩ := h
    obtain ⟨hid, hephemeral, hclaims, hparticipants, hsessions, hintents, hmaterialised,
      hhistory⟩ := materialiseRecord_eq_ok hrecord
    rw [show (opening.bind fun o => w.ephemeral.sessions.get? o.session.sessionId) =
      ownCopy w opening from rfl] at hjoin
    obtain ⟨hp, hs, hi, hevents⟩ := @promote_eq _ w₁ ports.now home (ownCopy w opening) w.ephemeral
    have hid₂ : (promote w₁ ports.now home w.ephemeral (ownCopy w opening)).workspaceId =
        w.workspaceId := (promote_other (fun _ _ => rfl) (fun _ _ => rfl) (fun _ _ => rfl)
          fun _ _ => rfl).trans hid
    have hephemeral₂ : (promote w₁ ports.now home w.ephemeral (ownCopy w opening)).ephemeral =
        w.ephemeral := (promote_other (fun _ _ => rfl) (fun _ _ => rfl) (fun _ _ => rfl)
          fun _ _ => rfl).trans hephemeral
    have hclaims₂ : (promote w₁ ports.now home w.ephemeral (ownCopy w opening)).claims =
        w.claims := (promote_other (fun _ _ => rfl) (fun _ _ => rfl) (fun _ _ => rfl)
          fun _ _ => rfl).trans hclaims
    have hworkspaces₂ : (promote w₁ ports.now home w.ephemeral (ownCopy w opening)).workspaces =
        w₁.workspaces := promote_other (fun _ _ => rfl) (fun _ _ => rfl) (fun _ _ => rfl)
          fun _ _ => rfl
    have hmaterialised₂ : ∀ k, isMaterialised
        (promote w₁ ports.now home w.ephemeral (ownCopy w opening)) k =
          (isMaterialised w k || decide (home = k)) := by
      intro k
      rw [← hmaterialised k, isMaterialised, isMaterialised, hworkspaces₂]
    rw [hsessions, hhistory, hintents] at hevents
    generalize promote w₁ ports.now home w.ephemeral (ownCopy w opening) = w₃ at *
    cases opening with
    | none =>
        cases hjoin
        refine ⟨hid₂, hephemeral₂, hclaims₂, hmaterialised₂, fun k => ?_, fun k => ?_, fun k => ?_,
          ?_⟩
        · rw [hp, hparticipants]
          simp
        · rw [hs, hsessions]
          simp [ownCopy]
        · rw [hi, hintents]
        · rw [hevents, materialiseEvents]
          simp
    | some o =>
        simp only [joinIn, bind_eq_ok, pure_eq_ok] at hjoin
        obtain ⟨_, _, rfl⟩ := hjoin
        refine ⟨?_, ?_, ?_, fun k => ?_, fun k => ?_, fun k => ?_, fun k => ?_, ?_⟩
        · exact (promoteParticipant_other (fun _ _ => rfl) w₃ o.participant).trans hid₂
        · exact (promoteParticipant_other (fun _ _ => rfl) w₃ o.participant).trans hephemeral₂
        · exact (promoteParticipant_other (fun _ _ => rfl) w₃ o.participant).trans hclaims₂
        · rw [← hmaterialised₂ k]
          exact promoteParticipant_other (g := fun w => isMaterialised w k) (fun _ _ => rfl) w₃ _
        · rw [show (openIn w₃ ports.now o.participant o.session _).participants =
            (promoteParticipant w₃ o.participant).participants from rfl, get?_promoteParticipant,
            hp, hparticipants]
          rfl
        · rw [show (openIn w₃ ports.now o.participant o.session _).sessions =
            (promoteParticipant w₃ o.participant).sessions.put o.session from rfl,
            promoteParticipant_other (g := Workspace.sessions) fun _ _ => rfl, Keyed.get?_put]
          by_cases hk : o.session.sessionId = k
          · simp [hk, Option.filter]
          · rw [if_neg hk, hs, hsessions]
            simp only [Option.map_some, Option.filter, hk, decide_false, Bool.false_eq_true,
              if_false, Option.none_or]
            congr 1
            cases hcopy : w.ephemeral.sessions.get? k with
            | none => rfl
            | some r =>
                -- The copy of another session is not the one that is replaced.
                have hne : ownCopy w (some o) ≠ some r := by
                  intro hown
                  have hid := Keyed.key_of_get? (show w.ephemeral.sessions.get? o.session.sessionId =
                    some r from hown)
                  exact hk (hid.symm.trans (Keyed.key_of_get? hcopy))
                simp [hne]
        · rw [show (openIn w₃ ports.now o.participant o.session _).intents =
            (promoteParticipant w₃ o.participant).intents from rfl,
            promoteParticipant_other (g := Workspace.intents) fun _ _ => rfl, hi, hintents]
        · have hcurrent : (w₃.sessions.get? o.session.sessionId).or (ownCopy w (some o)) =
              (w.sessions.get? o.session.sessionId).or (ownCopy w (some o)) := by
            rw [hs, hsessions]
            cases w.sessions.get? o.session.sessionId with
            | some r => rfl
            | none =>
                simp only [Option.none_or]
                cases hcopy : w.ephemeral.sessions.get? o.session.sessionId with
                | none => rfl
                | some r => simp [ownCopy, hcopy, Option.filter]
          rw [openIn, Workspace.history_append, hcurrent, show
            ((promoteParticipant w₃ o.participant).putSession o.session).history =
              (promoteParticipant w₃ o.participant).history from rfl,
            promoteParticipant_other (g := Workspace.history) fun _ _ => rfl, hevents,
            materialiseEvents]
          simp
  next => simp at h

end

end Acc.Core
