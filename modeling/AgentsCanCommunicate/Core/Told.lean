import AgentsCanCommunicate.Core.Keeping

/-!
# What the deeds tell

The history of deeds tells under which record a session is open, and what the
session last said of its intent.  While a workspace is lone the ephemeral area
has exactly that, and nothing durable is there (`Lone`).  Once it has
materialised the durable records have it, and each ephemeral copy that is left
stands behind a durable record (`Filed`).  Without prune every act keeps this
(`Act.held`).
-/

namespace Acc.Core

open Library (Keyed Process)

/-! ## Deeds -/

/-- The record under which a session is open. -/
def told (i : Id) : List Deed → Option Session
  | [] => none
  | .opened r :: deeds | .updated r :: deeds => if r.sessionId = i then some r else told i deeds
  | .closed r :: deeds | .closedAlone r :: deeds => if r.sessionId = i then none else told i deeds
  | .intended _ _ :: deeds | .cleared _ :: deeds => told i deeds

/-- What a session said of its intent since it opened: nothing, an intent, or
that there is none. -/
def said (i : Id) : List Deed → Option (Option Intent)
  | [] => none
  | .opened r :: deeds => if r.sessionId = i then none else said i deeds
  | .intended _ r :: deeds => if r.sessionId = i then some (some r) else said i deeds
  | .cleared j :: deeds => if j = i then some none else said i deeds
  | .updated _ :: deeds | .closed _ :: deeds | .closedAlone _ :: deeds => said i deeds

/-- The deed of a session that opens in a materialising transaction. -/
def openingDeeds (opening : Option Opening) : List Deed :=
  (opening.map fun o => Deed.opened o.session).toList

@[simp] theorem told_openingDeeds {i : Id} {opening : Option Opening} {deeds : List Deed} :
    told i (openingDeeds opening ++ deeds) =
      ((opening.map Opening.session).filter fun s => s.sessionId = i).or (told i deeds) := by
  cases opening with
  | none => rfl
  | some o =>
      rw [openingDeeds, Option.map_some, Option.map_some, Option.toList_some, List.cons_append,
        List.nil_append, told, Option.filter_some]
      by_cases hi : o.session.sessionId = i <;> simp [hi]

theorem said_openingDeeds {i : Id} {opening : Option Opening} {deeds : List Deed}
    {x : Option Intent} (h : said i (openingDeeds opening ++ deeds) = some x) :
    said i deeds = some x ∧ (opening.map Opening.session).filter (fun s => s.sessionId = i) = none := by
  cases opening with
  | none => exact ⟨h, rfl⟩
  | some o =>
      rw [openingDeeds, Option.map_some, Option.toList_some, List.cons_append, List.nil_append,
        said] at h
      by_cases hi : o.session.sessionId = i
      · rw [if_pos hi] at h
        cases h
      · rw [if_neg hi] at h
        exact ⟨h, by simp [hi]⟩

theorem or_eq_left {α : Type} {o o' : Option α} (h : o' ≠ none → o ≠ none) : o.or o' = o := by
  cases o with
  | some a => rfl
  | none =>
      cases o' with
      | none => rfl
      | some a => exact absurd rfl (h (Option.some_ne_none a))

theorem filter_of_forall {α : Type} {o : Option α} {p : α → Bool}
    (h : ∀ a, o = some a → p a = true) : o.filter p = o := by
  cases o with
  | none => rfl
  | some a => rw [Option.filter_some, if_pos (h a rfl)]

section

variable [LinearOrder ReceiptId]

variable {s s' : Shared} {tag : Tag} {pruning : Prop}

/-! ## A lone workspace and a filed one -/

/-- Nothing durable is there, and the ephemeral area has what the deeds tell. -/
structure Lone (s : Shared) : Prop where
  bare : Bare s.workspace
  participants : ∀ i, s.workspace.participants.get? i = none
  intents : ∀ i, s.workspace.intents.get? i = none
  history : s.workspace.history = []
  told : ∀ i, s.workspace.ephemeral.sessions.get? i = told i s.history
  said : ∀ i x, Core.told i s.history ≠ none → said i s.history = some x →
    s.workspace.ephemeral.intents.get? i = x

/-- What the durable intents show of what a session said. -/
def Reflects (intent : Option Intent) : Option Intent → Prop
  | some r => intent = some r
  | none => ∀ r, intent = some r → r.state = .done

/-- A copy is left only of what has a durable record, and the durable records
have what the deeds tell. -/
structure Filed (s : Shared) : Prop where
  copies : ∀ copy ∈ s.workspace.ephemeral.copies, HasDurable s.workspace copy
  told : ∀ i, told i s.history = (s.workspace.sessions.get? i).filter fun c => c.state = .opened
  said : ∀ i x, Core.told i s.history ≠ none → said i s.history = some x →
    Reflects (s.workspace.intents.get? i) x

structure Held (s : Shared) : Prop where
  isOpen : ∀ i c, told i s.history = some c → c.state = .opened
  lone : ¬Materialised s.workspace → Lone s
  filed : Materialised s.workspace → Filed s

/-! ## Acts in a lone workspace -/

section

variable {w w' : Workspace} {b b' : Keyed DeliveryBinding.sessionId} {h h' : List Deed}

/-- A write of the ephemeral area that keeps to what the deeds tell. -/
theorem Lone.setEphemeral {e : Ephemeral} (hs : Lone ⟨w, b, h⟩)
    (htold : ∀ i, e.sessions.get? i = Core.told i h')
    (hsaid : ∀ i x, Core.told i h' ≠ none → Core.said i h' = some x → e.intents.get? i = x) :
    Lone ⟨w.setEphemeral e, b, h'⟩ :=
  ⟨⟨hs.bare.sessions, hs.bare.claims, hs.bare.receipts⟩, hs.participants, hs.intents, hs.history,
    htold, hsaid⟩

theorem Lone.putSession {r : Session} {deed : Deed} (hs : Lone ⟨w, b, h⟩)
    (htold : ∀ i, Core.told i (deed :: h) = if r.sessionId = i then some r else Core.told i h)
    (hsaid : ∀ i x, Core.said i (deed :: h) = some x → Core.told i (deed :: h) ≠ none →
      Core.told i h ≠ none ∧ Core.said i h = some x) :
    Lone ⟨w.setEphemeral { w.ephemeral with sessions := w.ephemeral.sessions.put r }, b,
      deed :: h⟩ := by
  refine hs.setEphemeral (fun i => ?_) fun i x hi hx => ?_
  · rw [Keyed.get?_put, htold]
    split
    · rfl
    · exact hs.told i
  · obtain ⟨hi, hx⟩ := hsaid i x hx hi
    exact hs.said i x hi hx

theorem Lone.openAlone {r : Session} (hs : Lone ⟨w, b, h⟩) :
    Lone ⟨w.setEphemeral { w.ephemeral with sessions := w.ephemeral.sessions.put r }, b,
      .opened r :: h⟩ := by
  refine hs.putSession (fun i => rfl) fun i x hx hi => ?_
  rw [Core.said] at hx
  rw [Core.told] at hi
  split at hx
  next => cases hx
  next hne =>
    rw [if_neg hne] at hi
    exact ⟨hi, hx⟩

theorem Lone.updateAlone {c r : Session} (hs : Lone ⟨w, b, h⟩)
    (hget : w.ephemeral.sessions.get? c.sessionId = some c) (hsame : SameLife c r) :
    Lone ⟨w.setEphemeral { w.ephemeral with sessions := w.ephemeral.sessions.put r }, b,
      .updated r :: h⟩ := by
  refine hs.putSession (fun i => rfl) fun i x hx hi => ⟨?_, hx⟩
  rw [Core.told] at hi
  split at hi
  next heq =>
    rw [← heq, hsame.sessionId, ← hs.told, hget]
    exact Option.some_ne_none c
  next => exact hi

theorem Lone.closeAlone {c r : Session} (hs : Lone ⟨w, b, h⟩) (hsame : SameLife c r) :
    Lone ⟨w.setEphemeral { w.ephemeral with
      sessions := w.ephemeral.sessions.remove c.sessionId }, b, .closedAlone r :: h⟩ := by
  refine hs.setEphemeral (fun i => ?_) fun i x hi hx => ?_
  · rw [Keyed.get?_remove, Core.told, hsame.sessionId]
    by_cases hi : c.sessionId = i
    · rw [if_pos hi.symm, if_pos hi]
    · rw [if_neg hi, if_neg fun heq => hi heq.symm]
      exact hs.told i
  · rw [Core.told] at hi
    split at hi
    next => exact absurd rfl hi
    next => exact hs.said i x hi hx

/-- The intent of a session that is gone goes. -/
theorem Lone.cleanup {i : Id} (hs : Lone ⟨w, b, h⟩)
    (hgone : w.ephemeral.sessions.get? i = none) :
    Lone ⟨w.setEphemeral { w.ephemeral with intents := w.ephemeral.intents.remove i }, b, h⟩ := by
  refine hs.setEphemeral hs.told fun j x hj hx => ?_
  rw [Keyed.get?_remove]
  split
  next heq =>
    rw [heq, ← hs.told] at hj
    exact absurd hgone hj
  next => exact hs.said j x hj hx

theorem Lone.intendAlone {generation : Id} {r : Intent} (hs : Lone ⟨w, b, h⟩) :
    Lone ⟨w.setEphemeral { w.ephemeral with intents := w.ephemeral.intents.put r }, b,
      .intended generation r :: h⟩ := by
  refine hs.setEphemeral hs.told fun i x hi hx => ?_
  rw [Core.said] at hx
  rw [Keyed.get?_put]
  split at hx
  next heq =>
    rw [if_pos heq]
    exact Option.some.inj hx
  next hne =>
    rw [if_neg hne]
    exact hs.said i x hi hx

theorem Lone.clearAlone {i : Id} (hs : Lone ⟨w, b, h⟩) :
    Lone ⟨w.setEphemeral { w.ephemeral with intents := w.ephemeral.intents.remove i }, b,
      .cleared i :: h⟩ := by
  refine hs.setEphemeral hs.told fun j x hj hx => ?_
  rw [Core.said] at hx
  rw [Keyed.get?_remove]
  split at hx
  next heq =>
    rw [if_pos heq.symm]
    exact Option.some.inj hx
  next hne =>
    rw [if_neg fun heq => hne heq.symm]
    exact hs.said j x hj hx

/-- Materialising makes the ephemeral records durable. -/
theorem Lone.materialise {now : Timestamp} {reason : String} {opening : Option Opening}
    (hs : Lone ⟨w, b, h⟩) (hopen : ∀ i c, Core.told i h = some c → c.state = .opened)
    (hfits : ∀ o, opening = some o → o.Fits w)
    (hp : Promoted w now w.workspaceId reason opening w') :
    Filed ⟨w', b, openingDeeds opening ++ h⟩ := by
  have hsessions : ∀ i, w'.sessions.get? i =
      ((opening.map Opening.session).filter fun s => s.sessionId = i).or (Core.told i h) := by
    intro i
    rw [hp.sessions, hs.bare.sessions, Option.none_or, hs.told]
  refine ⟨fun copy hcopy => ?_, fun i => ?_, fun i x hi hx => ?_⟩
  · rw [hp.ephemeral] at hcopy
    exact hp.hasDurable hcopy
  · rw [told_openingDeeds, hsessions]
    refine (filter_of_forall fun c hc => ?_).symm
    rw [decide_eq_true_eq]
    rcases Option.or_eq_some_iff.mp hc with hc | ⟨-, hc⟩
    · obtain ⟨o, ho, rfl⟩ := Option.map_eq_some_iff.mp (Option.filter_eq_some_iff.mp hc).1
      exact (hfits o ho).2.1
    · exact hopen i c hc
  · obtain ⟨hx, hnone⟩ := said_openingDeeds hx
    rw [told_openingDeeds, hnone, Option.none_or] at hi
    have hintent := hs.said i x hi hx
    rw [hp.intents, hs.intents, Option.none_or, hintent]
    cases x with
    | some r => rfl
    | none =>
        intro r hr
        cases hr

/-! ## Acts in a filed workspace -/

theorem filter_open {c : Session} (hopen : c.state = .opened) :
    (some c).filter (fun c => decide (c.state = .opened)) = some c := by
  rw [Option.filter_some, if_pos (decide_eq_true hopen)]

theorem filter_closed {c : Session} (hclosed : c.state = .closed) :
    (some c).filter (fun c => decide (c.state = .opened)) = none := by
  rw [Option.filter_some, if_neg]
  rw [hclosed]
  decide

/-- What is durable stays, and no copy is added. -/
theorem Filed.of (hs : Filed ⟨w, b, h⟩) (hgrows : Grows w w')
    (hcopies : ∀ copy ∈ w'.ephemeral.copies, copy ∈ w.ephemeral.copies)
    (htold : ∀ i, Core.told i h' = (w'.sessions.get? i).filter fun c => c.state = .opened)
    (hsaid : ∀ i x, Core.told i h' ≠ none → Core.said i h' = some x →
      Reflects (w'.intents.get? i) x) : Filed ⟨w', b', h'⟩ :=
  ⟨fun copy hcopy => hgrows.hasDurable (hs.copies copy (hcopies copy hcopy)), htold, hsaid⟩

/-- A record of an open session is filed. -/
theorem Filed.putOpen {r : Session} {deed : Deed} (hs : Filed ⟨w, b, h⟩) (hgrows : Grows w w')
    (hephemeral : w'.ephemeral = w.ephemeral) (hsessions : w'.sessions = w.sessions.put r)
    (hintents : w'.intents = w.intents) (hopen : r.state = .opened)
    (htold : ∀ i, Core.told i (deed :: h) = if r.sessionId = i then some r else Core.told i h)
    (hsaid : ∀ i x, Core.said i (deed :: h) = some x → Core.told i (deed :: h) ≠ none →
      Core.told i h ≠ none ∧ Core.said i h = some x) : Filed ⟨w', b, deed :: h⟩ := by
  refine hs.of hgrows (fun copy hcopy => hephemeral ▸ hcopy) (fun i => ?_) fun i x hi hx => ?_
  · rw [htold, hsessions, Keyed.get?_put]
    split
    · rw [filter_open hopen]
    · exact hs.told i
  · obtain ⟨hi, hx⟩ := hsaid i x hx hi
    rw [hintents]
    exact hs.said i x hi hx

/-- The record of a session that ends is filed. -/
theorem Filed.putClosed {r : Session} (hs : Filed ⟨w, b, h⟩) (hgrows : Grows w w')
    (hephemeral : w'.ephemeral = w.ephemeral) (hsessions : w'.sessions = w.sessions.put r)
    (hintents : w'.intents = w.intents) (hclosed : r.state = .closed) :
    Filed ⟨w', b, .closed r :: h⟩ := by
  refine hs.of hgrows (fun copy hcopy => hephemeral ▸ hcopy) (fun i => ?_) fun i x hi hx => ?_
  · rw [Core.told, hsessions, Keyed.get?_put]
    split
    · rw [filter_closed hclosed]
    · exact hs.told i
  · rw [Core.told] at hi
    split at hi
    next => exact absurd rfl hi
    next =>
      rw [hintents]
      exact hs.said i x hi hx

theorem Filed.updateDurable {c r : Session} (hs : Filed ⟨w, b, h⟩)
    (hgrows : Grows w (w.putSession r)) (hget : w.sessions.get? c.sessionId = some c)
    (hwasOpen : c.state = .opened) (hsame : SameLife c r) (hopen : r.state = .opened) :
    Filed ⟨w.putSession r, b, .updated r :: h⟩ := by
  refine hs.putOpen hgrows rfl rfl rfl hopen (fun i => rfl) fun i x hx hi => ⟨?_, hx⟩
  rw [Core.told] at hi
  split at hi
  next heq =>
    rw [← heq, hsame.sessionId, hs.told, hget, filter_open hwasOpen]
    exact Option.some_ne_none c
  next => exact hi

theorem Filed.openDurable {now : Timestamp} {p : Participant} {r : Session}
    {replaced : Option Session} (hs : Filed ⟨w, b, h⟩)
    (hgrows : Grows w (openIn w now p r replaced)) (hopen : r.state = .opened) :
    Filed ⟨openIn w now p r replaced, b, .opened r :: h⟩ := by
  refine hs.putOpen hgrows openIn_ephemeral openIn_sessions openIn_intents hopen (fun i => rfl)
    fun i x hx hi => ?_
  rw [Core.said] at hx
  rw [Core.told] at hi
  split at hx
  next => cases hx
  next hne =>
    rw [if_neg hne] at hi
    exact ⟨hi, hx⟩

/-- Materialising again adds no more than the session that opens with it. -/
theorem Filed.materialise {now : Timestamp} {reason : String} {opening : Option Opening}
    (hs : Filed ⟨w, b, h⟩) (hgrows : Grows w w') (hfits : ∀ o, opening = some o → o.Fits w)
    (hp : Promoted w now w.workspaceId reason opening w') :
    Filed ⟨w', b, openingDeeds opening ++ h⟩ := by
  have hsession : ∀ i, w.ephemeral.sessions.get? i ≠ none → w.sessions.get? i ≠ none :=
    fun i hi => hs.copies (.session i) (mem_copies.mpr hi)
  have hintent : ∀ i, w.ephemeral.intents.get? i ≠ none → w.intents.get? i ≠ none :=
    fun i hi => hs.copies (.intent i) (mem_copies.mpr hi)
  refine hs.of hgrows (fun copy hcopy => hp.ephemeral ▸ hcopy) (fun i => ?_) fun i x hi hx => ?_
  · rw [told_openingDeeds, hp.sessions, or_eq_left (hsession i), hs.told]
    cases hopened : (opening.map Opening.session).filter fun s => s.sessionId = i with
    | none => rfl
    | some c =>
        obtain ⟨o, ho, rfl⟩ := Option.map_eq_some_iff.mp (Option.filter_eq_some_iff.mp hopened).1
        rw [Option.some_or, Option.some_or, filter_open (hfits o ho).2.1]
  · obtain ⟨hx, hnone⟩ := said_openingDeeds hx
    rw [told_openingDeeds, hnone, Option.none_or] at hi
    rw [hp.intents, or_eq_left (hintent i)]
    exact hs.said i x hi hx

/-- The intent of a session is written again. -/
theorem Filed.putIntent {r : Intent} {e : Event} {deed : Deed} {y : Option Intent}
    (hs : Filed ⟨w, b, h⟩) (hgrows : Grows w ((w.putIntent r).append e))
    (htold : ∀ i, Core.told i (deed :: h) = Core.told i h)
    (hsaid : ∀ i, Core.said i (deed :: h) = if r.sessionId = i then some y else Core.said i h)
    (hreflects : Reflects (some r) y) : Filed ⟨(w.putIntent r).append e, b, deed :: h⟩ := by
  refine hs.of hgrows (fun copy hcopy => hcopy) (fun i => (htold i).trans (hs.told i))
    fun i x hi hx => ?_
  rw [htold] at hi
  rw [hsaid] at hx
  rw [Workspace.append_intents, Workspace.putIntent_intents, Keyed.get?_put]
  split at hx
  next heq =>
    rw [if_pos heq, ← Option.some.inj hx]
    exact hreflects
  next hne =>
    rw [if_neg hne]
    exact hs.said i x hi hx

/-! ## Acts -/

/-- A session that is told open is open, after every act. -/
theorem Act.isOpen (hact : Act pruning tag s s')
    (hs : ∀ i c, Core.told i s.history = some c → c.state = .opened) :
    ∀ i c, Core.told i s'.history = some c → c.state = .opened := by
  have hput : ∀ {h : List Deed} {deed : Deed} {r : Session},
      (∀ i c, Core.told i h = some c → c.state = .opened) → r.state = .opened →
      (∀ i, Core.told i (deed :: h) = if r.sessionId = i then some r else Core.told i h) →
      ∀ i c, Core.told i (deed :: h) = some c → c.state = .opened := by
    intro h deed r hh hopen htold i c hc
    rw [htold] at hc
    split at hc
    · cases hc
      exact hopen
    · exact hh i c hc
  have hclose : ∀ {h : List Deed} {deed : Deed} {r : Session},
      (∀ i c, Core.told i h = some c → c.state = .opened) →
      (∀ i, Core.told i (deed :: h) = if r.sessionId = i then none else Core.told i h) →
      ∀ i c, Core.told i (deed :: h) = some c → c.state = .opened := by
    intro h deed r hh htold i c hc
    rw [htold] at hc
    split at hc
    · cases hc
    · exact hh i c hc
  cases hact with
  | openAlone _ _ hopen => exact hput hs hopen fun _ => rfl
  | updateAlone _ _ _ _ hopen => exact hput hs hopen fun _ => rfl
  | updateDurable _ _ _ hopen => exact hput hs hopen fun _ => rfl
  | openDurable _ _ hopen => exact hput hs hopen fun _ => rfl
  | closeAlone | close | finish => exact hclose hs fun _ => rfl
  | @materialise holder w w' b h now reason opening hfits hp =>
      intro i c hc
      rw [show Shared.history _ = openingDeeds opening ++ h from rfl, told_openingDeeds] at hc
      rcases Option.or_eq_some_iff.mp hc with hc | ⟨-, hc⟩
      · obtain ⟨o, ho, rfl⟩ := Option.map_eq_some_iff.mp (Option.filter_eq_some_iff.mp hc).1
        exact (hfits o ho).2.1
      · exact hs i c hc
  | _ => exact hs

/-- Without prune every act keeps what is told. -/
theorem Act.held (hact : Act pruning tag s s') (hpruning : ¬pruning) (hs : Held s) : Held s' := by
  have hgrows := hact.grows hpruning
  have hmaterialised := hact.materialised
  refine ⟨hact.isOpen hs.isOpen, fun hmat => ?_, fun hmat => ?_⟩
  · have hlone := hs.lone fun h => hmat (hmaterialised h)
    cases hact with
    | idle => exact hlone
    | aside _ hbare =>
        rw [hbare hlone.bare]
        exact ⟨hlone.bare, hlone.participants, hlone.intents, hlone.history, hlone.told,
          hlone.said⟩
    | prepare => exact hlone.setEphemeral hlone.told hlone.said
    | openAlone => exact hlone.openAlone
    | updateAlone _ hget _ hsame => exact hlone.updateAlone hget hsame
    | closeAlone _ _ hsame => exact hlone.closeAlone hsame
    | cleanup hgone => exact hlone.cleanup hgone
    | intendAlone => exact hlone.intendAlone
    | clearAlone => exact hlone.clearAlone
    | openDurable h | retire h => exact absurd h fun h => hmat (hmaterialised h)
    | materialise _ hp => exact absurd hp.isMaterialised hmat
    | updateDurable hget | close hget | intend hget | clear hget | finish _ hget =>
        exact hlone.bare.absurd hget
    | prune h => exact absurd h hpruning
  · by_cases hbefore : Materialised s.workspace
    · have hfiled := hs.filed hbefore
      cases hact with
      | idle => exact hfiled
      | aside haside =>
          refine hfiled.of hgrows (fun copy hcopy => haside.ephemeral ▸ hcopy) (fun i => ?_)
            fun i x hi hx => ?_
          · rw [haside.sessions]
            exact hfiled.told i
          · rw [haside.intents]
            exact hfiled.said i x hi hx
      | prepare h | openAlone h | updateAlone h | closeAlone h | intendAlone h | clearAlone h =>
          exact absurd hbefore h
      | updateDurable hget hwasOpen hsame hopen =>
          exact hfiled.updateDurable hgrows hget hwasOpen hsame hopen
      | cleanup =>
          refine hfiled.of hgrows (fun copy hcopy => ?_) hfiled.told hfiled.said
          exact @mem_copies_delete _ _ (.intent _) hcopy
      | close _ _ hclosed => exact hfiled.putClosed hgrows rfl rfl rfl hclosed
      | finish haside _ _ _ hclosed =>
          refine hfiled.putClosed hgrows haside.ephemeral ?_ haside.intents hclosed
          rw [Workspace.append_sessions, Workspace.putSession_sessions, haside.sessions]
      | openDurable _ _ hopen => exact hfiled.openDurable hgrows hopen
      | materialise hfits hp => exact hfiled.materialise hgrows hfits hp
      | retire =>
          refine hfiled.of hgrows (fun copy hcopy => ?_) hfiled.told hfiled.said
          exact mem_copies_delete hcopy
      | intend => exact hfiled.putIntent hgrows (fun _ => rfl) (fun _ => rfl) rfl
      | clear _ _ hdone =>
          refine hfiled.putIntent hgrows (fun _ => rfl) (fun _ => rfl) fun r hr => ?_
          cases hr
          exact hdone
      | prune h => exact absurd h hpruning
    · have hlone := hs.lone hbefore
      cases hact with
      | materialise hfits hp => exact hlone.materialise hs.isOpen hfits hp
      | openDurable h | retire h => exact absurd h hbefore
      | updateDurable hget | close hget | intend hget | clear hget | finish _ hget =>
          exact hlone.bare.absurd hget
      | aside haside =>
          exact absurd ((materialised_congr haside.workspaceId haside.workspaces).mp hmat) hbefore
      | prune h => exact absurd h hpruning
      | _ => exact absurd hmat hbefore

theorem held_initial (workspaceId : Id) : Held (.initial workspaceId) := by
  refine ⟨fun i c hc => ?_, fun _ => ?_, fun hmat => ?_⟩
  · cases hc
  · refine ⟨⟨fun _ => rfl, fun _ => rfl, fun _ => rfl⟩, fun _ => rfl, fun _ => rfl, rfl,
      fun _ => rfl, fun i x hi _ => ?_⟩
    exact absurd rfl hi
  · rw [materialised_iff] at hmat
    exact absurd rfl hmat

end

end

end Acc.Core
