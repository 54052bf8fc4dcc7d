import AgentsCanCommunicate.Library.Marker

/-!
# Waking a client for a message

An offer wakes one registered endpoint for one message.  It makes the marker of
the two, hands the wake over, and takes the marker away again when the wake
failed.  An offer that finds the marker answers from what it finds.

The inbox of Claude Code finds the marker and answers that the message was
accepted.  The web server of Kimi has an outcome beside the marker, and an offer
that finds none is told that the recipient is busy.
-/

namespace Acc.Adapters

open Library (Scene Role Deed Actor Run Where)
open Library.Marker (Marked Stage Act Entry Truthful Inv stages)

inductive SafeErrorCode where
  | transport_rejected
  | recipient_unavailable
  | recipient_busy
  | delivery_disabled
  | transport_error
  | transport_permission_denied
deriving DecidableEq

variable {κ : Type} [DecidableEq κ]

/-! ## Claude Code -/

namespace ClaudeCode

inductive Reception where
  | delivered
  | held
  | refused
deriving DecidableEq

/-- What was found of the message, the endpoint and its key before the marker is
looked for. -/
inductive Verification where
  | malformed
  | unverified
  | keyless
  | verified (reception : Reception)
deriving DecidableEq

/-- How the socket fails. -/
inductive Failure where
  | timeout
  | permission
  | error
deriving DecidableEq

def Failure.code : Failure → SafeErrorCode
  | timeout => .transport_error
  | permission => .transport_permission_denied
  | error => .recipient_unavailable

inductive Answer where
  | accepted (pendingApproval : Bool)
  | rejected (safeErrorCode : SafeErrorCode)
deriving DecidableEq

inductive Phase where
  | verifying
  | claiming (pendingApproval : Bool)
  | connecting (pendingApproval : Bool)
  /-- The frame is on the socket, and some of its bytes may be through. -/
  | writing (pendingApproval reached : Bool)
  | finishing (pendingApproval : Bool)
  /-- The marker is to be taken away. -/
  | releasing (safeErrorCode : SafeErrorCode) (sent : Bool)
  /-- Answered, and the marker is not this offer's. -/
  | answered (answer : Answer)
  | delivered (pendingApproval : Bool)
  | withdrawn (safeErrorCode : SafeErrorCode)
  /-- Rejected, and the marker is still there. -/
  | left (safeErrorCode : SafeErrorCode) (sent : Bool)
deriving DecidableEq

inductive Input where
  | verification (found : Verification)
  | go
  /-- A file operation fails. -/
  | failed
  /-- The marker is made, and closing it fails. -/
  | unclosed
  | bytes
  | fails (failure : Failure)
deriving DecidableEq

def verify : Verification → Phase
  | .malformed => .answered (.rejected .transport_rejected)
  | .unverified | .keyless => .answered (.rejected .recipient_unavailable)
  | .verified .refused => .answered (.rejected .delivery_disabled)
  | .verified .held => .claiming true
  | .verified .delivered => .claiming false

def claimWake (k : κ) (pendingApproval : Bool) (w : Marked κ) : Marked κ × Phase :=
  match w.marker with
  | some _ => ({ w with log := .accepted k :: w.log }, .answered (.accepted pendingApproval))
  | none => ({ w with marker := some k }, .connecting pendingApproval)

/-- `offerMessage`, one atomic step at a time. -/
def offerMessage (k : κ) (_ : Unit) : Phase → Input → Marked κ → Option (Marked κ × Phase)
  | .verifying, .verification found, w => some (w, verify found)
  | .claiming pendingApproval, .go, w => some (claimWake k pendingApproval w)
  | .claiming _, .failed, w => some (w, .answered (.rejected .transport_error))
  | .claiming _, .unclosed, w =>
      match w.marker with
      | some _ => none
      | none => some ({ w with marker := some k }, .left .transport_error false)
  | .connecting pendingApproval, .go, w =>
      some ({ w with log := .sent k :: w.log }, .writing pendingApproval false)
  | .connecting _, .fails failure, w => some (w, .releasing failure.code false)
  | .writing pendingApproval false, .bytes, w =>
      some ({ w with log := .reached k :: w.log }, .writing pendingApproval true)
  | .writing pendingApproval _, .go, w =>
      some ({ w with log := .handed k :: w.log }, .finishing pendingApproval)
  | .writing _ false, .fails failure, w =>
      some ({ w with log := .unsent k :: w.log }, .releasing failure.code true)
  | .writing _ true, .fails failure, w => some (w, .releasing failure.code true)
  | .finishing pendingApproval, .go, w =>
      some ({ w with log := .accepted k :: w.log }, .delivered pendingApproval)
  | .releasing code _, .go, w => some (⟨none, .withdrawn k :: w.log⟩, .withdrawn code)
  | .releasing code sent, .failed, w => some (w, .left code sent)
  | _, _, _ => none

def offers : Role κ (Marked κ) Unit Phase Input where
  start _ _ w := some (w, .verifying)
  next := offerMessage

def Phase.stage : Phase → Stage
  | verifying | claiming _ | answered _ => .outside
  | connecting _ => .holding
  | writing _ false => .sending
  | writing _ true => .reached
  | finishing _ | delivered _ => .handed
  | releasing _ sent | left _ sent => if sent then .failed else .holding
  | withdrawn _ => .gone

/-- The offer made the marker and has not handed its wake over. -/
def Phase.undecided : Phase → Bool
  | connecting _ | writing .. | releasing .. | left .. => true
  | verifying | claiming _ | finishing _ | answered _ | delivered _ | withdrawn _ => false

/-- No offer fails when some of its wake is through, and none finds a marker whose
offer is undecided. -/
def Settled (s : Scene κ (Marked κ) Unit Phase) : Deed κ Unit Input → Bool
  | .turn k input =>
      match s.actors k, input with
      | some ⟨_, .claiming _, _⟩, .go =>
          match s.shared.marker with
          | some k' => !(s.actors k').any fun offer => offer.phase.undecided
          | none => true
      | some ⟨_, .writing _ true, _⟩, .fails _ => false
      | _, _ => true
  | .start .. | .crash _ => true

/-- A decided offer with the marker has handed its wake over. -/
theorem Phase.handed {phase : Phase} (hmarks : phase.stage.marks = true)
    (hdecided : phase.undecided = false) : phase.stage = .handed := by
  cases phase with
  | finishing => rfl
  | delivered => rfl
  | verifying => cases hmarks
  | claiming => cases hmarks
  | answered => cases hmarks
  | withdrawn => cases hmarks
  | connecting => cases hdecided
  | writing => cases hdecided
  | releasing => cases hdecided
  | left => cases hdecided

variable {s t : Scene κ (Marked κ) Unit Phase} {d : Deed κ Unit Input} {k : κ}
  {phase : Phase} {input : Input} {done : Marked κ × Phase}

section Turns

omit [DecidableEq κ]

/-- An offer that finds a marker whose offer is decided finds a wake handed over. -/
theorem handed_of_decided {maker : κ} (hinv : Inv s.shared (stages Phase.stage s))
    (hmaker : s.shared.marker = some maker)
    (hdecided : (s.actors maker).any (fun offer => offer.phase.undecided) = false) :
    .handed maker ∈ s.shared.log := by
  have hmarks : (stages Phase.stage s maker).marks = true := (hinv.marker maker).mpr hmaker
  have htells := hinv.tells maker
  have hhanded : stages Phase.stage s maker = .handed := by
    unfold stages at hmarks ⊢
    split at hmarks
    next offer hoffer => exact Phase.handed hmarks (by simpa [hoffer] using hdecided)
    next => cases hmarks
  rw [hhanded] at htells
  exact htells.1

/-- A settled turn is an act of a sender. -/
theorem offerMessage_act (hinv : Inv s.shared (stages Phase.stage s))
    (hsettled : Settled s (.turn k input) = true) (hactor : s.actors k = some ⟨(), phase, true⟩)
    (h : offerMessage k () phase input s.shared = some done) :
    Act k s.shared phase.stage done.1 done.2.stage := by
  have hhanded := fun maker => @handed_of_decided _ s maker hinv
  have hmine := hinv.tells k
  simp only [stages, hactor] at hmine
  simp only [Settled, hactor] at hsettled
  obtain ⟨⟨marker, log⟩, actors⟩ := s
  unfold offerMessage at h
  split at h
  next found =>
    cases h
    have houtside : (verify found).stage = .outside := by
      unfold verify
      split <;> rfl
    rw [houtside]
    exact .idle
  next pendingApproval =>
    cases h
    cases marker with
    | some maker => exact .accept (hhanded maker rfl (by simpa using hsettled))
    | none => exact .claim
  next =>
    cases h
    exact .idle
  next =>
    cases marker with
    | some maker => cases h
    | none =>
        cases h
        exact .claim
  next =>
    cases h
    exact .send
  next =>
    cases h
    exact .idle
  next =>
    cases h
    exact .reach
  next pendingApproval reached =>
    cases h
    refine .hand ?_
    cases reached with
    | false => exact Or.inl rfl
    | true => exact Or.inr rfl
  next =>
    cases h
    exact .fail
  next => cases hsettled
  next =>
    cases h
    exact .accept hmine.1
  next code sent =>
    cases h
    refine .withdraw ?_
    cases sent with
    | false => exact Or.inl rfl
    | true => exact Or.inr rfl
  next =>
    cases h
    exact .idle
  next => cases h

end Turns

theorem step_inv (hinv : Inv s.shared (stages Phase.stage s)) (hstep : offers.Step s d t)
    (hsettled : Settled s d = true) : Inv t.shared (stages Phase.stage t) := by
  refine Inv.perform id Phase.stage hinv hstep ?_ ?_
  · rintro k own done h
    cases h
    exact ⟨rfl, rfl⟩
  · rintro k own phase input done rfl hactor h
    exact offerMessage_act hinv hsettled hactor h

end ClaudeCode

/-! ## Kimi -/

namespace Kimi

inductive ErrorCode where
  | ETIMEDOUT
  | ECONNREFUSED
  | ENOTFOUND
  | EAI_AGAIN
  | EPERM
  | EACCES
  | other
deriving DecidableEq

inductive PromptStatus where
  | running
  | queued
  | blocked
deriving DecidableEq

/-- The closed envelope of a reply, with the prompt item when its data are one. -/
structure Envelope where
  code : Int
  item : Option PromptStatus
deriving DecidableEq

inductive Response where
  | error (code : ErrorCode)
  | replied (status : Nat) (envelope : Option Envelope)
deriving DecidableEq

inductive Reason where
  | timeout
  | unavailable
  | permission
  | reset
  | unauthorized
  | rate_limited
  | server_error
  | invalid
  | session_not_found
  | prompt_id_completed
  | prompt_id_conflict
  | session_unavailable
  | rejected
  | native_endpoint_unavailable
  | native_session_unavailable
  | protocol_mismatch
deriving DecidableEq

structure Failure where
  reason : Reason
  definite : Bool
deriving DecidableEq

inductive Submitted where
  | ok (status : PromptStatus)
  | failure (f : Failure)
deriving DecidableEq

def transportFailure : ErrorCode → Failure
  | .ETIMEDOUT => ⟨.timeout, false⟩
  | .ECONNREFUSED | .ENOTFOUND | .EAI_AGAIN => ⟨.unavailable, true⟩
  | .EPERM | .EACCES => ⟨.permission, true⟩
  | .other => ⟨.reset, false⟩

/-- The code of a reply that is not zero. -/
def mappedError (code : Int) : Failure :=
  if code = 40401 then ⟨.session_not_found, true⟩
  else if code = 40903 then ⟨.prompt_id_completed, true⟩
  else if code = 40927 then ⟨.prompt_id_conflict, true⟩
  else if code = 40931 ∨ code = 40932 then ⟨.session_unavailable, true⟩
  else if 40000 ≤ code ∧ code < 50000 then ⟨.rejected, true⟩
  else ⟨.server_error, false⟩

def submitPrompt : Response → Submitted
  | .error code => .failure (transportFailure code)
  | .replied status envelope =>
      if status = 401 then .failure ⟨.unauthorized, true⟩
      else if status = 429 then .failure ⟨.rate_limited, true⟩
      else if status ≠ 200 then
        .failure ⟨if status ≥ 500 then .server_error else .invalid, false⟩
      else
        match envelope with
        | none => .failure ⟨.invalid, false⟩
        | some envelope =>
            if envelope.code = 0 then
              match envelope.item with
              | none => .failure ⟨.invalid, false⟩
              | some status => .ok status
            else .failure (mappedError envelope.code)

def errorCode : Reason → SafeErrorCode
  | .permission => .transport_permission_denied
  | .unavailable | .unauthorized | .session_not_found | .session_unavailable
  | .native_endpoint_unavailable | .native_session_unavailable => .recipient_unavailable
  | .timeout | .reset | .rate_limited | .server_error | .invalid | .prompt_id_completed
  | .prompt_id_conflict | .rejected | .protocol_mismatch => .transport_error

/-- The prompt is there already. -/
def Reason.repeats (reason : Reason) : Bool :=
  reason = .prompt_id_conflict || reason = .prompt_id_completed

inductive Outcome where
  | queued
  | running
  | ambiguous
deriving DecidableEq

/-- The marker, and the file of the outcome beside it, which may be there with
nothing of use in it. -/
structure Wakes (κ : Type) extends Marked κ where
  outcome : Option (Option Outcome)

def Wakes.initial : Wakes κ := ⟨.initial, none⟩

def Wakes.note (w : Wakes κ) (e : Entry κ) : Wakes κ := { w with log := e :: w.log }

inductive Verification where
  | malformed
  | unrecorded
  | lapsed
  | refused (reason : Reason)
  | verified
deriving DecidableEq

inductive Answer where
  | accepted (queued : Bool)
  | rejected (safeErrorCode : SafeErrorCode)
deriving DecidableEq

inductive Phase where
  | verifying
  | claiming
  | repeating
  /-- It made the marker, and looks whether the session is warm. -/
  | checking
  /-- The prompt is submitted, and some of its bytes may be through. -/
  | submitting (reached : Bool)
  /-- The outcome is to be recorded. -/
  | recording (outcome : Outcome) (answer : Answer) (stage : Stage)
  /-- Its file was made. -/
  | writing (outcome : Outcome) (answer : Answer) (stage : Stage)
  | finishing (answer : Answer) (stage : Stage)
  /-- The outcome is to be taken away, and the marker after it. -/
  | releasing (safeErrorCode : SafeErrorCode) (stage : Stage)
  | removing (safeErrorCode : SafeErrorCode) (stage : Stage)
  | answered (answer : Answer) (stage : Stage)
deriving DecidableEq

inductive Input where
  | verification (found : Verification)
  | go
  /-- A file operation or a check fails. -/
  | failed
  /-- The marker is made, and closing it fails. -/
  | unclosed
  | bytes
  | response (r : Response)
deriving DecidableEq

def verify : Verification → Phase
  | .malformed => .answered (.rejected .transport_rejected) .outside
  | .unrecorded | .lapsed => .answered (.rejected .recipient_unavailable) .outside
  | .refused reason => .answered (.rejected (errorCode reason)) .outside
  | .verified => .claiming

def conclude (k : κ) (w : Wakes κ) (answer : Answer) (stage : Stage) : Wakes κ × Phase :=
  match answer with
  | .accepted _ => (w.note (.accepted k), .answered answer stage)
  | .rejected _ => (w, .answered answer stage)

/-- What a duplicate is told. -/
def repeated : Option (Option Outcome) → Answer
  | some (some .running) => .accepted false
  | some (some .queued) => .accepted true
  | some (some .ambiguous) => .rejected .transport_error
  | some none | none => .rejected .recipient_busy

/-- How a sending stands of which some of the bytes may be through. -/
def sentStage (reached : Bool) : Stage := if reached then .reached else .sending

/-- What is done on the response to a prompt. -/
def respond (k : κ) (w : Wakes κ) (reached : Bool) (r : Response) : Wakes κ × Phase :=
  match submitPrompt r with
  | .ok status =>
      if status = .running then
        (w.note (.handed k), .recording .running (.accepted false) .handed)
      else (w.note (.handed k), .recording .queued (.accepted true) .handed)
  | .failure ⟨reason, definite⟩ =>
      if reason.repeats then (w, .recording .queued (.accepted true) (sentStage reached))
      else if definite then
        match r with
        | .replied .. => (w.note (.refused k), .releasing (errorCode reason) .failed)
        | .error _ =>
            if reached then (w, .releasing (errorCode reason) .reached)
            else (w.note (.unsent k), .releasing (errorCode reason) .failed)
      else (w, .recording .ambiguous (.rejected (errorCode reason)) (sentStage reached))

/-- `offerMessage`, one atomic step at a time. -/
def offerMessage (k : κ) (_ : Unit) : Phase → Input → Wakes κ → Option (Wakes κ × Phase)
  | .verifying, .verification found, w => some (w, verify found)
  | .claiming, .go, w =>
      match w.marker with
      | some _ => some (w, .repeating)
      | none => some ({ w with marker := some k }, .checking)
  | .claiming, .failed, w => some (w, .answered (.rejected .transport_error) .outside)
  | .claiming, .unclosed, w =>
      match w.marker with
      | some _ => none
      | none => some ({ w with marker := some k }, .answered (.rejected .transport_error) .holding)
  | .repeating, .go, w => some (conclude k w (repeated w.outcome) .outside)
  | .repeating, .failed, w => some (w, .answered (.rejected .recipient_busy) .outside)
  | .checking, .go, w => some (w.note (.sent k), .submitting false)
  | .checking, .failed, w => some (w, .releasing .recipient_unavailable .holding)
  | .submitting false, .bytes, w => some (w.note (.reached k), .submitting true)
  | .submitting reached, .response r, w => some (respond k w reached r)
  | .recording outcome answer stage, .go, w =>
      match w.marker, w.outcome with
      | some _, none => some ({ w with outcome := some none }, .writing outcome answer stage)
      | _, _ => some (w, .finishing answer stage)
  | .writing outcome answer stage, .go, w =>
      some ({ w with outcome := some (some outcome) }, .finishing answer stage)
  | .recording _ answer stage, .failed, w | .writing _ answer stage, .failed, w =>
      some (w, .finishing answer stage)
  | .finishing given stage, .go, w => some (conclude k w given stage)
  | .releasing code stage, .go, w => some ({ w with outcome := none }, .removing code stage)
  | .removing code _, .go, w =>
      some ({ w.note (.withdrawn k) with marker := none }, .answered (.rejected code) .gone)
  | .releasing code stage, .failed, w | .removing code stage, .failed, w =>
      some (w, .answered (.rejected code) stage)
  | _, _, _ => none

def offers : Role κ (Wakes κ) Unit Phase Input where
  start _ _ w := some (w, .verifying)
  next := offerMessage

def Phase.stage : Phase → Stage
  | verifying | claiming | repeating => .outside
  | checking => .holding
  | submitting reached => sentStage reached
  | recording _ _ stage | writing _ _ stage | finishing _ stage | releasing _ stage
  | removing _ stage | answered _ stage => stage

/-- The prompt of some other offer arrived, and was not refused. -/
def Known (s : Scene κ (Wakes κ) Unit Phase) (k : κ) : Prop :=
  ∃ k', k' ≠ k ∧ (.reached k' ∈ s.shared.log ∨ .handed k' ∈ s.shared.log) ∧
    .refused k' ∉ s.shared.log

/-- The environment tells the truth: a connection that is refused or not permitted
took no bytes, and the server has the prompt when it says so. -/
def Honest (s : Scene κ (Wakes κ) Unit Phase) : Deed κ Unit Input → Prop
  | .turn k (.response r) =>
      (∀ code own alive, r = .error code → (transportFailure code).definite = true →
        s.actors k ≠ some ⟨own, .submitting true, alive⟩) ∧
      (∀ f, submitPrompt r = .failure f → f.reason.repeats = true → Known s k)
  | _ => True

variable {s t : Scene κ (Wakes κ) Unit Phase} {d : Deed κ Unit Input} {k : κ} {w w' : Wakes κ}
  {phase phase' : Phase} {input : Input} {r : Response} {reached : Bool}

/-- What a phase knows of the offer's own wake. -/
def Phase.Sound : Phase → Prop
  | recording outcome answer stage | writing outcome answer stage =>
      (outcome ≠ .ambiguous → stage = .handed) ∧ (∀ queued, answer = .accepted queued → stage = .handed)
  | finishing answer stage => ∀ queued, answer = .accepted queued → stage = .handed
  | releasing _ stage | removing _ stage => stage = .holding ∨ stage = .failed
  | _ => True

/-- An outcome other than an ambiguous one is of a wake that was handed over. -/
def Recorded (w : Wakes κ) : Prop :=
  ∀ outcome, w.outcome = some (some outcome) → outcome ≠ .ambiguous → ∃ k', .handed k' ∈ w.log

structure Law (s : Scene κ (Wakes κ) Unit Phase) : Prop where
  inv : Inv s.shared.toMarked (stages Phase.stage s)
  recorded : Recorded s.shared
  sound : ∀ k a, s.actors k = some a → a.phase.Sound

section Turns

omit [DecidableEq κ]

/-- How an honest response ends the submission. -/
theorem respond_cases (hdefinite : ∀ code, r = .error code →
      (transportFailure code).definite = true → reached = false)
    (hfresh : ∀ f, submitPrompt r = .failure f → f.reason.repeats = false) :
    (∃ outcome queued, respond k w reached r =
      (w.note (.handed k), .recording outcome (.accepted queued) .handed)) ∨
    (∃ code, respond k w reached r = (w.note (.refused k), .releasing code .failed)) ∨
    (reached = false ∧
      ∃ code, respond k w reached r = (w.note (.unsent k), .releasing code .failed)) ∨
    ∃ code, respond k w reached r =
      (w, .recording .ambiguous (.rejected code) (sentStage reached)) := by
  unfold respond
  split
  next status _ =>
    left
    split
    next => exact ⟨.running, false, rfl⟩
    next => exact ⟨.queued, true, rfl⟩
  next reason definite hfailure =>
    have hother : reason.repeats = false := hfresh _ hfailure
    rw [hother]
    cases definite with
    | false => exact Or.inr (Or.inr (Or.inr ⟨_, rfl⟩))
    | true =>
        cases r with
        | replied => exact Or.inr (Or.inl ⟨_, rfl⟩)
        | error code =>
            have htransport : transportFailure code = ⟨reason, true⟩ := by
              simpa [submitPrompt] using hfailure
            have hunreached := hdefinite code rfl (by rw [htransport])
            subst hunreached
            exact Or.inr (Or.inr (Or.inl ⟨rfl, _, rfl⟩))

/-- The server does not have the prompt of an offer that holds the marker. -/
theorem not_known (hinv : Inv s.shared.toMarked (stages Phase.stage s))
    (hmarks : (stages Phase.stage s k).marks = true) : ¬Known s k := by
  rintro ⟨k', hne, harrived, hrefused⟩
  have hmaker := (hinv.marker k).mp hmarks
  have hother := (hinv.marker k').mp (hinv.arrived harrived hrefused)
  rw [hmaker] at hother
  cases hother
  exact hne rfl

/-- What an answer needs to be an act. -/
theorem conclude_act {given : Answer} {stage : Stage} {log : List (Entry κ)}
    (hlog : w.log = log) (h : ∀ queued, given = .accepted queued → ∃ k', .handed k' ∈ log) :
    Act k w.toMarked stage (conclude k w given stage).1.toMarked
      (conclude k w given stage).2.stage := by
  subst hlog
  cases given with
  | rejected => exact .idle
  | accepted queued =>
      obtain ⟨k', hhanded⟩ := h queued rfl
      exact .accept hhanded

theorem Recorded.note {e : Entry κ} (h : Recorded w) : Recorded (w.note e) := by
  intro outcome houtcome hcertain
  obtain ⟨k', hhanded⟩ := h outcome houtcome hcertain
  exact ⟨k', List.mem_cons_of_mem _ hhanded⟩

theorem Recorded.conclude {given : Answer} {stage : Stage} (h : Recorded w) :
    Recorded (conclude k w given stage).1 := by
  cases given with
  | accepted => exact h.note
  | rejected => exact h

/-- What a duplicate is told is true. -/
theorem Recorded.repeated (h : Recorded w) {queued : Bool}
    (hgiven : repeated w.outcome = .accepted queued) : ∃ k', .handed k' ∈ w.log := by
  unfold Kimi.repeated at hgiven
  split at hgiven
  next houtcome => exact h _ houtcome nofun
  next houtcome => exact h _ houtcome nofun
  next => cases hgiven
  next => cases hgiven
  next => cases hgiven

theorem conclude_sound {given : Answer} {stage : Stage} :
    (conclude k w given stage).2.Sound := by
  cases given <;> trivial

/-- What an offer knows after a turn, that its turn was an act of a sender, and that
what is recorded is true. -/
structure Kept (k : κ) (w : Wakes κ) (phase : Phase) (done : Wakes κ × Phase) : Prop where
  act : Act k w.toMarked phase.stage done.1.toMarked done.2.stage
  recorded : Recorded done.1
  sound : done.2.Sound

variable {done : Wakes κ × Phase}

theorem offerMessage_keeps (hlaw : Law s) (hhonest : Honest s (.turn k input))
    (hactor : s.actors k = some ⟨(), phase, true⟩)
    (h : offerMessage k () phase input s.shared = some done) :
    Kept k s.shared phase done := by
  have hstage : stages Phase.stage s k = phase.stage := by simp [stages, hactor]
  have hsound := hlaw.sound k _ hactor
  have htells := hlaw.inv.tells k
  have hrecorded := hlaw.recorded
  have hknown := @not_known _ s k hlaw.inv
  rw [hstage] at htells hknown
  obtain ⟨⟨⟨marker, log⟩, outcome⟩, actors⟩ := s
  unfold offerMessage at h
  split at h
  next found =>
    cases h
    cases found <;> exact ⟨.idle, hrecorded, trivial⟩
  next =>
    cases marker with
    | some maker =>
        cases h
        exact ⟨.idle, hrecorded, trivial⟩
    | none =>
        cases h
        exact ⟨.claim, hrecorded, trivial⟩
  next =>
    cases h
    exact ⟨.idle, hrecorded, trivial⟩
  next =>
    cases marker with
    | some maker => cases h
    | none =>
        cases h
        exact ⟨.claim, hrecorded, trivial⟩
  next =>
    cases h
    exact ⟨conclude_act rfl fun _ => hrecorded.repeated, hrecorded.conclude, conclude_sound⟩
  next =>
    cases h
    exact ⟨.idle, hrecorded, trivial⟩
  next =>
    cases h
    exact ⟨.send, hrecorded.note, trivial⟩
  next =>
    cases h
    exact ⟨.idle, hrecorded, Or.inl rfl⟩
  next =>
    cases h
    exact ⟨.reach, hrecorded.note, trivial⟩
  next reached r =>
    cases h
    have hdefinite : ∀ code, r = .error code → (transportFailure code).definite = true →
        reached = false := by
      intro code hr hcode
      refine Bool.eq_false_iff.mpr fun hreached => ?_
      subst hreached
      exact hhonest.1 code () true hr hcode hactor
    have hmarks : (sentStage reached).marks = true := by cases reached <;> rfl
    have hfresh : ∀ f, submitPrompt r = .failure f → f.reason.repeats = false := fun f hf =>
      Bool.eq_false_iff.mpr fun hrepeats => hknown hmarks (hhonest.2 f hf hrepeats)
    have hsent : sentStage reached = .sending ∨ sentStage reached = .reached := by
      cases reached with
      | false => exact Or.inl rfl
      | true => exact Or.inr rfl
    rcases respond_cases hdefinite hfresh with
      ⟨o, queued, heq⟩ | ⟨code, heq⟩ | ⟨rfl, code, heq⟩ | ⟨code, heq⟩
    · rw [heq]
      exact ⟨.hand hsent, hrecorded.note, fun _ => rfl, fun _ _ => rfl⟩
    · rw [heq]
      exact ⟨.refuse hsent, hrecorded.note, Or.inr rfl⟩
    · rw [heq]
      exact ⟨.fail, hrecorded.note, Or.inr rfl⟩
    · rw [heq]
      exact ⟨.idle, hrecorded, fun h => absurd rfl h, fun _ h => by cases h⟩
  next outcome' given stage =>
    split at h
    next =>
      cases h
      exact ⟨.idle, fun o ho => (by cases ho), hsound⟩
    next =>
      cases h
      exact ⟨.idle, hrecorded, hsound.2⟩
  next outcome' given stage =>
    cases h
    refine ⟨.idle, ?_, hsound.2⟩
    intro o ho hcertain
    cases ho
    have hhanded : stage = .handed := hsound.1 hcertain
    subst hhanded
    exact ⟨k, htells.1⟩
  next =>
    cases h
    exact ⟨.idle, hrecorded, hsound.2⟩
  next =>
    cases h
    exact ⟨.idle, hrecorded, hsound.2⟩
  next given stage =>
    cases h
    refine ⟨conclude_act rfl fun queued hgiven => ?_, hrecorded.conclude, conclude_sound⟩
    have hhanded : stage = .handed := hsound queued hgiven
    subst hhanded
    exact ⟨k, htells.1⟩
  next =>
    cases h
    exact ⟨.idle, fun o ho => (by cases ho), hsound⟩
  next =>
    cases h
    exact ⟨.withdraw hsound, hrecorded.note, trivial⟩
  next =>
    cases h
    exact ⟨.idle, hrecorded, trivial⟩
  next =>
    cases h
    exact ⟨.idle, hrecorded, trivial⟩
  next => cases h

end Turns

theorem Law.step (hlaw : Law s) (hstep : offers.Step s d t) (hhonest : Honest s d) : Law t := by
  have hturn : ∀ k own phase input done, d = .turn k input →
      s.actors k = some ⟨own, phase, true⟩ → offerMessage k own phase input s.shared = some done →
      Kept k s.shared phase done := by
    rintro k own phase input done rfl hactor h
    exact offerMessage_keeps hlaw hhonest hactor h
  refine ⟨?_, ?_, ?_⟩
  · refine Inv.perform Wakes.toMarked Phase.stage hlaw.inv hstep ?_ ?_
    · rintro k own done h
      cases h
      exact ⟨rfl, rfl⟩
    · intro k own phase input done hd hactor h
      exact (hturn k own phase input done hd hactor h).act
  · cases d with
    | start k own =>
        obtain ⟨-, done, hdone, rfl⟩ := Role.step_start hstep
        cases hdone
        exact hlaw.recorded
    | turn k input =>
        obtain ⟨own, phase, done, hactor, hdone, rfl⟩ := Role.step_turn hstep
        exact (hturn k own phase input done rfl hactor hdone).recorded
    | crash k =>
        obtain ⟨a, -, rfl⟩ := Role.step_crash hstep
        exact hlaw.recorded
  · intro k' b hb
    cases d with
    | start k own =>
        obtain ⟨-, done, hdone, rfl⟩ := Role.step_start hstep
        cases hdone
        rcases Scene.actors_set hb with ⟨rfl, rfl⟩ | ⟨-, hb⟩
        · trivial
        · exact hlaw.sound k' b hb
    | turn k input =>
        obtain ⟨own, phase, done, hactor, hdone, rfl⟩ := Role.step_turn hstep
        rcases Scene.actors_set hb with ⟨rfl, rfl⟩ | ⟨-, hb⟩
        · exact (hturn k' own phase input done rfl hactor hdone).sound
        · exact hlaw.sound k' b hb
    | crash k =>
        obtain ⟨a, hactor, rfl⟩ := Role.step_crash hstep
        rcases Scene.actors_set hb with ⟨rfl, rfl⟩ | ⟨-, hb⟩
        · exact hlaw.sound k' a hactor
        · exact hlaw.sound k' b hb

end Kimi

/-! ## Over every run -/

/-- Nobody has ever made an offer. -/
def fresh : Scene κ (Marked κ) Unit ClaudeCode.Phase := ⟨.initial, fun _ => none⟩

def freshWeb : Scene κ (Kimi.Wakes κ) Unit Kimi.Phase := ⟨.initial, fun _ => none⟩

/-- A settled run of offers to an inbox, and an honest one to a web server, sends a
wake again only when it is certain that no earlier one arrived, and answers that it was
accepted only when one was handed over. -/
theorem wake_truthful :
    (∀ (deeds : List (Deed κ Unit ClaudeCode.Input)) (s : Scene κ (Marked κ) Unit ClaudeCode.Phase),
      Run (Where ClaudeCode.offers.Step fun s d => ClaudeCode.Settled s d = true) fresh deeds s →
        Truthful s.shared.log) ∧
    ∀ (deeds : List (Deed κ Unit Kimi.Input)) (s : Scene κ (Kimi.Wakes κ) Unit Kimi.Phase),
      Run (Where Kimi.offers.Step Kimi.Honest) freshWeb deeds s → Truthful s.shared.log := by
  constructor
  · intro deeds s hrun
    have hinv := hrun.invariant (I := fun s => Inv s.shared (stages ClaudeCode.Phase.stage s))
      (fun _ _ _ hinv hstep => ClaudeCode.step_inv hinv hstep.2 hstep.1) Library.Marker.inv_initial
    exact hinv.truthful
  · intro deeds s hrun
    have hlaw : Kimi.Law s :=
      hrun.invariant (fun _ _ _ hlaw hstep => hlaw.step hstep.2 hstep.1)
        ⟨Library.Marker.inv_initial, nofun, nofun⟩
    exact hlaw.inv.truthful

/-! ## Three offers -/

section Sample

/-- An offer to an inbox that looks for the marker. -/
def opening (k : Fin 3) : List (Deed (Fin 3) Unit ClaudeCode.Input) :=
  [.start k (), .turn k (.verification (.verified .delivered)), .turn k .go]

def through (k : Fin 3) : List (Deed (Fin 3) Unit ClaudeCode.Input) :=
  [.turn k .go, .turn k .bytes, .turn k .go, .turn k .go]

/-- The first offer makes the marker and crashes, and the second finds it. -/
def abandoned : List (Deed (Fin 3) Unit ClaudeCode.Input) := opening 0 ++ [.crash 0] ++ opening 1

/-- The first offer writes its wake and times out before it learns that it is
through, and the second writes its own. -/
def doubled : List (Deed (Fin 3) Unit ClaudeCode.Input) :=
  opening 0 ++ [.turn 0 .go, .turn 0 .bytes, .turn 0 (.fails .timeout), .turn 0 .go] ++
    opening 1 ++ [.turn 1 .go]

/-- The first offer is not let in, the second hands its wake over, and the third
finds the marker. -/
def repeats : List (Deed (Fin 3) Unit ClaudeCode.Input) :=
  opening 0 ++ [.turn 0 (.fails .error), .turn 0 .go] ++ opening 1 ++ through 1 ++ opening 2

/-- The server bans the first offer, takes the second one's prompt, and the third
offer finds what the second recorded. -/
def repeatsWeb : List (Deed (Fin 3) Unit Kimi.Input) :=
  webOpening 0 ++ submits 0 (.replied 429 none) 2 ++ webOpening 1 ++
    submits 1 (.replied 200 (some ⟨0, some .queued⟩)) 3 ++ webOpening 2 ++ [.turn 2 .go]
where
  webOpening (k : Fin 3) : List (Deed (Fin 3) Unit Kimi.Input) :=
    [.start k (), .turn k (.verification .verified), .turn k .go]
  submits (k : Fin 3) (r : Kimi.Response) (n : Nat) : List (Deed (Fin 3) Unit Kimi.Input) :=
    [.turn k .go, .turn k .bytes, .turn k (.response r)] ++ List.replicate n (.turn k .go)

/-- Replies that say nothing of other prompts. -/
def Kimi.plain : Deed (Fin 3) Unit Kimi.Input → Bool
  | .turn _ (.response (.error _)) => false
  | .turn _ (.response r) =>
      match submitPrompt r with
      | .ok _ => true
      | .failure f => !f.reason.repeats
  | _ => true

theorem Kimi.honest_of_plain {s : Scene (Fin 3) (Kimi.Wakes (Fin 3)) Unit Kimi.Phase}
    {d : Deed (Fin 3) Unit Kimi.Input} (h : Kimi.plain d = true) : Kimi.Honest s d := by
  unfold Kimi.Honest
  split
  next k r =>
    cases r with
    | error code => cases h
    | replied status envelope =>
        refine ⟨nofun, fun f hf hrepeats => ?_⟩
        simp [Kimi.plain, hf, hrepeats] at h
  next => trivial

theorem wake_truthful_repeats :
    (∃ s : Scene (Fin 3) (Marked (Fin 3)) Unit ClaudeCode.Phase,
      s.shared.log = [.accepted 2, .accepted 1, .handed 1, .reached 1, .sent 1, .withdrawn 0] ∧
        Truthful s.shared.log) ∧
    ∃ s : Scene (Fin 3) (Kimi.Wakes (Fin 3)) Unit Kimi.Phase,
      s.shared.log = [.accepted 2, .accepted 1, .handed 1, .reached 1, .sent 1, .withdrawn 0,
        .refused 0, .reached 0, .sent 0] ∧ Truthful s.shared.log := by
  constructor
  · have hdone : (ClaudeCode.offers.enact ClaudeCode.Settled fresh repeats).any (fun s =>
        decide (s.shared.log =
          [.accepted 2, .accepted 1, .handed 1, .reached 1, .sent 1, .withdrawn 0])) = true := by
      decide +kernel
    obtain ⟨s, hs, hlog⟩ := (Option.any_eq_true _ _).mp hdone
    exact ⟨s, of_decide_eq_true hlog, wake_truthful.1 repeats s (Role.run_of_enact hs)⟩
  · have hdone : (Kimi.offers.enact (fun _ d => Kimi.plain d) freshWeb repeatsWeb).any (fun s =>
        decide (s.shared.log = [.accepted 2, .accepted 1, .handed 1, .reached 1, .sent 1,
          .withdrawn 0, .refused 0, .reached 0, .sent 0])) = true := by
      decide +kernel
    obtain ⟨s, hs, hlog⟩ := (Option.any_eq_true _ _).mp hdone
    have hrun : Run (Where Kimi.offers.Step Kimi.Honest) freshWeb repeatsWeb s :=
      (Role.run_of_enact hs).imp fun _ _ _ hstep => ⟨Kimi.honest_of_plain hstep.1, hstep.2⟩
    exact ⟨s, of_decide_eq_true hlog, wake_truthful.2 repeatsWeb s hrun⟩

/-- An offer to an inbox answers that a wake was accepted which was never written, and
another writes its wake again when the first one is through. -/
theorem wake_untruthful :
    (∃ s : Scene (Fin 3) (Marked (Fin 3)) Unit ClaudeCode.Phase,
      Run ClaudeCode.offers.Step fresh abandoned s ∧ s.shared.log = [.accepted 1] ∧
        ¬Truthful s.shared.log) ∧
    ∃ s : Scene (Fin 3) (Marked (Fin 3)) Unit ClaudeCode.Phase,
      Run ClaudeCode.offers.Step fresh doubled s ∧
        s.shared.log = [.sent 1, .withdrawn 0, .reached 0, .sent 0] ∧ ¬Truthful s.shared.log := by
  constructor
  · have hdone : (ClaudeCode.offers.enact (fun _ _ => true) fresh abandoned).any (fun s =>
        decide (s.shared.log = [.accepted 1])) = true := by
      decide +kernel
    obtain ⟨s, hs, hlog⟩ := (Option.any_eq_true _ _).mp hdone
    have heq := of_decide_eq_true hlog
    refine ⟨s, (Role.run_of_enact hs).of_where, heq, fun htruthful => ?_⟩
    rw [heq] at htruthful
    obtain ⟨k', hhanded, -⟩ := htruthful.real 1 [] (List.suffix_refl _)
    cases hhanded
  · have hdone : (ClaudeCode.offers.enact (fun _ _ => true) fresh doubled).any (fun s =>
        decide (s.shared.log = [.sent 1, .withdrawn 0, .reached 0, .sent 0])) = true := by
      decide +kernel
    obtain ⟨s, hs, hlog⟩ := (Option.any_eq_true _ _).mp hdone
    have heq := of_decide_eq_true hlog
    refine ⟨s, (Role.run_of_enact hs).of_where, heq, fun htruthful => ?_⟩
    rw [heq] at htruthful
    have hcertain := htruthful.once 1 [.withdrawn 0, .reached 0, .sent 0] (List.suffix_refl _) 0
      (by simp)
    simp [Library.Marker.Certain] at hcertain

end Sample

end Acc.Adapters
