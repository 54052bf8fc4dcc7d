import AgentsCanCommunicate.Protocol.Ids

/-!
# The active journal pointer

Two slots hold the pointer.  Writers alternate between them: generation `g`
lies in slot `g % 2`, and each generation names the checksum of the one before
it.  The pointer in force is the newer of the two.  A store with a single slot
is a fresh one, at generation zero.

The digest of a record is a parameter `sha256`.  Nothing is assumed of it: a
chain this code wrote is accepted whatever the digest is.

`selectAuthority_appendTransition` is the one fact the rest of the development
uses: after a transition the new record is in force.
-/

namespace Acc.Storage

/-- A SHA-256 digest. -/
abbrev Digest := BitVec 256

def activeJournalVersion : Nat := 2

/-- A generation and a sequence are written with sixteen digits. -/
def widthLimit : Nat := 10 ^ 16

/-- What the pointer says of the store. -/
inductive JournalState where
  /-- No transaction is open. -/
  | idle
  /-- A decided transaction is not yet fully published. -/
  | opened (transactionId : Id) (firstSequence : Nat)
deriving DecidableEq

/-- The record of one slot. -/
structure ActiveRecord where
  activeJournalVersion : Nat
  generation : Nat
  /-- The digest of the record before it, absent at generation zero. -/
  previousChecksum : Option Digest
  state : JournalState
deriving DecidableEq

/-- The bytes of one slot. -/
structure Authority where
  activeJournalChecksum : Digest
  record : ActiveRecord
deriving DecidableEq

/-- A slot that was decoded, with the slot it was read from. -/
structure Decoded where
  slot : Fin 2
  authority : Authority
deriving DecidableEq

/-- The two slot files. -/
structure Slots where
  slot0 : Option Authority
  slot1 : Option Authority
deriving DecidableEq

def Slots.get (slots : Slots) (i : Fin 2) : Option Authority :=
  if i = 0 then slots.slot0 else slots.slot1

def Slots.set (slots : Slots) (i : Fin 2) (a : Authority) : Slots :=
  if i = 0 then { slots with slot0 := some a } else { slots with slot1 := some a }

/-- The record states are of the two kinds a transition alternates between. -/
def JournalState.isIdle : JournalState → Bool
  | .idle => true
  | .opened _ _ => false

variable (sha256 : ActiveRecord → Digest)

/-! ## Decoding -/

/-- Generation zero follows nothing, and every other one follows a record. -/
def validateChain (record : ActiveRecord) : Result Unit :=
  if record.generation = 0 then
    refuse (record.state.isIdle = false ∨ record.previousChecksum ≠ none)
      ⟨.data, "invalid active journal genesis"⟩
  else
    refuse (record.previousChecksum = none) ⟨.data, "invalid active journal previous checksum"⟩

/-- The sequence of an open record has sixteen digits. -/
def validateState : JournalState → Result Unit
  | .idle => .ok ()
  | .opened _ firstSequence =>
      refuse (widthLimit ≤ firstSequence) ⟨.data, "invalid active journal first sequence"⟩

def validateActiveRecord (record : ActiveRecord) : Result Unit := do
  refuse (record.activeJournalVersion ≠ Storage.activeJournalVersion)
    ⟨.data, "unknown active journal version"⟩
  refuse (widthLimit ≤ record.generation) ⟨.data, "invalid active journal generation"⟩
  validateChain record
  validateState record.state

def decodeAuthority (a : Authority) (slot : Fin 2) : Result Decoded := do
  validateActiveRecord a.record
  refuse (a.record.generation % 2 ≠ slot.val)
    ⟨.data, "active journal generation chain is invalid"⟩
  refuse (a.activeJournalChecksum ≠ sha256 a.record) ⟨.data, "active journal checksum mismatch"⟩
  pure ⟨slot, a⟩

/-! ## The pointer in force -/

/-- From idle a store opens, and from open it goes idle. -/
def validateTransition (current previous : ActiveRecord) : Result Unit :=
  refuse (current.state.isIdle = previous.state.isIdle)
    ⟨.data, "invalid active journal transition"⟩

/-- The newer of two slots, when it follows the older one. -/
def selectNewer (previous current : Decoded) : Result (Option Decoded) := do
  refuse (current.authority.record.generation ≠ previous.authority.record.generation + 1)
    ⟨.data, "active journal generation chain is invalid"⟩
  refuse (current.authority.record.previousChecksum
      ≠ some previous.authority.activeJournalChecksum)
    ⟨.data, "active journal checksum chain is invalid"⟩
  validateTransition current.authority.record previous.authority.record
  pure (some current)

def selectAuthority (slots : Slots) : Result (Option Decoded) :=
  match slots.slot0, slots.slot1 with
  | none, none => .ok none
  | some a, none => do
      let only ← decodeAuthority sha256 a 0
      refuse (only.authority.record.generation ≠ 0)
        ⟨.data, "active journal authority peer is missing"⟩
      pure (some only)
  | none, some b => do
      let _ ← decodeAuthority sha256 b 1
      .error ⟨.data, "active journal authority peer is missing"⟩
  | some a, some b => do
      let left ← decodeAuthority sha256 a 0
      let right ← decodeAuthority sha256 b 1
      if right.authority.record.generation < left.authority.record.generation then
        selectNewer right left
      else
        selectNewer left right

def readActiveJournal (slots : Slots) : Result ActiveRecord := do
  match ← selectAuthority sha256 slots with
  | none => .error ⟨.data, "active journal has no authority"⟩
  | some current => pure current.authority.record

/-! ## Transitions -/

def genesis : ActiveRecord := ⟨activeJournalVersion, 0, none, .idle⟩

/-- What the first open of a fresh store leaves. -/
def initialiseActiveJournal : Slots := ⟨some ⟨sha256 genesis, genesis⟩, none⟩

/-- The record that follows the one in force. -/
def Decoded.next (current : Decoded) (state : JournalState) : ActiveRecord :=
  ⟨activeJournalVersion, current.authority.record.generation + 1,
    some current.authority.activeJournalChecksum, state⟩

def appendTransition (slots : Slots) (state : JournalState) (expected : JournalState → Bool) :
    Result Slots := do
  match ← selectAuthority sha256 slots with
  | none => .error ⟨.conflict, "active journal transition conflicts"⟩
  | some current =>
      refuse (expected current.authority.record.state = false)
        ⟨.conflict, "active journal transition conflicts"⟩
      refuse (widthLimit ≤ current.authority.record.generation + 1)
        ⟨.data, "active journal generation is exhausted"⟩
      let record := current.next state
      validateActiveRecord record
      pure (slots.set (1 - current.slot) ⟨sha256 record, record⟩)

def activateJournal (slots : Slots) (transactionId : Id) (firstSequence : Nat) : Result Slots :=
  appendTransition sha256 slots (.opened transactionId firstSequence) JournalState.isIdle

def idleJournal (slots : Slots) (transactionId : Id) : Result Slots :=
  appendTransition sha256 slots .idle fun current =>
    match current with
    | .idle => false
    | .opened tid _ => tid == transactionId

/-! ## What a transition leaves -/

theorem decodeAuthority_eq_ok {a : Authority} {slot : Fin 2} {d : Decoded} :
    decodeAuthority sha256 a slot = .ok d ↔
      validateActiveRecord a.record = .ok () ∧ a.record.generation % 2 = slot.val ∧
        a.activeJournalChecksum = sha256 a.record ∧ d = ⟨slot, a⟩ := by
  simp only [decodeAuthority, bind_eq_ok, refuse_eq_ok, ne_eq, not_not, pure_eq_ok, exists_const,
    eq_comm (a := d)]
  constructor
  · rintro ⟨_, hv, hp, hc, hd⟩
    exact ⟨hv, hp, hc, hd⟩
  · rintro ⟨hv, hp, hc, hd⟩
    exact ⟨(), hv, hp, hc, hd⟩

theorem selectNewer_eq_ok {previous current : Decoded} {o : Option Decoded} :
    selectNewer previous current = .ok o ↔
      current.authority.record.generation = previous.authority.record.generation + 1 ∧
        current.authority.record.previousChecksum = some previous.authority.activeJournalChecksum ∧
        current.authority.record.state.isIdle ≠ previous.authority.record.state.isIdle ∧
        o = some current := by
  simp only [selectNewer, validateTransition, bind_eq_ok, refuse_eq_ok, ne_eq, not_not, pure_eq_ok,
    exists_const, eq_comm (a := o)]

/-- A pointer in force was decoded from the slot it names. -/
theorem selectAuthority_decoded {slots : Slots} {current : Decoded}
    (h : selectAuthority sha256 slots = .ok (some current)) :
    slots.get current.slot = some current.authority ∧
      decodeAuthority sha256 current.authority current.slot = .ok current := by
  obtain ⟨slot0, slot1⟩ := slots
  cases slot0 with
  | none =>
      cases slot1 with
      | none => simp [selectAuthority] at h
      | some b => simp [selectAuthority] at h
  | some a =>
      cases slot1 with
      | none =>
          simp only [selectAuthority, bind_eq_ok, pure_eq_ok, Option.some.injEq] at h
          obtain ⟨only, hd, _, _, rfl⟩ := h
          have hd' := (decodeAuthority_eq_ok sha256).mp hd
          rw [hd'.2.2.2]
          exact ⟨rfl, (decodeAuthority_eq_ok sha256).mpr ⟨hd'.1, hd'.2.1, hd'.2.2.1, rfl⟩⟩
      | some b =>
          simp only [selectAuthority, bind_eq_ok] at h
          obtain ⟨left, hl, right, hr, h⟩ := h
          have hl' := (decodeAuthority_eq_ok sha256).mp hl
          have hr' := (decodeAuthority_eq_ok sha256).mp hr
          split at h
          · have hsel := (selectNewer_eq_ok.mp h).2.2.2
            cases hsel
            rw [hl'.2.2.2] at hl ⊢
            exact ⟨rfl, hl⟩
          · have hsel := (selectNewer_eq_ok.mp h).2.2.2
            cases hsel
            rw [hr'.2.2.2] at hr ⊢
            exact ⟨rfl, hr⟩

theorem selectAuthority_pair {a b : Authority} {left right : Decoded}
    (hl : decodeAuthority sha256 a 0 = .ok left) (hr : decodeAuthority sha256 b 1 = .ok right) :
    selectAuthority sha256 ⟨some a, some b⟩ =
      if right.authority.record.generation < left.authority.record.generation then
        selectNewer right left
      else
        selectNewer left right := by
  simp only [selectAuthority]
  rw [hl, hr]
  rfl

theorem validateState_eq_ok {state : JournalState} {u : Unit} :
    validateState state = .ok u ↔
      ∀ tid first, state = .opened tid first → first < widthLimit := by
  cases state with
  | idle => exact ⟨by simp, fun _ => rfl⟩
  | opened tid first =>
      rw [validateState, refuse_eq_ok, not_le]
      constructor
      · rintro h _ _ ⟨⟩
        exact h
      · exact fun h => h tid first rfl

theorem validateChain_next {current : Decoded} {state : JournalState} :
    validateChain (current.next state) = .ok () := by
  have hne : (current.next state).generation ≠ 0 := Nat.succ_ne_zero _
  rw [validateChain, if_neg hne]
  exact refuse_eq_ok.mpr (by simp [Decoded.next])

theorem validateActiveRecord_next {current : Decoded} {state : JournalState} :
    validateActiveRecord (current.next state) = .ok () ↔
      current.authority.record.generation + 1 < widthLimit ∧
        ∀ tid first, state = .opened tid first → first < widthLimit := by
  simp only [validateActiveRecord, bind_eq_ok, refuse_eq_ok, not_le, validateState_eq_ok]
  constructor
  · rintro ⟨_, _, _, hg, _, _, hs⟩
    exact ⟨hg, hs⟩
  · rintro ⟨hg, hs⟩
    exact ⟨(), fun h => h rfl, (), hg, (), validateChain_next, hs⟩

/-- After a transition the new record is in force, and it follows the one that
was. -/
theorem selectAuthority_set {slots : Slots} {current : Decoded} {state : JournalState}
    (h : selectAuthority sha256 slots = .ok (some current))
    (hg : current.authority.record.generation + 1 < widthLimit)
    (hs : ∀ tid first, state = .opened tid first → first < widthLimit)
    (halt : state.isIdle ≠ current.authority.record.state.isIdle) :
    selectAuthority sha256
        (slots.set (1 - current.slot) ⟨sha256 (current.next state), current.next state⟩) =
      .ok (some ⟨1 - current.slot, ⟨sha256 (current.next state), current.next state⟩⟩) := by
  obtain ⟨hget, hdec⟩ := selectAuthority_decoded sha256 h
  obtain ⟨hv, hp, hc, -⟩ := (decodeAuthority_eq_ok sha256).mp hdec
  have hnext : ∀ slot : Fin 2, slot = 1 - current.slot →
      decodeAuthority sha256 ⟨sha256 (current.next state), current.next state⟩ slot =
        .ok ⟨slot, ⟨sha256 (current.next state), current.next state⟩⟩ := by
    rintro slot rfl
    refine (decodeAuthority_eq_ok sha256).mpr
      ⟨validateActiveRecord_next.mpr ⟨hg, hs⟩, ?_, rfl, rfl⟩
    have hlt := current.slot.isLt
    simp only [Decoded.next]
    rcases (by omega : current.slot.val = 0 ∨ current.slot.val = 1) with h0 | h1
    · rw [show current.slot = 0 from Fin.ext h0]
      simp
      omega
    · rw [show current.slot = 1 from Fin.ext h1]
      simp
      omega
  have hsel : selectNewer current
      ⟨1 - current.slot, ⟨sha256 (current.next state), current.next state⟩⟩ =
        .ok (some ⟨1 - current.slot, ⟨sha256 (current.next state), current.next state⟩⟩) :=
    selectNewer_eq_ok.mpr ⟨rfl, rfl, halt, rfl⟩
  have hlt := current.slot.isLt
  rcases (by omega : current.slot.val = 0 ∨ current.slot.val = 1) with h0 | h1
  · have hslot : current.slot = 0 := Fin.ext h0
    have hset : slots.set (1 - current.slot) ⟨sha256 (current.next state), current.next state⟩ =
        ⟨some current.authority, some ⟨sha256 (current.next state), current.next state⟩⟩ := by
      rw [hslot] at hget ⊢
      rw [← show slots.slot0 = some current.authority from hget]
      rfl
    rw [hset, selectAuthority_pair sha256 (hslot ▸ hdec) (hnext 1 (by rw [hslot]; rfl)),
      if_neg (by simp [Decoded.next])]
    exact (congrArg (selectNewer current) (by rw [hslot]; rfl)).trans hsel
  · have hslot : current.slot = 1 := Fin.ext h1
    have hset : slots.set (1 - current.slot) ⟨sha256 (current.next state), current.next state⟩ =
        ⟨some ⟨sha256 (current.next state), current.next state⟩, some current.authority⟩ := by
      rw [hslot] at hget ⊢
      rw [← show slots.slot1 = some current.authority from hget]
      rfl
    rw [hset, selectAuthority_pair sha256 (hnext 0 (by rw [hslot]; rfl)) (hslot ▸ hdec),
      if_pos (by simp [Decoded.next])]
    exact (congrArg (selectNewer current) (by rw [hslot]; rfl)).trans hsel

theorem readActiveJournal_eq_ok {slots : Slots} {record : ActiveRecord} :
    readActiveJournal sha256 slots = .ok record ↔
      ∃ current, selectAuthority sha256 slots = .ok (some current) ∧
        current.authority.record = record := by
  simp only [readActiveJournal, bind_eq_ok]
  constructor
  · rintro ⟨o, ho, h⟩
    cases o with
    | none => cases h
    | some current => exact ⟨current, ho, pure_eq_ok.mp h⟩
  · rintro ⟨current, ho, rfl⟩
    exact ⟨some current, ho, rfl⟩

/-- A transition that is made has read a record it expects, and leaves the one
that follows it. -/
theorem readActiveJournal_appendTransition {slots slots' : Slots} {state : JournalState}
    {expected : JournalState → Bool}
    (halt : ∀ s, expected s = true → state.isIdle ≠ s.isIdle)
    (h : appendTransition sha256 slots state expected = .ok slots') :
    ∃ record record', readActiveJournal sha256 slots = .ok record ∧
      expected record.state = true ∧ readActiveJournal sha256 slots' = .ok record' ∧
      record'.state = state ∧ record'.generation = record.generation + 1 ∧
      record'.generation < widthLimit := by
  simp only [appendTransition, bind_eq_ok] at h
  obtain ⟨o, ho, h⟩ := h
  cases o with
  | none => cases h
  | some current =>
      simp only [bind_eq_ok, refuse_eq_ok, pure_eq_ok, not_le, Bool.not_eq_false] at h
      obtain ⟨_, hexp, _, hgen, _, hvalid, rfl⟩ := h
      have hs := (validateActiveRecord_next.mp hvalid).2
      exact ⟨_, _, (readActiveJournal_eq_ok sha256).mpr ⟨current, ho, rfl⟩, hexp,
        (readActiveJournal_eq_ok sha256).mpr
          ⟨_, selectAuthority_set sha256 ho hgen hs (halt _ hexp), rfl⟩, rfl, rfl, hgen⟩

/-- A transition is made when the record is expected and a generation is left. -/
theorem appendTransition_isOk {slots : Slots} {state : JournalState} {record : ActiveRecord}
    {expected : JournalState → Bool}
    (hread : readActiveJournal sha256 slots = .ok record) (hexp : expected record.state = true)
    (hg : record.generation + 1 < widthLimit)
    (hs : ∀ tid first, state = .opened tid first → first < widthLimit) :
    ∃ slots', appendTransition sha256 slots state expected = .ok slots' := by
  obtain ⟨current, ho, rfl⟩ := (readActiveJournal_eq_ok sha256).mp hread
  refine ⟨slots.set (1 - current.slot) ⟨sha256 (current.next state), current.next state⟩, ?_⟩
  simp only [appendTransition, bind_eq_ok]
  refine ⟨some current, ho, ?_⟩
  simp only [bind_eq_ok, refuse_eq_ok, not_le, Bool.not_eq_false]
  exact ⟨(), hexp, (), hg, (), validateActiveRecord_next.mpr ⟨hg, hs⟩, rfl⟩

theorem readActiveJournal_activate {slots slots' : Slots} {tid : Id} {first : Nat}
    (h : activateJournal sha256 slots tid first = .ok slots') :
    ∃ record record', readActiveJournal sha256 slots = .ok record ∧ record.state = .idle ∧
      readActiveJournal sha256 slots' = .ok record' ∧ record'.state = .opened tid first := by
  obtain ⟨record, record', hr, hexp, hr', hs', -⟩ :=
    readActiveJournal_appendTransition sha256
      (fun s hs => by rw [hs]; exact Bool.false_ne_true) h
  refine ⟨record, record', hr, ?_, hr', hs'⟩
  cases hstate : record.state with
  | idle => rfl
  | opened _ _ => rw [hstate] at hexp; cases hexp

theorem readActiveJournal_idle {slots slots' : Slots} {tid : Id}
    (h : idleJournal sha256 slots tid = .ok slots') :
    ∃ record record' first, readActiveJournal sha256 slots = .ok record ∧
      record.state = .opened tid first ∧
      readActiveJournal sha256 slots' = .ok record' ∧ record'.state = .idle := by
  obtain ⟨record, record', hr, hexp, hr', hs', -⟩ :=
    readActiveJournal_appendTransition sha256
      (fun s hs => by cases s with
        | idle => cases hs
        | opened _ _ => simp [JournalState.isIdle]) h
  cases hstate : record.state with
  | idle => rw [hstate] at hexp; cases hexp
  | opened tid' first =>
      rw [hstate] at hexp
      cases (beq_iff_eq.mp hexp)
      exact ⟨record, record', first, hr, hstate, hr', hs'⟩

/-- An open pointer can be closed while a generation is left. -/
theorem idleJournal_isOk {slots : Slots} {record : ActiveRecord} {tid : Id} {first : Nat}
    (hread : readActiveJournal sha256 slots = .ok record) (hs : record.state = .opened tid first)
    (hg : record.generation + 1 < widthLimit) : ∃ slots', idleJournal sha256 slots tid = .ok slots' :=
  appendTransition_isOk sha256 hread (by rw [hs]; exact beq_self_eq_true tid) hg (by simp)

theorem readActiveJournal_initialise :
    readActiveJournal sha256 (initialiseActiveJournal sha256) = .ok genesis := by
  refine (readActiveJournal_eq_ok sha256).mpr ⟨⟨0, ⟨sha256 genesis, genesis⟩⟩, ?_, rfl⟩
  have hdec : decodeAuthority sha256 ⟨sha256 genesis, genesis⟩ 0 =
      .ok ⟨0, ⟨sha256 genesis, genesis⟩⟩ :=
    (decodeAuthority_eq_ok sha256).mpr ⟨rfl, rfl, rfl, rfl⟩
  simp only [selectAuthority, initialiseActiveJournal]
  rw [hdec]
  rfl

end Acc.Storage
