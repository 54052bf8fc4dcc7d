import AgentsCanCommunicate.Storage.ActiveJournal
import AgentsCanCommunicate.Library.Registers

/-!
# Reading the pointer while it moves

A reader opens slot zero, then slot one, then slot zero again.  Between any two
of its steps other processes may publish any number of transitions.  When the
two readings of slot zero differ it starts over, four times at most.

Every authority that was published is kept in `World.published`, the newest
first.  No program reads that log.  It says what the slots hold: a slot holds the
newest authority of its parity (`Published.get_eq`).  Generations never repeat,
so two equal readings of slot zero say that it did not change between them, and
the pair is what both slots held when slot one was read
(`readStableSlots_stable`).

A transition is made by the writer that holds the mutex, so what it read is what
it follows.  `nextAuthority` is the authority it publishes.
-/

namespace Acc.Storage

variable (sha256 : ActiveRecord → Digest)

/-! ## Reading a slot -/

def authorityBytesLimit : Nat := 1024

/-- The length of a digest in hexadecimal. -/
def digestWidth : Nat := 64

def generationWidth : Nat := 16

/-- The length of the state of a record, with what separates it from the checksum
before it.  A portable identifier has one byte for each character. -/
def JournalState.encodedLength : JournalState → Nat
  | .idle => ",\n    \"state\": \"idle\"".length
  | .opened transactionId _ =>
      ",\n    \"state\": \"open\"".length +
        (",\n    \"transactionId\": \"\"".length + transactionId.val.length) +
        (",\n    \"firstSequence\": \"\"".length + generationWidth)

/-- The length of the checksum a record follows. -/
def previousChecksumLength : Option Digest → Nat
  | none => "null".length
  | some _ => "\"\"".length + digestWidth

def ActiveRecord.encodedLength (record : ActiveRecord) : Nat :=
  "\x7b\n    \"activeJournalVersion\": ".length +
      (toString record.activeJournalVersion).length +
    (",\n    \"generation\": \"\"".length + generationWidth) +
    (",\n    \"previousChecksum\": ".length + previousChecksumLength record.previousChecksum) +
    record.state.encodedLength + "\n  \x7d".length

/-- The number of bytes of a slot. -/
def Authority.encodedLength (a : Authority) : Nat :=
  ("\x7b\n  \"activeJournalChecksum\": \"\"".length + digestWidth) +
    (",\n  \"record\": ".length + a.record.encodedLength) + "\n\x7d\n".length

/-- Reads one slot, which may be absent. -/
def readSlotBytes (slots : Slots) (slot : Fin 2) : Result (Option Authority) :=
  match slots.get slot with
  | none => .ok none
  | some a => do
      refuse (a.encodedLength < 1 ∨ authorityBytesLimit < a.encodedLength)
        ⟨.data, "invalid active journal authority size"⟩
      pure (some a)

/-! ## Readers -/

def readAttempts : Nat := 4

/-- Where a reader is in `readStableSlots`. -/
inductive SlotReader where
  /-- It opens slot zero next. -/
  | slot0 (attempt : Nat)
  /-- It opens slot one next. -/
  | slot1 (attempt : Nat) (slot0 : Option Authority)
  /-- It opens slot zero again next. -/
  | confirmation (attempt : Nat) (slot0 slot1 : Option Authority)
  /-- It answered a pair. -/
  | returned (slots : Slots)
  /-- It answered an error. -/
  | failed (error : AccError)
deriving DecidableEq

/-- A reading that fails ends the call. -/
def SlotReader.afterReading (r : Result (Option Authority)) (k : Option Authority → SlotReader) : SlotReader :=
  match r with
  | .ok bytes => k bytes
  | .error e => .failed e

local instance neZero_two : NeZero 2 := inferInstance

/-- The next step of a reader.  One that answered begins its next call. -/
def SlotReader.next (slots : Slots) : SlotReader → SlotReader
  | .slot0 attempt => .afterReading (readSlotBytes slots 0) (.slot1 attempt)
  | .slot1 attempt first => .afterReading (readSlotBytes slots 1) (.confirmation attempt first)
  | .confirmation attempt first second =>
      .afterReading (readSlotBytes slots 0) fun slot0Confirmation =>
        if first = slot0Confirmation then .returned ⟨first, second⟩
        else if attempt + 1 < readAttempts then .slot0 (attempt + 1)
        else .failed ⟨.conflict, "active journal changed while being read"⟩
  | .returned _ => .slot0 0
  | .failed _ => .slot0 0

/-! ## Readers and writers -/

/-- The slot a transition replaces, and what it publishes there. -/
def nextAuthority (slots : Slots) (state : JournalState) (expected : JournalState → Bool) :
    Result (Fin 2 × Authority) := do
  match ← selectAuthority sha256 slots with
  | none => .error ⟨.conflict, "active journal transition conflicts"⟩
  | some current =>
      refuse (expected current.authority.record.state = false)
        ⟨.conflict, "active journal transition conflicts"⟩
      refuse (widthLimit ≤ current.authority.record.generation + 1)
        ⟨.data, "active journal generation is exhausted"⟩
      let record := current.next state
      validateActiveRecord record
      pure (1 - current.slot, ⟨sha256 record, record⟩)

theorem appendTransition_eq_set (slots : Slots) (state : JournalState)
    (expected : JournalState → Bool) :
    appendTransition sha256 slots state expected =
      (fun p => slots.set p.1 p.2) <$> nextAuthority sha256 slots state expected := by
  rw [appendTransition, nextAuthority, map_bind]
  refine bind_congr_ok fun o _ => ?_
  cases o with
  | none => rfl
  | some current => simp only [map_bind, map_pure]

/-- The slots, every authority that was ever published in them, and the readers. -/
structure World (ι : Type*) where
  slots : Slots
  /-- The newest first. -/
  published : List Authority
  readers : ι → SlotReader

/-- What one process does next. -/
inductive Act (ι : Type*) where
  /-- A process opens the store for the first time. -/
  | initialise
  /-- A writer opens a transaction. -/
  | activate (transactionId : Id) (firstSequence : Nat)
  /-- A writer closes one. -/
  | idle (transactionId : Id)
  /-- A reader takes one step. -/
  | read (reader : ι)

namespace World

variable {ι : Type*}

/-- A fresh store, and readers that have not begun. -/
def fresh (ι : Type*) : World ι := ⟨⟨none, none⟩, [], fun _ => .slot0 0⟩

def publish (w : World ι) (slot : Fin 2) (a : Authority) : World ι :=
  { w with slots := w.slots.set slot a, published := a :: w.published }

/-- A transition that is refused publishes nothing. -/
def transition (w : World ι) (state : JournalState) (expected : JournalState → Bool) : World ι :=
  match nextAuthority sha256 w.slots state expected with
  | .ok (slot, a) => w.publish slot a
  | .error _ => w

/-- The genesis record never replaces one. -/
def step [DecidableEq ι] (w : World ι) : Act ι → World ι
  | .initialise => if w.slots.slot0 = none then w.publish 0 ⟨sha256 genesis, genesis⟩ else w
  | .activate transactionId firstSequence =>
      w.transition sha256 (.opened transactionId firstSequence) JournalState.isIdle
  | .idle transactionId =>
      w.transition sha256 .idle fun current =>
        match current with
        | .idle => false
        | .opened tid _ => tid == transactionId
  | .read i => { w with readers := Function.update w.readers i ((w.readers i).next w.slots) }

end World

/-! ## Every published authority can be read -/

theorem Id.length_le (i : Id) : i.val.length ≤ 200 := by
  have h := i.portable
  unfold isPortableId at h
  rw [← String.length_toList]
  split at h
  next => simp at h
  next c cs hcs =>
      simp only [Bool.and_eq_true, decide_eq_true_eq] at h
      rw [hcs, List.length_cons]
      omega

theorem JournalState.encodedLength_le (state : JournalState) : state.encodedLength ≤ 290 := by
  cases state with
  | idle => decide
  | opened transactionId firstSequence =>
      have hid := Id.length_le transactionId
      have hlit : ",\n    \"state\": \"open\"".length = 21 ∧
          ",\n    \"transactionId\": \"\"".length = 25 ∧
          ",\n    \"firstSequence\": \"\"".length = 25 := by decide
      simp only [encodedLength, generationWidth, hlit]
      omega

theorem previousChecksumLength_le (o : Option Digest) : previousChecksumLength o ≤ 66 := by
  cases o with
  | none => decide
  | some d => exact le_of_eq rfl

theorem Authority.encodedLength_le {a : Authority}
    (h : validateActiveRecord a.record = .ok ()) : a.encodedLength ≤ authorityBytesLimit := by
  have hversion : a.record.activeJournalVersion = activeJournalVersion := by
    simp only [validateActiveRecord, bind_eq_ok, refuse_eq_ok, ne_eq, not_not] at h
    exact h.choose_spec.1
  have hlit : ("\x7b\n    \"activeJournalVersion\": ".length = 30) ∧
      (toString activeJournalVersion).length = 1 ∧ ",\n    \"generation\": \"\"".length = 22 ∧
      ",\n    \"previousChecksum\": ".length = 26 ∧ "\n  \x7d".length = 4 ∧
      "\x7b\n  \"activeJournalChecksum\": \"\"".length = 31 ∧
      ",\n  \"record\": ".length = 14 ∧ "\n\x7d\n".length = 3 := by decide
  have hstate := a.record.state.encodedLength_le
  have hprevious := previousChecksumLength_le a.record.previousChecksum
  simp only [encodedLength, ActiveRecord.encodedLength, hversion, hlit, generationWidth,
    digestWidth, authorityBytesLimit]
  omega

theorem Authority.encodedLength_pos (a : Authority) : 1 ≤ a.encodedLength := by
  have h : "\n\x7d\n".length = 3 := by decide
  rw [encodedLength, h]
  omega

/-- A slot that is absent or holds a valid record is read as it is. -/
theorem readSlotBytes_eq {slots : Slots} {slot : Fin 2}
    (h : ∀ a, slots.get slot = some a → validateActiveRecord a.record = .ok ()) :
    readSlotBytes slots slot = .ok (slots.get slot) := by
  rw [readSlotBytes]
  cases hget : slots.get slot with
  | none => rfl
  | some a =>
      have hle := Authority.encodedLength_le (h a hget)
      have hpos := a.encodedLength_pos
      have hfits : ¬(a.encodedLength < 1 ∨ authorityBytesLimit < a.encodedLength) := by omega
      simp only [refuse, if_neg hfits]
      rfl

/-! ## What writers leave -/

@[simp] theorem Slots.get_set_self (slots : Slots) (i : Fin 2) (a : Authority) :
    (slots.set i a).get i = some a := by
  unfold Slots.set Slots.get
  split <;> rfl

theorem Slots.get_set_of_ne {slots : Slots} {i j : Fin 2} (a : Authority) (h : j ≠ i) :
    (slots.set i a).get j = slots.get j := by
  unfold Slots.set Slots.get
  split <;> split
  · exact absurd (by rw [‹j = 0›, ‹i = 0›]) h
  · rfl
  · rfl
  · omega

theorem selectAuthority_genesis :
    selectAuthority sha256 ⟨some ⟨sha256 genesis, genesis⟩, none⟩ =
      .ok (some ⟨0, ⟨sha256 genesis, genesis⟩⟩) := by
  have hdec : decodeAuthority sha256 ⟨sha256 genesis, genesis⟩ 0 =
      .ok ⟨0, ⟨sha256 genesis, genesis⟩⟩ :=
    (decodeAuthority_eq_ok sha256).mpr ⟨rfl, rfl, rfl, rfl⟩
  simp only [selectAuthority]
  rw [hdec]
  rfl

/-- What a transition publishes goes in the other slot, follows the authority in
force, and is in force. -/
theorem nextAuthority_spec {slots : Slots} {state : JournalState}
    {expected : JournalState → Bool} {slot : Fin 2} {a : Authority}
    (halt : ∀ s, expected s = true → state.isIdle ≠ s.isIdle)
    (h : nextAuthority sha256 slots state expected = .ok (slot, a)) :
    ∃ current, selectAuthority sha256 slots = .ok (some current) ∧
      a.record.generation = current.authority.record.generation + 1 ∧
      selectAuthority sha256 (slots.set slot a) = .ok (some ⟨slot, a⟩) := by
  simp only [nextAuthority, bind_eq_ok] at h
  obtain ⟨o, ho, h⟩ := h
  cases o with
  | none => cases h
  | some current =>
      simp only [bind_eq_ok, refuse_eq_ok, pure_eq_ok, not_le, Bool.not_eq_false,
        Prod.mk.injEq] at h
      obtain ⟨_, hexp, _, hgen, _, hvalid, rfl, rfl⟩ := h
      have hs := (validateActiveRecord_next.mp hvalid).2
      exact ⟨current, ho, rfl, selectAuthority_set sha256 ho hgen hs (halt _ hexp)⟩

namespace World

variable {ι : Type*}

/-- What holds of the slots and of everything that was published in them. -/
structure Sound (w : World ι) : Prop where
  /-- A slot holds the newest authority of its parity. -/
  get_eq : ∀ i : Fin 2, w.slots.get i =
    w.published.find? fun a => decide (a.record.generation % 2 = i.val)
  /-- Generations never repeat. -/
  descending : w.published.Pairwise fun a b => b.record.generation < a.record.generation
  valid : ∀ a ∈ w.published, validateActiveRecord a.record = .ok ()
  /-- The newest authority is in force. -/
  select : ∃ current, selectAuthority sha256 w.slots = .ok current ∧
    current.map Decoded.authority = w.published.head?

variable {sha256}

theorem Sound.publish {w : World ι} {slot : Fin 2} {a : Authority} (hw : w.Sound sha256)
    (hsel : selectAuthority sha256 (w.slots.set slot a) = .ok (some ⟨slot, a⟩))
    (hgen : ∀ b ∈ w.published, b.record.generation < a.record.generation) :
    (w.publish slot a).Sound sha256 := by
  obtain ⟨hvalid, hparity, -, -⟩ :=
    (decodeAuthority_eq_ok sha256).mp (selectAuthority_decoded sha256 hsel).2
  refine ⟨fun i => ?_, List.pairwise_cons.mpr ⟨hgen, hw.descending⟩, ?_, ⟨_, hsel, rfl⟩⟩
  · show (w.slots.set slot a).get i = _
    by_cases hi : i = slot
    · rw [hi, Slots.get_set_self, World.publish, List.find?_cons_of_pos (by simpa using hparity)]
    · have hne : ¬a.record.generation % 2 = i.val := by
        rw [show a.record.generation % 2 = slot.val from hparity]
        exact fun heq => hi (Fin.ext heq.symm)
      rw [Slots.get_set_of_ne a hi, hw.get_eq i, World.publish,
        List.find?_cons_of_neg (by simpa using hne)]
  · intro b hb
    rcases List.mem_cons.mp hb with rfl | hb
    · exact hvalid
    · exact hw.valid b hb

/-- No authority published so far is newer than the one in force. -/
theorem Sound.generation_le {w : World ι} (hw : w.Sound sha256) {current : Decoded}
    (h : selectAuthority sha256 w.slots = .ok (some current)) :
    ∀ b ∈ w.published, b.record.generation ≤ current.authority.record.generation := by
  obtain ⟨o, ho, hhead⟩ := hw.select
  cases ho.symm.trans h
  have hdesc := hw.descending
  intro b hb
  cases hpub : w.published with
  | nil => rw [hpub] at hb; cases hb
  | cons a rest =>
      rw [hpub] at hb hdesc hhead
      cases hhead
      rcases List.mem_cons.mp hb with rfl | hb
      · exact le_rfl
      · exact ((List.pairwise_cons.mp hdesc).1 b hb).le

theorem Sound.transition {w : World ι} (hw : w.Sound sha256) {state : JournalState}
    {expected : JournalState → Bool} (halt : ∀ s, expected s = true → state.isIdle ≠ s.isIdle) :
    (w.transition sha256 state expected).Sound sha256 := by
  unfold World.transition
  split
  next slot a h =>
      obtain ⟨current, hcurrent, hgen, hsel⟩ := nextAuthority_spec sha256 halt h
      refine hw.publish hsel fun b hb => ?_
      have hle := hw.generation_le hcurrent b hb
      omega
  next => exact hw

theorem Sound.fresh : (World.fresh ι).Sound sha256 :=
  ⟨fun i => by unfold Slots.get; split <;> rfl, .nil, nofun, ⟨none, rfl, rfl⟩⟩

/-- A store without a first slot has published nothing. -/
theorem Sound.published_eq_nil {w : World ι} (hw : w.Sound sha256) (h : w.slots.slot0 = none) :
    w.published = [] := by
  obtain ⟨o, ho, hhead⟩ := hw.select
  cases o with
  | none => exact List.head?_eq_none_iff.mp hhead.symm
  | some current =>
      exfalso
      unfold selectAuthority at ho
      rw [h] at ho
      cases hslot : w.slots.slot1 with
      | none => rw [hslot] at ho; cases ho
      | some b =>
          rw [hslot] at ho
          simp only [bind_eq_ok] at ho
          obtain ⟨_, _, ho⟩ := ho
          cases ho

theorem Sound.step [DecidableEq ι] {w : World ι} (hw : w.Sound sha256) (act : Act ι) :
    (w.step sha256 act).Sound sha256 := by
  cases act with
  | initialise =>
      rw [World.step]
      split
      next h =>
          have hnil := hw.published_eq_nil h
          have hslot1 : w.slots.slot1 = none := by
            have hget := hw.get_eq 1
            rw [hnil] at hget
            exact hget
          refine hw.publish ?_ (by rw [hnil]; exact nofun)
          rw [← selectAuthority_genesis sha256, ← hslot1]
          rfl
      next => exact hw
  | activate transactionId firstSequence =>
      exact hw.transition fun s hs => by rw [hs]; exact Bool.false_ne_true
  | idle transactionId =>
      refine hw.transition fun s hs => ?_
      cases s with
      | idle => cases hs
      | opened _ _ => simp [JournalState.isIdle]
  | read i => exact ⟨hw.get_eq, hw.descending, hw.valid, hw.select⟩

theorem Sound.readSlotBytes_eq {w : World ι} (hw : w.Sound sha256) (slot : Fin 2) :
    readSlotBytes w.slots slot = .ok (w.slots.get slot) := by
  refine Storage.readSlotBytes_eq fun a ha => hw.valid a ?_
  rw [hw.get_eq slot] at ha
  exact List.mem_of_find?_eq_some ha

/-- A slot that comes back to what it held never held anything else. -/
theorem Sound.get_between {old mid new : World ι} (hold : old.Sound sha256)
    (hmid : mid.Sound sha256) (hnew : new.Sound sha256) (hom : old.published <:+ mid.published)
    (hmn : mid.published <:+ new.published) {slot : Fin 2}
    (h : new.slots.get slot = old.slots.get slot) : mid.slots.get slot = old.slots.get slot := by
  have hnodup : new.published.Nodup := hnew.descending.imp fun hlt heq => by
    rw [heq] at hlt
    exact lt_irrefl _ hlt
  rw [hnew.get_eq, hold.get_eq] at h
  rw [hmid.get_eq, hold.get_eq]
  exact Library.find?_between hnodup hom hmn h

theorem published_suffix_transition (w : World ι) (state : JournalState)
    (expected : JournalState → Bool) :
    w.published <:+ (w.transition sha256 state expected).published := by
  unfold World.transition
  split
  · exact List.suffix_cons _ _
  · exact List.suffix_rfl

theorem published_suffix_step [DecidableEq ι] (w : World ι) (act : Act ι) :
    w.published <:+ (w.step sha256 act).published := by
  cases act with
  | initialise =>
      rw [World.step]
      split
      · exact List.suffix_cons _ _
      · exact List.suffix_rfl
  | activate _ _ => exact published_suffix_transition w _ _
  | idle _ => exact published_suffix_transition w _ _
  | read i => exact List.suffix_rfl

end World

/-! ## What a reader has seen -/

/-- What a reader knows at an instant, when its call began no earlier than
`start`: which instants its readings are of.  `slots n` is what the slots hold at
the instant `n`. -/
def SlotReader.Since (slots : ℕ → Slots) (start now : ℕ) : SlotReader → Prop
  | .slot0 _ => True
  | .slot1 _ first => ∃ m, start ≤ m ∧ m ≤ now ∧ (slots m).get 0 = first
  | .confirmation _ first second => ∃ m k, start ≤ m ∧ m ≤ k ∧ k ≤ now ∧
      (slots m).get 0 = first ∧ (slots k).get 1 = second
  | .returned pair => ∃ m, start ≤ m ∧ m ≤ now ∧ slots m = pair
  | .failed e => e = ⟨.conflict, "active journal changed while being read"⟩

section Readers

variable {slots : ℕ → Slots} {start now : ℕ}

/-- What a reader knows it still knows later. -/
theorem SlotReader.Since.later {r : SlotReader} (h : r.Since slots start now) :
    r.Since slots start (now + 1) := by
  cases r with
  | slot0 _ => trivial
  | slot1 _ first =>
      obtain ⟨m, hs, hm, hfirst⟩ := h
      exact ⟨m, hs, hm.trans (Nat.le_succ _), hfirst⟩
  | confirmation _ first second =>
      obtain ⟨m, k, hs, hm, hk, hread⟩ := h
      exact ⟨m, k, hs, hm, hk.trans (Nat.le_succ _), hread⟩
  | returned pair =>
      obtain ⟨m, hs, hm, hpair⟩ := h
      exact ⟨m, hs, hm.trans (Nat.le_succ _), hpair⟩
  | failed e => exact h

/-- A step of a reader, when no slot comes back to what it held. -/
theorem SlotReader.Since.next {r : SlotReader} (h : r.Since slots start now) (hstart : start ≤ now)
    (hread : ∀ slot, readSlotBytes (slots now) slot = .ok ((slots now).get slot))
    (hbetween : ∀ m k, m ≤ k → k ≤ now → (slots now).get 0 = (slots m).get 0 →
      (slots k).get 0 = (slots m).get 0) :
    (r.next (slots now)).Since slots start (now + 1) := by
  cases r with
  | slot0 attempt =>
      rw [SlotReader.next, hread]
      exact ⟨now, hstart, Nat.le_succ _, rfl⟩
  | slot1 attempt first =>
      obtain ⟨m, hs, hm, hfirst⟩ := h
      rw [SlotReader.next, hread]
      exact ⟨m, now, hs, hm, Nat.le_succ _, hfirst, rfl⟩
  | confirmation attempt first second =>
      obtain ⟨m, k, hs, hm, hk, hfirst, hsecond⟩ := h
      rw [SlotReader.next, hread]
      show SlotReader.Since slots start (now + 1)
        (if first = (slots now).get 0 then .returned ⟨first, second⟩
        else if attempt + 1 < readAttempts then .slot0 (attempt + 1)
        else .failed ⟨.conflict, "active journal changed while being read"⟩)
      split
      next hsame =>
          -- The pair is what the slots held when slot one was read.
          have hzero : (slots k).get 0 = first :=
            (hbetween m k hm hk (hsame.symm.trans hfirst.symm)).trans hfirst
          refine ⟨k, hs.trans hm, hk.trans (Nat.le_succ _), ?_⟩
          rw [← hzero, ← hsecond]
          rfl
      next =>
          split
          · trivial
          · rfl
  | returned pair => trivial
  | failed e => trivial

end Readers

/-! ## Every interleaving -/

section Interleavings

variable {ι : Type*} [DecidableEq ι] (acts : ℕ → Act ι)

/-- The world after the first `n` acts, from a fresh store. -/
def World.at (n : ℕ) : World ι := Library.history (World.step sha256) (World.fresh ι) acts n

theorem World.sound_at (n : ℕ) : (World.at sha256 acts n).Sound sha256 :=
  Library.history_invariant Sound.fresh (fun _ act hw => hw.step act) n

theorem World.published_at {m n : ℕ} (h : m ≤ n) :
    (World.at sha256 acts m).published <:+ (World.at sha256 acts n).published :=
  Library.history_relate (R := fun v w : World ι => v.published <:+ w.published)
    (fun _ => List.suffix_rfl) (fun _ _ _ h₁ h₂ => h₁.trans h₂)
    (fun w act => published_suffix_step w act) h

/-- One act of any process leaves a reader where it is, or is its next step. -/
theorem World.readers_succ (i : ι) (n : ℕ) :
    (World.at sha256 acts (n + 1)).readers i = (World.at sha256 acts n).readers i ∨
      (World.at sha256 acts (n + 1)).readers i =
        ((World.at sha256 acts n).readers i).next (World.at sha256 acts n).slots := by
  have hsucc : World.at sha256 acts (n + 1) =
      (World.at sha256 acts n).step sha256 (acts n) := rfl
  rw [hsucc]
  cases acts n with
  | initialise =>
      rw [World.step]
      split <;> exact .inl rfl
  | activate _ _ =>
      rw [World.step, World.transition]
      split <;> exact .inl rfl
  | idle _ =>
      rw [World.step, World.transition]
      split <;> exact .inl rfl
  | read j =>
      rcases eq_or_ne i j with rfl | hij
      · exact .inr (Function.update_self ..)
      · exact .inl (Function.update_of_ne hij ..)

variable {acts} {i : ι} {start now : ℕ}

theorem World.since_succ (hstart : start ≤ now)
    (h : ((World.at sha256 acts now).readers i).Since (fun n => (World.at sha256 acts n).slots)
      start now) :
    ((World.at sha256 acts (now + 1)).readers i).Since (fun n => (World.at sha256 acts n).slots)
      start (now + 1) := by
  rcases World.readers_succ sha256 acts i now with hsame | hnext
  · rw [hsame]
    exact h.later
  · rw [hnext]
    have hnow := World.sound_at sha256 acts now
    exact h.next hstart hnow.readSlotBytes_eq fun m k hmk hk heq =>
      (World.sound_at sha256 acts m).get_between (World.sound_at sha256 acts k) hnow
        (World.published_at sha256 acts hmk) (World.published_at sha256 acts hk) heq

/-- What a reader that begins at `start` has seen. -/
theorem World.since_of_begins (hbegins : (World.at sha256 acts start).readers i = .slot0 0)
    (h : start ≤ now) :
    ((World.at sha256 acts now).readers i).Since (fun n => (World.at sha256 acts n).slots)
      start now := by
  induction now, h using Nat.le_induction with
  | base =>
      rw [hbegins]
      trivial
  | succ n hn ih => exact World.since_succ sha256 hn ih

/-- After it answered, a reader still shows that answer, or has begun another
call since. -/
theorem World.since_of_returned {pair : Slots}
    (hreturned : (World.at sha256 acts start).readers i = .returned pair) (h : start ≤ now) :
    (World.at sha256 acts now).readers i = .returned pair ∨
      ((World.at sha256 acts now).readers i).Since (fun n => (World.at sha256 acts n).slots)
        start now := by
  induction now, h using Nat.le_induction with
  | base => exact .inl hreturned
  | succ n hn ih =>
      rcases ih with hstill | hsince
      · rcases World.readers_succ sha256 acts i n with hsame | hnext
        · exact .inl (hsame.trans hstill)
        · right
          rw [hnext, hstill]
          trivial
      · exact .inr (World.since_succ sha256 hn hsince)

/-- The generation of the authority in force, below every other when there is none. -/
def authorityGeneration (current : Option Decoded) : WithBot ℕ :=
  current.elim ⊥ fun d => d.authority.record.generation

/-- The authority in force at an instant is no newer than at a later one. -/
theorem World.authorityGeneration_le {m n : ℕ} (h : m ≤ n) {older newer : Option Decoded}
    (hm : selectAuthority sha256 (World.at sha256 acts m).slots = .ok older)
    (hn : selectAuthority sha256 (World.at sha256 acts n).slots = .ok newer) :
    authorityGeneration older ≤ authorityGeneration newer := by
  obtain ⟨o, ho, hhead⟩ := (World.sound_at sha256 acts m).select
  cases ho.symm.trans hm
  cases older with
  | none => exact bot_le
  | some old =>
      have hold : old.authority ∈ (World.at sha256 acts m).published :=
        List.mem_of_mem_head? (hhead ▸ rfl)
      have hmem : old.authority ∈ (World.at sha256 acts n).published :=
        (World.published_at sha256 acts h).subset hold
      cases newer with
      | none =>
          obtain ⟨o, ho, hhead⟩ := (World.sound_at sha256 acts n).select
          cases ho.symm.trans hn
          rw [List.head?_eq_none_iff.mp hhead.symm] at hmem
          cases hmem
      | some new =>
          exact WithBot.coe_le_coe.mpr
            ((World.sound_at sha256 acts n).generation_le hn _ hmem)

variable (acts) (i)

/-- Whatever the interleaving, a pair a reader answers is what both slots held at
an instant of its call.  At every instant the slots name the authority that was
published last.  So the authority a reader finds never gets older. -/
theorem readStableSlots_stable :
    (∀ start n pair, start ≤ n → (World.at sha256 acts start).readers i = .slot0 0 →
      (World.at sha256 acts n).readers i = .returned pair →
      ∃ m, start ≤ m ∧ m ≤ n ∧ (World.at sha256 acts m).slots = pair) ∧
    (∀ n, ∃ current, selectAuthority sha256 (World.at sha256 acts n).slots = .ok current ∧
      current.map Decoded.authority = (World.at sha256 acts n).published.head?) ∧
    ∀ m n first second, m ≤ n → (World.at sha256 acts m).readers i = .returned first →
      (World.at sha256 acts n).readers i = .returned second →
      ∃ older newer, selectAuthority sha256 first = .ok older ∧
        selectAuthority sha256 second = .ok newer ∧
        authorityGeneration older ≤ authorityGeneration newer := by
  refine ⟨fun start n pair h hbegins hreturned => ?_,
    fun n => (World.sound_at sha256 acts n).select, fun m n first second h hm hn => ?_⟩
  · have hsince := World.since_of_begins sha256 hbegins h
    rw [hreturned] at hsince
    exact hsince
  · have hfirst : ((World.at sha256 acts m).readers i).Since
        (fun k => (World.at sha256 acts k).slots) 0 m :=
      World.since_of_begins sha256 rfl (Nat.zero_le m)
    rw [hm] at hfirst
    obtain ⟨a, -, ha, hslots⟩ := hfirst
    obtain ⟨c, hac, hslots'⟩ : ∃ c, a ≤ c ∧ (World.at sha256 acts c).slots = second := by
      rcases World.since_of_returned sha256 hm h with hstill | hsince
      · rw [hn] at hstill
        cases hstill
        exact ⟨a, le_rfl, hslots⟩
      · rw [hn] at hsince
        obtain ⟨c, hc, -, hslots'⟩ := hsince
        exact ⟨c, ha.trans hc, hslots'⟩
    obtain ⟨older, holder, -⟩ := (World.sound_at sha256 acts a).select
    obtain ⟨newer, hnewer, -⟩ := (World.sound_at sha256 acts c).select
    have hle := World.authorityGeneration_le sha256 hac holder hnewer
    exact ⟨older, newer, hslots ▸ holder, hslots' ▸ hnewer, hle⟩

/-- A transaction opens and closes between the two readings of slot zero, and the
reader starts over. -/
example :
    let tid : Id := ⟨"txn_a", by decide⟩
    let acts : List (Act Unit) :=
      [.initialise, .read (), .read (), .activate tid 1, .idle tid, .read ()]
    (World.at (fun _ => 0) (fun n => acts.getD n .initialise) 6).readers () = .slot0 1 := by
  decide

end Interleavings

end Acc.Storage
