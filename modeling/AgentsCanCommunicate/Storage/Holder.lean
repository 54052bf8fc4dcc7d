import AgentsCanCommunicate.Storage.Ledger
import AgentsCanCommunicate.Storage.System

/-!
# What the mutex holder is doing

`Holding` lists the forms the remaining actions of a holder can take, each with
what the holder knows at that point.  A transaction prepares its entry, decides
it, rolls it forward; a lone replacement is one action; trimming raises the
floor and then takes the oldest events away.

`Sys.Inv` is the invariant of the store: the ledger holds, the pointer can be
read, an open pointer names the entry of the last decided transaction, and the
holder has one of these forms.  `Sys.inv_reachable` says every run keeps it.
-/

namespace Acc.Storage

open Library (Table Run)

variable {ρ ε : Type}
variable (sha256 : ActiveRecord → Digest)

/-! ## Inversion of actions -/

/-- A transaction is open, or the pointer cannot be read. -/
def Disk.busy (d : Disk ρ ε) : Bool := decide (d.journalState sha256 ≠ some .idle)

theorem Disk.journalState_eq_some {d : Disk ρ ε} {state : JournalState} :
    d.journalState sha256 = some state ↔
      ∃ record, readActiveJournal sha256 d.slots = .ok record ∧ record.state = state := by
  rw [Disk.journalState]
  cases h : readActiveJournal sha256 d.slots with
  | error e => simp
  | ok record =>
      simp only [Option.some.injEq, Except.ok.injEq]
      constructor
      · exact fun h => ⟨record, rfl, h⟩
      · rintro ⟨_, rfl, hs⟩
        exact hs

section Actions

variable [DecidableEq ρ] [DecidableEq ε]

namespace Disk

theorem act_writeEntry {d d' : Disk ρ ε} {entry : JournalEntry ρ ε}
    (h : d.act sha256 (.writeEntry entry) = .ok d') :
    d' = { d with journal := d.journal.insert entry.transactionId entry } ∧
      (d.journal.get? entry.transactionId = none ∨
        d.journal.get? entry.transactionId = some entry) := by
  simp only [act, bind_eq_ok, publishLinked_eq_ok, pure_eq_ok] at h
  obtain ⟨_, ⟨hold, rfl⟩, rfl⟩ := h
  exact ⟨rfl, hold⟩

theorem act_activate {d d' : Disk ρ ε} {tid : Id} {first : Nat}
    (h : d.act sha256 (.activate tid first) = .ok d') :
    d.journalState sha256 = some .idle ∧ d'.journalState sha256 = some (.opened tid first) ∧
      d' = { d with slots := d'.slots } := by
  simp only [act, bind_eq_ok, pure_eq_ok] at h
  obtain ⟨slots, hslots, rfl⟩ := h
  obtain ⟨record, record', hr, hs, hr', hs'⟩ := readActiveJournal_activate sha256 hslots
  exact ⟨(journalState_eq_some sha256).mpr ⟨record, hr, hs⟩,
    (journalState_eq_some sha256).mpr ⟨record', hr', hs'⟩, rfl⟩

theorem act_publish {d d' : Disk ρ ε} {p : Publication ρ ε} :
    d.act sha256 (.publish p) = .ok d' ↔
      (∀ sequence body, p = .event sequence body → d.contents.events.get? sequence = none ∨
        d.contents.events.get? sequence = some body) ∧
      d' = { d with contents := d.contents.write p } := by
  simp only [act, bind_eq_ok, Contents.publish_eq_ok, pure_eq_ok]
  constructor
  · rintro ⟨_, ⟨h, rfl⟩, rfl⟩
    exact ⟨h, rfl⟩
  · rintro ⟨h, rfl⟩
    exact ⟨_, ⟨h, rfl⟩, rfl⟩

theorem act_idle {d d' : Disk ρ ε} {tid : Id} (h : d.act sha256 (.idle tid) = .ok d') :
    (∃ first, d.journalState sha256 = some (.opened tid first)) ∧
      d'.journalState sha256 = some .idle ∧ d' = { d with slots := d'.slots } := by
  simp only [act, bind_eq_ok, pure_eq_ok] at h
  obtain ⟨slots, hslots, rfl⟩ := h
  obtain ⟨record, record', first, hr, hs, hr', hs'⟩ := readActiveJournal_idle sha256 hslots
  exact ⟨⟨first, (journalState_eq_some sha256).mpr ⟨record, hr, hs⟩⟩,
    (journalState_eq_some sha256).mpr ⟨record', hr', hs'⟩, rfl⟩

end Disk

end Actions

/-! ## The forms of a holder -/

/-- The sequences from `first` on were never issued. -/
structure Fresh (opened : List (JournalEntry ρ ε)) (first count : Nat) : Prop where
  positive : 1 ≤ first
  unissued : ∀ w ∈ issuedOf opened, w.1 < first
  /-- No sequence was skipped. -/
  reached : first = 1 ∨ ∃ w ∈ issuedOf opened, first ≤ w.1 + 1
  bounded : first + count - 1 ≤ maxSafeInteger

/-- What the holder has still to do, and what it knows. -/
inductive Holding (d : Disk ρ ε) (opened : List (JournalEntry ρ ε))
    (published : List (Nat × Publication ρ ε)) : List (Action ρ ε) → Prop where
  /-- The mutex is free. -/
  | free : Holding d opened published []
  /-- A transaction has still to write its entry. -/
  | preparing (first : Nat) (p : Prepared ρ ε) :
      d.journalState sha256 = some .idle → Fresh opened first p.events.length →
      Holding d opened published (.writeEntry (journalEntry first p) ::
        .activate p.transactionId first :: rollForward (journalEntry first p))
  /-- The entry is written and the pointer has still to open. -/
  | deciding (first : Nat) (p : Prepared ρ ε) :
      d.journalState sha256 = some .idle →
      d.journal.get? p.transactionId = some (journalEntry first p) →
      Fresh opened first p.events.length →
      Holding d opened published
        (.activate p.transactionId first :: rollForward (journalEntry first p))
  /-- The open transaction is rolled forward, and some of it was published by
  this holder. -/
  | rolling (entry : JournalEntry ρ ε) (first : Nat) (done todo : List (Publication ρ ε)) :
      d.journalState sha256 = some (.opened entry.transactionId first) →
      opened.getLast? = some entry → entry.publications = done ++ todo →
      (∀ q ∈ done, (opened.length - 1, q) ∈ published) →
      (∀ n e, .event n e ∈ done → d.contents.events.get? n = some e) →
      Holding d opened published (todo.map .publish ++ [.idle entry.transactionId])
  /-- One record is replaced. -/
  | replacing (key : RecordKey) (envelope : Envelope ρ) :
      Holding d opened published [.replaceRecord key envelope]
  /-- The floor has still to be raised. -/
  | trimming (boundary : Nat) (names rest : List Nat) :
      d.contents.events.keys = names ++ rest → (∀ n ∈ names, n ≤ boundary) →
      ((∃ n e, d.contents.events.get? n = some e ∧ boundary ≤ n) ∨
        AtOrBelow d.floor boundary) →
      Holding d opened published (.raiseFloor boundary :: names.map .condemnEvent)
  /-- Events at or below the floor are taken away, oldest first. -/
  | condemning (names rest : List Nat) :
      d.contents.events.keys = names ++ rest → (∀ n ∈ names, AtOrBelow d.floor n) →
      Holding d opened published (names.map .condemnEvent)

/-- The invariant of the store. -/
structure Sys.Inv (s : Sys ρ ε) : Prop where
  ledger : Ledger s.disk.contents.events s.disk.floor s.opened s.published (s.disk.busy sha256)
  /-- The pointer can be read. -/
  readable : ∃ state, s.disk.journalState sha256 = some state
  /-- An open pointer names the entry of the last decided transaction. -/
  entry : ∀ tid first, s.disk.journalState sha256 = some (.opened tid first) →
    ∃ entry, s.opened.getLast? = some entry ∧ s.disk.journal.get? tid = some entry ∧
      entry.transactionId = tid ∧ entry.firstSequence = first ∧
      (∃ es, eventWrites entry.publications = number first es) ∧
      (first = 1 ∨ ∃ w ∈ issuedOf s.opened, first ≤ w.1 + 1)
  holding : Holding sha256 s.disk s.opened s.published s.holder

/-! ## Taking the mutex -/

/-- What recovery reads is the last decided transaction. -/
theorem Sys.Inv.readOpenJournals {s : Sys ρ ε} (h : s.Inv sha256) {tid : Id} {first : Nat}
    (hopen : s.disk.journalState sha256 = some (.opened tid first)) :
    ∃ entry, s.opened.getLast? = some entry ∧ entry.transactionId = tid ∧
      Storage.readOpenJournals sha256 s.disk = .ok (some entry) := by
  obtain ⟨entry, hlast, hget, htid, hfirst, -⟩ := h.entry tid first hopen
  obtain ⟨record, hread, hstate⟩ := (Disk.journalState_eq_some sha256).mp hopen
  refine ⟨entry, hlast, htid, ?_⟩
  simp only [Storage.readOpenJournals, bind_eq_ok]
  refine ⟨record, hread, ?_⟩
  rw [hstate]
  simp only [hget, bind_eq_ok, refuse_eq_ok, pure_eq_ok, htid, hfirst, ne_eq, not_true_eq_false,
    or_self, not_false_eq_true, and_self, exists_const]

theorem recoverActions_idle {d : Disk ρ ε} (hidle : d.journalState sha256 = some .idle) :
    recoverActions sha256 d = [] := by
  obtain ⟨record, hread, hstate⟩ := (Disk.journalState_eq_some sha256).mp hidle
  rw [recoverActions, Storage.readOpenJournals, hread]
  simp only [bind, Except.bind, hstate]
  rfl

/-- What an operation is going to do has one of the forms. -/
theorem Sys.Inv.holding_actions {s : Sys ρ ε} (h : s.Inv sha256) {op : Operation ρ ε}
    {actions : List (Action ρ ε)} (hop : op.actions sha256 s.disk = .ok actions) :
    Holding sha256 s.disk s.opened s.published actions := by
  cases op with
  | recover =>
      cases hop
      obtain ⟨state, hstate⟩ := h.readable
      cases state with
      | idle => rw [recoverActions_idle sha256 hstate]; exact .free
      | opened tid first =>
          obtain ⟨entry, hlast, rfl, hread⟩ := h.readOpenJournals sha256 hstate
          rw [recoverActions, hread]
          exact .rolling entry first [] entry.publications hstate hlast rfl (by simp) (by simp)
  | commit p =>
      simp only [Operation.actions, bind_eq_ok, refuse_eq_ok, ne_eq, not_not] at hop
      obtain ⟨-, hidle, hop⟩ := hop
      simp only [commitActions, bind_eq_ok] at hop
      obtain ⟨before, -, hop⟩ := hop
      have hjournal : ∀ {actions}, journalActions s.disk p = .ok actions →
          Holding sha256 s.disk s.opened s.published actions := by
        intro actions hj
        simp only [journalActions, bind_eq_ok, refuse_eq_ok, pure_eq_ok, not_lt] at hj
        obtain ⟨first, hnext, -, hmax, rfl⟩ := hj
        have hbusy : s.disk.busy sha256 = false := by simp [Disk.busy, hidle]
        obtain ⟨hpos, hnew, hreached⟩ := (hbusy ▸ h.ledger).next hnext
        exact .preparing first p hidle ⟨hpos, hnew, hreached, hmax⟩
      split at hop
      · cases hop
        exact .free
      · split at hop
        next key envelope _ _ =>
          cases hop
          exact .replacing key envelope
        next => exact hjournal hop
  | trim boundary limit =>
      simp only [Operation.actions, trimActions] at hop
      obtain ⟨rest, hrest⟩ : (s.disk.contents.events.keys.takeWhile (· ≤ boundary)).take limit
          <+: s.disk.contents.events.keys :=
        (List.take_prefix _ _).trans (List.takeWhile_prefix _)
      have hle : ∀ n ∈ (s.disk.contents.events.keys.takeWhile (· ≤ boundary)).take limit,
          n ≤ boundary := fun n hn =>
        of_decide_eq_true (List.mem_takeWhile_imp (p := fun n => decide (n ≤ boundary))
          (List.mem_of_mem_take hn))
      split at hop
      next => cases hop
      next newest hnewest =>
        simp only [bind_eq_ok, refuse_eq_ok, pure_eq_ok, not_lt] at hop
        obtain ⟨-, hb, rfl⟩ := hop
        refine .trimming boundary _ rest hrest.symm hle ?_
        cases hlast : s.disk.contents.events.last? with
        | some e =>
            rw [hlast] at hnewest
            cases hnewest
            exact Or.inl ⟨e.1, e.2, (Table.last?_eq_some hlast).1, hb⟩
        | none =>
            rw [hlast] at hnewest
            exact Or.inr ⟨newest, hnewest, hb⟩

/-! ## Doing an action -/

theorem Disk.busy_of_idle {d : Disk ρ ε} (h : d.journalState sha256 = some .idle) :
    d.busy sha256 = false := by simp [Disk.busy, h]

theorem Disk.busy_of_opened {d : Disk ρ ε} {tid : Id} {first : Nat}
    (h : d.journalState sha256 = some (.opened tid first)) : d.busy sha256 = true := by
  simp [Disk.busy, h]

theorem Sys.inv_initial (cursor : Nat) : (Sys.initial sha256 cursor : Sys ρ ε).Inv sha256 := by
  have hidle : (Disk.initial sha256 : Disk ρ ε).journalState sha256 = some .idle :=
    (Disk.journalState_eq_some sha256).mpr ⟨genesis, readActiveJournal_initialise sha256, rfl⟩
  refine ⟨?_, ⟨_, hidle⟩, fun tid first hst => ?_, .free⟩
  · show Ledger _ _ _ _ ((Disk.initial sha256 : Disk ρ ε).busy sha256)
    rw [Disk.busy_of_idle sha256 hidle]
    exact Ledger.empty
  · cases hst.symm.trans hidle

variable [DecidableEq ρ] [DecidableEq ε]

/-- Opening the pointer issues the events of the entry. -/
theorem Sys.Inv.activate {d d' : Disk ρ ε} {holder : List (Action ρ ε)}
    {opened : List (JournalEntry ρ ε)} {published : List (Nat × Publication ρ ε)}
    {reader : Reader ε} (h : Sys.Inv sha256 ⟨d, holder, opened, published, reader⟩) {first : Nat}
    {p : Prepared ρ ε} (hget : d.journal.get? p.transactionId = some (journalEntry first p))
    (hfresh : Fresh opened first p.events.length)
    (hact : d.act sha256 (.activate p.transactionId first) = .ok d') :
    Sys.Inv sha256 ⟨d', rollForward (journalEntry first p), opened ++ [journalEntry first p],
      published, reader⟩ := by
  obtain ⟨hidle, hopen, hd'⟩ := d.act_activate sha256 hact
  have hes : eventWrites (journalEntry first p).publications = number first p.events :=
    eventWrites_publicationsOf first p
  have hlast : (opened ++ [journalEntry first p]).getLast? = some (journalEntry first p) := by simp
  have hledger : Ledger d.contents.events d.floor opened published false :=
    Disk.busy_of_idle sha256 hidle ▸ h.ledger
  refine ⟨?_, ⟨_, hopen⟩, fun tid first' hst => ?_, ?_⟩
  · have := hledger.activate hes hfresh.positive hfresh.unissued hfresh.bounded
    rw [hd']
    exact Disk.busy_of_opened sha256 hopen ▸ this
  · rw [show d'.journalState sha256 = _ from hopen] at hst
    cases hst
    refine ⟨_, hlast, ?_, rfl, rfl, ⟨p.events, hes⟩, hfresh.reached.imp_right ?_⟩
    · rw [hd']
      exact hget
    · rintro ⟨w, hw, hle⟩
      exact ⟨w, issuedOf_append opened _ ▸ List.mem_append_left _ hw, hle⟩
  · exact .rolling (journalEntry first p) first [] _ hopen hlast rfl (by simp) (by simp)

/-- Publishing the next file of the open transaction. -/
theorem Sys.Inv.publish {d d' : Disk ρ ε} {holder : List (Action ρ ε)}
    {opened : List (JournalEntry ρ ε)} {published : List (Nat × Publication ρ ε)}
    {reader : Reader ε} (h : Sys.Inv sha256 ⟨d, holder, opened, published, reader⟩)
    {entry : JournalEntry ρ ε} {first : Nat} {p : Publication ρ ε}
    {done todo : List (Publication ρ ε)}
    (hopen : d.journalState sha256 = some (.opened entry.transactionId first))
    (hlast : opened.getLast? = some entry) (hsplit : entry.publications = done ++ p :: todo)
    (hdone : ∀ q ∈ done, (opened.length - 1, q) ∈ published)
    (hfiles : ∀ n e, .event n e ∈ done → d.contents.events.get? n = some e)
    (hact : d.act sha256 (.publish p) = .ok d') :
    Sys.Inv sha256 ⟨d', todo.map .publish ++ [.idle entry.transactionId], opened,
      published ++ [(opened.length - 1, p)], reader⟩ := by
  obtain ⟨hfree, rfl⟩ := (d.act_publish sha256).mp hact
  have hledger : Ledger d.contents.events d.floor opened published true :=
    Disk.busy_of_opened sha256 hopen ▸ h.ledger
  have hsplit' : entry.publications = (done ++ [p]) ++ todo := by simp [hsplit]
  have hdone' : ∀ q ∈ done ++ [p], (opened.length - 1, q) ∈ published ++ [(opened.length - 1, p)] :=
    fun q hq => (List.mem_append.mp hq).elim
      (fun hq => List.mem_append_left _ (hdone q hq))
      (fun hq => List.mem_append_right _ (by simpa using hq))
  refine ⟨?_, h.readable, h.entry, ?_⟩
  · show Ledger (d.contents.write p).events d.floor opened _ (d.busy sha256)
    rw [Disk.busy_of_opened sha256 hopen]
    have hmem : p ∈ entry.publications := by simp [hsplit]
    cases p with
    | event n e => exact hledger.publish_event hlast hsplit hdone
    | put key envelope => exact hledger.publish_other hlast hmem (by simp)
    | deletion key generation => exact hledger.publish_other hlast hmem (by simp)
  · refine .rolling entry first (done ++ [p]) todo hopen hlast hsplit' hdone' fun n e hm => ?_
    show (d.contents.write p).events.get? n = some e
    rcases List.mem_append.mp hm with hd | hd
    · cases p with
      | event m e' =>
          simp only [Contents.write, Table.get?_insert]
          split
          next heq =>
            -- The same sequence twice in one entry would be the same event.
            subst heq
            rcases hfree m e' rfl with hnone | hsome
            · cases hnone.symm.trans (hfiles m e hd)
            · exact hsome.symm.trans (hfiles m e hd)
          next => exact hfiles n e hd
      | put key envelope => exact hfiles n e hd
      | deletion key generation => exact hfiles n e hd
    · cases List.mem_singleton.mp hd
      exact Table.get?_insert_self _ _ _

/-- Closing the pointer after the whole transaction. -/
theorem Sys.Inv.idle {d d' : Disk ρ ε} {holder : List (Action ρ ε)}
    {opened : List (JournalEntry ρ ε)} {published : List (Nat × Publication ρ ε)}
    {reader : Reader ε} (h : Sys.Inv sha256 ⟨d, holder, opened, published, reader⟩)
    {entry : JournalEntry ρ ε} {first : Nat}
    (hopen : d.journalState sha256 = some (.opened entry.transactionId first))
    (hlast : opened.getLast? = some entry)
    (hdone : ∀ q ∈ entry.publications, (opened.length - 1, q) ∈ published)
    (hfiles : ∀ n e, .event n e ∈ entry.publications → d.contents.events.get? n = some e)
    (hact : d.act sha256 (.idle entry.transactionId) = .ok d') :
    Sys.Inv sha256 ⟨d', [], opened, published, reader⟩ := by
  obtain ⟨-, hidle, hd'⟩ := d.act_idle sha256 hact
  have hledger : Ledger d.contents.events d.floor opened published true :=
    Disk.busy_of_opened sha256 hopen ▸ h.ledger
  refine ⟨?_, ⟨_, hidle⟩, fun tid first' hst => ?_, .free⟩
  · have := hledger.idle hlast hdone hfiles
    rw [hd']
    exact Disk.busy_of_idle sha256 hidle ▸ this
  · rw [show d'.journalState sha256 = _ from hidle] at hst
    cases hst

/-- An action keeps the invariant. -/
theorem Sys.Inv.act {s s' : Sys ρ ε} (h : s.Inv sha256) (hs : s.stepAct sha256 = some s') :
    s'.Inv sha256 := by
  obtain ⟨disk, holder, opened, published, reader⟩ := s
  have hold : Holding sha256 disk opened published holder := h.holding
  cases hactions : holder with
  | nil =>
      rw [Sys.stepAct, hactions] at hs
      cases hs
  | cons a rest =>
      rw [Sys.stepAct, hactions] at hs
      simp only at hs
      cases hact : disk.act sha256 a with
      | error e =>
          rw [hact] at hs
          cases hs
          exact ⟨h.ledger, h.readable, h.entry, .free⟩
      | ok d =>
          rw [hact] at hs
          cases hs
          cases hold with
          | free => cases hactions
          | preparing first p hidle hfresh =>
              cases hactions
              obtain ⟨rfl, hold⟩ := disk.act_writeEntry sha256 hact
              refine ⟨h.ledger, h.readable, fun tid first' hst => ?_, ?_⟩
              · cases hst.symm.trans hidle
              · exact .deciding first p hidle (Table.get?_insert_self _ _ _) hfresh
          | deciding first p hidle hget hfresh =>
              cases hactions
              have := h.activate sha256 hget hfresh hact
              simpa only [Sys.remember, hget] using this
          | rolling entry first done todo hopen hlast hsplit hdone hfiles =>
              cases todo with
              | nil =>
                  cases hactions
                  rw [List.append_nil] at hsplit
                  exact h.idle sha256 hopen hlast (hsplit ▸ hdone) (hsplit ▸ hfiles) hact
              | cons p todo =>
                  cases hactions
                  exact h.publish sha256 hopen hlast hsplit hdone hfiles hact
          | replacing key envelope =>
              cases hactions
              cases hact
              exact ⟨h.ledger, h.readable, h.entry, .free⟩
          | trimming boundary names rest' hkeys hle hb =>
              cases hactions
              cases hact
              refine ⟨h.ledger.raiseFloor hb, h.readable, h.entry, ?_⟩
              refine .condemning names rest' hkeys fun n hn => ?_
              show AtOrBelow (raiseEventFloor disk.floor boundary) n
              exact (atOrBelow_raiseEventFloor disk.floor boundary).mono (hle n hn)
          | condemning names rest' hkeys hle =>
              cases names with
              | nil => cases hactions
              | cons n names =>
                  cases hactions
                  cases hact
                  refine ⟨h.ledger.condemn hkeys (hle n (by simp)), h.readable, h.entry, ?_⟩
                  exact .condemning names rest' (Table.keys_erase_head hkeys)
                    fun m hm => hle m (by simp [hm])

/-- A step keeps the invariant. -/
theorem Sys.Inv.step {mine : ε → Bool} {s t : Sys ρ ε} {l : Label ρ ε} (h : s.Inv sha256)
    (hs : Sys.Step sha256 mine s l t) : t.Inv sha256 := by
  cases l with
  | begin op =>
      simp only [Sys.Step, Sys.step] at hs
      split at hs
      next actions _ hop =>
        cases hs
        exact ⟨h.ledger, h.readable, h.entry, h.holding_actions sha256 hop⟩
      next => cases hs
  | act => exact h.act sha256 hs
  | crash =>
      cases hs
      exact ⟨h.ledger, h.readable, h.entry, .free⟩
  | readCeiling limit =>
      simp only [Sys.Step, Sys.step] at hs
      split at hs
      · cases hs
        exact ⟨h.ledger, h.readable, h.entry, h.holding⟩
      · cases hs
  | list =>
      simp only [Sys.Step, Sys.step] at hs
      split at hs
      · cases hs
        exact ⟨h.ledger, h.readable, h.entry, h.holding⟩
      · cases hs
  | readEvent =>
      obtain ⟨_, _, _, _, _, _, -, -, rfl⟩ := Sys.stepRead_eq_some hs
      exact ⟨h.ledger, h.readable, h.entry, h.holding⟩
  | finish =>
      simp only [Sys.Step, Sys.step] at hs
      split at hs
      · cases hs
        exact ⟨h.ledger, h.readable, h.entry, h.holding⟩
      · cases hs

/-- Every state of every run has the invariant. -/
theorem Sys.inv_reachable {mine : ε → Bool} {s : Sys ρ ε} (h : s.Reachable sha256 mine) :
    s.Inv sha256 := by
  obtain ⟨cursor, labels, hrun⟩ := h
  exact hrun.invariant (fun _ _ _ hi hs => hi.step sha256 hs) (Sys.inv_initial sha256 cursor)

end Acc.Storage
