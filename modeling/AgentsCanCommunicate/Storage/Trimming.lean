import AgentsCanCommunicate.Storage.CrashAtomicity
import AgentsCanCommunicate.Storage.DoomedDirectory

/-!
# Trimmed history

`trimHistory` raises the floor and takes the events at or below the boundary
away, oldest first.  It reports whether something is left.

A transaction and `reclaimRecords` finish a transaction that a dead writer left
open before they do anything else.  `trimHistory` does not.  When the boundary
lies inside the open transaction, recovery publishes the trimmed events again,
and that is the only way they come back (`trimHistory_final`).
-/

namespace Acc.Storage

open Library (Table Run Where)

variable {ρ ε : Type}

/-! ## What a pass reports -/

/-- The names at or below a boundary. -/
def dueNames (d : Disk ρ ε) (boundary : Nat) : List Nat :=
  d.contents.events.keys.takeWhile (· ≤ boundary)

/-- The `remaining` of `trimEventLog`. -/
def trimRemaining (d : Disk ρ ε) (boundary limit : Nat) : Bool :=
  let spent := ((dueNames d boundary).take limit).length
  let drained := decide ((dueNames d boundary).length ≤ limit)
  !drained || !(Doomed.empty (List.replicate spent .file) (limit - spent)).drained

theorem length_le_of_trimRemaining {d : Disk ρ ε} {boundary limit : Nat}
    (h : trimRemaining d boundary limit = false) : (dueNames d boundary).length ≤ limit := by
  simp only [trimRemaining, Bool.or_eq_false_iff, Bool.not_eq_false', decide_eq_true_eq] at h
  exact h.1

/-- Every event file at or below the boundary is due. -/
theorem mem_dueNames {d : Disk ρ ε} {boundary n : Nat} {e : ε} (hn : n ≤ boundary)
    (he : d.contents.events.get? n = some e) : n ∈ dueNames d boundary := by
  have hmem : n ∈ d.contents.events.keys := Table.mem_keys.mpr ⟨e, he⟩
  have hsplit := List.takeWhile_append_dropWhile (p := fun m => decide (m ≤ boundary))
    (l := d.contents.events.keys)
  have hsorted := d.contents.events.keys_pairwise
  rw [← hsplit] at hmem hsorted
  refine (List.mem_append.mp hmem).resolve_right fun hdrop => ?_
  -- The first name that was dropped is above the boundary, and `n` is no less.
  cases hrest : d.contents.events.keys.dropWhile fun m => decide (m ≤ boundary) with
  | nil => rw [hrest] at hdrop; cases hdrop
  | cons m rest =>
      have hm : ¬m ≤ boundary := fun hle => by
        have hhead := List.head?_dropWhile_not (fun m => decide (m ≤ boundary))
          d.contents.events.keys
        rw [hrest] at hhead
        simp [hle] at hhead
      rw [hrest] at hdrop hsorted
      rcases List.mem_cons.mp hdrop with rfl | hlater
      · exact hm hn
      · have hlt := (List.pairwise_cons.mp (List.pairwise_append.mp hsorted).2.1).1 n hlater
        omega

variable (sha256 : ActiveRecord → Digest)

/-! ## The condition -/

/-- Every event the open transaction lists is above the boundary. -/
def Disk.OpenAbove (d : Disk ρ ε) (boundary : Nat) : Prop :=
  ∀ entry, readOpenJournals sha256 d = .ok (some entry) →
    ∀ n e, .event n e ∈ entry.publications → boundary < n

theorem readOpenJournals_congr {d d' : Disk ρ ε} (hslots : d'.slots = d.slots)
    (hjournal : d'.journal = d.journal) :
    readOpenJournals sha256 d' = readOpenJournals sha256 d := by
  rw [readOpenJournals, readOpenJournals, hslots, hjournal]

/-- An idle pointer names no transaction. -/
theorem Disk.openAbove_of_idle {d : Disk ρ ε} {boundary : Nat}
    (hidle : d.journalState sha256 = some .idle) : d.OpenAbove sha256 boundary := by
  intro entry hentry
  obtain ⟨record, hread, hstate⟩ := (Disk.journalState_eq_some sha256).mp hidle
  rw [readOpenJournals, hread] at hentry
  simp only [bind, Except.bind, hstate] at hentry
  cases hentry

variable [DecidableEq ρ] [DecidableEq ε] (mine : ε → Bool)

/-! ## A call that returned -/

/-- `trimHistory` began at `s` and returned at `t` with nothing remaining.  The
reader may have gone on meanwhile. -/
structure Sys.Trims (s : Sys ρ ε) (boundary limit : Nat) (t : Sys ρ ε) : Prop where
  ran : ∃ u labels, Sys.Step sha256 mine s (.begin (.trim boundary limit)) u ∧
    Run (Where (Sys.Step sha256 mine) fun _ l => l ≠ .crash ∧ ∀ op, l ≠ .begin op) u labels t
  returned : t.holder = []
  whole : trimRemaining s.disk boundary limit = false

/-- A step that is not an action of the holder leaves the disk as it is, and only
taking the mutex and dying touch what the holder has to do. -/
theorem Sys.step_frame {mine : ε → Bool} {s t : Sys ρ ε} {l : Label ρ ε}
    (h : Sys.Step sha256 mine s l t) (hl : l ≠ .act) :
    t.disk = s.disk ∧ t.opened = s.opened ∧
      (l ≠ .crash → (∀ op, l ≠ .begin op) → t.holder = s.holder) := by
  cases l with
  | begin op =>
      simp only [Sys.Step, Sys.step] at h
      split at h
      · cases h
        exact ⟨rfl, rfl, fun _ hbegin => absurd rfl (hbegin op)⟩
      · cases h
  | act => exact absurd rfl hl
  | crash =>
      cases h
      exact ⟨rfl, rfl, fun hcrash => absurd rfl hcrash⟩
  | readCeiling limit =>
      simp only [Sys.Step, Sys.step] at h
      split at h
      · cases h
        exact ⟨rfl, rfl, fun _ _ => rfl⟩
      · cases h
  | list =>
      simp only [Sys.Step, Sys.step] at h
      split at h
      · cases h
        exact ⟨rfl, rfl, fun _ _ => rfl⟩
      · cases h
  | readEvent =>
      obtain ⟨_, _, _, _, _, _, -, -, rfl⟩ := Sys.stepRead_eq_some h
      exact ⟨rfl, rfl, fun _ _ => rfl⟩
  | finish =>
      simp only [Sys.Step, Sys.step] at h
      split at h
      · cases h
        exact ⟨rfl, rfl, fun _ _ => rfl⟩
      · cases h

/-- A state of a call that began at `s`. -/
structure Sys.TrimsFrom (s : Sys ρ ε) (boundary : Nat) (u : Sys ρ ε) : Prop where
  opened : u.opened = s.opened
  slots : u.disk.slots = s.disk.slots
  journal : u.disk.journal = s.disk.journal
  trims : ∀ a ∈ u.holder, (∃ b, a = .raiseFloor b) ∨ ∃ n, a = .condemnEvent n
  /-- An event that is still there is about to go. -/
  left : ∀ n ≤ boundary, ∀ e, u.disk.contents.events.get? n = some e →
    .condemnEvent n ∈ u.holder

namespace Sys

variable {sha256 mine} {s t u : Sys ρ ε} {boundary limit : Nat}

theorem TrimsFrom.begin (hwhole : trimRemaining s.disk boundary limit = false)
    (h : Sys.Step sha256 mine s (.begin (.trim boundary limit)) u) :
    s.TrimsFrom boundary u := by
  simp only [Sys.Step, Sys.step] at h
  split at h
  next actions _ hop =>
      cases h
      simp only [Operation.actions, trimActions] at hop
      split at hop
      next => cases hop
      next newest _ =>
          simp only [bind_eq_ok, refuse_eq_ok, pure_eq_ok] at hop
          obtain ⟨-, -, rfl⟩ := hop
          have htake : (dueNames s.disk boundary).take limit = dueNames s.disk boundary :=
            List.take_of_length_le (length_le_of_trimRemaining hwhole)
          refine ⟨rfl, rfl, rfl, fun a ha => ?_, fun n hn e he => ?_⟩
          · rcases List.mem_cons.mp ha with rfl | ha
            · exact .inl ⟨_, rfl⟩
            · obtain ⟨m, -, rfl⟩ := List.mem_map.mp ha
              exact .inr ⟨m, rfl⟩
          · refine List.mem_cons_of_mem _ (List.mem_map_of_mem ?_)
            show n ∈ (dueNames s.disk boundary).take limit
            rw [htake]
            exact mem_dueNames hn he
  next => cases h

theorem TrimsFrom.step {l : Label ρ ε} {u' : Sys ρ ε} (hu : s.TrimsFrom boundary u)
    (hl : l ≠ .crash ∧ ∀ op, l ≠ .begin op) (h : Sys.Step sha256 mine u l u') :
    s.TrimsFrom boundary u' := by
  by_cases hact : l = .act
  · subst hact
    simp only [Sys.Step, Sys.step, Sys.stepAct] at h
    cases hholder : u.holder with
    | nil => rw [hholder] at h; cases h
    | cons a rest =>
        have htrims := hu.trims
        have hleft := hu.left
        rw [hholder] at h htrims hleft
        have hrest : ∀ a ∈ rest, (∃ b, a = .raiseFloor b) ∨ ∃ n, a = .condemnEvent n :=
          fun a ha => htrims a (List.mem_cons_of_mem _ ha)
        rcases htrims a List.mem_cons_self with ⟨b, rfl⟩ | ⟨m, rfl⟩
        · cases h
          exact ⟨hu.opened, hu.slots, hu.journal, hrest, fun n hn e he =>
            (List.mem_cons.mp (hleft n hn e he)).resolve_left (by simp)⟩
        · cases h
          refine ⟨hu.opened, hu.slots, hu.journal, hrest, fun n hn e he => ?_⟩
          simp only [Table.get?_erase] at he
          split at he
          next => cases he
          next hne =>
              refine (List.mem_cons.mp (hleft n hn e he)).resolve_left fun heq => ?_
              cases heq
              exact hne rfl
  · obtain ⟨hdisk, hopened, hholder⟩ := Sys.step_frame sha256 h hact
    have hholder := hholder hl.1 hl.2
    exact ⟨hopened.trans hu.opened, hdisk ▸ hu.slots, hdisk ▸ hu.journal, hholder ▸ hu.trims,
      by rw [hdisk, hholder]; exact hu.left⟩

/-- What a call that returned leaves. -/
theorem Trims.spec (h : s.Trims sha256 mine boundary limit t) :
    t.opened = s.opened ∧ t.disk.slots = s.disk.slots ∧ t.disk.journal = s.disk.journal ∧
      ∀ n ≤ boundary, t.disk.contents.events.get? n = none := by
  obtain ⟨u, labels, hbegin, hrun⟩ := h.ran
  have ht : s.TrimsFrom boundary t :=
    hrun.invariant (fun _ _ _ hu hstep => hu.step hstep.1 hstep.2) (.begin h.whole hbegin)
  refine ⟨ht.opened, ht.slots, ht.journal, fun n hn => ?_⟩
  cases hget : t.disk.contents.events.get? n with
  | none => rfl
  | some e =>
      have hmem := ht.left n hn e hget
      rw [h.returned] at hmem
      cases hmem

/-! ## What stays trimmed -/

/-- Nothing at or below the boundary is there, and nothing there will be issued. -/
structure Trimmed (sha256 : ActiveRecord → Digest) (boundary : Nat) (s : Sys ρ ε) : Prop where
  gone : ∀ n ≤ boundary, s.disk.contents.events.get? n = none
  /-- The boundary is no later than an event that was issued. -/
  issued : ∃ w ∈ issuedOf s.opened, boundary ≤ w.1
  above : ∀ tid first, s.disk.journalState sha256 = some (.opened tid first) →
    ∀ entry, s.opened.getLast? = some entry →
      ∀ n e, .event n e ∈ entry.publications → boundary < n

/-- The holder publishes what the open transaction lists, and a new transaction
lists events above every one issued. -/
theorem Trimmed.act (hs : s.Trimmed sha256 boundary) (hinv : s.Inv sha256)
    (h : s.stepAct sha256 = some t) : t.Trimmed sha256 boundary := by
  have ht := hinv.act sha256 h
  obtain ⟨disk, holder, opened, published, reader⟩ := s
  have hold : Holding sha256 disk opened published holder := hinv.holding
  cases hactions : holder with
  | nil =>
      rw [Sys.stepAct, hactions] at h
      cases h
  | cons a rest =>
      rw [Sys.stepAct, hactions] at h
      simp only at h
      cases hact : disk.act sha256 a with
      | error e =>
          rw [hact] at h
          cases h
          exact ⟨hs.gone, hs.issued, hs.above⟩
      | ok d =>
          rw [hact] at h
          cases h
          cases hold with
          | free => cases hactions
          | preparing first p hidle _ =>
              cases hactions
              obtain ⟨rfl, -⟩ := disk.act_writeEntry sha256 hact
              exact ⟨hs.gone, hs.issued, hs.above⟩
          | deciding first p _ hget hfresh =>
              cases hactions
              obtain ⟨-, -, hd⟩ := disk.act_activate sha256 hact
              obtain ⟨w, hw, hle⟩ := hs.issued
              simp only [Sys.remember, hget]
              refine ⟨?_, ⟨w, issuedOf_append opened _ ▸ List.mem_append_left _ hw, hle⟩, ?_⟩
              · show ∀ n ≤ boundary, d.contents.events.get? n = none
                rw [hd]
                exact hs.gone
              · intro _ _ _ entry hlast n e he
                cases (List.getLast?_concat ..).symm.trans hlast
                have hnumber := eventWrites_publicationsOf first p ▸ mem_eventWrites.mpr he
                have hnew := hfresh.unissued w hw
                have hfirst := (mem_number hnumber).1
                omega
          | rolling entry first done todo hopen hlast hsplit _ _ =>
              cases todo with
              | nil =>
                  cases hactions
                  obtain ⟨-, hidle, hd⟩ := disk.act_idle sha256 hact
                  refine ⟨?_, hs.issued, fun tid first' hopen' => ?_⟩
                  · show ∀ n ≤ boundary, d.contents.events.get? n = none
                    rw [hd]
                    exact hs.gone
                  · cases hopen'.symm.trans hidle
              | cons p todo =>
                  cases hactions
                  obtain ⟨-, rfl⟩ := (disk.act_publish sha256).mp hact
                  refine ⟨fun n hn => ?_, hs.issued, hs.above⟩
                  show (disk.contents.write p).events.get? n = none
                  cases p with
                  | event m e =>
                      have hm : boundary < m :=
                        hs.above _ first hopen entry hlast m e (by rw [hsplit]; simp)
                      rw [Contents.write, Table.get?_insert_ne _ _ (by omega)]
                      exact hs.gone n hn
                  | put key envelope => exact hs.gone n hn
                  | deletion key generation => exact hs.gone n hn
          | replacing key envelope =>
              cases hactions
              cases hact
              exact ⟨hs.gone, hs.issued, hs.above⟩
          | trimming boundary' names rest' _ _ _ =>
              cases hactions
              cases hact
              exact ⟨hs.gone, hs.issued, hs.above⟩
          | condemning names rest' _ _ =>
              cases names with
              | nil => cases hactions
              | cons m names =>
                  cases hactions
                  cases hact
                  refine ⟨fun n hn => ?_, hs.issued, hs.above⟩
                  show (disk.contents.events.erase m).get? n = none
                  rw [Table.get?_erase]
                  split
                  · rfl
                  · exact hs.gone n hn

theorem Trimmed.step {l : Label ρ ε} (hs : s.Trimmed sha256 boundary) (hinv : s.Inv sha256)
    (h : Sys.Step sha256 mine s l t) : t.Trimmed sha256 boundary := by
  by_cases hact : l = .act
  · subst hact
    exact hs.act hinv h
  · obtain ⟨hdisk, hopened, -⟩ := Sys.step_frame sha256 h hact
    exact ⟨hdisk ▸ hs.gone, hopened ▸ hs.issued, by rw [hdisk, hopened]; exact hs.above⟩

/-- Trimming is refused past the newest event that was issued. -/
theorem Trims.issued (hs : s.Inv sha256) (h : s.Trims sha256 mine boundary limit t) :
    ∃ w ∈ issuedOf s.opened, boundary ≤ w.1 := by
  obtain ⟨u, _, hbegin, -⟩ := h.ran
  simp only [Sys.Step, Sys.step] at hbegin
  split at hbegin
  next actions _ hop =>
      have hholding := hs.holding_actions sha256 hop
      simp only [Operation.actions, trimActions] at hop
      split at hop
      next => cases hop
      next newest hnewest =>
          simp only [bind_eq_ok, refuse_eq_ok, pure_eq_ok, not_lt] at hop
          obtain ⟨-, hb, -⟩ := hop
          cases hlast : s.disk.contents.events.last? with
          | some w =>
              rw [hlast] at hnewest
              cases hnewest
              exact ⟨w, (hs.ledger.kept _ _ (Table.last?_eq_some hlast).1).1, hb⟩
          | none =>
              rw [hlast] at hnewest
              obtain ⟨w, hw, hle⟩ := hs.ledger.floor_issued newest hnewest
              exact ⟨w, hw, hb.trans hle⟩
  next => cases hbegin

theorem Trims.trimmed (hs : s.Inv sha256) (h : s.Trims sha256 mine boundary limit t)
    (habove : s.disk.OpenAbove sha256 boundary) : t.Trimmed sha256 boundary := by
  obtain ⟨hopened, hslots, -, hgone⟩ := h.spec
  refine ⟨hgone, hopened ▸ h.issued hs, fun tid first hopen entry hlast n e he => ?_⟩
  have hopen' : s.disk.journalState sha256 = some (.opened tid first) := by
    rw [Disk.journalState, ← hslots]
    exact hopen
  obtain ⟨entry', hlast', -, hread⟩ := hs.readOpenJournals sha256 hopen'
  rw [hopened] at hlast
  cases hlast.symm.trans hlast'
  exact habove _ hread n e he

theorem Trims.reachable (hs : s.Reachable sha256 mine)
    (h : s.Trims sha256 mine boundary limit t) : t.Reachable sha256 mine := by
  obtain ⟨cursor, labels, hrun⟩ := hs
  obtain ⟨u, later, hbegin, hcall⟩ := h.ran
  exact ⟨cursor, _, (hrun.append (.single hbegin)).append hcall.of_where⟩

/-- A call whose holder is left alone. -/
theorem Trims.of_exec {k : Nat} (hwhole : trimRemaining s.disk boundary limit = false)
    (hreturned : t.holder = [])
    (h : s.exec sha256 mine (.begin (.trim boundary limit) :: List.replicate k .act) = some t) :
    s.Trims sha256 mine boundary limit t := by
  obtain ⟨v, hbegin, hacts⟩ := Option.bind_eq_some_iff.mp h
  refine ⟨⟨v, List.replicate k .act, hbegin, ?_⟩, hreturned, hwhole⟩
  clear hbegin h
  induction k generalizing v with
  | zero =>
      cases hacts
      exact .nil _
  | succ k ih =>
      obtain ⟨w, hstep, hrest⟩ := Option.bind_eq_some_iff.mp hacts
      exact (Run.single ⟨⟨nofun, nofun⟩, hstep⟩).append (ih w hrest)

/-- The recovery of an open transaction that lists an event publishes it. -/
theorem exists_run_recover (ht : t.Inv sha256) (hfree : t.holder = [])
    {entry : JournalEntry ρ ε} (hentry : readOpenJournals sha256 t.disk = .ok (some entry))
    {n : Nat} {e : ε} (he : .event n e ∈ entry.publications) :
    ∃ labels u, Run (Sys.Step sha256 mine) t labels u ∧
      u.disk.contents.events.get? n ≠ none := by
  obtain ⟨state, hstate⟩ := ht.readable
  cases state with
  | idle =>
      have hnone : n < n := Disk.openAbove_of_idle sha256 hstate entry hentry n e he
      exact absurd hnone (lt_irrefl n)
  | opened tid first =>
      obtain ⟨entry', hprogress⟩ := ht.inProgress sha256 hstate
      cases hprogress.readOpenJournals.symm.trans hentry
      have hbegin : Sys.Step sha256 mine t (.begin .recover)
          { t with holder := recoverActions sha256 t.disk } := by
        simp only [Sys.Step, Sys.step, hfree, Operation.actions]
      obtain ⟨u, labels, hrun, hdisk, -⟩ := Sys.Inv.run_holder sha256 mine
        (s := { t with holder := recoverActions sha256 t.disk }) rfl
      refine ⟨_, u, (Run.single hbegin).append hrun, ?_⟩
      have hcontents : u.disk.contents = t.disk.contents.writeAll entry.publications :=
        (congrArg Disk.contents hdisk).trans (hprogress.reopen sha256).1
      have hwritten : n ∈ (eventWrites entry.publications).map Prod.fst :=
        List.mem_map_of_mem (f := Prod.fst) (mem_eventWrites.mpr he)
      rw [hcontents, Contents.writeAll_events, Table.get?_insertAll, Ne, Option.or_eq_none_iff]
      exact fun hnone => Table.lastWrite_eq_none_iff.mp hnone.1 hwritten

end Sys

/-! ## Trimmed for good -/

/-- What was trimmed stays away over every later run exactly when no event of the
transaction that was open is at or below the boundary. -/
theorem trimHistory_final {s t : Sys ρ ε} {boundary limit : Nat}
    (hs : s.Reachable sha256 mine) (h : s.Trims sha256 mine boundary limit t) :
    (∀ labels u, Run (Sys.Step sha256 mine) t labels u →
      ∀ n ≤ boundary, u.disk.contents.events.get? n = none) ↔
    s.disk.OpenAbove sha256 boundary := by
  have hinv := Sys.inv_reachable sha256 hs
  have hinv' := Sys.inv_reachable sha256 (h.reachable hs)
  constructor
  · intro hgone entry hentry n e he
    by_contra hle
    obtain ⟨-, hslots, hjournal, -⟩ := h.spec
    have hentry' := (readOpenJournals_congr sha256 hslots hjournal).trans hentry
    obtain ⟨labels, u, hrun, hback⟩ := Sys.exists_run_recover hinv' h.returned hentry' he
    exact hback (hgone labels u hrun n (not_lt.mp hle))
  · intro habove labels u hrun
    have hboth : u.Trimmed sha256 boundary ∧ u.Inv sha256 :=
      hrun.invariant (I := fun v => v.Trimmed sha256 boundary ∧ v.Inv sha256)
        (fun _ _ _ hv hstep => ⟨hv.1.step hv.2 hstep, hv.2.step sha256 hstep⟩)
        ⟨h.trimmed hinv habove, hinv'⟩
    exact hboth.1.gone

/-- A transaction of two events is committed. -/
def wholeSys : Sys Nat Nat :=
  ((Sys.initial sampleDigest 0).exec sampleDigest (fun _ => true)
    (.begin (.commit samplePrepared) :: List.replicate 6 .act)).get (by decide)

/-- Its first event is trimmed. -/
def wholeTrimmedSys : Sys Nat Nat :=
  (wholeSys.exec sampleDigest (fun _ => true)
    (.begin (.trim 1 512) :: List.replicate 2 .act)).get (by decide)

/-- The writer dies, and another one recovers. -/
def resumedSys : Sys Nat Nat :=
  (wholeTrimmedSys.exec sampleDigest (fun _ => true) [.crash, .begin .recover]).get (by decide)

theorem trimHistory_final_whole : resumedSys.disk.contents.events.get? 1 = none := by
  have hreachable : wholeSys.Reachable sampleDigest fun _ => true :=
    ⟨0, _, Sys.run_of_exec sampleDigest (Option.some_get _).symm⟩
  have htrims : wholeSys.Trims sampleDigest (fun _ => true) 1 512 wholeTrimmedSys :=
    Sys.Trims.of_exec (by decide) (by decide) (Option.some_get _).symm
  have hgone := (trimHistory_final sampleDigest (fun _ => true) hreachable htrims).mpr
    (Disk.openAbove_of_idle sampleDigest (by decide))
  exact hgone _ resumedSys (Sys.run_of_exec sampleDigest (Option.some_get _).symm) 1 le_rfl

/-- The writer dies once it has published the first of two events. -/
def halfSys : Sys Nat Nat :=
  ((Sys.initial sampleDigest 0).exec sampleDigest (fun _ => true)
    [.begin (.commit samplePrepared), .act, .act, .act, .crash]).get (by decide)

def halfTrimmedSys : Sys Nat Nat :=
  (halfSys.exec sampleDigest (fun _ => true)
    (.begin (.trim 1 512) :: List.replicate 2 .act)).get (by decide)

/-- Recovery begins, and publishes the event again. -/
def republishedSys : Sys Nat Nat :=
  (halfTrimmedSys.exec sampleDigest (fun _ => true) [.begin .recover, .act]).get (by decide)

/-- A trimmed event comes back. -/
theorem trimHistory_republished :
    ¬∀ (s t : Sys Nat Nat) (boundary limit : Nat), s.Reachable sampleDigest (fun _ => true) →
      s.Trims sampleDigest (fun _ => true) boundary limit t →
      ∀ labels u, Run (Sys.Step sampleDigest fun _ => true) t labels u →
        ∀ n ≤ boundary, u.disk.contents.events.get? n = none := by
  intro h
  have hreachable : halfSys.Reachable sampleDigest fun _ => true :=
    ⟨0, _, Sys.run_of_exec sampleDigest (Option.some_get _).symm⟩
  have htrims : halfSys.Trims sampleDigest (fun _ => true) 1 512 halfTrimmedSys :=
    Sys.Trims.of_exec (by decide) (by decide) (Option.some_get _).symm
  have hback : republishedSys.disk.contents.events.get? 1 = some 10 := by decide
  have hgone := h halfSys halfTrimmedSys 1 512 hreachable htrims _ republishedSys
    (Sys.run_of_exec sampleDigest (Option.some_get _).symm) 1 le_rfl
  cases hgone.symm.trans hback

end Acc.Storage
