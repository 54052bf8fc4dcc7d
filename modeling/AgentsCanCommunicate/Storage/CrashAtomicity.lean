import AgentsCanCommunicate.Storage.Holder

/-!
# Crash atomicity of a transaction

A transaction on a disk first finishes what a dead writer left, then commits.
It may die between any two actions of either part.  The store is opened again
after that, which runs the recovery from the start, and the recovery may itself
die any number of times before one completes.

`Settling` is what survives all of this: off the files the entry lists the
contents are those of before, and an event of the entry has its file or none.
Rolling the entry forward from such contents gives the same contents every
time.  Records need no condition, since the last write to a record wins.

The theorem says the reopened store holds everything the transaction publishes
if the pointer was opened, and nothing of it otherwise.  The one exception is a
transaction that replaces a single record, which never opens the pointer: it is
one rename, so it happened or it did not.
-/

namespace Acc.Storage

open Library (Table Run)

variable {ρ ε : Type}

/-! ## Contents that settle -/

/-- Contents that a transaction has published some of. -/
structure Settling (base : Contents ρ ε) (ps : List (Publication ρ ε)) (c : Contents ρ ε) :
    Prop where
  events : ∀ n, n ∉ (eventWrites ps).map Prod.fst → c.events.get? n = base.events.get? n
  state : ∀ k, k ∉ (stateWrites ps).map Prod.fst → c.state.get? k = base.state.get? k
  retained : ∀ k, k ∉ (markerWrites ps).map Prod.fst → c.retained.get? k = base.retained.get? k
  /-- An event of the transaction has its file or none. -/
  fresh : ∀ w ∈ eventWrites ps, c.events.get? w.1 = none ∨ c.events.get? w.1 = some w.2

namespace Settling

variable {base c : Contents ρ ε} {ps : List (Publication ρ ε)}

theorem refl (h : ∀ w ∈ eventWrites ps, base.events.get? w.1 = none ∨
    base.events.get? w.1 = some w.2) : Settling base ps base :=
  ⟨fun _ _ => rfl, fun _ _ => rfl, fun _ _ => rfl, h⟩

/-- Rolling forward gives the same contents from wherever it starts. -/
theorem writeAll_eq (h : Settling base ps c) : c.writeAll ps = base.writeAll ps := by
  have he : (c.writeAll ps).events = (base.writeAll ps).events := by
    rw [Contents.writeAll_events, Contents.writeAll_events]
    exact Table.insertAll_congr h.events
  have hs : (c.writeAll ps).state = (base.writeAll ps).state := by
    rw [Contents.writeAll_state, Contents.writeAll_state]
    exact Table.insertAll_congr h.state
  have hr : (c.writeAll ps).retained = (base.writeAll ps).retained := by
    rw [Contents.writeAll_retained, Contents.writeAll_retained]
    exact Table.insertAll_congr h.retained
  cases hc : c.writeAll ps
  cases hb : base.writeAll ps
  rw [hc, hb] at he hs hr
  cases he
  cases hs
  cases hr
  rfl

/-- Publishing one of the files keeps the contents settling. -/
theorem write (h : Settling base ps c) {p : Publication ρ ε} (hp : p ∈ ps)
    (huniq : ∀ n e e', (n, e) ∈ eventWrites ps → (n, e') ∈ eventWrites ps → e = e') :
    Settling base ps (c.write p) := by
  cases p with
  | event m e =>
      have hm : (m, e) ∈ eventWrites ps := mem_eventWrites.mpr hp
      refine ⟨fun n hn => ?_, h.state, h.retained, fun w hw => ?_⟩
      · have hne : m ≠ n := by
          rintro rfl
          exact hn (List.mem_map_of_mem (f := Prod.fst) hm)
        exact (Table.get?_insert_ne c.events e hne).trans (h.events n hn)
      · by_cases heq : m = w.1
        · subst heq
          rw [huniq w.1 e w.2 hm hw]
          exact Or.inr (Table.get?_insert_self c.events w.1 w.2)
        · rw [show (c.write (.event m e)).events.get? w.1 = c.events.get? w.1 from
            Table.get?_insert_ne c.events e heq]
          exact h.fresh w hw
  | put key envelope =>
      refine ⟨h.events, fun k hk => ?_, h.retained, h.fresh⟩
      have hne : key ≠ k := by
        rintro rfl
        exact hk (List.mem_map.mpr ⟨(key, envelope), mem_stateWrites.mpr hp, rfl⟩)
      exact (Table.get?_insert_ne c.state envelope hne).trans (h.state k hk)
  | deletion key generation =>
      refine ⟨h.events, h.state, fun k hk => ?_, h.fresh⟩
      have hne : (⟨key, generation⟩ : MarkerKey) ≠ k := by
        rintro rfl
        exact hk (List.mem_map.mpr ⟨(⟨key, generation⟩, ()), mem_markerWrites.mpr hp, rfl⟩)
      exact (Table.get?_insert_ne c.retained () hne).trans (h.retained k hk)

end Settling

/-! ## Recovery of an open transaction -/

variable (sha256 : ActiveRecord → Digest)

/-- No generation is left to close the pointer with. -/
def Disk.Exhausted (d : Disk ρ ε) : Prop :=
  ∃ record, readActiveJournal sha256 d.slots = .ok record ∧ widthLimit ≤ record.generation + 1

/-- The pointer names an entry, and some of it was published over `base`. -/
structure InProgress (base : Contents ρ ε) (entry : JournalEntry ρ ε) (d : Disk ρ ε) : Prop where
  opened : d.journalState sha256 = some (.opened entry.transactionId entry.firstSequence)
  listed : d.journal.get? entry.transactionId = some entry
  unique : ∀ n e e', (n, e) ∈ eventWrites entry.publications →
    (n, e') ∈ eventWrites entry.publications → e = e'
  settling : Settling base entry.publications d.contents

/-- The pointer is idle and the contents are these. -/
def Settled (c : Contents ρ ε) (d : Disk ρ ε) : Prop :=
  d.journalState sha256 = some .idle ∧ d.contents = c

/-- The entry that is in progress is the one recovery reads. -/
theorem InProgress.readOpenJournals {base : Contents ρ ε} {entry : JournalEntry ρ ε}
    {d : Disk ρ ε} (h : InProgress sha256 base entry d) :
    Storage.readOpenJournals sha256 d = .ok (some entry) := by
  obtain ⟨record, hread, hstate⟩ := (Disk.journalState_eq_some sha256).mp h.opened
  simp only [Storage.readOpenJournals, bind_eq_ok]
  refine ⟨record, hread, ?_⟩
  rw [hstate]
  simp only [h.listed, bind_eq_ok, refuse_eq_ok, pure_eq_ok, ne_eq, not_true_eq_false, or_self,
    not_false_eq_true, and_self, exists_const]

theorem recoverActions_inProgress {base : Contents ρ ε} {entry : JournalEntry ρ ε} {d : Disk ρ ε}
    (h : InProgress sha256 base entry d) : recoverActions sha256 d = rollForward entry := by
  rw [recoverActions, h.readOpenJournals]

/-- A reachable store with an open pointer is rolling forward over itself. -/
theorem Sys.Inv.inProgress {s : Sys ρ ε} (h : s.Inv sha256) {tid : Id} {first : Nat}
    (hopen : s.disk.journalState sha256 = some (.opened tid first)) :
    ∃ entry, InProgress sha256 s.disk.contents entry s.disk := by
  obtain ⟨entry, hlast, hget, rfl, rfl, -⟩ := h.entry tid first hopen
  have hissued : ∀ w ∈ eventWrites entry.publications, w ∈ issuedOf s.opened := fun w hw =>
    mem_issuedOf.mpr ⟨_, entry, by rwa [← List.getLast?_eq_getElem?], hw⟩
  refine ⟨entry, hopen, hget, fun n e e' he he' =>
    h.ledger.issued_unique (hissued _ he) (hissued _ he'), .refl fun w hw => ?_⟩
  cases hf : s.disk.contents.events.get? w.1 with
  | none => exact Or.inl rfl
  | some e =>
      have he := (h.ledger.kept w.1 e hf).1
      exact Or.inr (congrArg some (h.ledger.issued_unique he (hissued w hw)))

/-- What is left of rolling an entry forward. -/
def rollRest (entry : JournalEntry ρ ε) (todo : List (Publication ρ ε)) : List (Action ρ ε) :=
  todo.map .publish ++ [.idle entry.transactionId]

theorem rollRest_cons (entry : JournalEntry ρ ε) (p : Publication ρ ε)
    (todo : List (Publication ρ ε)) :
    rollRest entry (p :: todo) = .publish p :: rollRest entry todo := rfl

variable [DecidableEq ρ] [DecidableEq ε]

/-- Open the store: finish what a dead writer left. -/
def reopen (d : Disk ρ ε) : Disk ρ ε := (d.run sha256 (recoverActions sha256 d)).1

/-- A recovery that dies after `n` actions. -/
def recoverCut (d : Disk ρ ε) (n : Nat) : Disk ρ ε :=
  (d.run sha256 ((recoverActions sha256 d).take n)).1

theorem Disk.run_cons_ok {d d' : Disk ρ ε} {a : Action ρ ε} (as : List (Action ρ ε))
    (h : d.act sha256 a = .ok d') : d.run sha256 (a :: as) = d'.run sha256 as := by
  rw [Disk.run, h]

theorem Disk.run_cons_error {d : Disk ρ ε} {a : Action ρ ε} {e : AccError} (as : List (Action ρ ε))
    (h : d.act sha256 a = .error e) : d.run sha256 (a :: as) = (d, some e) := by
  rw [Disk.run, h]

/-- Each file of the entry can be published, and that keeps the progress. -/
theorem InProgress.publish {base : Contents ρ ε} {entry : JournalEntry ρ ε} {d : Disk ρ ε}
    (h : InProgress sha256 base entry d) {p : Publication ρ ε} (hp : p ∈ entry.publications) :
    d.act sha256 (.publish p) = .ok { d with contents := d.contents.write p } ∧
      InProgress sha256 base entry { d with contents := d.contents.write p } :=
  ⟨(d.act_publish sha256).mpr
      ⟨fun m e he => h.settling.fresh (m, e) (mem_eventWrites.mpr (he ▸ hp)), rfl⟩,
    h.opened, h.listed, h.unique, h.settling.write hp h.unique⟩

/-- A prefix of rolling forward, from any point of it. -/
theorem InProgress.run_take {base : Contents ρ ε} {entry : JournalEntry ρ ε} :
    ∀ {todo : List (Publication ρ ε)} {d : Disk ρ ε}, InProgress sha256 base entry d →
      todo ⊆ entry.publications →
      d.contents.writeAll todo = base.writeAll entry.publications →
      ∀ n, InProgress sha256 base entry
          (d.run sha256 ((rollRest entry todo).take n)).1 ∨
        Settled sha256 (base.writeAll entry.publications)
          (d.run sha256 ((rollRest entry todo).take n)).1
  | _, d, h, _, _, 0 => Or.inl h
  | [], d, h, _, hall, n + 1 => by
      rw [show (rollRest entry []).take (n + 1) = [.idle entry.transactionId] by simp [rollRest]]
      cases hact : d.act sha256 (.idle entry.transactionId) with
      | error e => rw [d.run_cons_error sha256 [] hact]; exact Or.inl h
      | ok d' =>
          rw [d.run_cons_ok sha256 [] hact]
          obtain ⟨-, hidle, hd'⟩ := d.act_idle sha256 hact
          exact Or.inr ⟨hidle, (congrArg Disk.contents hd').trans hall⟩
  | p :: todo, d, h, hsub, hall, n + 1 => by
      obtain ⟨hact, h'⟩ := h.publish sha256 (hsub List.mem_cons_self)
      rw [rollRest_cons, List.take_succ_cons, d.run_cons_ok sha256 _ hact]
      exact h'.run_take (fun q hq => hsub (List.mem_cons_of_mem p hq)) hall n

/-- Rolling forward to the end publishes everything, and closes the pointer
while a generation is left. -/
theorem InProgress.run_all {base : Contents ρ ε} {entry : JournalEntry ρ ε} :
    ∀ {todo : List (Publication ρ ε)} {d : Disk ρ ε}, InProgress sha256 base entry d →
      todo ⊆ entry.publications →
      d.contents.writeAll todo = base.writeAll entry.publications →
      ∀ d', d' = (d.run sha256 (rollRest entry todo)).1 →
        d'.contents = base.writeAll entry.publications ∧
          (d'.journalState sha256 = some .idle ∨
            InProgress sha256 base entry d' ∧ d'.Exhausted sha256)
  | [], d, h, _, hall, d', hd' => by
      rw [show rollRest entry [] = [.idle entry.transactionId] from rfl] at hd'
      cases hact : d.act sha256 (.idle entry.transactionId) with
      | error e =>
          rw [d.run_cons_error sha256 [] hact] at hd'
          subst hd'
          refine ⟨hall, Or.inr ⟨h, ?_⟩⟩
          obtain ⟨record, hread, hstate⟩ := (Disk.journalState_eq_some sha256).mp h.opened
          refine ⟨record, hread, not_lt.mp fun hgen => ?_⟩
          obtain ⟨slots, hslots⟩ := idleJournal_isOk sha256 hread hstate hgen
          rw [Disk.act, hslots] at hact
          cases hact
      | ok d'' =>
          rw [d.run_cons_ok sha256 [] hact] at hd'
          subst hd'
          obtain ⟨-, hidle, hslots⟩ := d.act_idle sha256 hact
          exact ⟨(congrArg Disk.contents hslots).trans hall, Or.inl hidle⟩
  | p :: todo, d, h, hsub, hall, d', hd' => by
      obtain ⟨hact, h'⟩ := h.publish sha256 (hsub List.mem_cons_self)
      rw [rollRest_cons, d.run_cons_ok sha256 _ hact] at hd'
      exact h'.run_all (fun q hq => hsub (List.mem_cons_of_mem p hq)) hall d' hd'

/-! ## Repeated recovery -/

theorem Settled.recoverCut {c : Contents ρ ε} {d : Disk ρ ε} (h : Settled sha256 c d) (n : Nat) :
    Storage.recoverCut sha256 d n = d := by
  rw [Storage.recoverCut, recoverActions_idle sha256 h.1, List.take_nil]
  rfl

theorem Settled.reopen {c : Contents ρ ε} {d : Disk ρ ε} (h : Settled sha256 c d) :
    Storage.reopen sha256 d = d := by
  rw [Storage.reopen, recoverActions_idle sha256 h.1]
  rfl

theorem InProgress.recoverCut {base : Contents ρ ε} {entry : JournalEntry ρ ε} {d : Disk ρ ε}
    (h : InProgress sha256 base entry d) (n : Nat) :
    InProgress sha256 base entry (Storage.recoverCut sha256 d n) ∨
      Settled sha256 (base.writeAll entry.publications) (Storage.recoverCut sha256 d n) := by
  rw [Storage.recoverCut, recoverActions_inProgress sha256 h]
  exact h.run_take sha256 (List.Subset.refl _) h.settling.writeAll_eq n

theorem InProgress.reopen {base : Contents ρ ε} {entry : JournalEntry ρ ε} {d : Disk ρ ε}
    (h : InProgress sha256 base entry d) :
    (Storage.reopen sha256 d).contents = base.writeAll entry.publications ∧
      ((Storage.reopen sha256 d).journalState sha256 = some .idle ∨
        InProgress sha256 base entry (Storage.reopen sha256 d) ∧
          (Storage.reopen sha256 d).Exhausted sha256) := by
  refine h.run_all sha256 (List.Subset.refl _) h.settling.writeAll_eq _ ?_
  rw [Storage.reopen, recoverActions_inProgress sha256 h]
  rfl

/-- However often recovery dies, the reopened store holds the whole transaction. -/
theorem reopen_cuts_inProgress {base : Contents ρ ε} {entry : JournalEntry ρ ε} :
    ∀ (cuts : List Nat) {d : Disk ρ ε},
      (InProgress sha256 base entry d ∨
        Settled sha256 (base.writeAll entry.publications) d) →
      (reopen sha256 (cuts.foldl (recoverCut sha256) d)).contents =
          base.writeAll entry.publications ∧
        ((reopen sha256 (cuts.foldl (recoverCut sha256) d)).journalState sha256 = some .idle ∨
          (reopen sha256 (cuts.foldl (recoverCut sha256) d)).Exhausted sha256)
  | [], d, Or.inl h => ⟨(h.reopen sha256).1, (h.reopen sha256).2.imp_right And.right⟩
  | [], d, Or.inr h => by
      rw [List.foldl_nil, h.reopen sha256]
      exact ⟨h.2, Or.inl h.1⟩
  | n :: cuts, d, Or.inl h => by
      rw [List.foldl_cons]
      exact reopen_cuts_inProgress cuts (h.recoverCut sha256 n)
  | n :: cuts, d, Or.inr h => by
      rw [List.foldl_cons, h.recoverCut sha256 n]
      exact reopen_cuts_inProgress cuts (Or.inr h)

/-- A store that is idle stays as it is. -/
theorem reopen_cuts_settled {c : Contents ρ ε} {d : Disk ρ ε} (h : Settled sha256 c d) :
    ∀ cuts : List Nat, reopen sha256 (cuts.foldl (recoverCut sha256) d) = d
  | [] => h.reopen sha256
  | n :: cuts => by
      rw [List.foldl_cons, h.recoverCut sha256 n]
      exact reopen_cuts_settled h cuts

/-! ## A transaction that dies -/

/-- What a transaction does on a disk that was recovered.  A refused one does
nothing. -/
def transactionActions (d : Disk ρ ε) (p : Prepared ρ ε) : List (Action ρ ε) :=
  match (Operation.commit p).actions sha256 d with
  | .ok actions => actions
  | .error _ => []

/-- Where a transaction dies: after some actions of its recovery, or after some
of its own. -/
inductive CrashPoint where
  | recovering (n : Nat)
  | committing (n : Nat)

/-- What a transaction that died leaves. -/
def crashed (d : Disk ρ ε) (p : Prepared ρ ε) : CrashPoint → Disk ρ ε
  | .recovering n => recoverCut sha256 d n
  | .committing n =>
      ((reopen sha256 d).run sha256 ((transactionActions sha256 (reopen sha256 d) p).take n)).1

/-- The transaction opened the pointer before it died. -/
def Opens (d : Disk ρ ε) (p : Prepared ρ ε) : CrashPoint → Prop
  | .recovering _ => False
  | .committing n =>
      (reopen sha256 d).journalState sha256 = some .idle ∧
        ∃ m ≤ n, ∃ first, (crashed sha256 d p (.committing m)).journalState sha256 =
          some (.opened p.transactionId first)

/-- The store after the crash, after recoveries that died too, and after one
that did not. -/
def reopened (d : Disk ρ ε) (p : Prepared ρ ε) (point : CrashPoint) (cuts : List Nat) : Disk ρ ε :=
  reopen sha256 (cuts.foldl (recoverCut sha256) (crashed sha256 d p point))

/-- A holder that is left alone does its list. -/
theorem Sys.Inv.run_holder (mine : ε → Bool) :
    ∀ {as : List (Action ρ ε)} {s : Sys ρ ε}, s.holder = as →
      ∃ t labels, Run (Sys.Step sha256 mine) s labels t ∧ t.disk = (s.disk.run sha256 as).1 ∧
        t.holder = []
  | [], s, hs => ⟨s, [], .nil s, rfl, hs⟩
  | a :: as, s, hs => by
      cases hact : s.disk.act sha256 a with
      | error e =>
          rw [s.disk.run_cons_error sha256 as hact]
          refine ⟨{ s with holder := [] }, [.act], .single ?_, rfl, rfl⟩
          simp only [Sys.Step, Sys.step, Sys.stepAct, hs, hact]
      | ok d =>
          rw [s.disk.run_cons_ok sha256 as hact]
          have hstep : Sys.Step sha256 mine s .act
              { s.remember a with disk := d, holder := as } := by
            simp only [Sys.Step, Sys.step, Sys.stepAct, hs, hact]
          obtain ⟨t, labels, hrun, hdisk, hfree⟩ :=
            run_holder mine (s := { s.remember a with disk := d, holder := as }) rfl
          exact ⟨t, [.act] ++ labels, (Run.single hstep).append hrun, hdisk, hfree⟩

/-- The disk a recovery leaves is the disk of a reachable store. -/
theorem Sys.Reachable.reopen {mine : ε → Bool} {s : Sys ρ ε} (h : s.Reachable sha256 mine) :
    ∃ t : Sys ρ ε, t.Inv sha256 ∧ t.disk = Storage.reopen sha256 s.disk := by
  have hstep : Sys.Step sha256 mine { s with holder := [] } (.begin .recover)
      { s with holder := recoverActions sha256 s.disk } := rfl
  obtain ⟨t, labels, hrun, hdisk, -⟩ := Sys.Inv.run_holder sha256 mine
    (s := { s with holder := recoverActions sha256 s.disk }) rfl
  have hi := Sys.inv_reachable sha256 h
  have hfree : Sys.Inv sha256 { s with holder := [] } := ⟨hi.ledger, hi.readable, hi.entry, .free⟩
  exact ⟨t, hrun.invariant (fun _ _ _ hi hs => hi.step sha256 hs) (hfree.step sha256 hstep), hdisk⟩

omit [DecidableEq ρ] [DecidableEq ε] in
/-- The three shapes of a transaction's own actions. -/
theorem transactionActions_cases {t : Sys ρ ε} (h : t.Inv sha256)
    (hidle : t.disk.journalState sha256 = some .idle) (p : Prepared ρ ε) :
    transactionActions sha256 t.disk p = [] ∨
      (∃ key envelope, soleReplacement p = some (key, envelope) ∧
        transactionActions sha256 t.disk p = [.replaceRecord key envelope]) ∨
      ∃ first, nextSequence t.disk = .ok first ∧ Fresh t.opened first p.events.length ∧
        transactionActions sha256 t.disk p =
          .writeEntry (journalEntry first p) :: .activate p.transactionId first ::
            rollForward (journalEntry first p) := by
  rw [transactionActions]
  cases hop : (Operation.commit p).actions sha256 t.disk with
  | error e => exact Or.inl rfl
  | ok actions =>
      simp only [Operation.actions, bind_eq_ok, refuse_eq_ok, ne_eq, not_not] at hop
      obtain ⟨-, -, hop⟩ := hop
      simp only [commitActions, bind_eq_ok] at hop
      obtain ⟨before, -, hop⟩ := hop
      have hjournal : journalActions t.disk p = .ok actions →
          ∃ first, nextSequence t.disk = .ok first ∧ Fresh t.opened first p.events.length ∧
            actions = .writeEntry (journalEntry first p) :: .activate p.transactionId first ::
              rollForward (journalEntry first p) := by
        intro hj
        simp only [journalActions, bind_eq_ok, refuse_eq_ok, pure_eq_ok, not_lt] at hj
        obtain ⟨first, hnext, -, hmax, rfl⟩ := hj
        obtain ⟨hpos, hnew, hreached⟩ := (Disk.busy_of_idle sha256 hidle ▸ h.ledger).next hnext
        exact ⟨first, hnext, ⟨hpos, hnew, hreached, hmax⟩, rfl⟩
      split at hop
      · cases hop
        exact Or.inl rfl
      · split at hop
        next key envelope hsole _ =>
          cases hop
          exact Or.inr (Or.inl ⟨key, envelope, hsole, rfl⟩)
        next => exact Or.inr (Or.inr (hjournal hop))

/-- The disk after `m` of a transaction's own actions, on an idle store. -/
theorem run_transactionActions {t : Sys ρ ε} (h : t.Inv sha256)
    (hidle : t.disk.journalState sha256 = some .idle) (p : Prepared ρ ε) {after : Nat → Disk ρ ε}
    (hafter : ∀ m,
      after m = (t.disk.run sha256 ((transactionActions sha256 t.disk p).take m)).1) :
    (∀ m, Settled sha256 t.disk.contents (after m)) ∨
      (∃ key envelope, soleReplacement p = some (key, envelope) ∧
        ∀ m, Settled sha256 t.disk.contents (after m) ∨
          Settled sha256 (t.disk.contents.write (.put key envelope)) (after m)) ∨
      ∃ first, nextSequence t.disk = .ok first ∧ Fresh t.opened first p.events.length ∧
        (∀ m < 2, Settled sha256 t.disk.contents (after m)) ∧
        (after 2).journalState sha256 = some (.opened p.transactionId first) ∧
        ∀ m ≥ 2, InProgress sha256 t.disk.contents (journalEntry first p) (after m) ∨
          Settled sha256 (t.disk.contents.writeAll (publicationsOf first p)) (after m) := by
  have hstart : Settled sha256 t.disk.contents t.disk := ⟨hidle, rfl⟩
  rcases transactionActions_cases sha256 h hidle p with
    hnil | ⟨key, envelope, hsole, hone⟩ | ⟨first, hnext, hfresh, hlist⟩
  · refine Or.inl fun m => ?_
    rw [hafter, hnil, List.take_nil]
    exact hstart
  · refine Or.inr (Or.inl ⟨key, envelope, hsole, fun m => ?_⟩)
    rw [hafter, hone]
    cases m with
    | zero => exact Or.inl hstart
    | succ m =>
        rw [List.take_succ_cons, List.take_nil]
        exact Or.inr ⟨hidle, rfl⟩
  · -- The entry is written, then the pointer opens.  Either may be refused.
    cases hwrite : t.disk.act sha256 (.writeEntry (journalEntry first p)) with
    | error e =>
        refine Or.inl fun m => ?_
        rw [hafter, hlist]
        cases m with
        | zero => exact hstart
        | succ m =>
            rw [List.take_succ_cons, Disk.run_cons_error sha256 _ hwrite]
            exact hstart
    | ok d₁ =>
        obtain ⟨hd₁, -⟩ := t.disk.act_writeEntry sha256 hwrite
        have hstart₁ : Settled sha256 t.disk.contents d₁ := by
          rw [hd₁]
          exact ⟨hidle, rfl⟩
        cases hact : d₁.act sha256 (.activate p.transactionId first) with
        | error e =>
            refine Or.inl fun m => ?_
            rw [hafter, hlist]
            rcases m with _ | _ | m
            · exact hstart
            · rw [List.take_succ_cons, List.take_zero, Disk.run_cons_ok sha256 _ hwrite]
              exact hstart₁
            · rw [List.take_succ_cons, Disk.run_cons_ok sha256 _ hwrite, List.take_succ_cons,
                Disk.run_cons_error sha256 _ hact]
              exact hstart₁
        | ok d₂ =>
            obtain ⟨-, hopen, hd₂⟩ := d₁.act_activate sha256 hact
            have hcontents : d₂.contents = t.disk.contents := by rw [hd₂, hd₁]
            have hes := eventWrites_publicationsOf first p
            have hprogress : InProgress sha256 t.disk.contents (journalEntry first p) d₂ := by
              refine ⟨hopen, ?_, fun n e e' he he' => ?_, hcontents ▸ .refl fun w hw => ?_⟩
              · rw [hd₂, hd₁]
                exact Table.get?_insert_self _ _ _
              · exact number_unique (hes ▸ he) (hes ▸ he')
              · refine Or.inl (Option.eq_none_iff_forall_not_mem.mpr fun e he => ?_)
                rw [hcontents] at he
                have hlt := hfresh.unissued _ (h.ledger.kept _ e he).1
                have hge := (mem_number (e := w.2) (hes ▸ hw)).1
                exact absurd hge (not_le.mpr hlt)
            have hrest : ∀ m, after (m + 2) =
                (d₂.run sha256 ((rollForward (journalEntry first p)).take m)).1 := fun m => by
              rw [hafter, hlist, List.take_succ_cons, List.take_succ_cons,
                Disk.run_cons_ok sha256 _ hwrite, Disk.run_cons_ok sha256 _ hact]
            refine Or.inr (Or.inr ⟨first, hnext, hfresh, fun m hm => ?_, ?_, fun m hm => ?_⟩)
            · rw [hafter, hlist]
              rcases m with _ | _ | m
              · exact hstart
              · rw [List.take_succ_cons, List.take_zero, Disk.run_cons_ok sha256 _ hwrite]
                exact hstart₁
              · omega
            · rw [hrest 0]
              exact hopen
            · obtain ⟨k, rfl⟩ := Nat.exists_eq_add_of_le' hm
              rw [hrest k]
              exact hprogress.run_take sha256 (List.Subset.refl _)
                (congrArg (Contents.writeAll · _) hcontents) k

omit [DecidableEq ρ] [DecidableEq ε] in
theorem writeAll_number {base : Contents ρ ε} {first n : Nat} {p : Prepared ρ ε} {e : ε}
    (hw : (n, e) ∈ number first p.events) :
    (base.writeAll (publicationsOf first p)).events.get? n = some e := by
  rw [Contents.writeAll_events, eventWrites_publicationsOf, Table.get?_insertAll]
  cases hlast : Table.lastWrite (number first p.events) n with
  | none => exact absurd (List.mem_map_of_mem (f := Prod.fst) hw) (Table.lastWrite_eq_none_iff.mp hlast)
  | some e' => rw [number_unique (Table.mem_of_lastWrite hlast) hw]; rfl

/-- A crash in the recovery leaves what the recovery would have. -/
theorem reopened_recovering {s : Sys ρ ε} (h : s.Inv sha256) (p : Prepared ρ ε) (n : Nat)
    (cuts : List Nat) :
    (reopened sha256 s.disk p (.recovering n) cuts).contents = (reopen sha256 s.disk).contents ∧
      ((reopened sha256 s.disk p (.recovering n) cuts).journalState sha256 = some .idle ∨
        (reopened sha256 s.disk p (.recovering n) cuts).Exhausted sha256) := by
  obtain ⟨state, hstate⟩ := h.readable
  cases state with
  | idle =>
      have hsettled : Settled sha256 s.disk.contents s.disk := ⟨hstate, rfl⟩
      rw [reopened, crashed, hsettled.recoverCut sha256 n, reopen_cuts_settled sha256 hsettled cuts,
        hsettled.reopen sha256]
      exact ⟨rfl, Or.inl hstate⟩
  | opened tid first =>
      obtain ⟨entry, hprogress⟩ := h.inProgress sha256 hstate
      have hall := reopen_cuts_inProgress sha256 cuts (hprogress.recoverCut sha256 n)
      exact ⟨hall.1.trans (hprogress.reopen sha256).1.symm, hall.2⟩

/-- Where recovery could not close the pointer the transaction is refused. -/
theorem reopened_stuck {s : Sys ρ ε} (h : s.Inv sha256) (p : Prepared ρ ε) (n : Nat)
    (cuts : List Nat) {tid : Id} {first : Nat}
    (hstuck : (reopen sha256 s.disk).journalState sha256 = some (.opened tid first)) :
    (reopened sha256 s.disk p (.committing n) cuts).contents = (reopen sha256 s.disk).contents ∧
      ((reopened sha256 s.disk p (.committing n) cuts).journalState sha256 = some .idle ∨
        (reopened sha256 s.disk p (.committing n) cuts).Exhausted sha256) := by
  have hrefused : transactionActions sha256 (reopen sha256 s.disk) p = [] := by
    simp only [transactionActions, Operation.actions, refuse, hstuck]
    rfl
  have hcrashed : crashed sha256 s.disk p (.committing n) = reopen sha256 s.disk := by
    rw [crashed, hrefused, List.take_nil]
    rfl
  obtain ⟨state, hstate⟩ := h.readable
  cases state with
  | idle =>
      rw [Settled.reopen sha256 ⟨hstate, rfl⟩] at hstuck
      cases hstate.symm.trans hstuck
  | opened tid' first' =>
      obtain ⟨entry, hprogress⟩ := h.inProgress sha256 hstate
      obtain ⟨hcontents, hclosed⟩ := hprogress.reopen sha256
      have hopen := (hclosed.resolve_left (by simp [hstuck])).1
      have hall := reopen_cuts_inProgress sha256 cuts (Or.inl hopen)
      rw [reopened, hcrashed, hcontents]
      exact hall

/-! ## The theorem -/

/-- A transaction that opened the pointer is there whole after a crash and any
number of recoveries.  One that did not has left nothing, unless it replaces a
single record, which is one rename.  The reopened store is idle while a
generation is left to close the pointer with. -/
theorem transaction_crash_atomic {mine : ε → Bool} {s : Sys ρ ε} (hs : s.Reachable sha256 mine)
    (p : Prepared ρ ε) (point : CrashPoint) (cuts : List Nat) :
    (Opens sha256 s.disk p point → ∃ first,
      nextSequence (reopen sha256 s.disk) = .ok first ∧
      (reopened sha256 s.disk p point cuts).contents =
        (reopen sha256 s.disk).contents.writeAll (publicationsOf first p) ∧
      ∀ n e, .event n e ∈ publicationsOf first p →
        (reopen sha256 s.disk).contents.events.get? n = none ∧
        (reopened sha256 s.disk p point cuts).contents.events.get? n = some e) ∧
    (¬Opens sha256 s.disk p point →
      (reopened sha256 s.disk p point cuts).contents = (reopen sha256 s.disk).contents ∨
        ∃ key envelope, soleReplacement p = some (key, envelope) ∧
          (reopened sha256 s.disk p point cuts).contents =
            (reopen sha256 s.disk).contents.write (.put key envelope)) ∧
    ((reopened sha256 s.disk p point cuts).journalState sha256 = some .idle ∨
      (reopened sha256 s.disk p point cuts).Exhausted sha256) := by
  have hi := Sys.inv_reachable sha256 hs
  obtain ⟨t, ht, htd⟩ := hs.reopen sha256
  cases point with
  | recovering n =>
      obtain ⟨hcontents, hclosed⟩ := reopened_recovering sha256 hi p n cuts
      exact ⟨False.elim, fun _ => Or.inl hcontents, hclosed⟩
  | committing n =>
      obtain ⟨state, hstate⟩ := ht.readable
      rw [htd] at hstate
      cases state with
      | opened tid first =>
          obtain ⟨hcontents, hclosed⟩ := reopened_stuck sha256 hi p n cuts hstate
          refine ⟨fun hopens => ?_, fun _ => Or.inl hcontents, hclosed⟩
          cases hstate.symm.trans hopens.1
      | idle =>
          have hafter : ∀ m, crashed sha256 s.disk p (.committing m) =
              (t.disk.run sha256 ((transactionActions sha256 t.disk p).take m)).1 := fun m => by
            rw [htd]
            rfl
          rcases run_transactionActions sha256 ht (htd ▸ hstate) p hafter with
            hnone | ⟨key, envelope, hsole, hone⟩ | ⟨first, hnext, hfresh, hearly, hopen, hlate⟩
          · have hsettled := hnone n
            rw [htd] at hsettled
            have hre := reopen_cuts_settled sha256 hsettled cuts
            refine ⟨?_, fun _ => Or.inl ?_, Or.inl ?_⟩
            · rintro ⟨-, m, -, first, hm⟩
              cases hm.symm.trans (hnone m).1
            · rw [reopened, hre]
              exact hsettled.2
            · rw [reopened, hre]
              exact hsettled.1
          · refine ⟨?_, fun _ => ?_, ?_⟩
            · rintro ⟨-, m, -, first, hm⟩
              cases hm.symm.trans ((hone m).elim And.left And.left)
            · rcases hone n with hsettled | hsettled
              · rw [reopened, reopen_cuts_settled sha256 hsettled cuts]
                exact Or.inl (htd ▸ hsettled.2)
              · rw [reopened, reopen_cuts_settled sha256 hsettled cuts]
                exact Or.inr ⟨key, envelope, hsole, htd ▸ hsettled.2⟩
            · rcases hone n with hsettled | hsettled <;>
                exact Or.inl (by rw [reopened, reopen_cuts_settled sha256 hsettled cuts]
                                 exact hsettled.1)
          · rcases Nat.lt_or_ge n 2 with hn | hn
            · have hsettled := hearly n hn
              rw [htd] at hsettled
              have hre := reopen_cuts_settled sha256 hsettled cuts
              refine ⟨?_, fun _ => Or.inl ?_, Or.inl ?_⟩
              · rintro ⟨-, m, hm, first, hopen⟩
                cases hopen.symm.trans (hearly m (by omega)).1
              · rw [reopened, hre]
                exact hsettled.2
              · rw [reopened, hre]
                exact hsettled.1
            · have hall := reopen_cuts_inProgress sha256 cuts (hlate n hn)
              refine ⟨fun _ => ⟨first, htd ▸ hnext, htd ▸ hall.1, fun m e he => ?_⟩,
                fun hnot => absurd ?_ hnot, hall.2⟩
              · have hw : (m, e) ∈ number first p.events := by
                  rw [← eventWrites_publicationsOf first p]
                  exact mem_eventWrites.mpr he
                refine ⟨?_, ?_⟩
                · refine Option.eq_none_iff_forall_not_mem.mpr fun e' he' => ?_
                  rw [← htd] at he'
                  have hlt := hfresh.unissued _ (ht.ledger.kept _ e' he').1
                  exact absurd (mem_number hw).1 (not_le.mpr hlt)
                · rw [show (reopened sha256 s.disk p (.committing n) cuts).contents = _ from hall.1]
                  exact writeAll_number hw
              · exact ⟨hstate, 2, hn, first, hopen⟩

/-! ### At a fresh store -/

/-- A heartbeat: one record replaced and nothing appended. -/
def sampleHeartbeat : Prepared Nat Nat := { samplePrepared with events := [] }

/-- Dying between the two events, and once more while recovering. -/
theorem transaction_crash_atomic_between_events :
    ∃ first, nextSequence (reopen sampleDigest (Disk.initial sampleDigest : Disk Nat Nat)) =
        .ok first ∧
      (reopened sampleDigest (Disk.initial sampleDigest) samplePrepared (.committing 3)
          [1]).contents =
        (reopen sampleDigest (Disk.initial sampleDigest : Disk Nat Nat)).contents.writeAll
          (publicationsOf first samplePrepared) ∧
      ∀ n e, .event n e ∈ publicationsOf first samplePrepared →
        (reopen sampleDigest (Disk.initial sampleDigest : Disk Nat Nat)).contents.events.get? n =
          none ∧
        (reopened sampleDigest (Disk.initial sampleDigest) samplePrepared (.committing 3)
          [1]).contents.events.get? n = some e :=
  (transaction_crash_atomic sampleDigest
    (⟨0, [], .nil _⟩ : (Sys.initial sampleDigest 0).Reachable sampleDigest fun _ => true)
    samplePrepared (.committing 3) [1]).1
    ⟨by decide, 2, by decide, 1, by decide⟩

/-- A heartbeat that is done has changed the store, and never opened the pointer. -/
theorem heartbeat_outside_the_journal :
    ¬∀ (p : Prepared Nat Nat) (point : CrashPoint) (cuts : List Nat),
      ¬Opens sampleDigest (Disk.initial sampleDigest) p point →
        (reopened sampleDigest (Disk.initial sampleDigest) p point cuts).contents =
          (reopen sampleDigest (Disk.initial sampleDigest : Disk Nat Nat)).contents := by
  intro h
  have hclosed : ¬Opens sampleDigest (Disk.initial sampleDigest) sampleHeartbeat
      (.committing 1) := by
    rintro ⟨-, m, hm, first, hopen⟩
    have hidle : ∀ m ≤ 1, (crashed sampleDigest (Disk.initial sampleDigest) sampleHeartbeat
        (.committing m)).journalState sampleDigest = some .idle := by decide
    cases hopen.symm.trans (hidle m hm)
  have hsame := congrArg (fun c => c.state.get? sampleKey)
    (h sampleHeartbeat (.committing 1) [] hclosed)
  exact absurd hsame (by decide)

end Acc.Storage
