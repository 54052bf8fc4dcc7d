import AgentsCanCommunicate.Library.Run
import AgentsCanCommunicate.Storage.Journal

/-!
# The store in use

One process at a time holds the writer mutex.  `Sys` is the disk, the actions
the holder has still to do, and one reader of the event feed, which takes no
lock.  A step is one action of the holder, one step of the reader, or the end
of the holder: it finished, was refused, or died.

Two parts of the state are history that no step reads.  `opened` lists the
entries of the transactions that were decided, in order, and `published` the
publications made of each.  A transaction that is not in `opened` was never
decided, whatever entry it left in the journal.

The reader is `eventsSince`.  It reads the ceiling, lists the event directory,
reads one file after the other and last the floor, and between any two of these
the writer may do anything.
-/

namespace Acc.Storage

open Library (Table Run Where)

/-! ## The reader -/

/-- What `eventsSince` returns. -/
structure Page (ε : Type) where
  cursor : Nat
  /-- The events, with their sequences. -/
  events : List (Nat × ε)
  trimmedThrough : Option Nat
deriving DecidableEq

/-- How far a call of `eventsSince` has come. -/
inductive Phase (ε : Type) where
  /-- No call is under way. -/
  | ready
  /-- The ceiling was read. -/
  | bounded (limit ceiling : Option Nat)
  /-- The directory was listed.  The names not read yet, and the events so far. -/
  | listing (limit ceiling : Option Nat) (names : List Nat) (events : List (Nat × ε))
deriving DecidableEq

/-- A reader that passes each returned cursor to its next call. -/
structure Reader (ε : Type) where
  cursor : Nat
  phase : Phase ε
  /-- The pages returned so far, oldest first. -/
  pages : List (Page ε)
deriving DecidableEq

/-- The cursor of a page: its last event, or the cursor it was asked from. -/
def pageCursor {ε : Type} (after : Nat) (events : List (Nat × ε)) : Nat :=
  match events.getLast? with
  | some e => e.1
  | none => after

def reachesCeiling (ceiling : Option Nat) (n : Nat) : Bool :=
  match ceiling with
  | some c => decide (c ≤ n)
  | none => false

/-- One turn of the loop over a listing: the names still to read and the events
so far, from what was found under the name `n`. -/
def readNext {ε : Type} (mine : ε → Bool) (after : Nat) (limit ceiling : Option Nat)
    (found : Option ε) (n : Nat) (names : List Nat) (events : List (Nat × ε)) :
    List Nat × List (Nat × ε) :=
  if n ≤ after then (names, events)
  else if reachesCeiling ceiling n then ([], events)
  else
    match found with
    | none => (names, events)
    | some e =>
        if mine e then
          (if limit = some (events.length + 1) then [] else names, events ++ [(n, e)])
        else (names, events)

/-! ## States and steps -/

/-- What the mutex is taken for. -/
inductive Operation (ρ ε : Type) where
  /-- Finish the transaction a dead writer left open. -/
  | recover
  /-- Commit a transaction, once its callback returned. -/
  | commit (p : Prepared ρ ε)
  /-- Trim the event log. -/
  | trim (boundary limit : Nat)
deriving DecidableEq

/-- The store, the holder of its mutex and one reader. -/
structure Sys (ρ ε : Type) where
  disk : Disk ρ ε
  /-- What the holder has still to do.  The mutex is free when it is empty. -/
  holder : List (Action ρ ε)
  /-- History: the decided transactions, oldest first. -/
  opened : List (JournalEntry ρ ε)
  /-- History: the publications made, with the transaction each is of. -/
  published : List (Nat × Publication ρ ε)
  reader : Reader ε
deriving DecidableEq

inductive Label (ρ ε : Type) where
  /-- The mutex is taken. -/
  | begin (op : Operation ρ ε)
  /-- The holder does its next action. -/
  | act
  /-- The holder dies. -/
  | crash
  /-- The reader starts a page. -/
  | readCeiling (limit : Option Nat)
  /-- The reader lists the event directory. -/
  | list
  /-- The reader reads the next event file. -/
  | readEvent
  /-- The reader reads the floor and returns its page. -/
  | finish
deriving DecidableEq

variable {ρ ε : Type} [DecidableEq ρ] [DecidableEq ε]
variable (sha256 : ActiveRecord → Digest) (mine : ε → Bool)

/-- A fresh store and a reader that starts at a cursor. -/
def Sys.initial (cursor : Nat) : Sys ρ ε :=
  { disk := Disk.initial sha256
    holder := []
    opened := []
    published := []
    reader := ⟨cursor, .ready, []⟩ }

/-- What an operation is going to do.  A transaction recovers before its
callback runs, so it commits on an idle pointer. -/
def Operation.actions (op : Operation ρ ε) (d : Disk ρ ε) : Result (List (Action ρ ε)) :=
  match op with
  | .recover => .ok (recoverActions sha256 d)
  | .commit p => do
      refuse (d.journalState sha256 ≠ some .idle) ⟨.conflict, "a transaction is open"⟩
      commitActions sha256 d p
  | .trim boundary limit => trimActions d boundary limit

namespace Sys

/-- The history after an action of the holder. -/
def remember (s : Sys ρ ε) (a : Action ρ ε) : Sys ρ ε :=
  match a with
  | .activate transactionId _ =>
      match s.disk.journal.get? transactionId with
      | some entry => { s with opened := s.opened ++ [entry] }
      | none => s
  | .publish p => { s with published := s.published ++ [(s.opened.length - 1, p)] }
  | _ => s

/-- One action of the holder.  One that is refused ends its operation. -/
def stepAct (s : Sys ρ ε) : Option (Sys ρ ε) :=
  match s.holder with
  | [] => none
  | a :: rest =>
      match s.disk.act sha256 a with
      | .ok d => some { s.remember a with disk := d, holder := rest }
      | .error _ => some { s with holder := [] }

/-- The next file of a listing. -/
def stepRead (s : Sys ρ ε) : Option (Sys ρ ε) :=
  match s.reader.phase with
  | .listing limit ceiling (n :: names) events =>
      let next := readNext mine s.reader.cursor limit ceiling (s.disk.contents.events.get? n) n
        names events
      some { s with reader.phase := .listing limit ceiling next.1 next.2 }
  | _ => none

def step (s : Sys ρ ε) : Label ρ ε → Option (Sys ρ ε)
  | .begin op =>
      match s.holder, op.actions sha256 s.disk with
      | [], .ok actions => some { s with holder := actions }
      | _, _ => none
  | .act => s.stepAct sha256
  | .crash => some { s with holder := [] }
  | .readCeiling limit =>
      match s.reader.phase, readJournalCeiling sha256 s.disk with
      | .ready, .ok ceiling => some { s with reader.phase := .bounded limit ceiling }
      | _, _ => none
  | .list =>
      match s.reader.phase with
      | .bounded limit ceiling =>
          some { s with reader.phase := .listing limit ceiling s.disk.contents.events.keys [] }
      | _ => none
  | .readEvent => s.stepRead mine
  | .finish =>
      match s.reader.phase with
      | .listing _ _ [] events =>
          let cursor := pageCursor s.reader.cursor events
          some { s with
            reader := ⟨cursor, .ready, s.reader.pages ++ [⟨cursor, events, s.disk.floor⟩]⟩ }
      | _ => none

/-- The step relation. -/
def Step (s : Sys ρ ε) (l : Label ρ ε) (t : Sys ρ ε) : Prop := s.step sha256 mine l = some t

/-- Do a list of steps. -/
def exec (s : Sys ρ ε) : List (Label ρ ε) → Option (Sys ρ ε)
  | [] => some s
  | l :: ls => (s.step sha256 mine l).bind fun t => t.exec ls

theorem run_of_exec {mine : ε → Bool} :
    ∀ {ls : List (Label ρ ε)} {s t : Sys ρ ε}, s.exec sha256 mine ls = some t →
      Run (Step sha256 mine) s ls t
  | [], s, t, h => by
      cases h
      exact .nil s
  | l :: ls, s, t, h => by
      obtain ⟨u, hstep, hrest⟩ := Option.bind_eq_some_iff.mp h
      exact (Run.single hstep).append (run_of_exec hrest)

/-- A state some run leads to, from a fresh store. -/
def Reachable (s : Sys ρ ε) : Prop :=
  ∃ cursor labels, Run (Step sha256 mine) (initial sha256 cursor) labels s

omit [DecidableEq ρ] [DecidableEq ε] in
/-- Reading a file changes the reader only. -/
theorem stepRead_eq_some {mine : ε → Bool} {s t : Sys ρ ε} (h : s.stepRead mine = some t) :
    ∃ limit ceiling n names events next,
      s.reader.phase = .listing limit ceiling (n :: names) events ∧
      next = readNext mine s.reader.cursor limit ceiling (s.disk.contents.events.get? n) n names
        events ∧
      t = { s with reader.phase := .listing limit ceiling next.1 next.2 } := by
  rw [stepRead] at h
  split at h
  next limit ceiling n names events hphase =>
    exact ⟨limit, ceiling, n, names, events, _, hphase, rfl, (Option.some.inj h).symm⟩
  next => cases h

end Sys

/-! ## A transaction to run -/

/-- A digest to run the code with. -/
def sampleDigest (record : ActiveRecord) : Digest := BitVec.ofNat 256 (record.generation + 1)

/-- The record of one session. -/
def sampleKey : RecordKey := ⟨⟨"session", by decide⟩, ⟨"session_1", by decide⟩⟩

/-- A transaction of two events and one record. -/
def samplePrepared : Prepared Nat Nat :=
  { transactionId := ⟨"transaction_1", by decide⟩
    startedAt := 0
    events := [10, 11]
    staged := [⟨sampleKey, ⟨"generation_1", by decide⟩, some 7⟩] }

end Acc.Storage
