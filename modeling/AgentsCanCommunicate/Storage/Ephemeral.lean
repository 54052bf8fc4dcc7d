import AgentsCanCommunicate.Library.Table
import AgentsCanCommunicate.Storage.Retention

/-!
# Ephemeral records

Ephemeral records are published by replacing their file and never go through the
journal.  A record is there when its file is and its newest marker does not say
that it is deleted.  A pass of reclaiming takes superseded markers away, as far as
its budget goes.

What the records should be is told by `Logical`, which has neither files nor
markers.  Every operation does to the one what it does to the other, and the
numbers it gives to the markers of a record only ever go up, since a pass leaves
the newest marker and the next number is taken from that.
-/

namespace Acc.Storage.Ephemeral

open Library Acc.Storage.Retention

variable {κ ι ρ : Type} [DecidableEq κ] [LinearOrder ι]

/-! ## The store -/

/-- The files of the records of each kind, in the order of their names, and the
directory of markers of each record. -/
structure Disk (κ ι ρ : Type) [LinearOrder ι] where
  ephemeral : κ → Table ι ρ
  retained : κ → ι → Directory κ ι

/-- A pass of `reclaimRetired`: what its first parts left of it, and the
directories of markers in the order in which they are listed. -/
structure Pass (κ ι : Type) where
  limit : Nat
  spent : Nat
  /-- Leftovers and retired journals are all dealt with. -/
  reached : Bool
  directories : List (κ × ι)
  /-- Whether the deadline has passed once so many markers are condemned. -/
  expired : Nat → Bool

inductive Op (κ ι ρ : Type) where
  | put (kind : κ) (id : ι) (record : ρ)
  | update (kind : κ) (id : ι) (updater : Option ρ → Option ρ)
  | delete (kind : κ) (id : ι) (guard : ρ → Bool)
  | reclaim (pass : Pass κ ι)

variable (valid : κ → ρ → Bool)

def validateRecord (kind : κ) (record : ρ) : Except Fault ρ :=
  if valid kind record then .ok record else .error .invalidRecord

def readEphemeral (d : Disk κ ι ρ) (kind : κ) (id : ι) : Except Fault (Option ρ) :=
  match (d.ephemeral kind).get? id with
  | none => .ok none
  | some found => do
      if ← ephemeralIsDeleted kind id (d.retained kind id) then .ok none
      else (validateRecord valid kind found).map some

def list (d : Disk κ ι ρ) (kind : κ) : Except Fault (List ρ) := do
  let found ← (d.ephemeral kind).entries.mapM fun e => do
    if ← ephemeralIsDeleted kind e.1 (d.retained kind e.1) then .ok none
    else (validateRecord valid kind e.2).map some
  .ok found.reduceOption

def Disk.setFile (d : Disk κ ι ρ) (kind : κ) (id : ι) (record : ρ) : Disk κ ι ρ :=
  { d with ephemeral := Function.update d.ephemeral kind ((d.ephemeral kind).insert id record) }

def Disk.setMarkers (d : Disk κ ι ρ) (kind : κ) (id : ι) (directory : Directory κ ι) :
    Disk κ ι ρ :=
  { d with
    retained := Function.update d.retained kind
      (Function.update (d.retained kind) id directory) }

/-- A marker that was published: the record it is of, and its number. -/
abbrev Published (κ ι : Type) := Option (κ × ι × Nat)

def mark (d : Disk κ ι ρ) (kind : κ) (id : ι) (state : Presence) :
    Except Fault (Disk κ ι ρ × Published κ ι) := do
  let (directory, order) ← markEphemeral kind id state (d.retained kind id)
  .ok (d.setMarkers kind id directory, order.map fun n => (kind, id, n))

def put (d : Disk κ ι ρ) (kind : κ) (id : ι) (record : ρ) :
    Except Fault (Disk κ ι ρ × Published κ ι) := do
  let record ← validateRecord valid kind record
  mark (d.setFile kind id record) kind id .present

def update (d : Disk κ ι ρ) (kind : κ) (id : ι) (updater : Option ρ → Option ρ) :
    Except Fault (Disk κ ι ρ × Published κ ι) := do
  match updater (← readEphemeral valid d kind id) with
  | none => .ok (d, none)
  | some next => put valid d kind id next

def delete (d : Disk κ ι ρ) (kind : κ) (id : ι) (guard : ρ → Bool) :
    Except Fault (Disk κ ι ρ × Published κ ι) := do
  match ← readEphemeral valid d kind id with
  | none => .ok (d, none)
  | some current => if guard current then mark d kind id .deleted else .ok (d, none)

/-- Condemn every marker but the newest of each record, within the budget. -/
def condemnSupersededMarkers (budget : Nat) (expired : Nat → Bool) (d : Disk κ ι ρ) :
    Nat → List (κ × ι) → Disk κ ι ρ
  | _, [] => d
  | spent, (kind, id) :: rest =>
      match condemnNames budget expired (d.retained kind id) spent
        (supersededNames ((d.retained kind id).map Prod.fst)) with
      | (directory, spent, true) =>
          condemnSupersededMarkers budget expired (d.setMarkers kind id directory) spent rest
      | (directory, _, false) => d.setMarkers kind id directory

def reclaimRetired (d : Disk κ ι ρ) (pass : Pass κ ι) : Disk κ ι ρ :=
  if pass.reached then
    condemnSupersededMarkers (pass.limit - pass.spent) pass.expired d 0 pass.directories
  else d

def perform (d : Disk κ ι ρ) : Op κ ι ρ → Except Fault (Disk κ ι ρ × Published κ ι)
  | .put kind id record => put valid d kind id record
  | .update kind id updater => update valid d kind id updater
  | .delete kind id guard => delete valid d kind id guard
  | .reclaim pass => .ok (reclaimRetired d pass, none)

/-- The disk with the markers published so far, the oldest first. -/
structure History (κ ι ρ : Type) [LinearOrder ι] where
  disk : Disk κ ι ρ
  published : List (κ × ι × Nat)

def History.initial : History κ ι ρ := ⟨⟨fun _ => Table.empty, fun _ _ => []⟩, []⟩

/-- An operation that throws has changed nothing (`perform_error`). -/
def History.step (h : History κ ι ρ) (op : Op κ ι ρ) : History κ ι ρ :=
  match perform valid h.disk op with
  | .error _ => h
  | .ok (disk, published) => ⟨disk, h.published ++ published.toList⟩

def History.run (ops : List (Op κ ι ρ)) : History κ ι ρ :=
  ops.foldl (History.step valid) .initial

/-- The numbers of the markers of a record, in the order of publication. -/
def sequencesOf (published : List (κ × ι × Nat)) (kind : κ) (id : ι) : List Nat :=
  (published.filter fun p => p.1 = kind ∧ p.2.1 = id).map fun p => p.2.2

/-! ## What the records should be -/

/-- The records that are there. -/
abbrev Logical (κ ι ρ : Type) := κ → ι → Option ρ

def Logical.set (l : Logical κ ι ρ) (kind : κ) (id : ι) (record : Option ρ) : Logical κ ι ρ :=
  Function.update l kind (Function.update (l kind) id record)

/-- An invalid record is refused. -/
def Logical.put (l : Logical κ ι ρ) (kind : κ) (id : ι) (record : ρ) : Logical κ ι ρ :=
  if valid kind record then l.set kind id (some record) else l

def Logical.step (l : Logical κ ι ρ) : Op κ ι ρ → Logical κ ι ρ
  | .put kind id record => l.put valid kind id record
  | .update kind id updater =>
      match updater (l kind id) with
      | none => l
      | some next => l.put valid kind id next
  | .delete kind id guard => if (l kind id).any guard then l.set kind id none else l
  | .reclaim _ => l

def Logical.run (ops : List (Op κ ι ρ)) : Logical κ ι ρ :=
  ops.foldl (Logical.step valid) fun _ _ => none

/-! ## The two agree -/

/-- What the file and the markers of one record say. -/
structure Agrees (file : Option ρ) (directory : Directory κ ι) (kind : κ) (id : ι)
    (sequences : List Nat) (record : Option ρ) : Prop where
  markers : ∃ ms, directory = markerFiles kind id ms ∧ Ascending ms ∧
    sequences.getLast? = ms.getLast?.map Prod.fst ∧
    record = if ms.getLast?.map Prod.snd = some .deleted then none else file
  valid : ∀ r, file = some r → valid kind r = true
  increasing : sequences.Pairwise (· < ·)

def Sound (h : History κ ι ρ) (l : Logical κ ι ρ) : Prop :=
  ∀ kind id, Agrees valid ((h.disk.ephemeral kind).get? id) (h.disk.retained kind id) kind id
    (sequencesOf h.published kind id) (l kind id)

variable {valid} {h : History κ ι ρ} {l : Logical κ ι ρ} {d : Disk κ ι ρ} {kind : κ} {id : ι}

theorem sound_initial : Sound valid (.initial : History κ ι ρ) fun _ _ => none := fun _ _ =>
  ⟨⟨[], rfl, ⟨.nil, nofun⟩, rfl, rfl⟩, nofun, .nil⟩

theorem sequencesOf_append (ps qs : List (κ × ι × Nat)) :
    sequencesOf (ps ++ qs) kind id = sequencesOf ps kind id ++ sequencesOf qs kind id := by
  rw [sequencesOf, List.filter_append, List.map_append]
  rfl

theorem sequencesOf_other {ps : List (κ × ι × Nat)} {kind' : κ} {id' : ι}
    (hother : ¬(kind' = kind ∧ id' = id)) (n : Option Nat) :
    sequencesOf (ps ++ (n.map fun n => (kind, id, n)).toList) kind' id' =
      sequencesOf ps kind' id' := by
  rw [sequencesOf_append]
  cases n with
  | none => exact List.append_nil _
  | some n =>
      have hne : ¬(kind = kind' ∧ id = id') := fun heq => hother ⟨heq.1.symm, heq.2.symm⟩
      simp [sequencesOf, hne]

theorem sequencesOf_self {ps : List (κ × ι × Nat)} (n : Option Nat) :
    sequencesOf (ps ++ (n.map fun n => (kind, id, n)).toList) kind id =
      sequencesOf ps kind id ++ n.toList := by
  rw [sequencesOf_append]
  cases n with
  | none => rfl
  | some n => simp [sequencesOf]

theorem Logical.set_self {record : Option ρ} : l.set kind id record kind id = record := by
  rw [Logical.set, Function.update_self, Function.update_self]

theorem Logical.set_other {record : Option ρ} {kind' : κ} {id' : ι}
    (hother : ¬(kind' = kind ∧ id' = id)) : l.set kind id record kind' id' = l kind' id' := by
  rw [Logical.set]
  by_cases hkind : kind' = kind
  · subst hkind
    rw [Function.update_self, Function.update_of_ne fun hid => hother ⟨rfl, hid⟩]
  · rw [Function.update_of_ne hkind]

theorem retained_setMarkers_self {directory : Directory κ ι} :
    (d.setMarkers kind id directory).retained kind id = directory := by
  simp [Disk.setMarkers]

theorem retained_setMarkers_other {directory : Directory κ ι} {kind' : κ} {id' : ι}
    (hother : ¬(kind' = kind ∧ id' = id)) :
    (d.setMarkers kind id directory).retained kind' id' = d.retained kind' id' := by
  simp only [Disk.setMarkers]
  by_cases hkind : kind' = kind
  · subst hkind
    rw [Function.update_self, Function.update_of_ne fun hid => hother ⟨rfl, hid⟩]
  · rw [Function.update_of_ne hkind]

theorem ephemeral_setFile_self {record : ρ} :
    ((d.setFile kind id record).ephemeral kind).get? id = some record := by
  simp [Disk.setFile]

theorem ephemeral_setFile_other {record : ρ} {kind' : κ} {id' : ι}
    (hother : ¬(kind' = kind ∧ id' = id)) :
    ((d.setFile kind id record).ephemeral kind').get? id' = (d.ephemeral kind').get? id' := by
  simp only [Disk.setFile]
  by_cases hkind : kind' = kind
  · subst hkind
    rw [Function.update_self]
    exact Table.get?_insert_ne _ _ fun hid => hother ⟨rfl, hid.symm⟩
  · rw [Function.update_of_ne hkind]

/-! ## Reading -/

theorem Agrees.isDeleted {file : Option ρ} {directory : Directory κ ι} {sequences : List Nat}
    {record : Option ρ} (h : Agrees valid file directory kind id sequences record) :
    ∃ deleted, ephemeralIsDeleted kind id directory = .ok deleted ∧
      record = if deleted then none else file := by
  obtain ⟨ms, rfl, hms, -, rfl⟩ := h.markers
  refine ⟨_, ephemeralIsDeleted_markerFiles hms, ?_⟩
  simp only [decide_eq_true_eq]

/-- A file that is read gives what the record is. -/
theorem Agrees.read {found : ρ} {directory : Directory κ ι} {sequences : List Nat}
    {record : Option ρ} (h : Agrees valid (some found) directory kind id sequences record) :
    (do if ← ephemeralIsDeleted kind id directory then .ok none
        else (validateRecord valid kind found).map some) = .ok record := by
  obtain ⟨deleted, hdeleted, rfl⟩ := h.isDeleted
  rw [hdeleted]
  cases deleted with
  | true => rfl
  | false =>
      simp only [bind, Except.bind, validateRecord, h.valid found rfl]
      rfl

theorem readEphemeral_spec (hs : Sound valid h l) (kind : κ) (id : ι) :
    readEphemeral valid h.disk kind id = .ok (l kind id) := by
  have hagrees := hs kind id
  rw [readEphemeral]
  cases hfile : (h.disk.ephemeral kind).get? id with
  | none =>
      obtain ⟨deleted, -, hrecord⟩ := hagrees.isDeleted
      rw [hrecord, hfile, ite_self]
  | some found =>
      rw [hfile] at hagrees
      exact hagrees.read

/-- A listing has every record that is there, in the order of ids, and no other. -/
theorem list_spec (hs : Sound valid h l) (kind : κ) :
    ∃ ids : List ι, ids.Pairwise (· < ·) ∧ (∀ id, id ∈ ids ↔ (l kind id).isSome = true) ∧
      list valid h.disk kind = .ok (ids.filterMap (l kind)) := by
  have hentry : ∀ e ∈ (h.disk.ephemeral kind).entries,
      (do if ← ephemeralIsDeleted kind e.1 (h.disk.retained kind e.1) then .ok none
          else (validateRecord valid kind e.2).map some) = .ok (l kind e.1) := by
    intro e he
    have hagrees := hs kind e.1
    rw [Table.mem_entries.mp he] at hagrees
    exact hagrees.read
  have hpresent : ∀ id, (l kind id).isSome = true → id ∈ (h.disk.ephemeral kind).keys := by
    intro id hsome
    obtain ⟨deleted, -, hrecord⟩ := (hs kind id).isDeleted
    rw [Table.mem_keys]
    cases hfile : (h.disk.ephemeral kind).get? id with
    | some found => exact ⟨found, rfl⟩
    | none =>
        rw [hrecord, hfile, ite_self] at hsome
        cases hsome
  refine ⟨(h.disk.ephemeral kind).keys.filter fun id => (l kind id).isSome,
    (Table.keys_pairwise _).sublist List.filter_sublist, fun id => ?_, ?_⟩
  · rw [List.mem_filter]
    exact ⟨fun hmem => hmem.2, fun hsome => ⟨hpresent id hsome, hsome⟩⟩
  · rw [list, mapM_ok hentry]
    simp only [bind, Except.bind, Except.ok.injEq, Table.keys]
    rw [List.reduceOption, List.filterMap_map, List.filter_map, List.filterMap_map,
      ← List.filterMap_eq_filter, List.filterMap_filterMap]
    refine List.filterMap_congr fun e _ => ?_
    cases hrecord : l kind e.1 <;> simp [hrecord, Option.guard]

/-! ## Steps -/

theorem marked_last (state : Presence) (ms : List (Nat × Presence)) :
    (ms ++ (marked state ms).toList).getLast?.map Prod.snd = some .deleted ↔
      state = .deleted := by
  rw [marked]
  split
  next hsame =>
    rw [Option.toList_none, List.append_nil]
    rcases hsame with hlast | ⟨rfl, rfl⟩
    · rw [hlast, Option.some_inj]
    · simp
  next =>
    rw [Option.toList_some, List.getLast?_concat]
    exact Option.some_inj

/-- The numbers of a record go on above the last of them. -/
theorem increasing_marked {ms : List (Nat × Presence)} {sequences : List Nat} {state : Presence}
    (hlast : sequences.getLast? = ms.getLast?.map Prod.fst)
    (hincreasing : sequences.Pairwise (· < ·)) :
    (sequences ++ ((marked state ms).map Prod.fst).toList).Pairwise (· < ·) ∧
      (sequences ++ ((marked state ms).map Prod.fst).toList).getLast? =
        (ms ++ (marked state ms).toList).getLast?.map Prod.fst := by
  rw [marked]
  split
  · exact ⟨by simpa using hincreasing, by simpa using hlast⟩
  · simp only [Option.map_some, Option.toList_some, List.getLast?_concat, and_true]
    refine List.pairwise_append.mpr ⟨hincreasing, List.pairwise_singleton .., fun n hn m hm => ?_⟩
    rw [List.mem_singleton.mp hm, newest, ← hlast]
    rcases List.eq_nil_or_concat sequences with rfl | ⟨rest, last, rfl⟩
    · cases hn
    · rw [List.concat_eq_append] at hn hincreasing ⊢
      rw [List.getLast?_concat, Option.getD_some]
      rcases List.mem_append.mp hn with hn | hn
      · have hlt := (List.pairwise_append.mp hincreasing).2.2 n hn last (List.mem_singleton_self _)
        exact hlt.trans (Nat.lt_succ_self _)
      · rw [List.mem_singleton.mp hn]
        exact Nat.lt_succ_self _

/-- Marking a record whose file may have been replaced just now. -/
theorem mark_spec (hs : Sound valid h l) (hretained : d.retained = h.disk.retained)
    (hfiles : ∀ kind' id', ¬(kind' = kind ∧ id' = id) →
      (d.ephemeral kind').get? id' = (h.disk.ephemeral kind').get? id')
    (hvalid : ∀ r, (d.ephemeral kind).get? id = some r → valid kind r = true)
    (state : Presence) :
    ∃ d' p, mark d kind id state = .ok (d', p) ∧
      Sound valid ⟨d', h.published ++ p.toList⟩
        (l.set kind id (if state = .deleted then none else (d.ephemeral kind).get? id)) := by
  obtain ⟨ms, hdirectory, hms, hlast, -⟩ := (hs kind id).markers
  have hmark : mark d kind id state =
      .ok (d.setMarkers kind id (markerFiles kind id (ms ++ (marked state ms).toList)),
        ((marked state ms).map Prod.fst).map fun n => (kind, id, n)) := by
    rw [mark, hretained, hdirectory, markEphemeral_markerFiles hms]
    rfl
  refine ⟨_, _, hmark, fun kind' id' => ?_⟩
  by_cases hself : kind' = kind ∧ id' = id
  · obtain ⟨rfl, rfl⟩ := hself
    obtain ⟨hincreasing, hlast'⟩ :=
      @increasing_marked ms _ state hlast (hs kind' id').increasing
    rw [retained_setMarkers_self, Logical.set_self, sequencesOf_self]
    refine ⟨⟨_, rfl, ?_, hlast', ?_⟩, hvalid, hincreasing⟩
    · rw [marked]
      split
      · simpa using hms
      · exact hms.concat state
    · simp only [marked_last]
      rfl
  · rw [retained_setMarkers_other hself, Logical.set_other hself, sequencesOf_other hself,
      hretained]
    have hagrees := hs kind' id'
    rw [← hfiles kind' id' hself] at hagrees
    exact hagrees

theorem put_spec (hs : Sound valid h l) {record : ρ} (hrecord : valid kind record = true) :
    ∃ d' p, put valid h.disk kind id record = .ok (d', p) ∧
      Sound valid ⟨d', h.published ++ p.toList⟩ (l.put valid kind id record) := by
  have hvalid : ∀ r, ((h.disk.setFile kind id record).ephemeral kind).get? id = some r →
      valid kind r = true := by
    intro r hr
    rw [ephemeral_setFile_self] at hr
    exact Option.some.inj hr ▸ hrecord
  obtain ⟨d', p, hmark, hsound⟩ := mark_spec (d := h.disk.setFile kind id record) hs rfl
    (fun _ _ => ephemeral_setFile_other) hvalid .present
  refine ⟨d', p, ?_, ?_⟩
  · rw [put, validateRecord, if_pos hrecord]
    exact hmark
  · rw [Logical.put, if_pos hrecord]
    rw [ephemeral_setFile_self] at hsound
    exact hsound

theorem put_invalid {record : ρ} (hrecord : ¬valid kind record = true) :
    put valid d kind id record = .error .invalidRecord := by
  rw [put, validateRecord, if_neg hrecord]
  rfl

/-- The directories of a disk mean lists of markers. -/
def Disk.Marked (d : Disk κ ι ρ) : Prop :=
  ∀ kind id, ∃ ms, d.retained kind id = markerFiles kind id ms ∧ Ascending ms

/-- Superseded markers are taken away, and nothing else. -/
structure Reclaimed (d d' : Disk κ ι ρ) : Prop where
  files : d'.ephemeral = d.ephemeral
  markers : ∀ kind id ms, d.retained kind id = markerFiles kind id ms → Ascending ms →
    ∃ ms', d'.retained kind id = markerFiles kind id ms' ∧ Trimmed ms ms'

omit [DecidableEq κ] in
theorem Reclaimed.refl (d : Disk κ ι ρ) : Reclaimed d d :=
  ⟨rfl, fun _ _ ms h _ => ⟨ms, h, .refl ms⟩⟩

omit [DecidableEq κ] in
theorem Reclaimed.trans {d d' d'' : Disk κ ι ρ} (h : Reclaimed d d') (h' : Reclaimed d' d'') :
    Reclaimed d d'' := by
  refine ⟨h'.files.trans h.files, fun kind id ms hms hascending => ?_⟩
  obtain ⟨ms', hms', htrimmed⟩ := h.markers kind id ms hms hascending
  obtain ⟨ms'', hms'', htrimmed'⟩ := h'.markers kind id ms' hms' (htrimmed.ascending hascending)
  exact ⟨ms'', hms'', htrimmed.trans htrimmed'⟩

omit [DecidableEq κ] in
theorem Reclaimed.marked {d d' : Disk κ ι ρ} (h : Reclaimed d d') (hd : d.Marked) : d'.Marked := by
  intro kind id
  obtain ⟨ms, hms, hascending⟩ := hd kind id
  obtain ⟨ms', hms', htrimmed⟩ := h.markers kind id ms hms hascending
  exact ⟨ms', hms', htrimmed.ascending hascending⟩

theorem reclaimed_setMarkers {ms ms' : List (Nat × Presence)}
    (hms : d.retained kind id = markerFiles kind id ms) (h : Trimmed ms ms') :
    Reclaimed d (d.setMarkers kind id (markerFiles kind id ms')) := by
  refine ⟨rfl, fun kind' id' ns hns _ => ?_⟩
  by_cases hself : kind' = kind ∧ id' = id
  · obtain ⟨rfl, rfl⟩ := hself
    have hsame : ns = ms := markerFiles_inj (hns.symm.trans hms)
    exact ⟨ms', retained_setMarkers_self, hsame ▸ h⟩
  · exact ⟨ns, (retained_setMarkers_other hself).trans hns, .refl ns⟩

theorem reclaimed_condemnSuperseded (budget : Nat) (expired : Nat → Bool) :
    ∀ (directories : List (κ × ι)) {d : Disk κ ι ρ} (spent : Nat), d.Marked →
      Reclaimed d (condemnSupersededMarkers budget expired d spent directories)
  | [], d, _, _ => .refl d
  | (kind, id) :: rest, d, spent, hd => by
      obtain ⟨ms, hms, hascending⟩ := hd kind id
      obtain ⟨ms', htrimmed, hnames⟩ :=
        @condemnSuperseded_markerFiles κ ι kind id ms budget expired spent hascending
      have hhead := reclaimed_setMarkers hms htrimmed
      rw [condemnSupersededMarkers]
      simp only [hms]
      rcases hcall : condemnNames budget expired (markerFiles kind id ms) spent
        (supersededNames ((markerFiles kind id ms).map Prod.fst)) with ⟨directory, spent', drained⟩
      rw [hcall] at hnames
      change directory = _ at hnames
      rw [hnames]
      cases drained with
      | true => exact hhead.trans (reclaimed_condemnSuperseded budget expired rest spent'
          (hhead.marked hd))
      | false => exact hhead

theorem reclaimed_reclaimRetired (hd : d.Marked) (pass : Pass κ ι) :
    Reclaimed d (reclaimRetired d pass) := by
  rw [reclaimRetired]
  split
  · exact reclaimed_condemnSuperseded _ _ _ _ hd
  · exact .refl d

theorem Sound.marked (hs : Sound valid h l) : h.disk.Marked := by
  intro kind id
  obtain ⟨ms, hms, hascending, -⟩ := (hs kind id).markers
  exact ⟨ms, hms, hascending⟩

/-- Taking superseded markers away changes no record. -/
theorem Sound.reclaimed (hs : Sound valid h l) (hd : Reclaimed h.disk d) :
    Sound valid ⟨d, h.published⟩ l := by
  intro kind id
  obtain ⟨ms, hms, hascending, hlast, hrecord⟩ := (hs kind id).markers
  obtain ⟨ms', hms', htrimmed⟩ := hd.markers kind id ms hms hascending
  have hfile : (d.ephemeral kind).get? id = (h.disk.ephemeral kind).get? id := by rw [hd.files]
  rw [hfile]
  refine ⟨⟨ms', hms', htrimmed.ascending hascending, ?_, ?_⟩, (hs kind id).valid,
    (hs kind id).increasing⟩
  · rw [htrimmed.last]
    exact hlast
  · rw [htrimmed.last]
    exact hrecord

/-- An operation does to the disk what it does to the records, or it is refused for
its record and does nothing. -/
theorem perform_spec (hs : Sound valid h l) (op : Op κ ι ρ) :
    (perform valid h.disk op = .error .invalidRecord ∧ l.step valid op = l) ∨
      ∃ d' p, perform valid h.disk op = .ok (d', p) ∧
        Sound valid ⟨d', h.published ++ p.toList⟩ (l.step valid op) := by
  have hput : ∀ kind id record,
      (put valid h.disk kind id record = .error .invalidRecord ∧ l.put valid kind id record = l) ∨
        ∃ d' p, put valid h.disk kind id record = .ok (d', p) ∧
          Sound valid ⟨d', h.published ++ p.toList⟩ (l.put valid kind id record) := by
    intro kind id record
    by_cases hrecord : valid kind record = true
    · exact .inr (put_spec hs hrecord)
    · exact .inl ⟨put_invalid hrecord, if_neg hrecord⟩
  have hsame : Sound valid ⟨h.disk, h.published ++ ([] : List (κ × ι × Nat))⟩ l := by
    rw [List.append_nil]
    exact hs
  cases op with
  | put kind id record => exact hput kind id record
  | update kind id updater =>
      have hperform : perform valid h.disk (.update kind id updater) =
          match updater (l kind id) with
          | none => .ok (h.disk, none)
          | some next => put valid h.disk kind id next := by
        rw [perform, update, readEphemeral_spec hs]
        rfl
      rw [hperform, Logical.step]
      cases updater (l kind id) with
      | none => exact .inr ⟨h.disk, none, rfl, hsame⟩
      | some next => exact hput kind id next
  | delete kind id guard =>
      have hperform : perform valid h.disk (.delete kind id guard) =
          if (l kind id).any guard then mark h.disk kind id .deleted else .ok (h.disk, none) := by
        rw [perform, delete, readEphemeral_spec hs]
        cases l kind id <;> rfl
      rw [hperform, Logical.step]
      split
      · have hmark := mark_spec hs rfl (fun _ _ _ => rfl) (hs kind id).valid .deleted
        rw [if_pos rfl] at hmark
        exact .inr hmark
      · exact .inr ⟨h.disk, none, rfl, hsame⟩
  | reclaim pass =>
      refine .inr ⟨reclaimRetired h.disk pass, none, rfl, ?_⟩
      rw [Option.toList_none, List.append_nil]
      exact hs.reclaimed (reclaimed_reclaimRetired hs.marked pass)

theorem perform_error (hs : Sound valid h l) {op : Op κ ι ρ} {fault : Fault}
    (hop : perform valid h.disk op = .error fault) : fault = .invalidRecord := by
  rcases perform_spec hs op with ⟨hrefused, -⟩ | ⟨d', p, hdone, -⟩
  · cases hop.symm.trans hrefused
    rfl
  · cases hop.symm.trans hdone

theorem Sound.step (hs : Sound valid h l) (op : Op κ ι ρ) :
    Sound valid (h.step valid op) (l.step valid op) := by
  rw [History.step]
  rcases perform_spec hs op with ⟨hrefused, hsame⟩ | ⟨d', p, hdone, hsound⟩
  · rw [hrefused, hsame]
    exact hs
  · rw [hdone]
    exact hsound

theorem sound_run (ops : List (Op κ ι ρ)) :
    Sound valid (History.run valid ops) (Logical.run valid ops) := by
  induction ops using List.reverseRecOn with
  | nil => exact sound_initial
  | append_singleton ops op ih =>
      rw [History.run, Logical.run, List.foldl_concat, List.foldl_concat]
      exact ih.step op

/-- Every record is what was done to it last, whether it is read or listed.  The
numbers of its markers go up, and a pass leaves its newest marker. -/
theorem ephemeral_lastWord (ops : List (Op κ ι ρ)) :
    (∀ kind id, readEphemeral valid (History.run valid ops).disk kind id =
      .ok (Logical.run valid ops kind id)) ∧
    (∀ kind, ∃ ids : List ι, ids.Pairwise (· < ·) ∧
      (∀ id, id ∈ ids ↔ (Logical.run valid ops kind id).isSome = true) ∧
      list valid (History.run valid ops).disk kind =
        .ok (ids.filterMap (Logical.run valid ops kind))) ∧
    (∀ kind id, (sequencesOf (History.run valid ops).published kind id).Pairwise (· < ·)) ∧
    ∀ pass kind id,
      ∃ marker, latestEphemeralMarker kind id ((History.run valid ops).disk.retained kind id) =
          .ok marker ∧
        latestEphemeralMarker kind id
          ((reclaimRetired (History.run valid ops).disk pass).retained kind id) = .ok marker := by
  have hs : Sound valid (History.run valid ops) (Logical.run valid ops) := sound_run ops
  refine ⟨readEphemeral_spec hs, list_spec hs, fun kind id => (hs kind id).increasing,
    fun pass kind id => ?_⟩
  obtain ⟨ms, hms, hascending⟩ := hs.marked kind id
  obtain ⟨ms', hms', htrimmed⟩ :=
    (reclaimed_reclaimRetired hs.marked pass).markers kind id ms hms hascending
  refine ⟨_, hms ▸ latest_markerFiles hascending, ?_⟩
  rw [hms', latest_markerFiles (htrimmed.ascending hascending), htrimmed.last]

end Acc.Storage.Ephemeral
