import AgentsCanCommunicate.Library.Decimal
import AgentsCanCommunicate.Library.Sorting

/-!
# Retention markers

A file of the store is never unlinked, so a record that is deleted keeps its file
and gets a marker.  The markers of a record are numbered, each is a file named by
its padded number, and the newest one says whether the record is there.

What a directory of markers means is a list of numbers and states, ascending:
`markerFiles` writes it, and every operation here is that list's.  Publishing
appends to it, and reclaiming takes some of it away, but never the last.
-/

namespace Acc.Storage.Retention

open Library Library.Decimal

variable {κ ι : Type}

/-! ## Markers -/

inductive Presence where
  | present
  | deleted
deriving DecidableEq

/-- The two areas of retained markers. -/
inductive Area where
  | state
  | ephemeral
deriving DecidableEq

structure Marker (κ ι : Type) where
  retentionVersion : Nat
  area : Area
  kind : κ
  id : ι
  sequence : Text
  state : Presence
deriving DecidableEq

inductive Fault where
  /-- `invalid ephemeral retention marker` -/
  | invalidName (file : Text)
  /-- `retention marker does not match its path` -/
  | foreignMarker (file : Text)
  /-- `unknown retention marker version` -/
  | unknownVersion (file : Text)
  /-- `record already published with different bytes` -/
  | conflict (file : Text)
  /-- What `validateRecord` throws. -/
  | invalidRecord
deriving DecidableEq

/-- The files of a directory, in the order in which it lists them. -/
abbrev Directory (κ ι : Type) := List (Text × Marker κ ι)

def retentionVersion : Nat := 1

def sequenceWidth : Nat := 16

def extension : Text := ".json".toList

/-- `path.basename(file, ".json")`. -/
def basename (file : Text) : Text :=
  if extension.isSuffixOf file ∧ file ≠ extension then file.take (file.length - extension.length)
  else file

/-- A name is a number from one, padded as it is written. -/
def sequenceOf (file : Text) : Except Fault Nat :=
  match read? (basename file) with
  | none => .error (.invalidName file)
  | some n =>
      if n < 1 ∨ basename file ≠ pad sequenceWidth n then .error (.invalidName file) else .ok n

def assertMarker [DecidableEq κ] [DecidableEq ι] (kind : κ) (id : ι) (file : Text)
    (marker : Marker κ ι) : Except Fault (Marker κ ι) :=
  if marker.area ≠ .ephemeral ∨ marker.kind ≠ kind ∨ marker.id ≠ id
      ∨ marker.sequence ≠ basename file then .error (.foreignMarker file)
  else if marker.retentionVersion ≠ retentionVersion then .error (.unknownVersion file)
  else .ok marker

/-- Only the newest marker is read, but every name is checked. -/
def latestEphemeralMarker [DecidableEq κ] [DecidableEq ι] (kind : κ) (id : ι)
    (directory : Directory κ ι) : Except Fault (Option (Marker κ ι)) := do
  let named ← (directory.filter fun e => extension.isSuffixOf e.1).mapM fun e =>
    (sequenceOf e.1).map fun order => (order, e)
  match named.mergeSort (fun left right => decide (right.1 ≤ left.1)) with
  | [] => .ok none
  | (_, file, marker) :: _ => (assertMarker kind id file marker).map some

def ephemeralIsDeleted [DecidableEq κ] [DecidableEq ι] (kind : κ) (id : ι)
    (directory : Directory κ ι) : Except Fault Bool :=
  (latestEphemeralMarker kind id directory).map fun marker =>
    decide (marker.map Marker.state = some .deleted)

/-- `publishAtomic` of a file that replaces nothing. -/
def publish [DecidableEq κ] [DecidableEq ι] (directory : Directory κ ι) (file : Text)
    (marker : Marker κ ι) : Except Fault (Directory κ ι) :=
  match directory.find? (·.1 = file) with
  | none => .ok (directory ++ [(file, marker)])
  | some e => if e.2 = marker then .ok directory else .error (.conflict file)

/-- The number that follows, and the marker that was published, if any. -/
def markEphemeral [DecidableEq κ] [DecidableEq ι] (kind : κ) (id : ι) (state : Presence)
    (directory : Directory κ ι) : Except Fault (Directory κ ι × Option Nat) := do
  let previous ← latestEphemeralMarker kind id directory
  -- A marker that repeats the state is not written.  No marker means present.
  if previous.map Marker.state = some state ∨ previous = none ∧ state = .present then
    .ok (directory, none)
  else
    let order := (previous.bind fun marker => read? marker.sequence).getD 0 + 1
    let sequence := pad sequenceWidth order
    let directory ← publish directory (sequence ++ extension)
      ⟨retentionVersion, .ephemeral, kind, id, sequence, state⟩
    .ok (directory, some order)

/-! ## Reclaiming -/

/-- Every marker of a directory but the newest.  A name that is no number is left alone. -/
def supersededNames (files : List Text) : List Text :=
  ((files.filterMap fun file => (read? (basename file)).map fun order => (order, file)).mergeSort
    fun left right => decide (right.1 ≤ left.1)).tail.map Prod.snd

def condemn (directory : Directory κ ι) (file : Text) : Directory κ ι :=
  directory.filter fun e => e.1 ≠ file

/-- Condemn within the budget.  What is left of the directory, what was spent, and
whether nothing remains. -/
def condemnNames (budget : Nat) (expired : Nat → Bool) (directory : Directory κ ι) :
    Nat → List Text → Directory κ ι × Nat × Bool
  | spent, [] => (directory, spent, true)
  | spent, file :: files =>
      if budget ≤ spent ∨ expired spent = true then (directory, spent, false)
      else condemnNames budget expired (condemn directory file) (spent + 1) files

/-! ## What a directory means -/

/-- The file of a marker. -/
def markerFile (kind : κ) (id : ι) (m : Nat × Presence) : Text × Marker κ ι :=
  (pad sequenceWidth m.1 ++ extension,
    ⟨retentionVersion, .ephemeral, kind, id, pad sequenceWidth m.1, m.2⟩)

def markerFiles (kind : κ) (id : ι) (ms : List (Nat × Presence)) : Directory κ ι :=
  ms.map (markerFile kind id)

/-- Numbers from one, ascending. -/
structure Ascending (ms : List (Nat × Presence)) : Prop where
  pairwise : ms.Pairwise fun a b => a.1 < b.1
  pos : ∀ m ∈ ms, 1 ≤ m.1

variable {kind : κ} {id : ι} {ms : List (Nat × Presence)} {directory : Directory κ ι}

theorem mapM_ok {ε α β : Type} {f : α → Except ε β} {g : α → β} :
    ∀ {l : List α}, (∀ a ∈ l, f a = .ok (g a)) → l.mapM f = .ok (l.map g)
  | [], _ => rfl
  | a :: l, h => by
      rw [List.forall_mem_cons] at h
      rw [List.mapM_cons, h.1, mapM_ok h.2]
      rfl

theorem basename_markerFile (m : Nat × Presence) :
    basename (markerFile kind id m).1 = pad sequenceWidth m.1 := by
  have hne : pad sequenceWidth m.1 ≠ [] := by
    intro h
    have hread : read? (pad sequenceWidth m.1) = some m.1 := read?_pad
    rw [h] at hread
    cases hread
  have hsuffix : extension.isSuffixOf (pad sequenceWidth m.1 ++ extension) = true :=
    List.isSuffixOf_iff_suffix.mpr (List.suffix_append ..)
  have hfile : pad sequenceWidth m.1 ++ extension ≠ extension := fun h => hne (by simpa using h)
  rw [basename, markerFile, if_pos ⟨hsuffix, hfile⟩, List.length_append, Nat.add_sub_cancel,
    List.take_left]

theorem markerFile_inj {m n : Nat × Presence}
    (h : (markerFile kind id m).1 = (markerFile kind id n).1) : m.1 = n.1 := by
  have hpad : pad sequenceWidth m.1 = pad sequenceWidth n.1 := by
    rw [← @basename_markerFile _ _ kind id m, h, basename_markerFile]
  exact pad_inj hpad

theorem markerFiles_inj {ns : List (Nat × Presence)}
    (h : markerFiles kind id ns = markerFiles kind id ms) : ns = ms := by
  refine List.map_injective_iff.mpr (fun m n hmn => ?_) h
  have hstate : m.2 = n.2 := congrArg (fun e => e.2.state) hmn
  exact Prod.ext (markerFile_inj (congrArg Prod.fst hmn)) hstate

theorem sequenceOf_markerFile {m : Nat × Presence} (h : 1 ≤ m.1) :
    sequenceOf (markerFile kind id m).1 = .ok m.1 := by
  rw [sequenceOf, basename_markerFile, read?_pad]
  exact if_neg (by simp [Nat.not_lt.mpr h])

theorem filter_markerFiles :
    (markerFiles kind id ms).filter (fun e => extension.isSuffixOf e.1) =
      markerFiles kind id ms := by
  rw [List.filter_eq_self]
  intro e he
  obtain ⟨m, -, rfl⟩ := List.mem_map.mp he
  exact List.isSuffixOf_iff_suffix.mpr (List.suffix_append ..)

/-- The newest marker is the last of the list. -/
theorem latest_markerFiles [DecidableEq κ] [DecidableEq ι] (h : Ascending ms) :
    latestEphemeralMarker kind id (markerFiles kind id ms) =
      .ok (ms.getLast?.map fun m => (markerFile kind id m).2) := by
  have hnamed : (markerFiles kind id ms).mapM (fun e =>
      (sequenceOf e.1).map fun order => (order, e)) =
        .ok (ms.map fun m => (m.1, markerFile kind id m)) := by
    rw [markerFiles, List.mapM_map]
    refine mapM_ok fun m hm => ?_
    change (sequenceOf (markerFile kind id m).1).map _ = _
    rw [sequenceOf_markerFile (h.pos m hm)]
    rfl
  have hpairwise : (ms.map fun m => (m.1, markerFile kind id m)).Pairwise
      fun a b => a.1 < b.1 := List.pairwise_map.mpr h.pairwise
  rw [latestEphemeralMarker, filter_markerFiles, hnamed]
  simp only [bind, Except.bind]
  rw [mergeSort_reverse Prod.fst hpairwise, ← List.map_reverse]
  rcases List.eq_nil_or_concat ms with rfl | ⟨rest, m, rfl⟩
  · rfl
  · rw [List.concat_eq_append, List.reverse_append, List.getLast?_concat]
    change (assertMarker kind id (markerFile kind id m).1 (markerFile kind id m).2).map some = _
    rw [assertMarker, basename_markerFile]
    simp [markerFile, retentionVersion]
    rfl

theorem ephemeralIsDeleted_markerFiles [DecidableEq κ] [DecidableEq ι] (h : Ascending ms) :
    ephemeralIsDeleted kind id (markerFiles kind id ms) =
      .ok (decide (ms.getLast?.map Prod.snd = some .deleted)) := by
  rw [ephemeralIsDeleted, latest_markerFiles h]
  cases ms.getLast? <;> rfl

/-- Every number of an ascending list is at most its last. -/
theorem Ascending.le_last (h : Ascending ms) {m n : Nat × Presence} (hm : m ∈ ms)
    (hn : ms.getLast? = some n) : m.1 ≤ n.1 := by
  obtain ⟨rest, rfl⟩ := List.getLast?_eq_some_iff.mp hn
  rcases List.mem_append.mp hm with hm | hm
  · exact ((List.pairwise_append.mp h.pairwise).2.2 m hm n (List.mem_singleton_self n)).le
  · rw [List.mem_singleton.mp hm]

/-- The number of the last marker, or zero. -/
def newest (ms : List (Nat × Presence)) : Nat := (ms.getLast?.map Prod.fst).getD 0

theorem Ascending.le_newest (h : Ascending ms) {m : Nat × Presence} (hm : m ∈ ms) :
    m.1 ≤ newest ms := by
  cases hlast : ms.getLast? with
  | none =>
      rw [List.getLast?_eq_none_iff.mp hlast] at hm
      cases hm
  | some n =>
      rw [newest, hlast]
      exact h.le_last hm hlast

theorem Ascending.concat (h : Ascending ms) (state : Presence) :
    Ascending (ms ++ [(newest ms + 1, state)]) where
  pairwise := by
    refine List.pairwise_append.mpr ⟨h.pairwise, List.pairwise_singleton .., fun m hm n hn => ?_⟩
    rw [List.mem_singleton.mp hn]
    exact Nat.lt_succ_of_le (h.le_newest hm)
  pos := by
    intro m hm
    rcases List.mem_append.mp hm with hm | hm
    · exact h.pos m hm
    · rw [List.mem_singleton.mp hm]
      exact Nat.le_add_left ..

/-- What is published: nothing when the state is repeated, or the next number. -/
def marked (state : Presence) (ms : List (Nat × Presence)) : Option (Nat × Presence) :=
  if ms.getLast?.map Prod.snd = some state ∨ ms = [] ∧ state = .present then none
  else some (newest ms + 1, state)

theorem markEphemeral_markerFiles [DecidableEq κ] [DecidableEq ι] (h : Ascending ms)
    (state : Presence) :
    markEphemeral kind id state (markerFiles kind id ms) =
      .ok (markerFiles kind id (ms ++ (marked state ms).toList),
        (marked state ms).map Prod.fst) := by
  have hlast : (ms.getLast?.map fun m => (markerFile kind id m).2).map Marker.state =
      ms.getLast?.map Prod.snd := by
    cases ms.getLast? <;> rfl
  have hnone : (ms.getLast?.map fun m => (markerFile kind id m).2) = none ↔ ms = [] := by
    rw [Option.map_eq_none_iff, List.getLast?_eq_none_iff]
  have hnewest : ((ms.getLast?.map fun m => (markerFile kind id m).2).bind
      fun marker => read? marker.sequence).getD 0 = newest ms := by
    rw [newest]
    cases ms.getLast? with
    | none => rfl
    | some m =>
        simp only [Option.map_some, Option.bind_some, markerFile]
        rw [read?_pad]
  have hfresh : (markerFiles kind id ms).find?
      (·.1 = (markerFile kind id (newest ms + 1, state)).1) = none := by
    rw [List.find?_eq_none]
    intro e he heq
    obtain ⟨m, hm, rfl⟩ := List.mem_map.mp he
    have hle := h.le_newest hm
    rw [markerFile_inj (of_decide_eq_true heq)] at hle
    exact absurd hle (Nat.not_succ_le_self _)
  rw [markEphemeral, latest_markerFiles h]
  simp only [bind, Except.bind, hlast, hnone, hnewest, marked]
  split
  · simp
  · rw [publish, show pad sequenceWidth (newest ms + 1) ++ extension =
      (markerFile kind id (newest ms + 1, state)).1 from rfl, hfresh]
    simp [markerFiles, markerFile]

/-! ## What reclaiming leaves -/

theorem supersededNames_markerFiles (h : Ascending ms) :
    supersededNames ((markerFiles kind id ms).map Prod.fst) =
      (ms.dropLast.map fun m => (markerFile kind id m).1).reverse := by
  have hnamed : ((markerFiles kind id ms).map Prod.fst).filterMap (fun file =>
      (read? (basename file)).map fun order => (order, file)) =
        ms.map fun m => (m.1, (markerFile kind id m).1) := by
    rw [markerFiles, List.map_map, List.filterMap_map, ← List.filterMap_eq_map]
    refine List.filterMap_congr fun m _ => ?_
    change (read? (basename (markerFile kind id m).1)).map _ = _
    rw [basename_markerFile, read?_pad]
    rfl
  have hpairwise : (ms.map fun m => (m.1, (markerFile kind id m).1)).Pairwise
      fun a b => a.1 < b.1 := List.pairwise_map.mpr h.pairwise
  rw [supersededNames, hnamed, mergeSort_reverse Prod.fst hpairwise]
  rcases List.eq_nil_or_concat ms with rfl | ⟨rest, m, rfl⟩
  · rfl
  · simp [List.concat_eq_append]

/-- Part of a list with the same last marker. -/
structure Trimmed (ms ms' : List (Nat × Presence)) : Prop where
  sublist : ms'.Sublist ms
  last : ms'.getLast? = ms.getLast?

theorem Trimmed.refl (ms : List (Nat × Presence)) : Trimmed ms ms := ⟨.refl _, rfl⟩

theorem Trimmed.trans {ms ms' ms'' : List (Nat × Presence)} (h : Trimmed ms ms')
    (h' : Trimmed ms' ms'') : Trimmed ms ms'' :=
  ⟨h'.sublist.trans h.sublist, h'.last.trans h.last⟩

theorem Trimmed.ascending {ms' : List (Nat × Presence)} (h : Trimmed ms ms')
    (hms : Ascending ms) : Ascending ms' :=
  ⟨hms.pairwise.sublist h.sublist, fun m hm => hms.pos m (h.sublist.subset hm)⟩

/-- Condemning a marker that is not the newest. -/
theorem condemn_markerFiles (h : Ascending ms) {m : Nat × Presence} (hm : m.1 ≠ newest ms) :
    ∃ ms', Trimmed ms ms' ∧
      condemn (markerFiles kind id ms) (markerFile kind id m).1 = markerFiles kind id ms' := by
  refine ⟨ms.filter fun n => n.1 ≠ m.1, ⟨List.filter_sublist, ?_⟩, ?_⟩
  · rcases List.eq_nil_or_concat ms with rfl | ⟨rest, n, rfl⟩
    · rfl
    · rw [List.concat_eq_append] at hm ⊢
      have hn : n.1 ≠ m.1 := by
        rw [newest, List.getLast?_concat] at hm
        exact Ne.symm hm
      rw [List.filter_append, List.filter_singleton, decide_eq_true hn, cond_true,
        List.getLast?_concat, List.getLast?_concat]
  · rw [condemn, markerFiles, List.filter_map, markerFiles]
    congr 1
    refine List.filter_congr fun n _ => ?_
    have hiff : (markerFile kind id n).1 = (markerFile kind id m).1 ↔ n.1 = m.1 :=
      ⟨markerFile_inj, fun heq => by rw [markerFile, markerFile, heq]⟩
    simp only [Function.comp_apply, ne_eq, hiff]

theorem condemnNames_markerFiles (budget : Nat) (expired : Nat → Bool)
    {condemned : List (Nat × Presence)} : ∀ {ms : List (Nat × Presence)} (spent : Nat),
    Ascending ms → (∀ m ∈ condemned, m.1 ≠ newest ms) →
    ∃ ms', Trimmed ms ms' ∧
      (condemnNames budget expired (markerFiles kind id ms) spent
        (condemned.map fun m => (markerFile kind id m).1)).1 = markerFiles kind id ms' := by
  induction condemned with
  | nil => exact fun {ms} spent _ _ => ⟨ms, .refl ms, rfl⟩
  | cons m condemned ih =>
      intro ms spent h hne
      rw [List.forall_mem_cons] at hne
      rw [List.map_cons, condemnNames]
      split
      · exact ⟨ms, .refl ms, rfl⟩
      · obtain ⟨ms', htrimmed, hcondemn⟩ := @condemn_markerFiles _ _ kind id ms h m hne.1
        have hnewest : newest ms' = newest ms := by rw [newest, newest, htrimmed.last]
        obtain ⟨ms'', htrimmed', hrest⟩ :=
          ih (spent + 1) (htrimmed.ascending h) (hnewest ▸ hne.2)
        rw [hcondemn]
        exact ⟨ms'', htrimmed.trans htrimmed', hrest⟩

/-- A directory keeps its newest marker. -/
theorem condemnSuperseded_markerFiles (budget : Nat) (expired : Nat → Bool) (spent : Nat)
    (h : Ascending ms) :
    ∃ ms', Trimmed ms ms' ∧
      (condemnNames budget expired (markerFiles kind id ms) spent
        (supersededNames ((markerFiles kind id ms).map Prod.fst))).1 = markerFiles kind id ms' := by
  rw [supersededNames_markerFiles h, ← List.map_reverse]
  refine condemnNames_markerFiles budget expired spent h fun m hm => ?_
  rw [List.mem_reverse] at hm
  rcases List.eq_nil_or_concat ms with rfl | ⟨rest, n, rfl⟩
  · cases hm
  · rw [List.concat_eq_append] at h hm ⊢
    rw [List.dropLast_concat] at hm
    rw [newest, List.getLast?_concat]
    exact ((List.pairwise_append.mp h.pairwise).2.2 m hm n (List.mem_singleton_self n)).ne

end Acc.Storage.Retention
