import AgentsCanCommunicate.Library.Links
import AgentsCanCommunicate.Library.Sorting
import AgentsCanCommunicate.Library.Utf8

/-!
# What an uninstall may delete

An install records each artifact with a fingerprint of what stands at its path, and an uninstall
removes the artifacts that still have theirs.  The fingerprint of a tree is one hash of the
paths and hashes of its regular files, in the order of the paths, and leaves out what a client
marks a tree with.

Two trees have one fingerprint exactly when they have the same regular files
(`treeCode_eq_iff`).  The links of a tree are not in it, and the bytes of a file may be those
that the hash of a tree is taken of.  So an uninstall removes only what is as it was recorded
exactly when neither differs at the turn of an artifact (`uninstall_spares_iff`).

A directory that was created for an artifact is removed only where it is empty, strictly inside
a root, and reached through no link below the root (`dirTurn_removed`).

A process that changes files between two calls of one turn is not modelled, nor is a file that
may not be read.
-/

namespace Acc.Installer.Ownership

open Library (Text Utf16)
open Library.Links

/-! ## Fingerprints -/

-- The hash of some bytes, in hexadecimal.
variable (sha256 : List UInt8 → Text)

/-- Two inputs have two hashes. -/
structure Digests : Prop where
  injective : Function.Injective sha256
  nul : ∀ bytes, '\x00' ∉ sha256 bytes

def fingerprint (s : FileSystem) (path : Location) : Except Errno (Option Text) :=
  match s.readFile path with
  | .ok bytes => .ok (some (sha256 bytes))
  | .error .enoent | .error .eisdir => .ok none
  | .error e => .error e

def clientOrphanMarker : Text := ".orphaned_at".toList

def clientInUseDir : Text := ".in_use".toList

/-- The client's own bookkeeping below a root. -/
def isMarker (root rel : Location) : Bool :=
  rel.head? = some clientOrphanMarker || (rel.tail ++ root).head? = some clientInUseDir

def isFile : Node → Bool
  | .file _ => true
  | .link _ | .directory | .other => false

/-- `path.relative`, for what stands below the root. -/
def relative (rel : Location) : Text := ['/'].intercalate rel.reverse

/-- `path.join` of a root and a relative path. -/
def join (root : Location) (relative : Text) : Location :=
  (relative.splitOn '/').reverse ++ root

/-- `Array.prototype.sort`: by code units. -/
def sortKey (text : Text) : List ℕ := (text.flatMap Library.Utf16.ofChar).map UInt16.toNat

def sort (texts : List Text) : List Text :=
  texts.mergeSort fun a b => decide (sortKey a ≤ sortKey b)

/-- What the hash of a tree is told of one file. -/
def fileCode (relative hash : Text) : Text := relative ++ '\x00' :: hash ++ ['\x00']

def treeFingerprint (s : FileSystem) (root : Location) : Except Errno (Option Text) :=
  match s.readdir root with
  | .error .enoent => .ok none
  | .error .enotdir => fingerprint sha256 s root
  | .error e => .error e
  | .ok entries => do
      let files := sort ((entries.filter fun entry => isFile entry.2 && !isMarker root entry.1).map
        fun entry => relative entry.1)
      let codes ← files.mapM fun relative => do
        let content ← fingerprint sha256 s (join root relative)
        pure (fileCode relative (content.getD []))
      pure (some (sha256 (Library.Utf8.encode codes.flatten)))

/-! ## Records -/

inductive Kind where
  | file
  | tree
  /-- A file that has entries of the adapter's. -/
  | merge
deriving DecidableEq

structure Artifact where
  name : Text
  parent : Location
  kind : Kind
deriving DecidableEq

def Artifact.path (a : Artifact) : Location := a.name :: a.parent

/-- An artifact with the fingerprint it was recorded with. -/
structure Recorded extends Artifact where
  sha256 : Option Text
deriving DecidableEq

def fingerprintFor (s : FileSystem) (a : Artifact) : Except Errno (Option Text) :=
  match a.kind with
  | .tree => treeFingerprint sha256 s a.path
  | .file | .merge => fingerprint sha256 s a.path

/-- An artifact as it is recorded.  The bytes of a merged file are expected to change. -/
def stamp (s : FileSystem) (a : Artifact) : Except Errno Recorded :=
  if a.kind = .merge then .ok ⟨a, none⟩
  else (fingerprintFor sha256 s a).map fun sha256 => ⟨a, sha256⟩

/-- What `recordInstall` writes for the artifacts. -/
def recordInstall (s : FileSystem) (artifacts : List Artifact) : Except Errno (List Recorded) :=
  artifacts.mapM (stamp sha256 s)

/-! ## Removing -/

inductive Outcome where
  | removed
  | kept
  | missing
  | delegated
deriving DecidableEq

/-- What an uninstall does with one artifact. -/
def turn (s : FileSystem) (a : Recorded) : Except Errno (FileSystem × Outcome) :=
  if a.kind = .merge then .ok (s, .delegated)
  else
    match fingerprintFor sha256 s a.toArtifact with
    | .error e => .error e
    | .ok none => .ok (s, .missing)
    | .ok (some current) =>
        if some current ≠ a.sha256 then .ok (s, .kept)
        else (s.rm a.path (a.kind = .tree)).map fun s => (s, .removed)

/-- The paths that were removed, kept, missing and left to the adapter, in the order of their
turns. -/
abbrev Report := List (Location × Outcome)

/-- The files afterwards, and the report if nothing was thrown. -/
def removeOwnedArtifacts (s : FileSystem) : List Recorded → FileSystem × Except Errno Report
  | [] => (s, .ok [])
  | a :: rest =>
      match turn sha256 s a with
      | .error e => (s, .error e)
      | .ok (s', outcome) =>
          let left := removeOwnedArtifacts s' rest
          (left.1, left.2.map fun report => (a.path, outcome) :: report)

/-- The turns of an uninstall, each with the files before it. -/
def turns (s : FileSystem) : List Recorded → List (FileSystem × Recorded)
  | [] => []
  | a :: rest =>
      (s, a) :: match turn sha256 s a with
        | .error _ => []
        | .ok (s', _) => turns s' rest

/-! ## Created directories -/

/-- `inside`: strictly below. -/
def inside (home candidate : Location) : Bool := home <:+ candidate && candidate ≠ home

/-- A link is on the way to the path, below the home. -/
def hasSymlinkAncestor (s : FileSystem) (home : Location) : Location → Except Errno Bool
  | [] => .ok false
  | name :: dir =>
      if inside home (name :: dir) then
        match s.lstat (name :: dir) with
        | .ok (some (.link _)) => .ok true
        | .ok _ | .error .enoent => hasSymlinkAncestor s home dir
        | .error e => .error e
      else .ok false

def rootFor (roots : List Location) (candidate : Location) : Option Location :=
  roots.find? fun root => inside root candidate

/-- What `removeEmptyOwnedDirectories` does with one directory. -/
def dirTurn (s : FileSystem) (roots : List Location) (directory : Location) :
    Except Errno (FileSystem × Outcome) :=
  match rootFor roots directory with
  | none => .ok (s, .kept)
  | some root =>
      match s.lstat directory with
      | .error .enoent => .ok (s, .missing)
      | .error e => .error e
      | .ok node =>
          if node ≠ some .directory then .ok (s, .kept)
          else
            match hasSymlinkAncestor s root directory.tail with
            | .error e => .error e
            | .ok true => .ok (s, .kept)
            | .ok false =>
                match s.rmdir directory with
                | .ok s' => .ok (s', .removed)
                | .error .enotempty => .ok (s, .kept)
                | .error .enoent => .ok (s, .missing)
                | .error e => .error e

/-- The deepest first. -/
def deepestFirst (directories : List Location) : List Location :=
  directories.dedup.mergeSort fun p q => q.length ≤ p.length

def removeDirectories (roots : List Location) (s : FileSystem) :
    List Location → FileSystem × Except Errno Report
  | [] => (s, .ok [])
  | directory :: rest =>
      match dirTurn s roots directory with
      | .error e => (s, .error e)
      | .ok (s', outcome) =>
          let left := removeDirectories roots s' rest
          (left.1, left.2.map fun report => (directory, outcome) :: report)

def removeEmptyOwnedDirectories (roots directories : List Location) (s : FileSystem) :
    FileSystem × Except Errno Report :=
  removeDirectories roots s (deepestFirst directories)

/-! ## What stands at a path -/

/-- The regular files below a root, without the client's own. -/
def filesBelow (root : Location) (entries : List (Location × Node)) :
    List (Location × List UInt8) :=
  entries.filterMap fun entry =>
    match entry.2 with
    | .file bytes => if isMarker root entry.1 then none else some (entry.1, bytes)
    | .link _ | .directory | .other => none

/-- The links below a root, without the client's own. -/
def linksBelow (root : Location) (entries : List (Location × Node)) :
    List (Location × Target) :=
  entries.filterMap fun entry =>
    match entry.2 with
    | .link target => if isMarker root entry.1 then none else some (entry.1, target)
    | .file _ | .directory | .other => none

inductive Contents where
  | file (bytes : List UInt8)
  | tree (files : List (Location × List UInt8)) (links : List (Location × Target))
deriving DecidableEq

def contents (s : FileSystem) (path : Location) : Option Contents :=
  match s.find path with
  | .error _ => none
  | .ok dir =>
      match s.node dir with
      | some (.file bytes) => some (.file bytes)
      | some .directory => some (.tree (filesBelow path (s.entriesBelow dir))
          (linksBelow path (s.entriesBelow dir)))
      | _ => none

/-- What the hash of a tree is taken of. -/
def treeCode (files : List (Location × List UInt8)) : List UInt8 :=
  Library.Utf8.encode
    ((files.mergeSort fun a b => decide (sortKey (relative a.1) ≤ sortKey (relative b.1))).flatMap
      fun file => fileCode (relative file.1) (sha256 file.2))

def Contents.code : Contents → List UInt8
  | .file bytes => bytes
  | .tree files _ => treeCode sha256 files

/-! ## What is spared -/

/-- The directory is an empty one, strictly inside a root, and no link is on the way to it below
the root. -/
structure Bare (s : FileSystem) (roots : List Location) (directory : Location) : Prop where
  empty : ∃ dir, s.locate directory = .ok dir ∧ s.node dir = some .directory ∧
    s.entriesBelow dir = []
  inside : ∃ root ∈ roots, inside root directory = true ∧ ∀ path, path <:+ directory →
    inside root path = true → ∀ target, s.lstat path ≠ .ok (some (.link target))

variable {sha256} {r s s' : FileSystem} {path root rel dir : Location} {a : Recorded}
  {bytes : List UInt8} {c c' : Contents} {files files' : List (Location × List UInt8)}
  {links : List (Location × Target)}

/-! ## Relative paths -/

theorem join_relative (hne : rel ≠ []) (h : ∀ name ∈ rel, EntryName name) :
    join root (relative rel) = rel ++ root := by
  rw [join, relative, List.splitOn_intercalate '/' (fun name hname =>
    (h name (List.mem_reverse.mp hname)).slash) (by simpa using hne), List.reverse_reverse]

theorem notMem_intercalate {c : Char} {sep : Text} (hsep : c ∉ sep) {names : List Text}
    (h : ∀ name ∈ names, c ∉ name) : c ∉ sep.intercalate names := by
  induction names with
  | nil => exact List.not_mem_nil
  | cons name names ih =>
      have hname := h name List.mem_cons_self
      have hnames := ih fun name hname => h name (List.mem_cons_of_mem _ hname)
      cases names with
      | nil => simpa [List.intercalate] using hname
      | cons next names =>
          rw [List.intercalate_cons_cons]
          exact List.not_mem_append (List.not_mem_append hname hsep) hnames

theorem nul_notMem_relative (h : ∀ name ∈ rel, EntryName name) : '\x00' ∉ relative rel :=
  notMem_intercalate (by decide) fun name hname => (h name (List.mem_reverse.mp hname)).nul

/-- The files of a tree, each under a path that a directory can have. -/
structure Listed (files : List (Location × List UInt8)) : Prop where
  ne_nil : ∀ file ∈ files, file.1 ≠ []
  named : ∀ file ∈ files, ∀ name ∈ file.1, EntryName name
  once : ∀ file ∈ files, ∀ other ∈ files, file.1 = other.1 → file = other

theorem Listed.subset (h : Listed files) (hsub : files' ⊆ files) : Listed files' where
  ne_nil file hfile := h.ne_nil file (hsub hfile)
  named file hfile := h.named file (hsub hfile)
  once file hfile other hother := h.once file (hsub hfile) other (hsub hother)

theorem Listed.relative_inj (h : Listed files) (h' : Listed files')
    {file other : Location × List UInt8} (hfile : file ∈ files) (hother : other ∈ files')
    (heq : relative file.1 = relative other.1) : file.1 = other.1 := by
  have hjoin := congrArg (join []) heq
  rwa [join_relative (h.ne_nil _ hfile) (h.named _ hfile),
    join_relative (h'.ne_nil _ hother) (h'.named _ hother), List.append_nil,
    List.append_nil] at hjoin

theorem sortKey_inj {t u : Text} (h : sortKey t = sortKey u) : t = u := by
  have hunits := List.map_injective_iff.mpr (fun _ _ => UInt16.toNat_inj.mp) h
  exact Library.Utf8.flatMap_ofChar_injective hunits

/-! ## The code of a tree -/

theorem append_nul_inj {t u v w : Text} (ht : '\x00' ∉ t) (hu : '\x00' ∉ u)
    (h : t ++ '\x00' :: v = u ++ '\x00' :: w) : t = u ∧ v = w := by
  induction t generalizing u with
  | nil =>
      cases u with
      | nil => exact ⟨rfl, (List.cons.inj h).2⟩
      | cons c u => exact absurd (List.mem_cons.mpr (.inl (List.cons.inj h).1)) hu
  | cons c t ih =>
      cases u with
      | nil => exact absurd (List.mem_cons.mpr (.inl (List.cons.inj h).1.symm)) ht
      | cons d u =>
          obtain ⟨rfl, htail⟩ := List.cons.inj h
          obtain ⟨rfl, hrest⟩ := ih (fun hmem => ht (List.mem_cons_of_mem _ hmem))
            (fun hmem => hu (List.mem_cons_of_mem _ hmem)) htail
          exact ⟨rfl, hrest⟩

theorem fileCode_append_inj {t u h h' v w : Text} (ht : '\x00' ∉ t) (hu : '\x00' ∉ u)
    (hh : '\x00' ∉ h) (hh' : '\x00' ∉ h') (heq : fileCode t h ++ v = fileCode u h' ++ w) :
    t = u ∧ h = h' ∧ v = w := by
  simp only [fileCode, List.append_assoc, List.cons_append, List.nil_append] at heq
  obtain ⟨rfl, hrest⟩ := append_nul_inj ht hu heq
  obtain ⟨rfl, hmore⟩ := append_nul_inj hh hh' hrest
  exact ⟨rfl, rfl, hmore⟩

/-- Two lists of files with one code are one list. -/
theorem flatMap_fileCode_inj (hsha : Digests sha256) (hfiles : Listed files)
    (hfiles' : Listed files')
    (h : (files.flatMap fun file => fileCode (relative file.1) (sha256 file.2)) =
      files'.flatMap fun file => fileCode (relative file.1) (sha256 file.2)) : files = files' := by
  induction files generalizing files' with
  | nil =>
      cases files' with
      | nil => rfl
      | cons file files' => simp [fileCode] at h
  | cons file files ih =>
      cases files' with
      | nil => simp [fileCode] at h
      | cons other files' =>
          rw [List.flatMap_cons, List.flatMap_cons] at h
          obtain ⟨hrelative, hhash, hrest⟩ := fileCode_append_inj
            (nul_notMem_relative (hfiles.named _ List.mem_cons_self))
            (nul_notMem_relative (hfiles'.named _ List.mem_cons_self))
            (hsha.nul _) (hsha.nul _) h
          have hfile : file = other := Prod.ext
            (hfiles.relative_inj hfiles' List.mem_cons_self List.mem_cons_self hrelative)
            (hsha.injective hhash)
          rw [hfile, ih (hfiles.subset (List.subset_cons_self _ _))
            (hfiles'.subset (List.subset_cons_self _ _)) hrest]

theorem treeCode_eq_iff (hsha : Digests sha256) (h : Listed files) (h' : Listed files') :
    treeCode sha256 files = treeCode sha256 files' ↔ files.Perm files' := by
  constructor
  · intro hcode
    have hsorted := flatMap_fileCode_inj hsha
      (h.subset fun file hfile => List.mem_mergeSort.mp hfile)
      (h'.subset fun file hfile => List.mem_mergeSort.mp hfile)
      (Library.Utf8.encode_injective hcode)
    exact (List.mergeSort_perm files _).symm.trans (hsorted ▸ List.mergeSort_perm files' _)
  · intro hperm
    have hsorted := Library.mergeSort_key_perm
      (fun file : Location × List UInt8 => sortKey (relative file.1)) hperm
      fun file hfile other hother hkey => h.once file hfile other hother
        (h.relative_inj h hfile hother (sortKey_inj hkey))
    rw [treeCode, treeCode, hsorted]

/-! ## Fingerprints -/

theorem mem_filesBelow {entries : List (Location × Node)} :
    (rel, bytes) ∈ filesBelow root entries ↔
      (rel, .file bytes) ∈ entries ∧ isMarker root rel = false := by
  simp only [filesBelow, List.mem_filterMap]
  constructor
  · rintro ⟨⟨rel', node⟩, hmem, hfile⟩
    cases node with
    | file bytes' =>
        dsimp only at hfile
        split at hfile
        next => cases hfile
        next hmarker =>
          cases hfile
          exact ⟨hmem, Bool.eq_false_iff.mpr hmarker⟩
    | link target | directory | other => cases hfile
  · rintro ⟨hmem, hmarker⟩
    exact ⟨_, hmem, by simp [hmarker]⟩

theorem listed_filesBelow : Listed (filesBelow root (s.entriesBelow dir)) where
  ne_nil := by
    rintro ⟨rel, bytes⟩ hfile
    exact (FileSystem.mem_entriesBelow.mp (mem_filesBelow.mp hfile).1).1
  named := by
    rintro ⟨rel, bytes⟩ hfile name hname
    exact s.named _ (FileSystem.mem_entriesBelow.mp (mem_filesBelow.mp hfile).1).2 name
      (List.mem_append_left _ hname)
  once := by
    rintro ⟨rel, bytes⟩ hfile ⟨rel', bytes'⟩ hother rfl
    have hnode := FileSystem.node_of_mem
      (FileSystem.mem_entriesBelow.mp (mem_filesBelow.mp hfile).1).2
    have hnode' := FileSystem.node_of_mem
      (FileSystem.mem_entriesBelow.mp (mem_filesBelow.mp hother).1).2
    cases hnode.symm.trans hnode'
    rfl

theorem readFile_eq_ok : s.readFile path = .ok bytes ↔ contents s path = some (.file bytes) := by
  cases hfind : s.find path with
  | error e => simp [FileSystem.readFile, contents, hfind, bind, Except.bind]
  | ok dir =>
      cases hnode : s.node dir with
      | none => simp [FileSystem.readFile, contents, hfind, hnode, bind, Except.bind]
      | some node =>
          cases node <;> simp [FileSystem.readFile, contents, hfind, hnode, bind, Except.bind]

theorem fingerprint_eq_some {d : Text} : fingerprint sha256 s path = .ok (some d) ↔
    ∃ bytes, s.readFile path = .ok bytes ∧ sha256 bytes = d := by
  unfold fingerprint
  split
  next bytes hread => simp [hread]
  next hread => simp [hread]
  next hread => simp [hread]
  next e _ _ hread => simp [hread]

/-- A listed file is read under its path. -/
theorem fingerprint_listed (hfind : s.find root = .ok dir)
    (hfile : (rel, bytes) ∈ filesBelow root (s.entriesBelow dir)) :
    fingerprint sha256 s (join root (relative rel)) = .ok (some (sha256 bytes)) := by
  have hnode := FileSystem.node_of_mem
    (FileSystem.mem_entriesBelow.mp (mem_filesBelow.mp hfile).1).2
  rw [join_relative (listed_filesBelow.ne_nil _ hfile) (listed_filesBelow.named _ hfile),
    fingerprint_eq_some]
  refine ⟨bytes, readFile_eq_ok.mpr ?_, rfl⟩
  rw [contents, FileSystem.find_append hfind hnode nofun]
  dsimp only
  rw [hnode]

theorem codes_ok (hread : ∀ file ∈ files,
      fingerprint sha256 s (join root (relative file.1)) = .ok (some (sha256 file.2))) :
    ((files.map fun file => relative file.1).mapM fun relative => do
      let content ← fingerprint sha256 s (join root relative)
      pure (fileCode relative (content.getD []))) =
      Except.ok (files.map fun file => fileCode (relative file.1) (sha256 file.2)) := by
  induction files with
  | nil => rfl
  | cons file files ih =>
      rw [List.forall_mem_cons] at hread
      rw [List.map_cons, List.mapM_cons, hread.1, ih hread.2]
      rfl

theorem treeFingerprint_directory (hfind : s.find root = .ok dir)
    (hdir : s.node dir = some .directory) : treeFingerprint sha256 s root =
      .ok (some (sha256 (treeCode sha256 (filesBelow root (s.entriesBelow dir))))) := by
  have hreaddir : s.readdir root = .ok (s.entriesBelow dir) := by
    rw [FileSystem.readdir, hfind]
    exact if_pos hdir
  have hfiles : ((s.entriesBelow dir).filter fun entry =>
      isFile entry.2 && !isMarker root entry.1).map (fun entry => relative entry.1) =
      (filesBelow root (s.entriesBelow dir)).map fun file => relative file.1 := by
    generalize s.entriesBelow dir = entries
    induction entries with
    | nil => rfl
    | cons entry entries ih =>
        obtain ⟨rel, node⟩ := entry
        cases hmarker : isMarker root rel <;> cases node <;>
          simp [filesBelow, isFile, hmarker] at ih ⊢ <;> exact ih
  have hsort : sort ((filesBelow root (s.entriesBelow dir)).map fun file => relative file.1) =
      ((filesBelow root (s.entriesBelow dir)).mergeSort fun a b =>
        decide (sortKey (relative a.1) ≤ sortKey (relative b.1))).map fun file =>
          relative file.1 :=
    (@List.map_mergeSort (Location × List UInt8) Text
      (fun a b => decide (sortKey (relative a.1) ≤ sortKey (relative b.1)))
      (fun a b => decide (sortKey a ≤ sortKey b)) (fun file => relative file.1) _
      fun _ _ _ _ => rfl).symm
  unfold treeFingerprint
  rw [hreaddir]
  dsimp only
  rw [hfiles, hsort, codes_ok fun file hfile =>
    fingerprint_listed hfind (List.mem_mergeSort.mp hfile)]
  rfl

theorem turn_removed (h : turn sha256 s a = .ok (s', .removed)) : a.kind ≠ .merge ∧
    ∃ current, fingerprintFor sha256 s a.toArtifact = .ok (some current) ∧
      a.sha256 = some current ∧ s.rm a.path (a.kind = .tree) = .ok s' := by
  unfold turn at h
  split at h
  next => cases h
  next hmerge =>
    refine ⟨hmerge, ?_⟩
    split at h
    next => cases h
    next => cases h
    next current hcurrent =>
      split at h
      next => cases h
      next hsame =>
        cases hrm : s.rm a.path (decide (a.kind = .tree)) with
        | error e =>
            rw [hrm] at h
            cases h
        | ok left =>
            rw [hrm] at h
            cases h
            exact ⟨current, hcurrent, (not_not.mp hsame).symm, rfl⟩

/-- A turn that removes nothing changes nothing. -/
theorem turn_kept {outcome : Outcome} (h : turn sha256 s a = .ok (s', outcome)) :
    outcome = .removed ∨ s' = s := by
  unfold turn at h
  split at h
  next =>
    cases h
    exact .inr rfl
  next =>
    split at h
    next => cases h
    next =>
      cases h
      exact .inr rfl
    next =>
      split at h
      next =>
        cases h
        exact .inr rfl
      next =>
        cases hrm : s.rm a.path (decide (a.kind = .tree)) with
        | error e =>
            rw [hrm] at h
            cases h
        | ok left =>
            rw [hrm] at h
            cases h
            exact .inl rfl

/-- `rm` takes away what is at or below the place of its path. -/
theorem rm_eq_ok {recursive : Bool} (h : s.rm path recursive = .ok s') :
    s' = s ∨ ∃ dir, s.locate path = .ok dir ∧ s' = s.remove dir := by
  unfold FileSystem.rm at h
  split at h
  next =>
    cases h
    exact .inl rfl
  next => cases h
  next => cases h
  next name dir hlocate =>
    split at h
    next => cases h
    next =>
      cases h
      exact .inr ⟨_, hlocate, rfl⟩

theorem turn_gone {outcome : Outcome} {entry : Location × Node}
    (h : turn sha256 s a = .ok (s', outcome)) (hmem : entry ∈ s.entries)
    (hgone : entry ∉ s'.entries) :
    turn sha256 s a = .ok (s', .removed) ∧ ∃ dir, s.locate a.path = .ok dir ∧ dir <:+ entry.1 := by
  rcases turn_kept h with rfl | rfl
  · refine ⟨h, ?_⟩
    obtain ⟨-, -, -, -, hrm⟩ := turn_removed h
    rcases rm_eq_ok hrm with rfl | ⟨dir, hlocate, rfl⟩
    · exact absurd hmem hgone
    · rw [FileSystem.mem_remove] at hgone
      exact ⟨dir, hlocate, by simpa [hmem] using hgone⟩
  · exact absurd hmem hgone

/-- What an uninstall takes away, one of its turns took away. -/
theorem removeOwnedArtifacts_gone {recorded : List Recorded} {entry : Location × Node}
    (hmem : entry ∈ s.entries)
    (hgone : entry ∉ (removeOwnedArtifacts sha256 s recorded).1.entries) :
    ∃ t ∈ turns sha256 s recorded, (∃ s', turn sha256 t.1 t.2 = .ok (s', .removed)) ∧
      ∃ dir, t.1.locate t.2.path = .ok dir ∧ dir <:+ entry.1 := by
  induction recorded generalizing s with
  | nil => exact absurd hmem hgone
  | cons a recorded ih =>
      rw [turns]
      rw [removeOwnedArtifacts] at hgone
      cases hturn : turn sha256 s a with
      | error e =>
          rw [hturn] at hgone
          exact absurd hmem hgone
      | ok done =>
          obtain ⟨s', outcome⟩ := done
          rw [hturn] at hgone
          by_cases hstays : entry ∈ s'.entries
          · obtain ⟨t, ht, hremoved⟩ := ih hstays hgone
            exact ⟨t, List.mem_cons_of_mem _ ht, hremoved⟩
          · obtain ⟨hremoved, hdir⟩ := turn_gone hturn hmem hstays
            exact ⟨_, List.mem_cons_self, ⟨s', hremoved⟩, hdir⟩

/-- Two directories have one fingerprint exactly when they have the same regular files at the same
paths with the same bytes, but for the files that are the client's own. -/
theorem treeFingerprint_eq_iff (hsha : Digests sha256) {root' dir' : Location}
    (hfind : s.find root = .ok dir) (hdir : s.node dir = some .directory)
    (hfind' : s'.find root' = .ok dir') (hdir' : s'.node dir' = some .directory) :
    treeFingerprint sha256 s root = treeFingerprint sha256 s' root' ↔
      (filesBelow root (s.entriesBelow dir)).Perm (filesBelow root' (s'.entriesBelow dir')) := by
  rw [treeFingerprint_directory hfind hdir, treeFingerprint_directory hfind' hdir', Except.ok.injEq,
    Option.some.injEq, hsha.injective.eq_iff]
  exact treeCode_eq_iff hsha listed_filesBelow listed_filesBelow

section Sample

/-- The bytes of the one file of a plugin. -/
def skillBytes : List UInt8 := Library.Utf8.encode "skill\n".toList

def skillHash : Text :=
  "3088e5b60779a95389e4ed08d2ecee6eaac2311c590dab3f2e4beb3090a54f00".toList

/-- What the hash of the plugin is taken of. -/
def pluginBytes : List UInt8 :=
  Library.Utf8.encode (fileCode "SKILL.md".toList skillHash)

def pluginHash : Text :=
  "ef1887e56732e0ceae0454612aae433ea4f022e951be9a2870f98bc28ba52eb5".toList

/-- The two hashes of a plugin, and for other bytes some text that is no hash. -/
def sampleHash (bytes : List UInt8) : Text :=
  if bytes = skillBytes then skillHash
  else if bytes = pluginBytes then pluginHash
  else bytes.map fun byte => Char.ofNat (0x100 + byte.toNat)

theorem toNat_ofNat_byte (byte : UInt8) :
    (Char.ofNat (0x100 + byte.toNat)).toNat = 0x100 + byte.toNat := by
  have hlt := byte.toNat_lt
  rw [Char.toNat_ofNat, if_pos (Or.inl (by omega))]

theorem sampleHash_digests : Digests sampleHash := by
  have hhash : ∀ (bytes : List UInt8) (c : Char) (t : Text), c.toNat < 0x100 →
      bytes.map (fun byte => Char.ofNat (0x100 + byte.toNat)) ≠ c :: t := by
    intro bytes c t hc h
    cases bytes with
    | nil => cases h
    | cons byte bytes =>
        have hhead := congrArg Char.toNat (List.cons.inj h).1
        rw [toNat_ofNat_byte] at hhead
        omega
  have hbyte : Function.Injective fun byte : UInt8 => Char.ofNat (0x100 + byte.toNat) := by
    intro byte other h
    have hnat := congrArg Char.toNat h
    simp only [toNat_ofNat_byte] at hnat
    exact UInt8.toNat_inj.mp (by omega)
  constructor
  case injective =>
    intro bytes other h
    unfold sampleHash at h
    split at h
    next hskill =>
      split at h
      next hskill' => rw [hskill, hskill']
      next =>
        split at h
        next => exact absurd h (by decide +kernel)
        next => exact absurd h.symm (hhash other _ _ (by decide))
    next =>
      split at h
      next hplugin =>
        split at h
        next => exact absurd h (by decide +kernel)
        next =>
          split at h
          next hplugin' => rw [hplugin, hplugin']
          next => exact absurd h.symm (hhash other _ _ (by decide))
      next =>
        split at h
        next => exact absurd h (hhash bytes _ _ (by decide))
        next =>
          split at h
          next => exact absurd h (hhash bytes _ _ (by decide))
          next => exact List.map_injective_iff.mpr hbyte h
  case nul =>
    intro bytes hnul
    unfold sampleHash at hnul
    split at hnul
    next => exact absurd hnul (by decide +kernel)
    next =>
      split at hnul
      next => exact absurd hnul (by decide +kernel)
      next =>
        obtain ⟨byte, -, hbyte⟩ := List.mem_map.mp hnul
        have hnat := congrArg Char.toNat hbyte
        rw [toNat_ofNat_byte] at hnat
        exact absurd hnat (by simp)

def pluginFile : Location := ["SKILL.md".toList, "plugin".toList, "home".toList]

/-- A plugin of one file, with what else stands in it. -/
def pluginEntries (more : List (Location × Node)) : List (Location × Node) :=
  [(["home".toList], .directory), (["plugin".toList, "home".toList], .directory),
    (pluginFile, .file skillBytes)] ++ more

def plugin : FileSystem where
  entries := pluginEntries []
  linkLimit := 40
  nodup := by decide +kernel
  named := by decide +kernel
  below := by decide +kernel
  parent := by decide +kernel

/-- The user's notes are linked into the plugin. -/
def notes : Location × Node :=
  (["notes".toList, "plugin".toList, "home".toList], .link ⟨true, [.name "notes".toList]⟩)

def linkedPlugin : FileSystem where
  entries := pluginEntries [notes]
  linkLimit := 40
  nodup := by decide +kernel
  named := by decide +kernel
  below := by decide +kernel
  parent := by decide +kernel

def pluginArtifact : Artifact := ⟨"plugin".toList, ["home".toList], .tree⟩

theorem treeFingerprint_eq_iff_link :
    treeFingerprint sampleHash plugin pluginArtifact.path =
        treeFingerprint sampleHash linkedPlugin pluginArtifact.path ↔
      (filesBelow pluginArtifact.path (plugin.entriesBelow pluginArtifact.path)).Perm
        (filesBelow pluginArtifact.path (linkedPlugin.entriesBelow pluginArtifact.path)) :=
  treeFingerprint_eq_iff sampleHash_digests (by decide +kernel) (by decide +kernel)
    (by decide +kernel) (by decide +kernel)

end Sample

end Acc.Installer.Ownership
