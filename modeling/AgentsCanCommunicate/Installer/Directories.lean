import AgentsCanCommunicate.Library.Run
import AgentsCanCommunicate.Library.Trees

/-!
# The directories an install creates

Before an adapter installs, the parents of its artifacts that are missing are
noted, and after it has installed they are recorded with its artifacts.  An
uninstall removes the artifacts that are as they were recorded, and the recorded
directories from the deepest on while each of them is empty, and forgets the
record.

There are files and directories, and no links.
-/

namespace Acc.Installer

open Library (Path FileTree Run Where)
open Library.FileTree (way)

variable {ι β : Type} [DecidableEq ι] [DecidableEq β]

/-! ## Artifacts -/

/-- A file, with the bytes it was written with if it was not made for entries
alone, and the adapters that have entries in it. -/
structure Content (ι β : Type) where
  base : Option β
  entries : Finset ι
deriving DecidableEq

inductive Kind (β : Type) where
  | file (bytes : β)
  | tree (bundle : List (Path × β))
  /-- Entries in a file of the client's. -/
  | merge
deriving DecidableEq

structure Artifact (β : Type) where
  name : String
  parent : Path
  kind : Kind β
deriving DecidableEq

def Artifact.path (a : Artifact β) : Path := a.name :: a.parent

/-- What an adapter would write, by path: an artifact comes before those below it. -/
structure Plan (β : Type) where
  artifacts : List (Artifact β)
  sorted : artifacts.Pairwise fun a b => b.path <:+ a.path → b.path = a.path

/-- The path is the artifact's own. -/
def Artifact.covers (a : Artifact β) (q : Path) : Bool :=
  match a.kind with
  | .file _ => q = a.path
  | .tree _ => a.path <:+ q
  | .merge => false

/-- The directory is in a tree of the plan, or its root. -/
def Plan.holds (plan : Plan β) (d : Path) : Bool :=
  plan.artifacts.any fun a =>
    match a.kind with
    | .tree _ => a.path <:+ d
    | _ => false

/-! ## Installing -/

/-- What an adapter's install does to the files, one after the other. -/
inductive Op (β : Type) where
  | mkdir (p : Path)
  | write (p : Path) (bytes : β)
  | merge (p : Path)
deriving DecidableEq

def Op.perform (k : ι) (t : FileTree (Content ι β)) : Op β → Option (FileTree (Content ι β))
  | .mkdir p => t.mkdir p
  | .write p bytes => t.write ⟨some bytes, ∅⟩ p
  | .merge p =>
      if p ∈ t.files then
        t.write { t.content p with entries := insert k (t.content p).entries } p
      else t.write ⟨none, {k}⟩ p

def mkdirs (p : Path) : List (Op β) := (way p).map .mkdir

/-- The missing parents and the artifact. -/
def Artifact.steps (a : Artifact β) : List (Op β) :=
  match a.kind with
  | .file bytes => mkdirs a.parent ++ [.write a.path bytes]
  | .tree bundle =>
      mkdirs a.path ++ bundle.flatMap fun entry =>
        mkdirs (entry.1 ++ a.path).tail ++ [.write (entry.1 ++ a.path) entry.2]
  | .merge => mkdirs a.parent ++ [.merge a.path]

def Plan.steps (plan : Plan β) : List (Op β) := plan.artifacts.flatMap (·.steps)

/-- `inside`: strictly below. -/
def inside (home candidate : Path) : Bool := home <:+ candidate && candidate ≠ home

/-- `rootFor`: the first root the path is inside. -/
def rootFor (roots : List Path) (candidate : Path) : Option Path :=
  roots.find? fun root => inside root candidate

variable {γ : Type}

/-- The directories from one up to the first that is there or not inside the root. -/
def missingFrom (root : Path) (t : FileTree γ) : Path → List Path
  | [] => []
  | name :: parent =>
      if inside root (name :: parent) && !decide (t.Has (name :: parent)) then
        (name :: parent) :: missingFrom root t parent
      else []

/-- What `missingArtifactParents` notes for one artifact. -/
def missingParents (roots : List Path) (t : FileTree γ) (a : Artifact β) : List Path :=
  match rootFor roots a.parent with
  | some root => missingFrom root t a.parent
  | none => []

def missingArtifactParents (roots : List Path) (t : FileTree γ) (artifacts : List (Artifact β)) :
    List Path :=
  (artifacts.flatMap (missingParents roots t)).dedup

/-- A file is on the way to an artifact's directory, so that looking for it throws. -/
def blocked (roots : List Path) (t : FileTree γ) (artifacts : List (Artifact β)) : Bool :=
  artifacts.any fun a =>
    (rootFor roots a.parent).isSome && (way a.parent).any fun p => p ∈ t.files && p ≠ a.parent

/-! ## Records -/

inductive Fingerprint (ι β : Type) where
  | file (content : Content ι β)
  | tree (files : Finset (Path × Content ι β))
deriving DecidableEq

def fingerprint (t : FileTree (Content ι β)) (p : Path) : Option (Fingerprint ι β) :=
  if p ∈ t.files then some (.file (t.content p)) else none

/-- The client's own bookkeeping is not counted. -/
def counted : Path → Bool
  | [] => false
  | name :: parent => name ≠ ".orphaned_at" && parent.head? ≠ some ".in_use"

def treeFingerprint (t : FileTree (Content ι β)) (root : Path) : Option (Fingerprint ι β) :=
  if root ∈ t.dirs then
    some (.tree ((t.files.filter fun q => root <:+ q ∧ counted q = true).image fun q =>
      (q, t.content q)))
  else fingerprint t root

def fingerprintFor (t : FileTree (Content ι β)) (a : Artifact β) : Option (Fingerprint ι β) :=
  match a.kind with
  | .tree _ => treeFingerprint t a.path
  | .file _ => fingerprint t a.path
  | .merge => none

structure Install (ι β : Type) where
  artifacts : List (Artifact β × Option (Fingerprint ι β))
  createdDirectories : List Path

/-- What `recordInstall` writes over the adapter's previous record. -/
def recordInstall (previous : Option (Install ι β)) (t : FileTree (Content ι β))
    (artifacts : List (Artifact β)) (createdDirectories : List Path) : Install ι β :=
  { artifacts := artifacts.map fun a => (a, fingerprintFor t a)
    createdDirectories :=
      ((previous.elim [] (·.createdDirectories)) ++ createdDirectories).dedup }

/-! ## Uninstalling -/

/-- `rm` of an artifact. -/
def Artifact.remove (t : FileTree γ) (a : Artifact β) : FileTree γ :=
  match a.kind with
  | .file _ => t.unlink a.path
  | .tree _ => t.removeTree a.path
  | .merge => t

/-- Remove what is as it was recorded, and name what is kept. -/
def removeOwnedArtifacts (t : FileTree (Content ι β)) :
    List (Artifact β × Option (Fingerprint ι β)) → FileTree (Content ι β) × List Path
  | [] => (t, [])
  | (a, sha256) :: rest =>
      match fingerprintFor t a with
      | none => removeOwnedArtifacts t rest
      | some current =>
          if some current = sha256 then removeOwnedArtifacts (a.remove t) rest
          else
            let (left, kept) := removeOwnedArtifacts t rest
            (left, a.path :: kept)

/-- Take an adapter's entries back, and with the last ones a file made for them. -/
def withdrawEntries (k : ι) (t : FileTree (Content ι β)) (p : Path) : FileTree (Content ι β) :=
  if p ∈ t.files then
    let entries := (t.content p).entries.erase k
    if (t.content p).base = none ∧ entries = ∅ then t.unlink p
    else { t with content := Function.update t.content p ⟨(t.content p).base, entries⟩ }
  else t

/-- An adapter's own uninstall removes its layout but for what is to be kept. -/
def uninstallLayout (k : ι) (keep : List Path) (t : FileTree (Content ι β)) (a : Artifact β) :
    FileTree (Content ι β) :=
  match a.kind with
  | .merge => withdrawEntries k t a.path
  | _ => if a.path ∈ keep then t else a.remove t

/-- The deepest first. -/
def deepestFirst (directories : List Path) : List Path :=
  directories.insertionSort fun p q => q.length ≤ p.length

def removeEmptyOwnedDirectories (roots : List Path) (directories : List Path) (t : FileTree γ) :
    FileTree γ :=
  ((deepestFirst directories).filter fun d => (rootFor roots d).isSome).foldl FileTree.rmdir t

/-! ## Runs -/

/-- The files, what was recorded of each adapter, the adapters whose install has
written something and which were not uninstalled since, and the paths that were
there before or that the user added. -/
structure Machine (ι β : Type) where
  tree : FileTree (Content ι β)
  installs : ι → Option (Install ι β)
  touched : ι → Bool
  mine : Finset Path

inductive Deed (ι β : Type) where
  /-- An operation of an install run, with what the adapter did before it ended. -/
  | install (k : ι) (done : List (Op β)) (succeeds : Bool)
  | addDirectory (p : Path)
  | addFile (p : Path) (bytes : β)

section Machine

variable (roots : List Path) (plans : ι → Plan β)

/-- Nothing of any adapter's own is at the path. -/
def Other (p : Path) : Prop := ∀ k, ∀ a ∈ (plans k).artifacts, a.covers p = false

def install (s : Machine ι β) (k : ι) (done : List (Op β)) (succeeds : Bool) :
    Option (Machine ι β) :=
  if blocked roots s.tree (plans k).artifacts then
    if done = [] ∧ succeeds = false then some s else none
  else if (∀ op ∈ done, op ∈ (plans k).steps) ∧
      (succeeds = true → ∀ op ∈ (plans k).steps, op ∈ done) then
    (done.foldlM (Op.perform k) s.tree).map fun tree =>
      { s with
        tree
        touched := Function.update s.touched k true
        installs := if succeeds then
            Function.update s.installs k (some (recordInstall (s.installs k) tree
              (plans k).artifacts (missingArtifactParents roots s.tree (plans k).artifacts)))
          else s.installs }
  else none

def act (s : Machine ι β) : Deed ι β → Option (Machine ι β)
  | .install k done succeeds => install roots plans s k done succeeds
  | .addDirectory p =>
      if s.tree.Has p then none
      else (s.tree.mkdir p).map fun tree => { s with tree, mine := insert p s.mine }
  | .addFile p bytes =>
      if s.tree.Has p then none
      else (s.tree.write ⟨some bytes, ∅⟩ p).map fun tree =>
        { s with tree, mine := insert p s.mine }

/-- An install or what the user adds, at a path that is no adapter's. -/
def Step (s : Machine ι β) (d : Deed ι β) (t : Machine ι β) : Prop :=
  act roots plans s d = some t ∧
    match d with
    | .install .. => True
    | .addDirectory p | .addFile p _ => Other plans p

/-- An uninstall that succeeds. -/
def uninstall (s : Machine ι β) (k : ι) : Machine ι β :=
  let owned := removeOwnedArtifacts s.tree ((s.installs k).elim [] (·.artifacts))
  let tree := (plans k).artifacts.foldl (uninstallLayout k owned.2) owned.1
  { s with
    tree := removeEmptyOwnedDirectories roots ((s.installs k).elim [] (·.createdDirectories)) tree
    installs := Function.update s.installs k none
    touched := Function.update s.touched k false }

/-- Nothing was ever installed. -/
structure Untouched (s : Machine ι β) : Prop where
  closed : s.tree.Closed
  installs : ∀ k, s.installs k = none
  touched : ∀ k, s.touched k = false
  mine : ∀ p, p ∈ s.mine ↔ s.tree.Has p
  other : ∀ p ∈ s.mine, Other plans p
  bytes : ∀ p ∈ s.tree.files, (s.tree.content p).base ≠ none

end Machine

end Acc.Installer
