import AgentsCanCommunicate.Library.Text

/-!
# Files, directories and symbolic links

A location lists the names from the innermost to the outermost, and nothing on the way to it is
a link.  A path is walked name by name from the root: what a link holds is walked in its place,
and no more links than `linkLimit` are followed.

Walking a path is walking a part of it and going on from there (`walk_append`).  Below a
directory nothing is followed on the way to what is listed (`walk_below`).
-/

namespace Library.Links

/-- A name that a directory can have. -/
structure EntryName (name : Text) : Prop where
  ne_nil : name ≠ []
  ne_here : name ≠ ['.']
  ne_up : name ≠ ['.', '.']
  slash : '/' ∉ name
  nul : '\x00' ∉ name

instance (name : Text) : Decidable (EntryName name) :=
  decidable_of_iff (name ≠ [] ∧ name ≠ ['.'] ∧ name ≠ ['.', '.'] ∧ '/' ∉ name ∧ '\x00' ∉ name)
    ⟨fun h => ⟨h.1, h.2.1, h.2.2.1, h.2.2.2.1, h.2.2.2.2⟩,
      fun h => ⟨h.ne_nil, h.ne_here, h.ne_up, h.slash, h.nul⟩⟩

abbrev Location := List Text

inductive Step where
  | up
  | name (name : Text)
deriving DecidableEq

/-- What a link holds. -/
structure Target where
  absolute : Bool
  steps : List Step
deriving DecidableEq

inductive Node where
  | file (bytes : List UInt8)
  | link (target : Target)
  | directory
  /-- A socket, a pipe or a device. -/
  | other
deriving DecidableEq

/-- Why a path is refused. -/
inductive Errno where
  | enoent
  | enotdir
  | eisdir
  | eloop
  | enotempty
  /-- Any other refusal. -/
  | other
deriving DecidableEq

/-- What stands below the root, in the order in which it is listed. -/
structure FileSystem where
  entries : List (Location × Node)
  linkLimit : ℕ
  nodup : (entries.map Prod.fst).Nodup
  named : ∀ entry ∈ entries, ∀ name ∈ entry.1, EntryName name
  below : ∀ entry ∈ entries, entry.1 ≠ []
  /-- What stands somewhere stands in a directory. -/
  parent : ∀ entry ∈ entries, entry.1.tail = [] ∨ (entry.1.tail, Node.directory) ∈ entries

namespace FileSystem

variable (s : FileSystem)

def node : Location → Option Node
  | [] => some .directory
  | name :: dir => s.entries.lookup (name :: dir)

/-! ## Walking -/

/-- Walks to the next link, which `enter` walks on from. -/
def follow (enter : Location → List Step → Except Errno (Location × ℕ)) (left : ℕ) :
    Location → List Step → Except Errno (Location × ℕ)
  | dir, [] => .ok (dir, left)
  | dir, step :: rest =>
      if s.node dir ≠ some .directory then .error .enotdir
      else
        match step with
        | .up => follow enter left dir.tail rest
        | .name name =>
            match s.node (name :: dir) with
            | none => .error .enoent
            | some (.link target) =>
                enter (if target.absolute then [] else dir) (target.steps ++ rest)
            | some _ => follow enter left (name :: dir) rest

/-- The location the steps lead to, and how many links may still be followed. -/
def walk : ℕ → Location → List Step → Except Errno (Location × ℕ)
  | 0 => s.follow (fun _ _ => .error .eloop) 0
  | left + 1 => s.follow (walk left) (left + 1)

def steps (path : Location) : List Step := path.reverse.map .name

/-- The location of a path. -/
def find (path : Location) : Except Errno Location :=
  (s.walk s.linkLimit [] (steps path)).map Prod.fst

/-- The location of a path, where its last name is not followed. -/
def locate : Location → Except Errno Location
  | [] => .ok []
  | name :: dir => do
      let dir ← s.find dir
      if s.node dir ≠ some .directory then .error .enotdir
      else if s.node (name :: dir) = none then .error .enoent
      else .ok (name :: dir)

/-! ## Calls -/

def lstat (path : Location) : Except Errno (Option Node) := (s.locate path).map s.node

def readFile (path : Location) : Except Errno (List UInt8) := do
  match s.node (← s.find path) with
  | some (.file bytes) => .ok bytes
  | some .directory => .error .eisdir
  | _ => .error .other

/-- What stands below a location, by the names from there. -/
def entriesBelow (dir : Location) : List (Location × Node) :=
  s.entries.filterMap fun entry =>
    if dir <:+ entry.1 ∧ entry.1 ≠ dir then
      some (entry.1.take (entry.1.length - dir.length), entry.2)
    else none

/-- `readdir`, with everything below. -/
def readdir (path : Location) : Except Errno (List (Location × Node)) := do
  let dir ← s.find path
  if s.node dir = some .directory then .ok (s.entriesBelow dir) else .error .enotdir

/-- Takes away what stands at the location and below it. -/
def remove (dir : Location) : FileSystem where
  entries := s.entries.filter fun entry => !decide (dir <:+ entry.1)
  linkLimit := s.linkLimit
  nodup := s.nodup.sublist (List.filter_sublist.map _)
  named entry h := s.named entry (List.mem_of_mem_filter h)
  below entry h := s.below entry (List.mem_of_mem_filter h)
  parent entry h := by
    obtain ⟨hmem, hkept⟩ := List.mem_filter.mp h
    refine (s.parent entry hmem).imp_right fun hparent => List.mem_filter.mpr ⟨hparent, ?_⟩
    simp only [Bool.not_eq_true', decide_eq_false_iff_not] at hkept ⊢
    exact fun hsuffix => hkept (hsuffix.trans (List.tail_suffix _))

/-- `rm` with force. -/
def rm (path : Location) (recursive : Bool) : Except Errno FileSystem :=
  match s.locate path with
  | .error .enoent => .ok s
  | .error e => .error e
  | .ok [] => .error .other
  | .ok (name :: dir) =>
      if s.node (name :: dir) = some .directory ∧ recursive = false then .error .eisdir
      else .ok (s.remove (name :: dir))

def rmdir (path : Location) : Except Errno FileSystem := do
  match ← s.locate path with
  | [] => .error .other
  | name :: dir =>
      if s.node (name :: dir) ≠ some .directory then .error .enotdir
      else if s.entriesBelow (name :: dir) ≠ [] then .error .enotempty
      else .ok (s.remove (name :: dir))

/-! ## Nodes -/

variable {s} {path dir rel : Location} {name : Text} {node : Node}

theorem lookup_of_mem {entries : List (Location × Node)} (hnodup : (entries.map Prod.fst).Nodup)
    (h : (path, node) ∈ entries) : entries.lookup path = some node := by
  induction entries with
  | nil => cases h
  | cons entry entries ih =>
      rw [List.map_cons, List.nodup_cons] at hnodup
      rcases List.mem_cons.mp h with rfl | h
      · exact List.lookup_cons_self
      · have hne : (path == entry.1) = false := by
          refine beq_eq_false_iff_ne.mpr fun heq => hnodup.1 ?_
          exact heq ▸ List.mem_map_of_mem h
        rw [List.lookup_cons, hne]
        exact ih hnodup.2 h

theorem node_of_mem (h : (path, node) ∈ s.entries) : s.node path = some node := by
  cases path with
  | nil => exact absurd rfl (s.below _ h)
  | cons name dir => exact lookup_of_mem s.nodup h

theorem mem_of_node (hne : path ≠ []) (h : s.node path = some node) :
    (path, node) ∈ s.entries := by
  cases path with
  | nil => exact absurd rfl hne
  | cons name dir =>
      obtain ⟨l₁, l₂, hsplit, -⟩ := List.lookup_eq_some_iff.mp h
      rw [hsplit]
      exact List.mem_append_right _ List.mem_cons_self

/-- What stands somewhere stands in a directory. -/
theorem node_tail (h : (path, node) ∈ s.entries) : s.node path.tail = some .directory := by
  rcases s.parent _ h with hroot | hparent
  · rw [hroot]
    rfl
  · exact node_of_mem hparent

theorem mem_entriesBelow :
    (rel, node) ∈ s.entriesBelow dir ↔ rel ≠ [] ∧ (rel ++ dir, node) ∈ s.entries := by
  simp only [entriesBelow, List.mem_filterMap, Option.ite_none_right_eq_some, Option.some.injEq,
    Prod.mk.injEq]
  constructor
  · rintro ⟨⟨path, found⟩, hmem, ⟨⟨rel', rfl⟩, hne⟩, hrel, rfl⟩
    have htake : rel' = rel := by
      rw [← hrel, List.length_append, Nat.add_sub_cancel, List.take_left']
      rfl
    subst htake
    exact ⟨fun hnil => hne (by rw [hnil]; rfl), hmem⟩
  · rintro ⟨hne, hmem⟩
    refine ⟨_, hmem, ⟨List.suffix_append _ _, ?_⟩, ?_, rfl⟩
    · exact fun heq => hne (by simpa using heq)
    · rw [List.length_append, Nat.add_sub_cancel, List.take_left']
      rfl

/-! ## Walks -/

@[simp] theorem walk_nil (left : ℕ) (dir : Location) : s.walk left dir [] = .ok (dir, left) := by
  cases left <;> rfl

theorem follow_append {enter : Location → List Step → Except Errno (Location × ℕ)} {left : ℕ}
    (henter : ∀ dir a b, enter dir (a ++ b) = enter dir a >>= fun found =>
      s.walk found.2 found.1 b)
    (hwalk : s.walk left = s.follow enter left) (dir : Location) (a b : List Step) :
    s.follow enter left dir (a ++ b) =
      s.follow enter left dir a >>= fun found => s.walk found.2 found.1 b := by
  induction a generalizing dir with
  | nil => exact (congrFun (congrFun hwalk dir) b).symm
  | cons step a ih =>
      by_cases hdir : s.node dir = some .directory
      case neg =>
        simp only [List.cons_append, follow, ne_eq, hdir, not_false_eq_true, if_true]
        rfl
      cases step with
      | up =>
          simp only [List.cons_append, follow, ne_eq, hdir, not_true_eq_false, if_false]
          exact ih dir.tail
      | name name =>
          simp only [List.cons_append, follow, ne_eq, hdir, not_true_eq_false, if_false]
          cases s.node (name :: dir) with
          | none => rfl
          | some node =>
              cases node with
              | link target =>
                  dsimp only
                  rw [← List.append_assoc]
                  exact henter _ _ _
              | file _ | directory | other => exact ih (name :: dir)

/-- A path is walked in parts. -/
theorem walk_append (left : ℕ) (dir : Location) (a b : List Step) :
    s.walk left dir (a ++ b) =
      s.walk left dir a >>= fun found => s.walk found.2 found.1 b := by
  induction left generalizing dir a b with
  | zero => exact follow_append (fun _ _ _ => rfl) rfl dir a b
  | succ left ih => exact follow_append ih rfl dir a b

/-- One step to what is no link. -/
theorem walk_name (left : ℕ) (hdir : s.node dir = some .directory)
    (h : s.node (name :: dir) = some node) (hnode : ∀ target, node ≠ .link target) :
    s.walk left dir [.name name] = .ok (name :: dir, left) := by
  have hfollow : ∀ enter, s.follow enter left dir [.name name] = .ok (name :: dir, left) := by
    intro enter
    simp only [follow, ne_eq, hdir, not_true_eq_false, if_false, h]
  cases left <;> exact hfollow _

theorem steps_cons (name : Text) (dir : Location) :
    steps (name :: dir) = steps dir ++ [.name name] := by
  rw [steps, List.reverse_cons, List.map_append]
  rfl

/-- Nothing is followed on the way to what stands below a directory. -/
theorem walk_below (left : ℕ) (h : s.node (rel ++ dir) = some node)
    (hnode : ∀ target, node ≠ .link target) :
    s.walk left dir (steps rel) = .ok (rel ++ dir, left) := by
  induction rel generalizing node with
  | nil => exact walk_nil left dir
  | cons name rel ih =>
      have hparent : s.node (rel ++ dir) = some .directory :=
        node_tail (mem_of_node (List.cons_ne_nil _ _) h)
      rw [steps_cons, walk_append, ih hparent (by simp)]
      exact walk_name left hparent h hnode

theorem find_append (hdir : s.find path = .ok dir) (h : s.node (rel ++ dir) = some node)
    (hlink : ∀ target, node ≠ .link target) : s.find (rel ++ path) = .ok (rel ++ dir) := by
  have hsteps : steps (rel ++ path) = steps path ++ steps rel := by
    rw [steps, List.reverse_append, List.map_append]
    rfl
  rw [find] at hdir
  rw [find, hsteps, walk_append]
  cases hwalk : s.walk s.linkLimit [] (steps path) with
  | error e =>
      rw [hwalk] at hdir
      cases hdir
  | ok found =>
      rw [hwalk] at hdir
      obtain ⟨dir', left⟩ := found
      obtain rfl : dir' = dir := Except.ok.inj hdir
      change (s.walk left dir' (steps rel)).map Prod.fst = _
      rw [walk_below left h hlink]
      rfl

theorem mem_remove {entry : Location × Node} :
    entry ∈ (s.remove dir).entries ↔ entry ∈ s.entries ∧ ¬dir <:+ entry.1 := by
  rw [remove, List.mem_filter, Bool.not_eq_true', decide_eq_false_iff_not]

end FileSystem

end Library.Links
