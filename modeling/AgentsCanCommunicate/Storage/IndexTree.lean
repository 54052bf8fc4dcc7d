import AgentsCanCommunicate.Storage.IndexPages
import AgentsCanCommunicate.Library.Gathering

/-!
# Index trees

An index tree keeps the record identifiers of every tuple in pages.  A page is written once and
named by the digest of its bytes.  A change writes the pages on the way to the tuple anew and
answers the new root.

A branch has a child for each next digit of the digests.  A leaf holds up to 32 tuples, and where
the digests of more tuples are the same it goes on in another leaf.  A few identifiers stand in
the entry of their tuple, more of them in a tree of their own.
-/

namespace Acc.Storage.IndexTree

/-- How pages and values are named.  No two pages have one name. -/
structure Digests (η τ ι : Type) where
  address : IndexPage η τ ι → η
  digestTuple : τ → η
  idDigest : ι → η
  /-- The 64 hexadecimal digits of a digest. -/
  digits : η → List Digit
  /-- The bytes of a page are within `INDEX_PAGE_BYTES`. -/
  fits : IndexPage η τ ι → Bool
  digits_length : ∀ hash, (digits hash).length = 64
  address_injective : Function.Injective address

/-- Why an index cannot be used. -/
inductive Fault where
  | missingPage
  | pageCycle
  | radixDepthExceeded
  | invalidGroupReference
  | misroutedGroupId
  | unexpectedCollisionPage
  | misroutedTuple
  | invalidTreeReference
  | duplicateCollisionKey
  | invalidDelta
  /-- A page that `encodeIndexPage` refuses. -/
  | refusedPage
deriving DecidableEq

inductive Operation where
  | put
  | remove
deriving DecidableEq

structure Delta (τ ι : Type) where
  tuple : τ
  id : ι
  operation : Operation

def indexPageEntries : Nat := 32

def inlineGroupIds : Nat := 8

variable {η τ ι : Type} [DecidableEq η] [LinearOrder τ] [LinearOrder ι]

/-! ## Pages -/

/-- `recordIds`: not empty, not too many, and in order. -/
def recordIds (ids : List ι) (limit : Nat) : Bool :=
  ids ≠ [] && ids.length ≤ limit && decide (ids.Pairwise (· < ·))

def validateIndexPage : IndexPage η τ ι → Bool
  | .branch children =>
      children ≠ [] && children.length ≤ 16 && decide ((children.map Prod.fst).Pairwise (· < ·))
  | .leaf entries _ =>
      entries ≠ [] && entries.length ≤ indexPageEntries
        && (entries.all fun entry => match entry.ids with
          | .inline ids => recordIds ids inlineGroupIds
          | .paged _ => true)
        && decide ((entries.map LeafEntry.tuple).Pairwise (· < ·))
  | .group ids _ => recordIds ids indexPageEntries

/-- The pages that were written, each found under its name. -/
structure Pages (H : Digests η τ ι) where
  list : List (IndexPage η τ ι)
  valid : ∀ page ∈ list, validateIndexPage page = true

variable {H : Digests η τ ι}

def Pages.empty : Pages H := ⟨[], by simp⟩

def readPage (s : Pages H) (hash : η) : Except Fault (IndexPage η τ ι) :=
  match s.list.find? fun page => H.address page = hash with
  | some page => .ok page
  | none => .error .missingPage

/-- No page is read twice on the way to what is looked for. -/
def read (s : Pages H) (hash : η) (seen : List η) : Except Fault (IndexPage η τ ι) :=
  if hash ∈ seen then .error .pageCycle else readPage s hash

def writePage (s : Pages H) (page : IndexPage η τ ι) : Except Fault (Pages H × η) :=
  if h : validateIndexPage page = true ∧ H.fits page = true then
    .ok (⟨page :: s.list, List.forall_mem_cons.mpr ⟨h.1, s.valid⟩⟩, H.address page)
  else .error .refusedPage

/-! ## Children -/

def childAt (children : List (Digit × η)) (route : Digit) : Option η :=
  (children.find? fun child => child.1 = route).map Prod.snd

/-- The children with the one of the route as it is now. -/
def setChild (children : List (Digit × η)) (route : Digit) (next : Option η) : List (Digit × η) :=
  ((children.filter fun child => child.1 ≠ route)
    ++ (next.map fun hash => (route, hash)).toList).mergeSort fun a b => a.1 ≤ b.1

/-- Values by a digit, for the digits that some value has. -/
def routes {α : Type} (digit : α → Option Digit) (values : List α) : List (Digit × List α) :=
  (List.finRange 16).filterMap fun route =>
    let found := values.filter fun value => digit value = some route
    if found.isEmpty then none else some (route, found)

/-- A branch of what is built for each route. -/
def branchOf {α : Type} (build : Pages H → α → Except Fault (Pages H × η)) (s : Pages H)
    (parts : List (Digit × α)) : Except Fault (Pages H × η) := do
  let (s, children) ← parts.foldlM (fun (s, children) part => do
    let (s, hash) ← build s part.2
    pure (s, children ++ [(part.1, hash)])) (s, [])
  writePage s (.branch children)

/-- The root of what was written. -/
def named (written : Except Fault (Pages H × η)) : Except Fault (Pages H × Option η) :=
  written.map fun (s, hash) => (s, some hash)

/-- The root of a branch whose child of the route is `next` now. -/
def linkChild (s : Pages H) (root : η) (children : List (Digit × η)) (route : Digit)
    (next : Option η) : Except Fault (Pages H × Option η) :=
  if next = childAt children route then .ok (s, some root)
  else if setChild children route next = [] then .ok (s, none)
  else named (writePage s (.branch (setChild children route next)))

/-! ## Groups -/

def idRoute (H : Digests η τ ι) (id : ι) : List Digit := H.digits (H.idDigest id)

def sortIds (ids : List ι) : List ι := ids.mergeSort fun a b => a ≤ b

/-- The identifiers of a group page below this prefix. -/
def groupIds (H : Digests η τ ι) (pre : List Digit) :
    IndexPage η τ ι → Except Fault (List ι)
  | .group ids none =>
      if ids.all fun id => pre.isPrefixOf (idRoute H id) then .ok ids else .error .misroutedGroupId
  | _ => .error .invalidGroupReference

/-- The identifiers of a group below a page, with the pages that were read.  The number is that
of the digits that are left. -/
def collect (s : Pages H) : Nat → η → List Digit → List η → Except Fault (List η × List ι)
  | 0, hash, pre, seen => do
      match ← read s hash seen with
      | .branch _ => .error .radixDepthExceeded
      | page =>
          let ids ← groupIds H pre page
          pure (hash :: seen, ids)
  | left + 1, hash, pre, seen => do
      match ← read s hash seen with
      | .branch children =>
          children.foldlM (fun (seen, ids) child => do
            let (seen, more) ← collect s left child.2 (pre ++ [child.1]) seen
            pure (seen, ids ++ more)) (hash :: seen, [])
      | page =>
          let ids ← groupIds H pre page
          pure (hash :: seen, ids)

def groupLookup (s : Pages H) (root : η) : Except Fault (List ι) := do
  let (_, ids) ← collect s 64 root [] []
  pure (sortIds ids)

/-- The pages of a group, from the digit of which `left` are left. -/
def groupPages : (left : Nat) → Pages H → List ι → Except Fault (Pages H × η)
  | 0, s, ids => writePage s (.group (sortIds ids) none)
  | left + 1, s, ids =>
      if ids.length ≤ indexPageEntries then writePage s (.group (sortIds ids) none)
      else branchOf (groupPages left) s (routes (fun id => (idRoute H id)[63 - left]?) ids)

/-- The group page of these identifiers with one put or removed, which may need pages of its own.
The identifier stands, or is to stand, before the first that is not less. -/
def groupLeaf (id : ι) (operation : Operation) (left : Nat) (s : Pages H) (root : η)
    (ids : List ι) : Except Fault (Pages H × Option η) :=
  let before := ids.takeWhile fun found => found < id
  let after := ids.dropWhile fun found => found < id
  if after.head? = some id then
    match operation with
    | .put => .ok (s, some root)
    | .remove =>
        if before ++ after.tail = [] then .ok (s, none)
        else named (groupPages left s (before ++ after.tail))
  else
    match operation with
    | .remove => .ok (s, some root)
    | .put => named (groupPages left s (before ++ id :: after))

def groupUpdate (id : ι) (operation : Operation) :
    Nat → Pages H → Option η → List η → Except Fault (Pages H × Option η)
  | _, s, none, _ =>
      match operation with
      | .remove => .ok (s, none)
      | .put => named (writePage s (.group [id] none))
  | left, s, some root, seen => do
      match ← read s root seen with
      | .branch children =>
          match left with
          | 0 => .error .radixDepthExceeded
          | left + 1 =>
              match (idRoute H id)[63 - left]? with
              | none => .error .radixDepthExceeded
              | some route =>
                  let (s, next) ←
                    groupUpdate id operation left s (childAt children route) (root :: seen)
                  linkChild s root children route next
      | .group ids none => groupLeaf id operation left s root ids
      | _ => .error .invalidGroupReference

/-! ## Tuples -/

def tupleRoute (H : Digests η τ ι) (tuple : τ) : List Digit := H.digits (H.digestTuple tuple)

/-- The page may stand below this prefix. -/
def checkNode (H : Digests η τ ι) (pre : List Digit) : IndexPage η τ ι → Except Fault Unit
  | .branch _ => if 64 ≤ pre.length then .error .radixDepthExceeded else .ok ()
  | .leaf entries next =>
      if next.isSome && decide (pre.length ≠ 64) then .error .unexpectedCollisionPage
      else if entries.all fun entry =>
          pre.isPrefixOf (H.digits entry.digest)
            && decide (entry.digest = H.digestTuple entry.tuple)
        then .ok ()
      else .error .misroutedTuple
  | .group _ _ => .error .invalidTreeReference

/-- The pages that were not read. -/
def unread (s : Pages H) (seen : List η) : Nat :=
  (s.list.filter fun page => H.address page ∉ seen).length

theorem readPage_mem {s : Pages H} {hash : η} {page : IndexPage η τ ι}
    (h : readPage s hash = .ok page) : page ∈ s.list ∧ H.address page = hash := by
  unfold readPage at h
  split at h
  next found hfound =>
      obtain rfl := Except.ok.inj h
      exact ⟨List.mem_of_find?_eq_some hfound, by simpa using List.find?_some hfound⟩
  next => cases h

theorem read_ok {s : Pages H} {hash : η} {seen : List η} {page : IndexPage η τ ι}
    (h : read s hash seen = .ok page) :
    hash ∉ seen ∧ page ∈ s.list ∧ H.address page = hash := by
  unfold read at h
  split at h
  next => cases h
  next hseen => exact ⟨hseen, readPage_mem h⟩

/-- What is read is read once. -/
theorem unread_lt {s : Pages H} {hash : η} {seen : List η} {page : IndexPage η τ ι}
    (h : read s hash seen = .ok page) : unread s (hash :: seen) < unread s seen := by
  obtain ⟨hseen, hpage, rfl⟩ := read_ok h
  have hfilter : (s.list.filter fun page' => H.address page' ∉ H.address page :: seen)
      = (s.list.filter fun page' => H.address page' ∉ seen).filter
        fun page' => H.address page' ≠ H.address page := by
    rw [List.filter_filter]
    exact List.filter_congr fun page' _ => by simp
  unfold unread
  rw [hfilter, List.length_filter_lt_length_iff_exists]
  exact ⟨page, List.mem_filter.mpr ⟨hpage, by simpa using hseen⟩, by simp⟩

/-- The digit on which a branch below the prefix has its child for the tuple. -/
def nextDigit (H : Digests η τ ι) (tuple : τ) (pre : List Digit) : Option Digit :=
  (tupleRoute H tuple)[pre.length]?

/-- `idsRoot`, from a root on. -/
def find (s : Pages H) (tuple : τ) (root : Option η) (pre : List Digit) (seen : List η)
    (idsRoot : Option (GroupIds η ι)) : Except Fault (Option (GroupIds η ι)) :=
  match root with
  | none => .ok idsRoot
  | some hash =>
      match _h : read s hash seen with
      | .error fault => .error fault
      | .ok page =>
          match checkNode H pre page with
          | .error fault => .error fault
          | .ok () =>
              match page with
              | .branch children =>
                  match nextDigit H tuple pre with
                  | none => .error .radixDepthExceeded
                  | some route =>
                      find s tuple (childAt children route) (pre ++ [route]) (hash :: seen) idsRoot
              | .leaf entries next =>
                  match entries.find? fun entry => entry.tuple = tuple with
                  | some entry =>
                      if idsRoot.isSome then .error .duplicateCollisionKey
                      else find s tuple next pre (hash :: seen) (some entry.ids)
                  | none => find s tuple next pre (hash :: seen) idsRoot
              | .group _ _ => .error .invalidTreeReference
termination_by unread s seen
decreasing_by all_goals exact unread_lt ‹_›

/-- The identifiers under a tuple. -/
def lookup (s : Pages H) (root : Option η) (tuple : τ) : Except Fault (List ι) := do
  match ← find s tuple root [] [] none with
  | none => pure []
  | some (.inline ids) => pure ids
  | some (.paged hash) => groupLookup s hash

def leafPage (s : Pages H) (entries : List (LeafEntry η τ ι)) (next : Option η) :
    Except Fault (Pages H × η) :=
  writePage s (.leaf (entries.mergeSort fun a b => a.tuple ≤ b.tuple) next)

/-- The pages of entries with one digest, from the last ones: those before `stop` are left. -/
def collisionPages (entries : List (LeafEntry η τ ι)) (s : Pages H) (stop : Nat)
    (next : Option η) : Except Fault (Pages H × η) := do
  let (s, hash) ← leafPage s ((entries.take stop).drop (stop - indexPageEntries)) next
  if stop ≤ indexPageEntries then pure (s, hash)
  else collisionPages entries s (stop - indexPageEntries) (some hash)
termination_by stop
decreasing_by
  simp only [indexPageEntries] at *
  omega

/-- The pages of entries, from the digit of which `left` are left. -/
def split : (left : Nat) → Pages H → List (LeafEntry η τ ι) → Except Fault (Pages H × η)
  | 0, s, entries =>
      if entries.length ≤ indexPageEntries then leafPage s entries none
      else collisionPages entries s entries.length none
  | left + 1, s, entries =>
      if entries.length ≤ indexPageEntries then leafPage s entries none
      else
        branchOf (split left) s (routes (fun entry => (H.digits entry.digest)[63 - left]?) entries)

def changeIds (ids : List ι) (id : ι) (operation : Operation) : List ι :=
  match operation with
  | .put => (ids.filter fun found => found ≠ id) ++ [id]
  | .remove => ids.filter fun found => found ≠ id

/-- The group with the identifier put or removed.  A small group moves to a page when it outgrows
its entry, and a page stays a page. -/
def groupChange (s : Pages H) (ids : GroupIds η ι) (id : ι) (operation : Operation) :
    Except Fault (Pages H × Option (GroupIds η ι)) :=
  match ids with
  | .paged hash => do
      let (s, next) ← groupUpdate id operation 64 s (some hash) []
      pure (s, next.map .paged)
  | .inline ids =>
      let next := sortIds (changeIds ids id operation)
      if next = ids then .ok (s, some (.inline ids))
      else if next.isEmpty then .ok (s, none)
      else if next.length ≤ inlineGroupIds then .ok (s, some (.inline next))
      else do
        let (s, hash) ← groupPages 64 s next
        pure (s, some (.paged hash))

/-- The entries of a leaf, which has one for a tuple, with the group of the tuple as it is now. -/
def setEntry (entries : List (LeafEntry η τ ι)) (tuple : τ) (ids : Option (GroupIds η ι)) :
    List (LeafEntry η τ ι) :=
  match ids with
  | none => entries.filter fun entry => entry.tuple ≠ tuple
  | some ids => entries.map fun entry => if entry.tuple = tuple then { entry with ids } else entry

/-- The entry of a tuple with one identifier. -/
def freshEntry (H : Digests η τ ι) (tuple : τ) (id : ι) : LeafEntry η τ ι :=
  ⟨H.digestTuple tuple, tuple, .inline [id]⟩

/-- The root of a leaf where the group of an entry is changed. -/
def changeEntry (s : Pages H) (hash : η) (entries : List (LeafEntry η τ ι)) (next : Option η)
    (entry : LeafEntry η τ ι) (id : ι) (operation : Operation) :
    Except Fault (Pages H × Option η) := do
  let (s, ids) ← groupChange s entry.ids id operation
  if ids = some entry.ids then pure (s, some hash)
  else if setEntry entries entry.tuple ids = [] then pure (s, next)
  else named (leafPage s (setEntry entries entry.tuple ids) next)

/-- The root of the last leaf, which has no entry of the tuple. -/
def addEntry (s : Pages H) (hash : η) (entries : List (LeafEntry η τ ι)) (left : Nat) (tuple : τ)
    (id : ι) (operation : Operation) : Except Fault (Pages H × Option η) :=
  match operation with
  | .remove => .ok (s, some hash)
  | .put => named (split left s (entries ++ [freshEntry H tuple id]))

/-- The root of a leaf that goes on in `next` now. -/
def linkNext (s : Pages H) (hash : η) (entries : List (LeafEntry η τ ι)) (next changed : Option η) :
    Except Fault (Pages H × Option η) :=
  if changed = next then .ok (s, some hash) else named (leafPage s entries changed)

def update (s : Pages H) (tuple : τ) (id : ι) (operation : Operation) (root : Option η)
    (pre : List Digit) (seen : List η) : Except Fault (Pages H × Option η) :=
  match root with
  | none =>
      match operation with
      | .remove => .ok (s, none)
      | .put => named (leafPage s [freshEntry H tuple id] none)
  | some hash =>
      match _h : read s hash seen with
      | .error fault => .error fault
      | .ok page =>
          match checkNode H pre page with
          | .error fault => .error fault
          | .ok () =>
              match page with
              | .branch children =>
                  match nextDigit H tuple pre with
                  | none => .error .radixDepthExceeded
                  | some route => do
                      let (s, next) ← update s tuple id operation (childAt children route)
                        (pre ++ [route]) (hash :: seen)
                      linkChild s hash children route next
              | .leaf entries next =>
                  match entries.find? fun entry => entry.tuple = tuple with
                  | some entry => changeEntry s hash entries next entry id operation
                  | none =>
                      if next.isSome then do
                        let (s, changed) ← update s tuple id operation next pre (hash :: seen)
                        linkNext s hash entries next changed
                      else addEntry s hash entries (64 - pre.length) tuple id operation
              | .group _ _ => .error .invalidTreeReference
termination_by unread s seen
decreasing_by all_goals exact unread_lt ‹_›

def apply (s : Pages H) (root : Option η) (deltas : List (Delta τ ι)) :
    Except Fault (Pages H × Option η) :=
  deltas.foldlM (fun (s, root) delta => update s delta.tuple delta.id delta.operation root [] [])
    (s, root)

local instance lawful_identifiers : LawfulBEq ι := inferInstance

def addId (ids : List ι) (put : Delta τ ι) : List ι :=
  if put.id ∈ ids then ids else ids ++ [put.id]

/-- The groups of what is put, by the tuples as they first came. -/
def groupsOf (puts : List (Delta τ ι)) : List (τ × List ι) :=
  (Library.gather (fun put : Delta τ ι => some put.tuple) (fun _ => []) addId puts).entries

/-- The entry of a group, with its pages where it is not small. -/
def groupEntry (s : Pages H) (tuple : τ) (ids : List ι) :
    Except Fault (Pages H × LeafEntry η τ ι) := do
  let sorted := sortIds ids
  if sorted.length ≤ inlineGroupIds then
    pure (s, ⟨H.digestTuple tuple, tuple, .inline sorted⟩)
  else
    let (s, hash) ← groupPages 64 s sorted
    pure (s, ⟨H.digestTuple tuple, tuple, .paged hash⟩)

/-- The tree that applying what is put to no root makes, built at once. -/
def build (s : Pages H) (puts : List (Delta τ ι)) : Except Fault (Pages H × Option η) :=
  if puts.any fun put => put.operation ≠ .put then .error .invalidDelta
  else if groupsOf puts = [] then .ok (s, none)
  else do
    let (s, entries) ← (groupsOf puts).foldlM (fun (s, entries) group => do
      let (s, entry) ← groupEntry s group.1 group.2
      pure (s, entries ++ [entry])) (s, [])
    named (split 64 s entries)

end Acc.Storage.IndexTree
