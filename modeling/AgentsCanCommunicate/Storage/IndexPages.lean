import Mathlib

/-!
# Index pages

A page is a branch, a leaf or a group, and is named by the digest of its bytes.
-/

namespace Acc.Storage

/-- A hexadecimal digit of a digest. -/
abbrev Digit := Fin 16

/-- The record identifiers under one tuple: the group itself while it is small, or
the digest of its page. -/
inductive GroupIds (η ι : Type) where
  | inline (ids : List ι)
  | paged (hash : η)
deriving DecidableEq

/-- An entry of a leaf. -/
structure LeafEntry (η τ ι : Type) where
  digest : η
  tuple : τ
  ids : GroupIds η ι
deriving DecidableEq

inductive IndexPage (η τ ι : Type) where
  | branch (children : List (Digit × η))
  | leaf (entries : List (LeafEntry η τ ι)) (next : Option η)
  | group (ids : List ι) (next : Option η)
deriving DecidableEq

variable {η τ ι : Type}

/-- The page a group is on, where it is not inline. -/
def GroupIds.hash? : GroupIds η ι → Option η
  | .inline _ => none
  | .paged hash => some hash

/-- The pages a page names. -/
def IndexPage.references : IndexPage η τ ι → List η
  | .branch children => children.map Prod.snd
  | .leaf entries next => entries.filterMap (fun e => e.ids.hash?) ++ next.toList
  | .group _ next => next.toList

end Acc.Storage
