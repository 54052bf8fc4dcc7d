import AgentsCanCommunicate.Protocol.Fields

/-!
# Resources

A claim names a resource by a text with a scheme.  Only the path part of a
`file:` resource is rewritten, so that one file has one name.  `overlaps` is the
core rule: two resources overlap when they are the same text, or when one ends
in `/**` and the other is its directory or lies in it.  Paths are compared by
whole segments.

The texts are handled as lists of characters.  The slices and tests are those of
the source.
-/

namespace Acc

/-- The glob marker. -/
def glob : List Char := "/**".toList

/-- `value.endsWith(suffix)`. -/
def endsWith (value suffix : List Char) : Bool := suffix.isSuffixOf value

/-- `value.slice(0, -3)`, the text without its glob marker. -/
def dropGlob (value : List Char) : List Char := value.take (value.length - glob.length)

/-! ## One name for one file -/

/-- `slashes`: a Windows agent separates segments with a backslash. -/
def slashes (value : List Char) : List Char := value.map fun c => if c = '\\' then '/' else c

/-- `value.split("/")`. -/
def segments (value : List Char) : List (List Char) := value.splitOn '/'

/-- One segment of `normalisePath`.  A `..` past the start is kept. -/
def pushSegment (kept : List (List Char)) (segment : List Char) : List (List Char) :=
  if segment = [] ∨ segment = ['.'] then kept
  else if segment = ['.', '.'] ∧ kept ≠ [] ∧ kept.getLast? ≠ some ['.', '.'] then kept.dropLast
  else kept ++ [segment]

def normalisePath (value : List Char) : List Char :=
  ['/'].intercalate ((segments value).foldl pushSegment [])

/-- The path of a `file:` resource, `none` for any other. -/
def filePath (resource : List Char) : Option (List Char) :=
  if "file:".toList.isPrefixOf resource then some (slashes (resource.drop 5)) else none

/-- The spelling a resource is stored under. -/
def normaliseResource (resource : String) : String :=
  match filePath resource.toList with
  | none => resource
  | some rest =>
      let isGlob := endsWith rest glob
      let body := if isGlob then dropGlob rest else rest
      let normalised := normalisePath body
      if normalised = [] ∧ isGlob = false then resource
      else String.ofList ("file:".toList ++ (if body.head? = some '/' then ['/'] else [])
        ++ normalised ++ (if isGlob then glob else []))

/-- A claim that cannot match anything is refused. -/
def assertMatchableResource (resource : String) : Result Unit :=
  match filePath resource.toList with
  | none => .ok ()
  | some rest => do
      refuse (rest.getLast? = some '/' ∧ rest ≠ ['/'])
        ⟨.usage, s!"{resource} names a directory; claim {resource}** to cover what is in it"⟩
      refuse ('*' ∈ (if endsWith rest glob then dropGlob rest else rest))
        ⟨.usage, s!"{resource} matches nothing: only a trailing /** is understood, " ++
          "so a directory is claimed as file:<path>/**"⟩

/-! ## Overlap -/

/-- `split`.  Without a colon `indexOf` answers -1, and the first slice then
drops the last character. -/
def splitScheme (resource : String) : List Char × List Char :=
  let value := resource.toList
  if ':' ∈ value then
    (value.takeWhile (· != ':'), (value.dropWhile (· != ':')).drop 1)
  else (value.dropLast, value)

/-- A glob covers its directory and whatever lies in it. -/
def covers (directory plain : List Char) : Bool :=
  endsWith directory glob
    && (plain == dropGlob directory || (dropGlob directory ++ ['/']).isPrefixOf plain)

/-- Two resources overlap. -/
def overlaps (left right : String) : Bool :=
  let a := splitScheme left
  let b := splitScheme right
  left == right || (a.1 == b.1 && (covers a.2 b.2 || covers b.2 a.2))

theorem overlaps_comm (left right : String) : overlaps left right = overlaps right left := by
  simp only [overlaps, Bool.or_comm, Bool.beq_comm (a := left) (b := right),
    Bool.beq_comm (a := (splitScheme left).1) (b := (splitScheme right).1)]

@[simp] theorem overlaps_self (resource : String) : overlaps resource resource = true := by
  simp [overlaps]

example : overlaps "file:a/**" "file:ab/c" = false := by decide

example : overlaps "file:a/**" "file:a/b/**" = true := by decide

example : normaliseResource "file:./src//x/../a.mjs" = "file:src/a.mjs" := by decide

end Acc
