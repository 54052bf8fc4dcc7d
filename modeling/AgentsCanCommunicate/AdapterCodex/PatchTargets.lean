import AgentsCanCommunicate.AdapterSdk.ShellWrites

/-!
# The paths of a patch

An edit carries no path: the paths are in the headers of the patch, one for each
operation and one more for a move.  The reader splits the patch at newlines and
matches every line.

A header that ends with a carriage return is not matched, so of a patch with such
line endings no path is read (`patchTargets_crlf`).  With plain newlines the paths
are read as they stand (`patchTargets_lf`).
-/

namespace Acc.AdapterCodex.PatchTargets

open Library Text
open AdapterSdk.ShellWrites (shellWriteTargets)

/-! ## The reader -/

def PATCH_ENVELOPE : Text := "*** Begin Patch".toList

def addHeader : Text := "*** Add File: ".toList

def updateHeader : Text := "*** Update File: ".toList

def deleteHeader : Text := "*** Delete File: ".toList

def moveHeader : Text := "*** Move to: ".toList

/-- What `.+` matches. -/
def Readable (t : Text) : Prop := t ≠ [] ∧ t.any isLineTerminator = false

instance (t : Text) : Decidable (Readable t) := inferInstanceAs (Decidable (_ ∧ _))

/-- `(.+)$` -/
def restOfLine (rest : Text) : Option Text := if Readable rest then some rest else none

/-- A header and the rest of the line behind it. -/
def matchHeader (header line : Text) : Option Text :=
  if header.isPrefixOf line then restOfLine (line.drop header.length) else none

/-- `PATCH_OPERATION` -/
def patchOperation (line : Text) : Option Text :=
  [addHeader, updateHeader, deleteHeader].findSome? (matchHeader · line)

/-- `PATCH_MOVE` -/
def patchMove (line : Text) : Option Text := matchHeader moveHeader line

def lineTarget (line : Text) : Option Text := ((patchOperation line).or (patchMove line)).map trim

/-- A member of a tool's input. -/
inductive Field where
  /-- Undefined or null. -/
  | missing
  | string (text : Text)
  | other

/-- `??` -/
def Field.or : Field → Field → Field
  | .missing, field => field
  | field, _ => field

structure ToolInput where
  command : Field
  patch : Field
  input : Field

def patchTargets (tool : Option Text) (input : ToolInput) : List Text :=
  match input.command.or (input.patch.or input.input) with
  | .string body =>
      if tool ≠ some "apply_patch".toList ∧ ¬PATCH_ENVELOPE.isPrefixOf (trimStart body) then []
      else (lines body).filterMap lineTarget
  | _ => []

def writeTargets (tool : Option Text) (input : ToolInput) : List Text :=
  let patched := patchTargets tool input
  if patched.length > 0 then patched
  else
    match input.command.or input.input with
    | .string command =>
        if PATCH_ENVELOPE.isPrefixOf (trimStart command) then [] else shellWriteTargets command
    | _ => []

/-! ## Patches -/

/-- A path without line breaks and without blanks around it. -/
structure Path where
  text : Text
  oneLine : ∀ c ∈ text, c ≠ '\n' ∧ c ≠ '\r'
  trimmed : trim text = text

/-- What a line of a file's contents is marked with. -/
inductive Mark where
  | added
  | removed
  | kept

def Mark.char : Mark → Char
  | .added => '+'
  | .removed => '-'
  | .kept => ' '

/-- A line of contents, and the line over a part of a file. -/
inductive Content where
  | line (mark : Mark) (text : Text) (oneLine : OneLine text)
  | hunk (text : Text) (oneLine : OneLine text)

def Content.text : Content → Text
  | .line mark text _ => mark.char :: text
  | .hunk text _ => '@' :: '@' :: text

inductive Operation where
  | add (path : Path) (contents : List Content)
  | update (path : Path) (moveTo : Option Path) (contents : List Content)
  | delete (path : Path)

def Operation.lines : Operation → List Text
  | .add path contents => (addHeader ++ path.text) :: contents.map Content.text
  | .update path moveTo contents =>
      (updateHeader ++ path.text) :: (moveTo.toList.map fun target => moveHeader ++ target.text) ++
        contents.map Content.text
  | .delete path => [deleteHeader ++ path.text]

/-- The paths an operation writes, both sides of a move. -/
def Operation.paths : Operation → List Text
  | .add path _ => [path.text]
  | .update path moveTo _ => path.text :: moveTo.toList.map Path.text
  | .delete path => [path.text]

def paths (operations : List Operation) : List Text := operations.flatMap Operation.paths

inductive Ending where
  | lf
  | crlf
deriving DecidableEq

/-- What stands before the newline. -/
def Ending.text : Ending → Text
  | .lf => []
  | .crlf => ['\r']

/-- The lines of a patch but for the last. -/
def openLines (operations : List Operation) : List Text :=
  PATCH_ENVELOPE :: operations.flatMap Operation.lines

/-- A patch, with a line ending at its end or without. -/
def render (ending : Ending) (terminated : Bool) (operations : List Operation) : Text :=
  (ending.text ++ ['\n']).intercalate (openLines operations ++
    "*** End Patch".toList :: if terminated then [[]] else [])

/-- The member that carries a patch. -/
inductive Carrier where
  | command
  | patch
  | input

def Carrier.wrap (body : Text) : Carrier → ToolInput
  | .command => ⟨.string body, .missing, .missing⟩
  | .patch => ⟨.missing, .string body, .missing⟩
  | .input => ⟨.missing, .missing, .string body⟩

/-! ## Lines -/

variable {ending : Ending} {terminated : Bool} {operations : List Operation} {l h p : Text}
  {ls : List Text} {tool : Option Text}

/-- The lines of a text, with what its endings put at the end of each. -/
theorem lines_intercalate (ending : Ending) (hls : ∀ l ∈ ls, OneLine l) {ms : List Text}
    (hms : ms ≠ []) :
    lines ((ending.text ++ ['\n']).intercalate (ls ++ ms)) =
      ls.map (· ++ ending.text) ++ lines ((ending.text ++ ['\n']).intercalate ms) := by
  induction ls with
  | nil => rfl
  | cons l ls ih =>
      obtain ⟨hl, hls⟩ := List.forall_mem_cons.mp hls
      have hline : OneLine (l ++ ending.text) := by
        intro hmem
        rcases List.mem_append.mp hmem with hmem | hmem
        · exact hl hmem
        · cases ending <;> simp [Ending.text] at hmem
      obtain ⟨m, rest, hrest⟩ := List.exists_cons_of_ne_nil (List.append_ne_nil_of_right_ne_nil ls hms)
      rw [List.cons_append, hrest, List.intercalate_cons_cons, ← hrest]
      have hsplit : l ++ (ending.text ++ ['\n']) ++ (ending.text ++ ['\n']).intercalate (ls ++ ms) =
          (l ++ ending.text) ++ '\n' :: (ending.text ++ ['\n']).intercalate (ls ++ ms) := by simp
      rw [hsplit, lines_append, lines_of_oneLine hline, ih hls]
      rfl

theorem Content.oneLine (content : Content) : OneLine content.text := by
  cases content with
  | line mark text h => cases mark <;> simpa [Content.text, Mark.char, OneLine] using h
  | hunk text h => simpa [Content.text, OneLine] using h

theorem Path.oneLine_append (path : Path) (hh : OneLine h) : OneLine (h ++ path.text) := by
  intro hmem
  rcases List.mem_append.mp hmem with hmem | hmem
  · exact hh hmem
  · exact (path.oneLine _ hmem).1 rfl

theorem Operation.oneLine (operation : Operation) : ∀ l ∈ operation.lines, OneLine l := by
  have hcontents {contents : List Content} : ∀ l ∈ contents.map Content.text, OneLine l := by
    intro l hl
    obtain ⟨content, -, rfl⟩ := List.mem_map.mp hl
    exact content.oneLine
  cases operation with
  | add path contents =>
      exact List.forall_mem_cons.mpr ⟨path.oneLine_append (by decide : '\n' ∉ addHeader), hcontents⟩
  | update path moveTo contents =>
      refine List.forall_mem_append.mpr ⟨List.forall_mem_cons.mpr
        ⟨path.oneLine_append (by decide : '\n' ∉ updateHeader), ?_⟩, hcontents⟩
      intro l hl
      obtain ⟨target, -, rfl⟩ := List.mem_map.mp hl
      exact target.oneLine_append (by decide : '\n' ∉ moveHeader)
  | delete path => exact List.forall_mem_singleton.mpr <|
      path.oneLine_append (by decide : '\n' ∉ deleteHeader)

theorem openLines_oneLine (operations : List Operation) :
    ∀ l ∈ openLines operations, OneLine l := by
  refine List.forall_mem_cons.mpr ⟨(by decide : '\n' ∉ PATCH_ENVELOPE), fun l hl => ?_⟩
  obtain ⟨operation, -, hl⟩ := List.mem_flatMap.mp hl
  exact operation.oneLine l hl

/-- The end of a patch names no path. -/
theorem end_targets (ending : Ending) (terminated : Bool) :
    (lines ((ending.text ++ ['\n']).intercalate
      ("*** End Patch".toList :: if terminated then [[]] else []))).filterMap lineTarget = [] := by
  cases ending <;> cases terminated <;> decide

theorem render_targets (ending : Ending) (terminated : Bool) (operations : List Operation) :
    (lines (render ending terminated operations)).filterMap lineTarget =
      (openLines operations).filterMap fun l => lineTarget (l ++ ending.text) := by
  rw [render, lines_intercalate ending (openLines_oneLine operations) (List.cons_ne_nil _ _),
    List.filterMap_append, end_targets, List.append_nil, List.filterMap_map]
  rfl

/-! ## Headers -/

theorem matchHeader_append (h p : Text) : matchHeader h (h ++ p) = restOfLine p := by
  have hpre : h.isPrefixOf (h ++ p) = true := by simp
  rw [matchHeader, if_pos hpre, List.drop_left]

/-- A line that ends with a carriage return is no header. -/
theorem matchHeader_cr (h l : Text) : matchHeader h (l ++ ['\r']) = none := by
  unfold matchHeader
  split
  next =>
    rw [restOfLine, if_neg]
    rintro ⟨hne, hany⟩
    have hlength : h.length ≤ l.length := by
      by_contra hlong
      refine hne (List.drop_eq_nil_of_le ?_)
      simp
      omega
    rw [List.drop_append_of_le_length hlength, List.any_append] at hany
    exact absurd hany (by simp [isLineTerminator])
  next => rfl

theorem lineTarget_cr (l : Text) : lineTarget (l ++ ['\r']) = none := by
  simp [lineTarget, patchOperation, patchMove, matchHeader_cr]

theorem lineTarget_content (content : Content) : lineTarget content.text = none := by
  cases content with
  | line mark text h => cases mark <;> rfl
  | hunk text h => rfl

/-- A header names its path. -/
theorem lineTarget_header (path : Path)
    (hh : h ∈ [addHeader, updateHeader, deleteHeader, moveHeader]) :
    lineTarget (h ++ path.text) = if Readable path.text then some path.text else none := by
  have hone : lineTarget (h ++ path.text) = (restOfLine path.text).map trim := by
    have hother {h h' : Text} (hne : h.isPrefixOf (h' ++ path.text) = false) :
        matchHeader h (h' ++ path.text) = none := by
      rw [matchHeader, if_neg (by simp [hne])]
    simp only [List.mem_cons, List.not_mem_nil, or_false] at hh
    simp only [lineTarget, patchOperation, patchMove, List.findSome?_cons, List.findSome?_nil]
    rcases hh with rfl | rfl | rfl | rfl
    · rw [matchHeader_append, hother (h := updateHeader) rfl, hother (h := deleteHeader) rfl,
        hother (h := moveHeader) rfl]
      cases restOfLine path.text <;> rfl
    · rw [matchHeader_append, hother (h := addHeader) rfl, hother (h := deleteHeader) rfl,
        hother (h := moveHeader) rfl]
      cases restOfLine path.text <;> rfl
    · rw [matchHeader_append, hother (h := addHeader) rfl, hother (h := updateHeader) rfl,
        hother (h := moveHeader) rfl]
      cases restOfLine path.text <;> rfl
    · rw [matchHeader_append, hother (h := addHeader) rfl, hother (h := updateHeader) rfl,
        hother (h := deleteHeader) rfl]
      rfl
  rw [hone, restOfLine]
  by_cases hr : Readable path.text
  · rw [if_pos hr, Option.map_some, path.trimmed]
  · rw [if_neg hr, Option.map_none]

/-! ## Reading patches -/

theorem filterMap_contents (contents : List Content) :
    (contents.map Content.text).filterMap lineTarget = [] := by
  rw [List.filterMap_map, List.filterMap_eq_nil_iff]
  exact fun content _ => lineTarget_content content

theorem filterMap_header (path : Path)
    (hh : h ∈ [addHeader, updateHeader, deleteHeader, moveHeader]) :
    [h ++ path.text].filterMap lineTarget = [path.text].filter fun p => Readable p := by
  rw [List.filterMap_cons, lineTarget_header path hh, List.filterMap_nil]
  by_cases hr : Readable path.text <;> simp [hr]

/-- With plain newlines an operation's readable paths are read. -/
theorem Operation.filterMap_lines (operation : Operation) :
    operation.lines.filterMap lineTarget = operation.paths.filter fun p => Readable p := by
  cases operation with
  | add path contents =>
      rw [Operation.lines, ← List.singleton_append, List.filterMap_append,
        filterMap_header path (by simp), filterMap_contents, List.append_nil, Operation.paths]
  | update path moveTo contents =>
      have hmove : (moveTo.toList.map fun target => moveHeader ++ target.text).filterMap lineTarget =
          (moveTo.toList.map Path.text).filter fun p => Readable p := by
        cases moveTo with
        | none => rfl
        | some target => exact filterMap_header target (by simp)
      rw [Operation.lines, List.filterMap_append, filterMap_contents, List.append_nil,
        ← List.singleton_append, List.filterMap_append, filterMap_header path (by simp), hmove,
        Operation.paths, ← List.filter_append, List.singleton_append]
  | delete path => rw [Operation.lines, filterMap_header path (by simp), Operation.paths]

/-- The patch is taken for one, whatever the tool is called. -/
theorem render_envelope (ending : Ending) (terminated : Bool) (operations : List Operation) :
    PATCH_ENVELOPE.isPrefixOf (trimStart (render ending terminated operations)) = true := by
  have hrender : ∃ rest, render ending terminated operations = PATCH_ENVELOPE ++ rest := by
    rw [render, openLines, List.cons_append]
    cases operations.flatMap Operation.lines with
    | nil => exact ⟨_, by rw [List.nil_append, List.intercalate_cons_cons, List.append_assoc]⟩
    | cons l ls =>
        exact ⟨_, by rw [List.cons_append, List.intercalate_cons_cons, List.append_assoc]⟩
  obtain ⟨rest, hrest⟩ := hrender
  have hstart : trimStart (PATCH_ENVELOPE ++ rest) = PATCH_ENVELOPE ++ rest := rfl
  rw [hrest, hstart]
  simp

theorem Carrier.body (carrier : Carrier) (body : Text) :
    (carrier.wrap body).command.or ((carrier.wrap body).patch.or (carrier.wrap body).input) =
      .string body := by
  cases carrier <;> rfl

theorem patchTargets_render (tool : Option Text) (carrier : Carrier) :
    patchTargets tool (carrier.wrap (render ending terminated operations)) =
      (openLines operations).filterMap fun l => lineTarget (l ++ ending.text) := by
  rw [patchTargets, carrier.body]
  simp only [render_envelope, not_true_eq_false, and_false, if_false]
  exact render_targets ending terminated operations

theorem patchTargets_lf (tool : Option Text) (carrier : Carrier) :
    patchTargets tool (carrier.wrap (render .lf terminated operations)) =
      (paths operations).filter fun p => Readable p := by
  simp only [patchTargets_render, Ending.text, List.append_nil]
  rw [openLines, List.filterMap_cons, paths, List.filter_flatMap, List.filterMap_flatMap]
  simp only [Operation.filterMap_lines]
  rfl

theorem patchTargets_crlf (tool : Option Text) (carrier : Carrier) :
    patchTargets tool (carrier.wrap (render .crlf terminated operations)) = [] := by
  rw [patchTargets_render, List.filterMap_eq_nil_iff]
  exact fun l _ => lineTarget_cr l

/-- A patch of which no path is read is no shell command. -/
theorem writeTargets_render (tool : Option Text) (carrier : Carrier) :
    writeTargets tool (carrier.wrap (render ending terminated operations)) =
      patchTargets tool (carrier.wrap (render ending terminated operations)) := by
  rw [writeTargets]
  split
  next => rfl
  next hnone =>
    have hnil := List.eq_nil_of_length_eq_zero (Nat.eq_zero_of_not_pos hnone)
    rw [hnil]
    cases carrier with
    | command => exact if_pos (render_envelope ..)
    | patch => rfl
    | input => exact if_pos (render_envelope ..)

theorem paths_eq_nil_iff : paths operations = [] ↔ operations = [] := by
  cases operations with
  | nil => simp [paths]
  | cons operation operations => cases operation <;> simp [paths, Operation.paths]

/-- All paths are read when the lines end with plain newlines and no path is empty or
has one of the two separators in it.  Otherwise some are missed. -/
theorem writeTargets_paths_iff (tool : Option Text) (carrier : Carrier) (ending : Ending)
    (terminated : Bool) (operations : List Operation) :
    (patchTargets tool (carrier.wrap (render ending terminated operations)) = paths operations ∧
      writeTargets tool (carrier.wrap (render ending terminated operations)) = paths operations) ↔
    operations = [] ∨ ending = .lf ∧ ∀ p ∈ paths operations, Readable p := by
  rw [writeTargets_render, and_self]
  cases ending with
  | lf =>
      rw [patchTargets_lf, List.filter_eq_self]
      simp only [decide_eq_true_eq, true_and]
      refine ⟨Or.inr, ?_⟩
      rintro (rfl | hall)
      · exact fun p hp => absurd hp List.not_mem_nil
      · exact hall
  | crlf =>
      rw [patchTargets_crlf, eq_comm, paths_eq_nil_iff]
      simp

/-- An edit on a system whose lines end with both is not guarded. -/
theorem writeTargets_misses_update : ∃ operations : List Operation,
    paths operations = ["src/a.js".toList] ∧
    writeTargets (some "apply_patch".toList)
      (Carrier.command.wrap (render .crlf true operations)) = [] :=
  ⟨[.update ⟨"src/a.js".toList, by simp, by decide⟩ none
      [.line .removed "old".toList (by simp [OneLine]), .line .added "new".toList (by simp [OneLine])]],
    rfl, by decide +kernel⟩

end Acc.AdapterCodex.PatchTargets
