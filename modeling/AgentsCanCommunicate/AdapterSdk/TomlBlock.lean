import AgentsCanCommunicate.Library.Text

/-!
# The TOML block

A client keeps its configuration in TOML and ACC adds a region to it, between two
marker lines at the end of the file.  The region is found by its lines, so a text
is taken apart at its newlines and what is said here is said of lines.

A file is its text, or nothing when it does not exist.

The newline that the region starts after is there already when the text ends with
one.  When it is not, it is added, and stripping the region leaves it behind.
-/

namespace Acc.AdapterSdk.TomlBlock

open Library Library.Text

def BEGIN : Text :=
  "# >>> agents-can-communicate (managed; edits here are overwritten)".toList

def END : Text := "# <<< agents-can-communicate".toList

def isBegin (line : Text) : Bool := line.trimEnd = BEGIN

def isEnd (line : Text) : Bool := line.trimEnd = END

/-! ## The code -/

/-- The lines outside of any region.  A region that is not ended goes on to the end. -/
def keptLines : Bool → List Text → List Text
  | _, [] => []
  | inside, line :: rest =>
      if isBegin line then keptLines true rest
      else if inside then keptLines (!isEnd line) rest
      else line :: keptLines false rest

def stripBlock (source : Text) : Text := unlines (keptLines false (lines source))

def renderBlock (body : List Text) : Text := unlines (BEGIN :: (body ++ [END]))

def separator (withoutOurs : Text) : Text :=
  if withoutOurs = [] ∨ withoutOurs.getLast? = some '\n' then [] else ['\n']

/-- What is written to the file. -/
def writeTomlBlock (strip : Text → Text) (file : Option Text) (body : List Text) : Text :=
  let withoutOurs := strip (file.getD [])
  withoutOurs ++ separator withoutOurs ++ renderBlock body ++ ['\n']

/-- What is left in the file, and whether anything was there. -/
def removeTomlBlock (strip : Text → Text) : Option Text → Option Text × Bool
  | none => (none, false)
  | some existing =>
      if strip existing = existing then (some existing, false) else (some (strip existing), true)

/-- The text after a write to a file of this text. -/
def writeBlock (source : Text) (body : List Text) : Text :=
  writeTomlBlock stripBlock (some source) body

/-! ## Regions -/

/-- Whether a region is open after some lines. -/
def insideAfter : Bool → List Text → Bool
  | inside, [] => inside
  | inside, line :: rest => insideAfter (isBegin line || inside && !isEnd line) rest

/-- No line begins a region. -/
def NoRegion (source : Text) : Prop := ∀ line ∈ lines source, isBegin line = false

/-- The lines of a body.  A piece of it may have several. -/
def bodyLines (body : List Text) : List Text := body.flatMap lines

/-- No line of the body ends the region, unless the next one begins it again. -/
def Enclosed : List Text → Prop
  | [] => True
  | [line] => isEnd line = false
  | line :: next :: rest => (isEnd line = true → isBegin next = true) ∧ Enclosed (next :: rest)

variable {source : Text} {body : List Text} {inside : Bool} {ls ms : List Text}

theorem isBegin_BEGIN : isBegin BEGIN = true := by decide

theorem isEnd_END : isEnd END = true := by decide

theorem isBegin_END : isBegin END = false := by decide

theorem isEnd_of_isBegin {line : Text} (h : isBegin line = true) : isEnd line = false := by
  have hne : BEGIN ≠ END := by decide
  rw [isBegin, decide_eq_true_eq] at h
  rw [isEnd, h, decide_eq_false hne]

theorem keptLines_append :
    keptLines inside (ls ++ ms) = keptLines inside ls ++ keptLines (insideAfter inside ls) ms := by
  induction ls generalizing inside with
  | nil => rfl
  | cons line rest ih =>
      rw [List.cons_append, keptLines, keptLines, insideAfter]
      cases hbegin : isBegin line with
      | true => exact ih
      | false =>
          cases inside with
          | true => exact ih
          | false => exact congrArg (line :: ·) ih

theorem insideAfter_append :
    insideAfter inside (ls ++ ms) = insideAfter (insideAfter inside ls) ms := by
  induction ls generalizing inside with
  | nil => rfl
  | cons line rest ih => exact ih

/-- Lines none of which begins a region are all kept. -/
theorem keptLines_of_noBegin (h : ∀ line ∈ ls, isBegin line = false) :
    keptLines false ls = ls ∧ insideAfter false ls = false := by
  induction ls with
  | nil => exact ⟨rfl, rfl⟩
  | cons line rest ih =>
      rw [List.forall_mem_cons] at h
      obtain ⟨hkept, hinside⟩ := ih h.2
      rw [keptLines, insideAfter, h.1]
      exact ⟨congrArg (line :: ·) hkept, hinside⟩

theorem keptLines_oneLine (h : ∀ line ∈ ls, OneLine line) :
    ∀ line ∈ keptLines inside ls, OneLine line := by
  induction ls generalizing inside with
  | nil => exact h
  | cons line rest ih =>
      rw [List.forall_mem_cons] at h
      rw [keptLines]
      split
      · exact ih h.2
      · split
        · exact ih h.2
        · exact List.forall_mem_cons.mpr ⟨h.1, ih h.2⟩

/-- The lines of a body and the end marker are all dropped from inside a region,
exactly when the body keeps the region open. -/
theorem keptLines_body : keptLines true (ls ++ [END]) = [] ↔ Enclosed ls := by
  induction ls using Enclosed.induct with
  | case1 => exact ⟨fun _ => trivial, fun _ => rfl⟩
  | case2 line =>
      rw [List.singleton_append, keptLines, keptLines, isBegin_END, Enclosed]
      cases hbegin : isBegin line with
      | true => simp [keptLines, isEnd_of_isBegin hbegin]
      | false => cases isEnd line <;> simp [keptLines, isBegin_END]
  | case3 line next rest ih =>
      rw [List.cons_append, keptLines, Enclosed, ← ih]
      cases hbegin : isBegin line with
      | true =>
          rw [isEnd_of_isBegin hbegin]
          simp
      | false =>
          cases hend : isEnd line with
          | false => simp
          | true =>
              rw [List.cons_append, keptLines, keptLines]
              cases isBegin next <;> simp

/-- The region is closed at its end. -/
theorem insideAfter_END : insideAfter inside [END] = false := by
  cases inside <;> rfl

/-! ## Writing -/

theorem lines_renderBlock : lines (renderBlock body) = BEGIN :: (bodyLines body ++ [END]) := by
  have hbegin : lines BEGIN = [BEGIN] := by decide
  have hend : lines END = [END] := by decide
  rw [renderBlock, lines_unlines_flatMap (List.cons_ne_nil _ _), List.flatMap_cons, hbegin,
    List.flatMap_append, List.flatMap_singleton, hend]
  rfl

/-- The lines in front of the region. -/
def before (source : Text) : List Text :=
  if source = [] ∨ source.getLast? = some '\n' then (lines source).dropLast else lines source

theorem lines_written (source : Text) (body : List Text) :
    lines (source ++ separator source ++ renderBlock body ++ ['\n']) =
      before source ++ (BEGIN :: (bodyLines body ++ [END]) ++ [[]]) := by
  have hregion : lines (renderBlock body ++ ['\n']) = BEGIN :: (bodyLines body ++ [END]) ++ [[]] := by
    rw [lines_append, lines_renderBlock, lines_nil]
  rw [List.append_assoc, before, separator]
  split
  next hends =>
    rw [List.append_nil]
    rcases hends with rfl | hlast
    · exact hregion
    · obtain ⟨start, rfl⟩ := List.getLast?_eq_some_iff.mp hlast
      rw [List.append_assoc, List.singleton_append, lines_append, hregion, lines_append, lines_nil,
        List.dropLast_concat]
  next => rw [List.append_assoc, List.singleton_append, lines_append, hregion]

theorem mem_before {line : Text} (h : line ∈ before source) : line ∈ lines source := by
  rw [before] at h
  split at h
  · exact List.mem_of_mem_dropLast h
  · exact h

theorem stripBlock_of_noRegion (h : NoRegion source) : stripBlock source = source := by
  rw [stripBlock, (keptLines_of_noBegin h).1, unlines_lines]

/-- The lines that are left of a text with the region written to it. -/
theorem lines_stripBlock_written (h : NoRegion source) :
    lines (stripBlock (source ++ separator source ++ renderBlock body ++ ['\n'])) =
      before source ++ keptLines true (bodyLines body ++ [END]) ++ [[]] := by
  have hbefore : ∀ line ∈ before source, isBegin line = false :=
    fun line hline => h line (mem_before hline)
  obtain ⟨hkept, hinside⟩ := keptLines_of_noBegin hbefore
  have hempty : isBegin [] = false := by decide
  have hclosed : insideAfter true (bodyLines body ++ [END]) = false := by
    rw [insideAfter_append, insideAfter_END]
  have hlast : keptLines false (before source ++ (BEGIN :: (bodyLines body ++ [END]) ++ [[]])) =
      before source ++ keptLines true (bodyLines body ++ [END]) ++ [[]] := by
    rw [keptLines_append, hkept, hinside, List.cons_append, keptLines, isBegin_BEGIN, if_pos rfl,
      keptLines_append, hclosed, keptLines, hempty, List.append_assoc]
    rfl
  rw [stripBlock, lines_written, hlast]
  refine lines_unlines (by simp) fun line hline => ?_
  rw [← hlast, ← lines_written] at hline
  exact keptLines_oneLine (fun _ => oneLine_of_mem_lines) line hline

/-- Stripping what was written gives the text back. -/
theorem stripBlock_written_iff (h : NoRegion source) :
    stripBlock (source ++ separator source ++ renderBlock body ++ ['\n']) = source ↔
      (source = [] ∨ source.getLast? = some '\n') ∧ Enclosed (bodyLines body) := by
  have hlines := @lines_stripBlock_written source body h
  constructor
  · intro heq
    rw [heq] at hlines
    have hends : source = [] ∨ source.getLast? = some '\n' := by
      rw [← getLast?_lines, hlines, List.getLast?_concat]
    refine ⟨hends, keptLines_body.mp ?_⟩
    have hlength := congrArg List.length hlines
    rw [before, if_pos hends] at hlength
    have hpos := List.length_pos_iff.mpr (lines_ne_nil source)
    simp only [List.length_append, List.length_dropLast, List.length_singleton] at hlength
    exact List.length_eq_zero_iff.mp (by omega)
  · rintro ⟨hends, henclosed⟩
    refine lines_inj ?_
    rw [hlines, keptLines_body.mpr henclosed, before, if_pos hends, List.append_nil]
    have hlast := (getLast?_lines source).mpr hends
    obtain ⟨start, hstart⟩ := List.getLast?_eq_some_iff.mp hlast
    rw [hstart, List.dropLast_concat]

/-- A block that is written can be stripped, written again and replaced, exactly
when the text ends with a newline or is empty, and the body keeps the region open. -/
theorem writeBlock_roundTrip (h : NoRegion source) (body : List Text) :
    (stripBlock (writeBlock source body) = source ∧
      writeBlock (writeBlock source body) body = writeBlock source body ∧
      ∀ other, writeBlock (writeBlock source body) other = writeBlock source other) ↔
    (source = [] ∨ source.getLast? = some '\n') ∧ Enclosed (bodyLines body) := by
  have hsource := stripBlock_of_noRegion h
  have hwritten : ∀ other, writeBlock source other =
      source ++ separator source ++ renderBlock other ++ ['\n'] := by
    intro other
    rw [writeBlock, writeTomlBlock, Option.getD_some, hsource]
  rw [hwritten, stripBlock_written_iff h]
  refine and_iff_left_of_imp fun hends => ?_
  have hstrip := (stripBlock_written_iff h).mpr hends
  have hagain : ∀ other, writeBlock (source ++ separator source ++ renderBlock body ++ ['\n'])
      other = writeBlock source other := by
    intro other
    rw [writeBlock, writeTomlBlock, Option.getD_some, hstrip, hwritten]
  exact ⟨(hagain body).trans (hwritten body), hagain⟩

theorem writeBlock_roundTrip_sample :
    stripBlock (writeBlock "a = 1\n".toList ["b = 2".toList]) = "a = 1\n".toList := by
  have hnoRegion : NoRegion "a = 1\n".toList := by
    rw [NoRegion]
    decide
  have henclosed : Enclosed (bodyLines ["b = 2".toList]) := by
    rw [show bodyLines ["b = 2".toList] = ["b = 2".toList] by decide, Enclosed]
    decide
  exact ((writeBlock_roundTrip hnoRegion _).mpr ⟨.inr (by decide), henclosed⟩).1

/-- A text without a newline at its end has one after the round trip. -/
theorem stripBlock_adds_newline :
    ¬∀ (source : Text) (body : List Text), NoRegion source →
      stripBlock (writeBlock source body) = source := by
  intro h
  have hnoRegion : NoRegion "a = 1".toList := by
    rw [NoRegion]
    decide
  have hstripped : stripBlock (writeBlock "a = 1".toList []) = "a = 1\n".toList := by decide
  cases hstripped.symm.trans (h "a = 1".toList [] hnoRegion)

end Acc.AdapterSdk.TomlBlock
