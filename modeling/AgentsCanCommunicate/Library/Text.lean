import Mathlib

/-!
# Texts and their lines

A text is its characters.  `lines` takes it apart at every newline and `unlines`
puts lines together again.  The two undo each other, so two texts are compared by
their lines.
-/

namespace Library

abbrev Text := List Char

instance : LawfulBEq Text := inferInstance

namespace Text

/-- A newline, a carriage return or one of the two separators. -/
def isLineTerminator (c : Char) : Bool :=
  c = '\n' || c = '\r' || c = '\u2028' || c = '\u2029'

/-- White space of ECMAScript, line terminators among it. -/
def isSpace (c : Char) : Bool :=
  isLineTerminator c || c = '\t' || c = '\x0b' || c = '\x0c' || c = ' ' || c = '\u00a0'
    || c = '\u1680' || ('\u2000' ≤ c && c ≤ '\u200a') || c = '\u202f' || c = '\u205f'
    || c = '\u3000' || c = '\ufeff'

def trimStart (s : Text) : Text := s.dropWhile isSpace

def trimEnd (s : Text) : Text := s.rdropWhile isSpace

def trim (s : Text) : Text := s.trimStart.trimEnd

/-! ## Lines -/

/-- `s.split("\n")`. -/
def lines (s : Text) : List Text := s.splitOn '\n'

/-- `ls.join("\n")`. -/
def unlines (ls : List Text) : Text := ['\n'].intercalate ls

/-- A text of one line. -/
def OneLine (s : Text) : Prop := '\n' ∉ s

variable {s t : Text} {ls ms : List Text}

theorem unlines_lines (s : Text) : unlines (lines s) = s := List.intercalate_splitOn '\n'

theorem lines_unlines (hls : ls ≠ []) (h : ∀ l ∈ ls, OneLine l) : lines (unlines ls) = ls :=
  List.splitOn_intercalate '\n' h hls

@[simp] theorem lines_nil : lines [] = [[]] := List.splitOn_nil _

theorem lines_ne_nil (s : Text) : lines s ≠ [] := List.splitOn_ne_nil '\n' s

theorem lines_append (s t : Text) : lines (s ++ '\n' :: t) = lines s ++ lines t :=
  List.splitOn_append_cons_self s t

theorem lines_inj (h : lines s = lines t) : s = t := by
  rw [← unlines_lines s, h, unlines_lines]

theorem lines_of_oneLine (h : OneLine s) : lines s = [s] := List.splitOn_eq_singleton h

theorem oneLine_of_mem_lines : ∀ {s l : Text}, l ∈ lines s → OneLine l
  | [], l, h => by
      rw [lines_nil, List.mem_singleton] at h
      rw [h]
      exact List.not_mem_nil
  | c :: s, l, h => by
      rw [lines, List.splitOn_cons_eq_if_modifyHead] at h
      by_cases hc : c = '\n'
      · rw [if_pos (beq_iff_eq.mpr hc)] at h
        rcases List.mem_cons.mp h with rfl | h
        · exact List.not_mem_nil
        · exact oneLine_of_mem_lines h
      · rw [if_neg (by simpa using hc)] at h
        obtain ⟨first, others, hsplit⟩ := List.exists_cons_of_ne_nil (lines_ne_nil s)
        rw [show s.splitOn '\n' = first :: others from hsplit, List.modifyHead_cons] at h
        have hfirst : OneLine first :=
          @oneLine_of_mem_lines s _ (hsplit ▸ List.mem_cons_self ..)
        rcases List.mem_cons.mp h with rfl | h
        · exact List.not_mem_cons_of_ne_of_not_mem (fun heq => hc heq.symm) hfirst
        · exact @oneLine_of_mem_lines s _ (hsplit ▸ List.mem_cons_of_mem _ h)

/-- Lists put together with separators are taken apart to the parts of each. -/
theorem splitOn_intercalate_flatMap {α : Type*} [DecidableEq α] (sep : α) {ls : List (List α)}
    (hls : ls ≠ []) : ([sep].intercalate ls).splitOn sep = ls.flatMap (List.splitOn sep) := by
  induction ls with
  | nil => exact absurd rfl hls
  | cons l ls ih =>
      cases ls with
      | nil => simp
      | cons m ms =>
          have hrest := ih (List.cons_ne_nil _ _)
          rw [List.flatMap_cons, ← hrest, ← List.splitOn_append_cons_self,
            List.intercalate_cons_cons, List.append_assoc]
          rfl

/-- The lines of texts put together with newlines are the lines of each. -/
theorem lines_unlines_flatMap (hls : ls ≠ []) : lines (unlines ls) = ls.flatMap lines :=
  splitOn_intercalate_flatMap '\n' hls

/-- A text is one line, or what comes before its first newline and what comes after. -/
theorem oneLine_or_split (s : Text) :
    OneLine s ∨ ∃ first rest, s = first ++ '\n' :: rest ∧ OneLine first := by
  by_cases h : '\n' ∈ s
  · obtain ⟨first, rest, hs, hfirst⟩ := List.eq_append_cons_of_mem h
    exact .inr ⟨first, rest, hs, hfirst⟩
  · exact .inl h

/-- The last line is empty after a newline, and only then, unless all is empty. -/
theorem getLast?_lines : ∀ s : Text, (lines s).getLast? = some [] ↔
    s = [] ∨ s.getLast? = some '\n' := by
  intro s
  induction hn : s.length using Nat.strong_induction_on generalizing s with
  | _ n ih =>
      rcases oneLine_or_split s with hs | ⟨first, rest, rfl, hfirst⟩
      · rw [lines_of_oneLine hs, List.getLast?_singleton, Option.some_inj]
        refine (or_iff_left fun hlast => hs ?_).symm
        exact List.mem_of_getLast? hlast
      · have hrest := ih rest.length (by simp at hn; omega) rest rfl
        have hlast : (lines (first ++ '\n' :: rest)).getLast? = (lines rest).getLast? := by
          rw [lines_append, List.getLast?_append_of_ne_nil _ (lines_ne_nil rest)]
        rw [hlast, hrest, List.getLast?_append_cons, List.getLast?_cons]
        cases hrest' : rest.getLast? with
        | none => simp [List.getLast?_eq_none_iff.mp hrest']
        | some c =>
            have hne : rest ≠ [] := by
              rintro rfl
              cases hrest'
            simp [hne]

end Text

end Library
