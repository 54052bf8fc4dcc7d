import AgentsCanCommunicate.Library.Utf16

/-!
# The words of a POSIX shell

`word` reads the first word of a command line.  It reads what is quoted in any of the three
ways, and answers nothing where the shell would put something else in place of what is
written: a parameter, a command, a pattern, a home directory or a comment.

A string can be written in double quotes with a backslash before each of four units, in single
quotes with the quotes left for each single quote, and as it stands if it is of portable units
after a slash.  Each of the three is read back as the string (`word_doubleQuote`,
`word_singleQuote`, `word_portable`).
-/

namespace Library.ShellWord

/-! ## Reading -/

def doubleMark : UInt16 := 0x22
def dollar : UInt16 := 0x24
def singleMark : UInt16 := 0x27
def backslash : UInt16 := 0x5C
def backquote : UInt16 := 0x60
def newline : UInt16 := 0x0A
def slash : UInt16 := 0x2F

/-- A blank, a newline or the first unit of an operator. -/
def ends (c : UInt16) : Bool := c ∈ [0x20, 0x09, newline, 0x26, 0x7C, 0x3B, 0x3C, 0x3E, 0x28, 0x29]

/-- A pattern or an expansion. -/
def expands (c : UInt16) : Bool := c ∈ [0x2A, 0x3F, 0x5B, dollar, backquote]

/-- What a backslash quotes in double quotes. -/
def doubled (c : UInt16) : Bool := c ∈ [doubleMark, backslash, dollar, backquote]

inductive Mode where
  | bare
  | bareEscape
  | single
  | double
  | doubleEscape

def put (s : Utf16) (found : Option (Utf16 × Utf16)) : Option (Utf16 × Utf16) :=
  found.map fun found => (s ++ found.1, found.2)

/-- The rest of a word, and what is behind it. -/
def readWord : Mode → Utf16 → Option (Utf16 × Utf16)
  | .bare, [] => some ([], [])
  | _, [] => none
  | .bare, c :: rest =>
      if ends c then some ([], c :: rest)
      else if c = singleMark then readWord .single rest
      else if c = doubleMark then readWord .double rest
      else if c = backslash then readWord .bareEscape rest
      else if expands c then none
      else put [c] (readWord .bare rest)
  -- A backslash before a newline joins two lines.
  | .bareEscape, c :: rest =>
      if c = newline then readWord .bare rest else put [c] (readWord .bare rest)
  | .single, c :: rest =>
      if c = singleMark then readWord .bare rest else put [c] (readWord .single rest)
  | .double, c :: rest =>
      if c = doubleMark then readWord .bare rest
      else if c = backslash then readWord .doubleEscape rest
      else if c = dollar ∨ c = backquote then none
      else put [c] (readWord .double rest)
  | .doubleEscape, c :: rest =>
      if c = newline then readWord .double rest
      else if doubled c then put [c] (readWord .double rest)
      else put [backslash, c] (readWord .double rest)

/-- The first word, where a tilde or a number sign at its beginning is none. -/
def word : Utf16 → Option (Utf16 × Utf16)
  | [] => none
  | c :: rest => if ends c ∨ c = 0x7E ∨ c = 0x23 then none else readWord .bare (c :: rest)

/-- A word ends here. -/
def Ends (rest : Utf16) : Prop := ∀ c, rest.head? = some c → ends c = true

/-! ## Writing -/

def doubleQuote (s : Utf16) : Utf16 :=
  doubleMark :: s.flatMap (fun c => if doubled c then [backslash, c] else [c]) ++ [doubleMark]

def singleQuote (s : Utf16) : Utf16 :=
  singleMark :: s.flatMap (fun c =>
    if c = singleMark then [singleMark, backslash, singleMark, singleMark] else [c]) ++ [singleMark]

/-- A portable unit of a file name, or a slash. -/
def isPortable (c : UInt16) : Bool :=
  (0x41 ≤ c && c ≤ 0x5A) || (0x61 ≤ c && c ≤ 0x7A) || (0x30 ≤ c && c ≤ 0x39)
    || c ∈ [0x2E, 0x5F, slash, 0x2D]

/-! ## Reading what was written -/

variable {s t rest : Utf16} {c : UInt16} {found : Option (Utf16 × Utf16)}

theorem put_put : put s (put t found) = put (s ++ t) found := by
  cases found <;> simp [put]

theorem put_nil : put [] found = found := by
  cases found <;> simp [put]

theorem readWord_of_ends (h : Ends rest) : readWord .bare rest = some ([], rest) := by
  cases rest with
  | nil => rfl
  | cons c rest => rw [readWord, if_pos (h c rfl)]

theorem readWord_doubled (s rest : Utf16) :
    readWord .double (s.flatMap (fun c => if doubled c then [backslash, c] else [c]) ++
      doubleMark :: rest) = put s (readWord .bare rest) := by
  induction s with
  | nil => rw [List.flatMap_nil, List.nil_append, readWord, if_pos rfl, put_nil]
  | cons c s ih =>
      rw [List.flatMap_cons, List.append_assoc]
      by_cases hc : doubled c = true
      · have hline : c ≠ newline := by
          rintro rfl
          exact absurd hc (by decide)
        rw [if_pos hc, List.cons_append, List.cons_append, List.nil_append, readWord,
          if_neg (by decide), if_pos rfl, readWord, if_neg hline, if_pos hc, ih, put_put]
        rfl
      · have hplain : c ≠ doubleMark ∧ c ≠ backslash ∧ ¬(c = dollar ∨ c = backquote) := by
          simp only [doubled, List.mem_cons, List.not_mem_nil, or_false, decide_eq_true_eq,
            not_or] at hc
          exact ⟨hc.1, hc.2.1, not_or.mpr hc.2.2⟩
        rw [if_neg hc, List.cons_append, List.nil_append, readWord, if_neg hplain.1,
          if_neg hplain.2.1, if_neg hplain.2.2, ih, put_put]
        rfl

theorem readWord_singled (s rest : Utf16) :
    readWord .single (s.flatMap (fun c =>
      if c = singleMark then [singleMark, backslash, singleMark, singleMark] else [c]) ++
        singleMark :: rest) = put s (readWord .bare rest) := by
  induction s with
  | nil => rw [List.flatMap_nil, List.nil_append, readWord, if_pos rfl, put_nil]
  | cons c s ih =>
      rw [List.flatMap_cons, List.append_assoc]
      by_cases hc : c = singleMark
      · subst hc
        -- The quotes are closed, the mark is read behind a backslash, and they are opened again.
        have hclose : readWord .single (singleMark :: backslash :: singleMark :: singleMark ::
            (s.flatMap (fun c => if c = singleMark then
              [singleMark, backslash, singleMark, singleMark] else [c]) ++ singleMark :: rest)) =
            put [singleMark] (readWord .single (s.flatMap (fun c => if c = singleMark then
              [singleMark, backslash, singleMark, singleMark] else [c]) ++ singleMark :: rest)) := rfl
        rw [if_pos rfl]
        exact hclose.trans (by rw [ih, put_put]; rfl)
      · rw [if_neg hc, List.cons_append, List.nil_append, readWord, if_neg hc, ih, put_put]
        rfl

theorem word_doubleQuote (s : Utf16) (h : Ends rest) :
    word (doubleQuote s ++ rest) = some (s, rest) := by
  have hopen : word (doubleQuote s ++ rest) =
      readWord .double (s.flatMap (fun c => if doubled c then [backslash, c] else [c]) ++
        doubleMark :: rest) := by
    rw [doubleQuote, List.append_assoc]
    rfl
  rw [hopen, readWord_doubled, readWord_of_ends h, put, Option.map_some, List.append_nil]

theorem word_singleQuote (s : Utf16) (h : Ends rest) :
    word (singleQuote s ++ rest) = some (s, rest) := by
  have hopen : word (singleQuote s ++ rest) =
      readWord .single (s.flatMap (fun c =>
        if c = singleMark then [singleMark, backslash, singleMark, singleMark] else [c]) ++
          singleMark :: rest) := by
    rw [singleQuote, List.append_assoc]
    rfl
  rw [hopen, readWord_singled, readWord_of_ends h, put, Option.map_some, List.append_nil]

theorem isPortable_plain (h : isPortable c = true) :
    ends c = false ∧ c ≠ singleMark ∧ c ≠ doubleMark ∧ c ≠ backslash ∧ expands c = false := by
  have hnot : ∀ d, isPortable d = false → c ≠ d := by
    rintro d hd rfl
    rw [h] at hd
    cases hd
  have hnone : ∀ ds : List UInt16, ds.all (fun d => !isPortable d) = true → c ∉ ds := by
    intro ds hds hc
    have hportable := List.all_eq_true.mp hds c hc
    rw [h] at hportable
    cases hportable
  exact ⟨decide_eq_false (hnone _ (by decide)), hnot _ (by decide), hnot _ (by decide),
    hnot _ (by decide), decide_eq_false (hnone _ (by decide))⟩

theorem readWord_portable (hs : s.all isPortable = true) (h : Ends rest) :
    readWord .bare (s ++ rest) = some (s, rest) := by
  induction s with
  | nil => exact readWord_of_ends h
  | cons c s ih =>
      obtain ⟨hc, hs⟩ := (Bool.and_eq_true _ _).mp hs
      obtain ⟨hends, hsingle, hdouble, hslash, hexpands⟩ := isPortable_plain hc
      rw [List.cons_append, readWord, if_neg (by simp [hends]), if_neg hsingle, if_neg hdouble,
        if_neg hslash, if_neg (by simp [hexpands]), ih hs]
      rfl

theorem word_portable (hs : s.all isPortable = true) (h : Ends rest) :
    word (slash :: s ++ rest) = some (slash :: s, rest) := by
  have hall : (slash :: s).all isPortable = true := (Bool.and_eq_true _ _).mpr ⟨rfl, hs⟩
  rw [List.cons_append, word, if_neg (by decide)]
  exact readWord_portable hall h

end Library.ShellWord
