import AgentsCanCommunicate.Library.Utf16

/-!
# Windows command lines

The splitter walks along the line with the words it has, the word it is in, and
whether a quote is open.  A run of backslashes is read at once: what it stands for
depends on whether a quote follows.  `splitWindowsCommandLine_joined` says that it
undoes every way of writing words that follows the same rules.
-/

namespace Acc.AdapterSdk.CommandLine

open Library Utf16

abbrev backslash : UInt16 := 92

abbrev quote : UInt16 := 34

/-- A blank or a tab. -/
def isBlank (c : UInt16) : Bool := c == 32 || c == 9

/-- Where the splitter is. -/
structure Split where
  words : List Utf16
  word : Utf16
  started : Bool
  quoted : Bool

/-- The loop over the line. -/
def scan (s : Split) : Utf16 → Split
  | [] => s
  | char :: rest =>
      if char = backslash then
        let count := (rest.takeWhile (· == backslash)).length + 1
        let after := rest.dropWhile (· == backslash)
        if after.head? = some quote then
          let word := s.word ++ List.replicate (count / 2) backslash
          if count % 2 = 1 then scan { s with word := word ++ [quote], started := true } after.tail
          else scan { s with word, quoted := !s.quoted, started := true } after.tail
        else
          scan { s with word := s.word ++ List.replicate count backslash, started := true } after
      else if char = quote then scan { s with quoted := !s.quoted, started := true } rest
      else if isBlank char ∧ s.quoted = false then
        let words := if s.started then s.words ++ [s.word] else s.words
        scan { s with words, word := [], started := false } rest
      else scan { s with word := s.word ++ [char], started := true } rest
termination_by line => line.length
decreasing_by
  all_goals simp only [List.length_cons, List.length_tail]
  all_goals have := (List.dropWhile_suffix (l := rest) (· == backslash)).length_le
  all_goals omega

/-- The last word ends with the line. -/
def Split.finish (s : Split) : List Utf16 := if s.started then s.words ++ [s.word] else s.words

def splitWindowsCommandLine (line : Utf16) : List Utf16 :=
  (scan ⟨[], [], false, false⟩ line).finish

/-! ## Writing words -/

/-- A word between quotes, behind `n` backslashes of it that are not yet written. -/
def escape (n : Nat) : Utf16 → Utf16
  | [] => List.replicate (2 * n) backslash
  | c :: w =>
      if c = backslash then escape (n + 1) w
      else if c = quote then List.replicate (2 * n + 1) backslash ++ quote :: escape 0 w
      else List.replicate n backslash ++ c :: escape 0 w

def quoteWord (w : Utf16) : Utf16 := quote :: (escape 0 w ++ [quote])

/-- A word that needs no quotes. -/
def Bare (w : Utf16) : Prop := ∀ c ∈ w, c ≠ quote ∧ isBlank c = false

instance (w : Utf16) : Decidable (Bare w) := List.decidableBAll _ w

/-- The two ways to write a word. -/
inductive Written : Utf16 → Utf16 → Prop where
  | quoted (w : Utf16) : Written w (quoteWord w)
  | bare {w : Utf16} : w ≠ [] → Bare w → Written w w

/-- The line for a list of words. -/
inductive Joined : List Utf16 → Utf16 → Prop where
  | nil : Joined [] []
  | single {w t : Utf16} : Written w t → Joined [w] t
  | cons {w v t sep line : Utf16} {ws : List Utf16} :
      Written w t → sep ≠ [] → (∀ c ∈ sep, isBlank c = true) → Joined (v :: ws) line →
      Joined (w :: v :: ws) (t ++ sep ++ line)

/-! ## What the loop does -/

variable {s : Split} {w t rest line : Utf16} {ws words : List Utf16} {c : UInt16}
  {n : Nat}

theorem scan_quote : scan s (quote :: rest) =
    scan ⟨s.words, s.word, true, !s.quoted⟩ rest := by
  rw [scan, if_neg (by decide), if_pos rfl]

theorem scan_char (hbackslash : c ≠ backslash) (hquote : c ≠ quote)
    {quoted started : Bool} (hblank : isBlank c = true → quoted = true) :
    scan ⟨words, w, started, quoted⟩ (c :: rest) = scan ⟨words, w ++ [c], true, quoted⟩ rest := by
  rw [scan, if_neg hbackslash, if_neg hquote, if_neg]
  rintro ⟨hc, hquoted⟩
  rw [hblank hc] at hquoted
  cases hquoted

theorem scan_blank (hblank : isBlank c = true) (hquoted : s.quoted = false) :
    scan s (c :: rest) =
      scan ⟨if s.started then s.words ++ [s.word] else s.words, [], false, s.quoted⟩ rest := by
  have hbackslash : c ≠ backslash := by
    rintro rfl
    exact absurd hblank (by decide)
  have hquote : c ≠ quote := by
    rintro rfl
    exact absurd hblank (by decide)
  rw [scan, if_neg hbackslash, if_neg hquote, if_pos ⟨hblank, hquoted⟩]

/-- A run of backslashes and what is behind it. -/
theorem run_parts (hrest : rest.head? ≠ some backslash) :
    (List.replicate n backslash ++ rest).takeWhile (· == backslash) =
        List.replicate n backslash ∧
      (List.replicate n backslash ++ rest).dropWhile (· == backslash) = rest := by
  induction n with
  | zero =>
      cases rest with
      | nil => exact ⟨rfl, rfl⟩
      | cons c rest =>
          have hc : c ≠ backslash := fun h => hrest (congrArg some h)
          simp [hc]
  | succ n ih => simp [List.replicate_succ, ih]

theorem quote_head : (quote :: t).head? ≠ some backslash := by
  intro h
  exact absurd (Option.some.inj h) (by decide)

/-- Backslashes before a quote are halved. -/
theorem scan_even : scan s (List.replicate (2 * n) backslash ++ quote :: rest) =
    scan ⟨s.words, s.word ++ List.replicate n backslash, true, !s.quoted⟩ rest := by
  cases n with
  | zero =>
      rw [Nat.mul_zero, List.replicate_zero, List.nil_append, scan_quote, List.append_nil]
  | succ n =>
      obtain ⟨htake, hdrop⟩ := run_parts (n := 2 * n + 1) (quote_head (t := rest))
      have hhalf : (2 * n + 1 + 1) / 2 = n + 1 := by omega
      have heven : (2 * n + 1 + 1) % 2 ≠ 1 := by omega
      rw [show 2 * (n + 1) = 2 * n + 1 + 1 by omega, List.replicate_succ, List.cons_append, scan,
        if_pos rfl]
      simp only [htake, hdrop, List.length_replicate, hhalf, List.head?_cons, if_true,
        if_neg heven, List.tail_cons]

theorem scan_odd : scan s (List.replicate (2 * n + 1) backslash ++ quote :: rest) =
    scan ⟨s.words, s.word ++ List.replicate n backslash ++ [quote], true, s.quoted⟩ rest := by
  obtain ⟨htake, hdrop⟩ := run_parts (n := 2 * n) (quote_head (t := rest))
  have hhalf : (2 * n + 1) / 2 = n := by omega
  have hodd : (2 * n + 1) % 2 = 1 := by omega
  rw [List.replicate_succ, List.cons_append, scan, if_pos rfl]
  simp only [htake, hdrop, List.length_replicate, hhalf, List.head?_cons, if_true, if_pos hodd,
    List.tail_cons]

/-- Backslashes elsewhere are literal. -/
theorem scan_literal (hbackslash : rest.head? ≠ some backslash)
    (hquote : rest.head? ≠ some quote) :
    scan s (List.replicate n backslash ++ rest) =
      scan ⟨s.words, s.word ++ List.replicate n backslash, s.started || n != 0, s.quoted⟩ rest := by
  cases n with
  | zero => simp
  | succ n =>
      obtain ⟨htake, hdrop⟩ := run_parts (n := n) hbackslash
      rw [List.replicate_succ, List.cons_append, scan, if_pos rfl]
      simp [htake, hdrop, hquote, List.replicate_succ]

/-! ## Words -/

theorem replicate_cons (n : Nat) (c : UInt16) (t : Utf16) :
    List.replicate n c ++ c :: t = List.replicate (n + 1) c ++ t := by
  rw [List.replicate_succ', List.append_assoc]
  rfl

/-- What is between the quotes is read back, and the closing quote closes. -/
theorem scan_escape (hquoted : s.quoted = true) (hstarted : s.started = true) :
    scan s (escape n w ++ quote :: rest) =
      scan ⟨s.words, s.word ++ List.replicate n backslash ++ w, true, false⟩ rest := by
  induction w generalizing n s with
  | nil =>
      rw [escape, scan_even, hquoted]
      simp
  | cons c w ih =>
      rw [escape]
      split
      next hc =>
        rw [ih hquoted hstarted, hc, List.append_assoc, ← replicate_cons, List.append_assoc]
      next hbackslash =>
        split
        next hc =>
          rw [List.append_assoc, List.cons_append, scan_odd,
            ih (s := ⟨_, _, true, s.quoted⟩) hquoted rfl, hc]
          simp
        next hquote =>
          have hhead {x : Utf16} : (c :: x).head? ≠ some backslash := fun h =>
            hbackslash (Option.some.inj h)
          have hhead' {x : Utf16} : (c :: x).head? ≠ some quote := fun h =>
            hquote (Option.some.inj h)
          rw [List.append_assoc, List.cons_append, scan_literal hhead hhead',
            scan_char hbackslash hquote (fun _ => hquoted),
            ih (s := ⟨_, _, true, s.quoted⟩) hquoted rfl]
          simp

theorem scan_bare (hbare : Bare w) (hquoted : s.quoted = false)
    (hbackslash : rest.head? ≠ some backslash) (hquote : rest.head? ≠ some quote) :
    scan s (List.replicate n backslash ++ (w ++ rest)) =
      scan ⟨s.words, s.word ++ List.replicate n backslash ++ w,
        s.started || n != 0 || !w.isEmpty, s.quoted⟩ rest := by
  induction w generalizing n s with
  | nil =>
      rw [List.nil_append, scan_literal hbackslash hquote]
      simp
  | cons c w ih =>
      obtain ⟨⟨hc, hblank⟩, hrest⟩ := List.forall_mem_cons.mp hbare
      by_cases hb : c = backslash
      · rw [hb, List.cons_append, replicate_cons, ih hrest hquoted, List.append_assoc,
          ← replicate_cons, List.append_assoc]
        simp
      · have hhead {x : Utf16} : (c :: x).head? ≠ some backslash := fun h => hb (Option.some.inj h)
        have hhead' {x : Utf16} : (c :: x).head? ≠ some quote := fun h => hc (Option.some.inj h)
        rw [List.cons_append, scan_literal hhead hhead',
          scan_char hb hc (fun h => absurd h (by rw [hblank]; exact Bool.false_ne_true))]
        have hnext := ih (s := ⟨s.words, s.word ++ List.replicate n backslash ++ [c], true, s.quoted⟩)
          (n := 0) hrest hquoted
        rw [List.replicate_zero, List.nil_append] at hnext
        rw [hnext]
        simp

/-- What begins no word and ends none: the end of the line, or a blank. -/
def Ends (rest : Utf16) : Prop := ∀ c, rest.head? = some c → isBlank c = true

theorem Ends.nil : Ends [] := fun _ hc => absurd hc.symm (Option.some_ne_none _)

theorem Ends.head_ne (hrest : Ends rest) (hc : isBlank c = false) : rest.head? ≠ some c := by
  intro h
  rw [hrest c h] at hc
  cases hc

/-- A written word is read as the word. -/
theorem scan_written (h : Written w t) (hrest : Ends rest) :
    scan ⟨words, [], false, false⟩ (t ++ rest) = scan ⟨words, w, true, false⟩ rest := by
  have hbackslash : rest.head? ≠ some backslash := hrest.head_ne (by decide)
  have hquote : rest.head? ≠ some quote := hrest.head_ne (by decide)
  cases h with
  | quoted =>
      rw [quoteWord, List.cons_append, List.append_assoc, scan_quote, List.singleton_append,
        scan_escape rfl rfl]
      simp
  | bare hne hbare =>
      have hread := scan_bare (s := ⟨words, [], false, false⟩) (n := 0) hbare rfl hbackslash hquote
      rw [List.replicate_zero, List.nil_append] at hread
      have hbeq : w.isEmpty = false := by simpa using hne
      rw [hread]
      simp [hbeq]

theorem scan_blanks {sep : Utf16} (hsep : ∀ c ∈ sep, isBlank c = true) :
    scan ⟨words, [], false, false⟩ (sep ++ rest) = scan ⟨words, [], false, false⟩ rest := by
  induction sep with
  | nil => rfl
  | cons c sep ih =>
      obtain ⟨hc, hsep⟩ := List.forall_mem_cons.mp hsep
      rw [List.cons_append, scan_blank hc rfl]
      exact ih hsep

/-- Behind a word the blanks put it away. -/
theorem scan_separator {sep : Utf16} (hne : sep ≠ [])
    (hsep : ∀ c ∈ sep, isBlank c = true) :
    scan ⟨words, w, true, false⟩ (sep ++ rest) = scan ⟨words ++ [w], [], false, false⟩ rest := by
  cases sep with
  | nil => exact absurd rfl hne
  | cons c sep =>
      obtain ⟨hc, hsep⟩ := List.forall_mem_cons.mp hsep
      rw [List.cons_append, scan_blank hc rfl]
      exact scan_blanks hsep

/-- The words are read behind any words that are there. -/
theorem finish_joined (h : Joined ws line) :
    (scan ⟨words, [], false, false⟩ line).finish = words ++ ws := by
  induction h generalizing words with
  | nil => simp [scan, Split.finish]
  | @single w t hw =>
      rw [← List.append_nil t, scan_written hw Ends.nil, scan]
      rfl
  | @cons w v t sep line ws hw hne hsep _ ih =>
      have hends : Ends (sep ++ line) := by
        intro c hc
        rw [List.head?_append_of_ne_nil _ hne] at hc
        exact hsep c (List.mem_of_head? hc)
      rw [List.append_assoc, scan_written hw hends, scan_separator hne hsep, ih,
        List.append_assoc]
      rfl

/-- Every way to write the words is undone. -/
theorem splitWindowsCommandLine_joined (h : Joined ws line) : splitWindowsCommandLine line = ws :=
  finish_joined h

/-- An empty word, one with a quote behind a backslash and backslashes at its end, and one
without quotes. -/
theorem splitWindowsCommandLine_joined_mixed :
    splitWindowsCommandLine (ofString "\"\" \t\"a \\\\\\\"b\\\\\" C:\\d\\") =
      [ofString "", ofString "a \\\"b\\", ofString "C:\\d\\"] :=
  splitWindowsCommandLine_joined (@Joined.cons _ _ _ [32, 9] _ _ (.quoted _) (by decide)
    (by simp [isBlank])
    (@Joined.cons _ _ _ [32] _ _ (.quoted _) (by decide) (by simp [isBlank])
      (.single (.bare (by decide) (by decide)))))

end Acc.AdapterSdk.CommandLine
