import AgentsCanCommunicate.AdapterSdk.ShellWrites

/-!
# Commands on several lines

What two commands write, one on the line after the other, is what the first writes
and then what the second writes.  This is so when the reader finds no here-document
in the first that reaches to its end (`shellWriteTargets_newline`).

The pattern for here-documents also matches the last two characters of `<<<` with
the word behind it, and a shift.  What the reader then takes for the body are the
commands that follow.
-/

namespace Acc.AdapterSdk.ShellLines

open Library Text ShellWrites

variable {t u x r w c : Text} {o : Opener} {starts : Bool}

/-- No quotes and no backslashes. -/
def Plain (command : Text) : Prop := ∀ d ∈ command, d ≠ '\\' ∧ d ≠ '\'' ∧ d ≠ '"'

instance (command : Text) : Decidable (Plain command) := List.decidableBAll _ command

/-! ## Openers -/

theorem findOpener_of_notMem (h : '<' ∉ t) : findOpener t = none := by
  induction t with
  | nil => rfl
  | cons d t ih =>
      rw [List.mem_cons, not_or] at h
      have hnone : matchOpener (d :: t) = none := by
        unfold matchOpener
        split
        next heq =>
          cases heq
          exact absurd rfl h.1
        next => rfl
      rw [findOpener, hnone, ih h.2]
      rfl

theorem matchOpener_of_dangling (h : dangling t = true) : matchOpener t = none := by
  unfold dangling at h
  split at h
  next t =>
    rw [matchOpener_cons_cons, dropWhile_eq_nil_iff.mpr h]
    rfl
  next => cases h

/-- Behind a dangling match there is no match. -/
theorem findOpener_of_dangling {d : Char} (h : dangling (d :: t) = true) : findOpener t = none := by
  unfold dangling at h
  split at h
  next t' heq =>
    cases heq
    have hnotMem : '<' ∉ t' := by
      intro hmem
      have hspaces := List.all_eq_true.mp h
      unfold dropDash at hspaces
      split at hspaces
      next hdash =>
        rw [List.eq_cons_of_mem_head? hdash] at hmem
        rcases List.mem_cons.mp hmem with heq | htail
        · cases heq
        · cases hspaces _ htail
      next => cases hspaces _ hmem
    have hnone : matchOpener ('<' :: t') = none := by
      unfold matchOpener
      split
      next heq =>
        cases heq
        exact absurd (List.mem_cons_self ..) hnotMem
      next => rfl
    rw [findOpener, hnone, findOpener_of_notMem hnotMem]
    rfl
  next => cases h

/-- A match stays where it is when lines are added. -/
theorem findOpener_newline (h : findOpener c = some o) (x : Text) :
    findOpener (c ++ '\n' :: x) = some { o with suffix := o.suffix ++ '\n' :: x } := by
  induction c generalizing o with
  | nil => cases h
  | cons d t ih =>
      rw [findOpener] at h
      have hdangling : dangling (d :: t) = false := by
        refine Bool.of_not_eq_true fun htrue => ?_
        rw [matchOpener_of_dangling htrue, findOpener_of_dangling htrue] at h
        cases h
      rw [List.cons_append, findOpener, ← List.cons_append,
        matchOpener_newline (List.cons_ne_nil d t) hdangling]
      cases hmatch : matchOpener (d :: t) with
      | some m =>
          rw [hmatch] at h
          cases h
          rfl
      | none =>
          rw [hmatch] at h
          obtain ⟨o', ho', rfl⟩ := Option.map_eq_some_iff.mp h
          simp only [Option.map_none, ih ho', Option.map_some]

def shift (p : Text) (o : Opener) : Opener := { o with before := p ++ o.before }

/-- Lines without a match are passed over. -/
theorem findOpener_pass (hnone : findOpener c = none) (hdangling : ∀ t, t <:+ c → dangling t = false)
    (x : Text) :
    findOpener (c ++ '\n' :: x) = (findOpener x).map (shift (c ++ ['\n'])) := by
  induction c with
  | nil => rfl
  | cons d t ih =>
      rw [findOpener] at hnone
      split at hnone
      next => cases hnone
      next hmatch =>
        have hrest := ih (Option.map_eq_none_iff.mp hnone)
          fun u hu => hdangling u (hu.trans (List.suffix_cons d t))
        rw [List.cons_append, findOpener, ← List.cons_append,
          matchOpener_newline (List.cons_ne_nil d t) (hdangling _ (List.suffix_refl _)), hmatch, hrest,
          Option.map_none, Option.map_map]
        rfl

/-- A dangling match takes the next word. -/
theorem findOpener_dangling (hnone : findOpener c = none) (ht : t <:+ c) (hdangling : dangling t = true)
    {m : Text × Text} (hm : matchQuotable (x.dropWhile isSpace) = some m) :
    ∃ before rest, before ++ rest = c ∧ dangling rest = true ∧
      findOpener (c ++ '\n' :: x) = some ⟨before, rest ++ '\n' :: x, m.1⟩ := by
  induction c with
  | nil =>
      rw [List.suffix_nil.mp ht] at hdangling
      cases hdangling
  | cons d c ih =>
      rw [findOpener] at hnone
      split at hnone
      next => cases hnone
      next hmatch =>
        cases hhere : dangling (d :: c) with
        | true =>
            refine ⟨[], d :: c, rfl, hhere, ?_⟩
            rw [List.cons_append, findOpener, ← List.cons_append, matchOpener_dangling hhere, hm]
        | false =>
            have hsuffix : t <:+ c := by
              rcases List.suffix_cons_iff.mp ht with rfl | hsuffix
              · rw [hhere] at hdangling
                cases hdangling
              · exact hsuffix
            obtain ⟨before, rest, rfl, hrest, hfind⟩ := ih (Option.map_eq_none_iff.mp hnone) hsuffix
            refine ⟨d :: before, rest, rfl, hrest, ?_⟩
            rw [List.cons_append, findOpener, ← List.cons_append,
              matchOpener_newline (List.cons_ne_nil _ _) hhere, hmatch, hfind]
            rfl

/-! ## Terminators -/

/-- What a here-document may be ended by. -/
def IsWord (w : Text) : Prop := w ≠ [] ∧ ∀ d ∈ w, isWordChar d = true

theorem isSpace_of_isWordChar {d : Char} (h : isWordChar d = true) : isSpace d = false := by
  refine Bool.of_not_eq_true fun hspace => ?_
  have hlow : d.toNat ≤ 122 ∧ 48 ≤ d.toNat := by
    simp only [isWordChar, Char.isAlphanum, Char.isAlpha, Char.isUpper, Char.isLower, Char.isDigit,
      Bool.or_eq_true, Bool.and_eq_true, decide_eq_true_eq, UInt32.le_iff_toNat_le, ge_iff_le] at h
    change (((65 ≤ d.toNat ∧ d.toNat ≤ 90) ∨ (97 ≤ d.toNat ∧ d.toNat ≤ 122)) ∨
      (48 ≤ d.toNat ∧ d.toNat ≤ 57)) ∨ d = '_' at h
    rcases h with ((h | h) | h) | rfl
    · omega
    · omega
    · omega
    · decide
  have hspaces : ∀ e : Char, d = e → e.toNat < 48 ∨ 122 < e.toNat → False := by
    rintro _ rfl hrange
    omega
  simp only [isSpace, isLineTerminator, Bool.or_eq_true, Bool.and_eq_true, decide_eq_true_eq] at hspace
  rcases hspace with (((((((((((((heq | heq) | heq) | heq) | heq) | heq) | heq) | heq) | heq) | heq) |
    heq) | heq) | heq) | heq) | heq
  all_goals first
    | exact hspaces _ heq (by decide)
    | skip
  have hwide : '\u2000'.toNat ≤ d.toNat := heq.1
  have htwo : '\u2000'.toNat = 8192 := by decide
  omega

theorem newline_notMem (hw : IsWord w) : '\n' ∉ w := fun h => by cases hw.2 _ h

theorem blankEnd_none_append (h : blankEnd t = none) (x : Text) : blankEnd (t ++ x) = none := by
  induction t with
  | nil => cases h
  | cons d t ih =>
      rw [blankEnd] at h
      rw [List.cons_append, blankEnd]
      split
      next hspace =>
        rw [if_pos hspace, Option.or_eq_none_iff] at h
        rw [ih h.1, Option.none_or]
        refine (if_neg fun hbreak => ?_)
        rw [if_pos hbreak] at h
        cases h.2
      next => rfl

theorem blankEnd_append (h : blankEnd t = some r) (hr : r ≠ []) (x : Text) :
    blankEnd (t ++ x) = some (r ++ x) := by
  induction t with
  | nil =>
      cases h
      exact absurd rfl hr
  | cons d t ih =>
      rw [blankEnd] at h
      rw [List.cons_append, blankEnd]
      split
      next hspace =>
        rw [if_pos hspace] at h
        cases hrest : blankEnd t with
        | some r' =>
            rw [hrest, Option.some_or] at h
            cases h
            rw [ih hrest, Option.some_or]
        | none =>
            rw [hrest, Option.none_or] at h
            rw [blankEnd_none_append hrest, Option.none_or]
            split
            next hbreak =>
              rw [if_pos hbreak] at h
              cases h
              rfl
            next hbreak =>
              rw [if_neg hbreak] at h
              cases h
      next hspace =>
        rw [if_neg hspace] at h
        cases h

/-- At the end of a text the blank lines go on behind it. -/
theorem blankEnd_append_nil (h : blankEnd t = some []) (hx : blankEnd x = some r) :
    blankEnd (t ++ x) = some r := by
  induction t with
  | nil => exact hx
  | cons d t ih =>
      rw [blankEnd] at h
      rw [List.cons_append, blankEnd]
      split
      next hspace =>
        rw [if_pos hspace] at h
        cases hrest : blankEnd t with
        | some r' =>
            rw [hrest, Option.some_or] at h
            cases h
            rw [ih hrest, Option.some_or]
        | none =>
            rw [hrest, Option.none_or] at h
            split at h <;> cases h
      next hspace =>
        rw [if_neg hspace] at h
        cases h

theorem isPrefixOf_newline (hw : IsWord w) (t x : Text) :
    w.isPrefixOf (t ++ '\n' :: x) = w.isPrefixOf t := by
  rw [Bool.eq_iff_iff, List.isPrefixOf_iff_prefix, List.isPrefixOf_iff_prefix]
  constructor
  · intro h
    rcases List.prefix_or_prefix_of_prefix h (List.prefix_append t _) with hwt | ⟨v, rfl⟩
    · exact hwt
    · have hv := (List.prefix_append_right_inj t).mp h
      cases v with
      | nil =>
          rw [List.append_nil]
      | cons d v =>
          obtain ⟨rfl, -⟩ := List.cons_prefix_cons.mp hv
          exact absurd (by simp) (newline_notMem hw)
  · exact fun h => h.trans (List.prefix_append t _)

/-- Up to its terminator, a body does not depend on what follows. -/
theorem matchTerminator_newline (hw : IsWord w) (ht : t.all isSpace = false) (x : Text) :
    matchTerminator w (t ++ '\n' :: x) =
      if w.isPrefixOf (t.dropWhile isSpace) then
        blankEnd ((t.dropWhile isSpace).drop w.length ++ '\n' :: x)
      else none := by
  rw [matchTerminator, dropWhile_append_of_not_all ht, isPrefixOf_newline hw]
  split
  next hpre =>
    rw [List.drop_append_of_le_length (List.isPrefixOf_iff_prefix.mp hpre).length_le]
  next => rfl

theorem matchTerminator_some (hw : IsWord w) (h : matchTerminator w t = some r) :
    t.all isSpace = false := by
  refine Bool.of_not_eq_true fun hall => ?_
  rw [matchTerminator, dropWhile_eq_nil_iff.mpr hall] at h
  cases hw' : w with
  | nil => exact hw.1 hw'
  | cons d w' =>
      rw [hw'] at h
      cases h

theorem afterTerminator_some (hw : IsWord w) (h : afterTerminator w starts t = some r) :
    t.all isSpace = false := by
  induction t generalizing starts with
  | nil => cases h
  | cons d t ih =>
      rw [afterTerminator] at h
      rcases Option.or_eq_some_iff.mp h with hhere | ⟨-, hlater⟩
      · split at hhere
        · exact matchTerminator_some hw hhere
        · cases hhere
      · rw [List.all_cons, ih hlater, Bool.and_false]

/-- The end of a body is found again with lines added, where `e` is what is left. -/
theorem afterTerminator_newline (hw : IsWord w) {e : Text}
    (hblank : ∀ t, blankEnd t = some r → blankEnd (t ++ '\n' :: x) = some e)
    (h : afterTerminator w starts t = some r) :
    afterTerminator w starts (t ++ '\n' :: x) = some e := by
  induction t generalizing starts with
  | nil => cases h
  | cons d t ih =>
      have hall : (d :: t).all isSpace = false := afterTerminator_some hw h
      rw [afterTerminator] at h
      rw [List.cons_append, afterTerminator, ← List.cons_append, matchTerminator_newline hw hall]
      rcases Option.or_eq_some_iff.mp h with hhere | ⟨hnone, hlater⟩
      · split at hhere
        next hstarts =>
          rw [matchTerminator] at hhere
          split at hhere
          next hpre => rw [if_pos hstarts, if_pos hpre, hblank _ hhere, Option.some_or]
          next => cases hhere
        next => cases hhere
      · rw [ih hlater]
        rw [Option.or_eq_some_iff]
        refine .inr ⟨?_, rfl⟩
        split
        next hstarts =>
          rw [if_pos hstarts, matchTerminator] at hnone
          split
          next hpre =>
            rw [if_pos hpre] at hnone
            exact blankEnd_none_append hnone _
          next => rfl
        next => rfl

/-- A body without an end has none in lines that do not end it. -/
theorem afterTerminator_none_newline (hw : IsWord w) (hx : ∀ b, afterTerminator w b ('\n' :: x) = none)
    (hx' : matchTerminator w x = none) (h : afterTerminator w starts t = none) :
    afterTerminator w starts (t ++ '\n' :: x) = none := by
  induction t generalizing starts with
  | nil => exact hx starts
  | cons d t ih =>
      rw [afterTerminator, Option.or_eq_none_iff] at h
      rw [List.cons_append, afterTerminator, ← List.cons_append, ih h.2, Option.or_none]
      split
      next hstarts =>
        rw [if_pos hstarts] at h
        cases hall : (d :: t).all isSpace with
        | true =>
            rw [matchTerminator, dropWhile_append_of_all hall, List.dropWhile_cons_of_pos (by decide)]
            exact hx'
        | false =>
            rw [matchTerminator_newline hw hall]
            split
            next hpre =>
              have hnone := h.1
              rw [matchTerminator, if_pos hpre] at hnone
              exact blankEnd_none_append hnone _
            next => rfl
      next => rfl

/-! ## What is left of the text -/

/-- Every here-document that the reader finds in a command ends in it, before a line
that is not blank. -/
inductive Closed : Text → Prop where
  | bare {c : Text} (hnone : findOpener c = none)
      (hdangling : ∀ t, t <:+ c → dangling t = false) : Closed c
  | body {c rest r : Text} {o : Opener} (hfind : findOpener c = some o)
      (hline : o.suffix.dropWhile (· ≠ '\n') = '\n' :: rest)
      (hend : afterTerminator o.word true rest = some r) (hr : r ≠ [])
      (hnext : Closed
        (o.before ++ removeOpeners (o.suffix.takeWhile (· ≠ '\n')) ++ '\n' :: r)) : Closed c

theorem isWord_of_findOpener (h : findOpener c = some o) : IsWord o.word := by
  obtain ⟨-, r, hr⟩ := findOpener_eq_some h
  exact (matchOpener_eq_some hr).2

theorem stripRound_body {rest : Text} (hfind : findOpener c = some o)
    (hline : o.suffix.dropWhile (· ≠ '\n') = '\n' :: rest) :
    stripRound c = .inr (o.before ++ removeOpeners (o.suffix.takeWhile (· ≠ '\n')) ++
      '\n' :: (afterTerminator o.word true rest).getD []) := by
  rw [stripRound, hfind]
  simp only [hline]

/-- The same round with lines added. -/
theorem stripRound_newline {rest : Text} (hfind : findOpener c = some o)
    (hline : o.suffix.dropWhile (· ≠ '\n') = '\n' :: rest) (x : Text) :
    stripRound (c ++ '\n' :: x) =
      .inr (o.before ++ removeOpeners (o.suffix.takeWhile (· ≠ '\n')) ++
        '\n' :: (afterTerminator o.word true (rest ++ '\n' :: x)).getD []) := by
  have hnewline : decide ('\n' ≠ '\n') = false := by decide
  have hdrop : (o.suffix ++ '\n' :: x).dropWhile (· ≠ '\n') = '\n' :: (rest ++ '\n' :: x) := by
    rw [dropWhile_append_cons hnewline, hline]
    rfl
  rw [stripRound_body (findOpener_newline hfind x) hdrop, takeWhile_append_cons hnewline]

theorem stripRound_shift {p : Text}
    (hfind : ∀ x, findOpener (p ++ x) = (findOpener x).map (shift p)) (x : Text) :
    stripRound (p ++ x) = (stripRound x).map (p ++ ·) (p ++ ·) := by
  unfold stripRound
  rw [hfind]
  cases findOpener x with
  | none => rfl
  | some o =>
      simp only [Option.map_some, shift]
      cases o.suffix.dropWhile (· ≠ '\n') with
      | nil => simp only [Sum.map_inl, List.append_assoc]
      | cons d rest => simp only [Sum.map_inr, List.append_assoc]

theorem stripHeredocs_shift {p : Text}
    (hfind : ∀ x, findOpener (p ++ x) = (findOpener x).map (shift p)) (x : Text) :
    stripHeredocs (p ++ x) = p ++ stripHeredocs x := by
  have hround := stripRound_shift hfind x
  cases hx : stripRound x with
  | inl result =>
      rw [hx] at hround
      rw [stripHeredocs_of_inl hround, stripHeredocs_of_inl hx]
  | inr next =>
      have hlt := stripRound_length hx
      rw [hx] at hround
      rw [stripHeredocs_of_inr hround, stripHeredocs_of_inr hx]
      exact stripHeredocs_shift hfind next
termination_by x.length

theorem Closed.stripHeredocs_newline (h : Closed c) (x : Text) :
    stripHeredocs (c ++ '\n' :: x) = stripHeredocs c ++ '\n' :: stripHeredocs x := by
  induction h with
  | @bare c hnone hdangling =>
      have hc : stripHeredocs c = c := stripHeredocs_of_inl (by rw [stripRound, hnone])
      have hpass : ∀ x, findOpener ((c ++ ['\n']) ++ x) =
          (findOpener x).map (shift (c ++ ['\n'])) := by
        intro x
        rw [List.append_assoc]
        exact findOpener_pass hnone hdangling x
      have hshift := stripHeredocs_shift hpass x
      rw [List.append_assoc, List.append_assoc] at hshift
      rw [hc]
      exact hshift
  | @body c rest r o hfind hline hend hr hnext ih =>
      have hround := stripRound_body hfind hline
      have hmore := stripRound_newline hfind hline x
      have hagain : afterTerminator o.word true (rest ++ '\n' :: x) = some (r ++ '\n' :: x) :=
        afterTerminator_newline (isWord_of_findOpener hfind) (fun t ht => blankEnd_append ht hr _)
          hend
      rw [hend, Option.getD_some] at hround
      rw [hagain, Option.getD_some, ← List.cons_append, ← List.append_assoc] at hmore
      rw [stripHeredocs_of_inr hmore, stripHeredocs_of_inr hround, ih]

/-! ## What is left open -/

def blankLine (n : ℕ) : Text := "\r/rm ".toList ++ List.replicate (n + 1) 'a'

/-- The first word of the line is not a command. -/
def wideLine (n : ℕ) : Text := "\x0b ".toList ++ blankLine n

theorem afterTerminator_of_oneLine (h : ∀ d ∈ t, isLineTerminator d = false) :
    afterTerminator w false t = none := by
  induction t with
  | nil => rfl
  | cons d t ih =>
      rw [List.forall_mem_cons] at h
      rw [afterTerminator, h.1, ih h.2]
      rfl

section

variable {n : ℕ}

def rmLine (n : ℕ) : Text := "rm ".toList ++ List.replicate (n + 1) 'a'

theorem blankEnd_replicate : blankEnd (List.replicate (n + 1) 'a') = none := rfl

theorem matchTerminator_rmLine (hw : IsWord w) : matchTerminator w (rmLine n) = none := by
  have hdrop : (rmLine n).dropWhile isSpace = 'r' :: 'm' :: ' ' :: List.replicate (n + 1) 'a' := rfl
  rw [matchTerminator, hdrop]
  split
  next hpre =>
    rw [List.isPrefixOf_iff_prefix] at hpre
    rcases w with _ | ⟨d, _ | ⟨e, _ | ⟨f, w⟩⟩⟩
    · exact absurd rfl hw.1
    · rfl
    · change blankEnd (' ' :: List.replicate (n + 1) 'a') = none
      rw [blankEnd, blankEnd_replicate]
      rfl
    · simp only [List.cons_prefix_cons] at hpre
      have hspace := hw.2 f (by simp)
      rw [hpre.2.2.1] at hspace
      cases hspace
  next => rfl

theorem afterTerminator_rmLine (hw : IsWord w) (k : ℕ) :
    afterTerminator w starts (List.replicate k '\n' ++ rmLine n) = none := by
  induction k generalizing starts with
  | zero =>
      have hline : ∀ d ∈ 'm' :: ' ' :: List.replicate (n + 1) 'a', isLineTerminator d = false := by
        intro d hd
        simp only [List.mem_cons, List.mem_replicate] at hd
        rcases hd with rfl | rfl | ⟨-, rfl⟩ <;> rfl
      have hr : isLineTerminator 'r' = false := rfl
      change afterTerminator w starts ('r' :: 'm' :: ' ' :: List.replicate (n + 1) 'a') = none
      rw [afterTerminator, hr, afterTerminator_of_oneLine hline, Option.or_none]
      split
      · exact matchTerminator_rmLine hw
      · rfl
  | succ k ih =>
      rw [List.replicate_succ, List.cons_append, afterTerminator, ih, Option.or_none]
      split
      next =>
        have hblank : ('\n' :: (List.replicate k '\n' ++ rmLine n)).dropWhile isSpace =
            (rmLine n).dropWhile isSpace := by
          rw [← List.cons_append, ← List.replicate_succ]
          refine dropWhile_append_of_all (List.all_eq_true.mpr fun d hd => ?_) _
          rw [List.eq_of_mem_replicate hd]
          rfl
        have hnone := matchTerminator_rmLine hw (n := n)
        rw [matchTerminator] at hnone ⊢
        rw [hblank]
        exact hnone
      next => rfl

theorem matchTerminator_rmLine_blank (hw : IsWord w) (k : ℕ) :
    matchTerminator w (List.replicate k '\n' ++ rmLine n) = none := by
  have hnone := matchTerminator_rmLine hw (n := n)
  rw [matchTerminator] at hnone ⊢
  rw [dropWhile_append_of_all]
  · exact hnone
  · refine List.all_eq_true.mpr fun d hd => ?_
    rw [List.eq_of_mem_replicate hd]
    rfl

theorem blankEnd_rmLine (k : ℕ) :
    blankEnd ('\n' :: (List.replicate k '\n' ++ rmLine n)) = some ('\n' :: rmLine n) := by
  induction k with
  | zero => rfl
  | succ k ih =>
      rw [List.replicate_succ, List.cons_append, blankEnd, ih]
      rfl

theorem blankEnd_blankLine {x : Text} (hx : x ∈ [blankLine n, wideLine n]) :
    blankEnd ('\n' :: x) = some (blankLine n) := by
  simp only [List.mem_cons, List.not_mem_nil, or_false] at hx
  rcases hx with rfl | rfl <;> rfl

/-- Every line behind the command goes. -/
def Open (c : Text) : Prop :=
  ∀ k n, (stripHeredocs (c ++ '\n' :: (List.replicate k '\n' ++ rmLine n))).length ≤ c.length + 1

/-- Of the line behind the command the first blanks go. -/
def Ends (c : Text) : Prop := ∀ n, ∀ x ∈ [blankLine n, wideLine n],
  ∃ s, s.Sublist c ∧ stripHeredocs (c ++ '\n' :: x) = s ++ '\n' :: blankLine n

theorem stripHeredocs_of_unended {rest : Text} (hfind : findOpener c = some o)
    (hline : o.suffix.dropWhile (· ≠ '\n') = '\n' :: rest)
    (hend : afterTerminator o.word true rest = none) :
    (stripHeredocs c).length ≤
      o.before.length + (o.suffix.takeWhile (· ≠ '\n')).length + 1 := by
  have hround := stripRound_body hfind hline
  rw [hend, Option.getD_none] at hround
  rw [stripHeredocs_of_inr hround]
  have hle := (stripHeredocs_sublist (o.before ++ removeOpeners
    (o.suffix.takeWhile (· ≠ '\n')) ++ ['\n'])).length_le
  have hsub : (removeOpeners (o.suffix.takeWhile (· ≠ '\n'))).length ≤ _ :=
    (removeOpeners_sublist _).length_le
  rw [List.length_append, List.length_append, List.length_singleton] at hle
  omega

/-- A here-document that is not ended in its own lines takes all that follows. -/
theorem stripHeredocs_open {before rest : Text} {k : ℕ} (hw : IsWord w)
    (hfind : findOpener (before ++ rest ++ '\n' :: (List.replicate k '\n' ++ rmLine n)) =
      some ⟨before, rest ++ '\n' :: (List.replicate k '\n' ++ rmLine n), w⟩)
    (hend : ∀ body, rest.dropWhile (· ≠ '\n') = '\n' :: body → afterTerminator w true body = none) :
    (stripHeredocs (before ++ rest ++ '\n' :: (List.replicate k '\n' ++ rmLine n))).length ≤
      (before ++ rest).length + 1 := by
  have hnewline : decide ('\n' ≠ '\n') = false := by decide
  have hlength : (rest.takeWhile (· ≠ '\n')).length ≤ rest.length :=
    (List.takeWhile_sublist _).length_le
  have hdrop : (rest ++ '\n' :: (List.replicate k '\n' ++ rmLine n)).dropWhile (· ≠ '\n') =
      rest.dropWhile (· ≠ '\n') ++ '\n' :: (List.replicate k '\n' ++ rmLine n) :=
    dropWhile_append_cons hnewline rest _
  have hle : (stripHeredocs (before ++ rest ++ '\n' :: (List.replicate k '\n' ++ rmLine n))).length ≤
      before.length + ((rest ++ '\n' :: (List.replicate k '\n' ++ rmLine n)).takeWhile
        (· ≠ '\n')).length + 1 := by
    cases hbody : rest.dropWhile (· ≠ '\n') with
    | nil =>
        rw [hbody] at hdrop
        exact stripHeredocs_of_unended hfind hdrop (afterTerminator_rmLine hw k)
    | cons d body =>
        have hd : d = '\n' := by
          have hhead := List.head?_dropWhile_not (fun c => decide (c ≠ '\n')) rest
          rw [hbody] at hhead
          simpa using hhead
        rw [hd] at hbody
        rw [hbody] at hdrop
        refine stripHeredocs_of_unended hfind hdrop ?_
        refine afterTerminator_none_newline hw (fun b => ?_) (matchTerminator_rmLine_blank hw k)
          (hend body hbody)
        exact afterTerminator_rmLine hw (k + 1)
  rw [takeWhile_append_cons hnewline] at hle
  rw [List.length_append]
  omega

theorem blank_of_dangling (h : dangling t = true) (hsuffix : '\n' :: u <:+ t) :
    u.all isSpace = true := by
  unfold dangling at h
  split at h
  next t =>
    have hne : '\n' ≠ '<' := by decide
    have hrest : '\n' :: u <:+ t := by
      rcases List.suffix_cons_iff.mp hsuffix with heq | hsuffix
      · exact absurd (List.cons.inj heq).1 hne
      · rcases List.suffix_cons_iff.mp hsuffix with heq | hsuffix
        · exact absurd (List.cons.inj heq).1 hne
        · exact hsuffix
    have hdash : '\n' :: u <:+ dropDash t := by
      unfold dropDash
      split
      next hdash =>
        rw [List.eq_cons_of_mem_head? hdash] at hrest
        rcases List.suffix_cons_iff.mp hrest with heq | hsuffix
        · exact absurd (List.cons.inj heq).1 (by decide)
        · exact hsuffix
      next => exact hrest
    refine List.all_eq_true.mpr fun d hd => List.all_eq_true.mp h d ?_
    exact hdash.subset (List.mem_cons_of_mem _ hd)
  next => cases h

theorem open_of_dangling (hnone : findOpener c = none) (ht : t <:+ c) (hdangling : dangling t = true) :
    Open c := by
  intro k n
  have hw : IsWord ['r', 'm'] := by
    refine ⟨List.cons_ne_nil _ _, fun d hd => ?_⟩
    simp only [List.mem_cons, List.not_mem_nil, or_false] at hd
    rcases hd with rfl | rfl <;> rfl
  have hword : matchQuotable ((List.replicate k '\n' ++ rmLine n).dropWhile isSpace) =
      some (['r', 'm'], ' ' :: List.replicate (n + 1) 'a') := by
    have hdrop : (rmLine n).dropWhile isSpace = 'r' :: 'm' :: ' ' :: List.replicate (n + 1) 'a' :=
      rfl
    rw [dropWhile_append_of_all, hdrop]
    · generalize List.replicate (n + 1) 'a' = name
      rfl
    · refine List.all_eq_true.mpr fun d hd => ?_
      rw [List.eq_of_mem_replicate hd]
      rfl
  obtain ⟨before, rest, rfl, hrest, hfind⟩ := findOpener_dangling hnone ht hdangling hword
  refine stripHeredocs_open hw hfind fun body hbody => ?_
  have hblank : body.all isSpace = true :=
    blank_of_dangling hrest (hbody ▸ List.dropWhile_suffix _)
  rw [Option.eq_none_iff_forall_ne_some]
  intro r hr
  rw [afterTerminator_some hw hr] at hblank
  cases hblank

theorem open_of_unended (hfind : findOpener c = some o)
    (hend : ∀ body, o.suffix.dropWhile (· ≠ '\n') = '\n' :: body →
      afterTerminator o.word true body = none) : Open c := by
  intro k n
  have hmore := findOpener_newline hfind (List.replicate k '\n' ++ rmLine n)
  rw [(findOpener_eq_some hfind).1] at hmore ⊢
  exact stripHeredocs_open (isWord_of_findOpener hfind) hmore hend

/-- The first here-document ends in the last lines that are not blank. -/
theorem stripHeredocs_ended {rest : Text} (hfind : findOpener c = some o)
    (hline : o.suffix.dropWhile (· ≠ '\n') = '\n' :: rest)
    (hend : afterTerminator o.word true rest = some []) {e : Text} (hx : blankEnd ('\n' :: x) = some e) :
    stripHeredocs (c ++ '\n' :: x) =
      stripHeredocs (o.before ++ removeOpeners (o.suffix.takeWhile (· ≠ '\n')) ++ '\n' :: e) := by
  have hagain : afterTerminator o.word true (rest ++ '\n' :: x) = some e :=
    afterTerminator_newline (isWord_of_findOpener hfind) (fun t ht => blankEnd_append_nil ht hx) hend
  have hround := stripRound_newline hfind hline x
  rw [hagain, Option.getD_some] at hround
  exact stripHeredocs_of_inr hround

theorem stripHeredocs_of_notMem (h : '<' ∉ t) : stripHeredocs t = t :=
  stripHeredocs_of_inl (by rw [stripRound, findOpener_of_notMem h])

theorem blankLine_notMem : '<' ∉ blankLine n := by
  simp [blankLine]

theorem closed_or_open (c : Text) : Closed c ∨ Open c ∨ Ends c := by
  induction hn : c.length using Nat.strong_induction_on generalizing c with
  | _ N ih =>
  cases hfind : findOpener c with
  | none =>
      by_cases hdangling : ∀ t, t <:+ c → dangling t = false
      · exact .inl (.bare hfind hdangling)
      · obtain ⟨t, hdangling⟩ := not_forall.mp hdangling
        obtain ⟨ht, htrue⟩ := Classical.not_imp.mp hdangling
        exact .inr (.inl (open_of_dangling hfind ht (Bool.of_not_eq_false htrue)))
  | some o =>
      cases hline : o.suffix.dropWhile (· ≠ '\n') with
      | nil =>
          refine .inr (.inl (open_of_unended hfind fun body hbody => ?_))
          cases hline.symm.trans hbody
      | cons d rest =>
          have hsplit := split_at_newline hline
          have hd : d = '\n' := by
            have hhead := List.head?_dropWhile_not (fun c => decide (c ≠ '\n')) o.suffix
            rw [hline] at hhead
            simpa using hhead
          subst hd
          have hc : c = o.before ++ (o.suffix.takeWhile (· ≠ '\n') ++ '\n' :: rest) :=
            hsplit ▸ (findOpener_eq_some hfind).1
          have hlines : (o.before ++ removeOpeners (o.suffix.takeWhile (· ≠ '\n'))).Sublist
              (o.before ++ o.suffix.takeWhile (· ≠ '\n')) :=
            (List.Sublist.refl _).append (removeOpeners_sublist _)
          cases hend : afterTerminator o.word true rest with
          | none =>
              refine .inr (.inl (open_of_unended hfind fun body hbody => ?_))
              obtain rfl : rest = body := (List.cons.inj (hline.symm.trans hbody)).2
              exact hend
          | some r =>
              by_cases hr : r = []
              · subst hr
                have hlt : (o.before ++ removeOpeners (o.suffix.takeWhile (· ≠ '\n'))).length < N := by
                  have hle := hlines.length_le
                  have hlength := congrArg List.length hc
                  simp only [List.length_append, List.length_cons] at hlength hle ⊢
                  omega
                have hsub : (o.before ++ removeOpeners (o.suffix.takeWhile (· ≠ '\n'))).Sublist c := by
                  rw [hc, ← List.append_assoc]
                  exact hlines.trans (List.sublist_append_left _ _)
                rcases ih _ hlt _ rfl with hclosed | hopen | hends
                · refine .inr (.inr fun n x hx => ⟨_, (stripHeredocs_sublist _).trans hsub, ?_⟩)
                  rw [stripHeredocs_ended hfind hline hend (blankEnd_blankLine hx),
                    hclosed.stripHeredocs_newline, stripHeredocs_of_notMem blankLine_notMem]
                · refine .inr (.inl fun k n => ?_)
                  rw [stripHeredocs_ended hfind hline hend (blankEnd_rmLine k)]
                  exact (hopen 1 n).trans (by omega)
                · refine .inr (.inr fun n x hx => ?_)
                  obtain ⟨s, hs, hstrip⟩ := hends n (blankLine n) (List.mem_cons_self ..)
                  refine ⟨s, hs.trans hsub, ?_⟩
                  rw [stripHeredocs_ended hfind hline hend (blankEnd_blankLine hx)]
                  exact hstrip
              · have hround := stripRound_body hfind hline
                rw [hend, Option.getD_some] at hround
                have hlt := stripRound_length hround
                have hmore : ∀ x, stripHeredocs (c ++ '\n' :: x) = stripHeredocs
                    (o.before ++ removeOpeners (o.suffix.takeWhile (· ≠ '\n')) ++ '\n' :: r ++
                      '\n' :: x) := by
                  intro x
                  have hagain : afterTerminator o.word true (rest ++ '\n' :: x) = some (r ++ '\n' :: x) :=
                    afterTerminator_newline (isWord_of_findOpener hfind)
                      (fun t ht => blankEnd_append ht hr _) hend
                  have hnext := stripRound_newline hfind hline x
                  rw [hagain, Option.getD_some, ← List.cons_append, ← List.append_assoc] at hnext
                  exact stripHeredocs_of_inr hnext
                have hsub : (o.before ++ removeOpeners (o.suffix.takeWhile (· ≠ '\n')) ++
                    '\n' :: r).Sublist c := by
                  rw [hc, ← List.append_assoc]
                  exact hlines.append ((afterTerminator_suffix hend).1.sublist.cons_cons _)
                rcases ih _ (hn ▸ hlt) _ rfl with hclosed | hopen | hends
                · exact .inl (.body hfind hline hend hr hclosed)
                · refine .inr (.inl fun k n => ?_)
                  rw [hmore]
                  exact (hopen k n).trans (by omega)
                · refine .inr (.inr fun n x hx => ?_)
                  obtain ⟨s, hs, hstrip⟩ := hends n x hx
                  exact ⟨s, hs.trans hsub, (hmore x).trans hstrip⟩

end

/-! ## Tokens of the lines -/

theorem plain_append : Plain (t ++ u) ↔ Plain t ∧ Plain u := List.forall_mem_append

theorem Plain.sublist (hu : Plain u) (h : t.Sublist u) : Plain t := fun d hd => hu d (h.subset hd)

/-- Without quotes and backslashes nothing stays open. -/
theorem Plain.tokenize (h : Plain t) : ∃ tokens, ShellWrites.tokenize t = some tokens := by
  have hread : ∀ (t : Text) (r : Reader), Plain t → (∃ tokens, r.finish = some tokens) →
      ∃ tokens, (t.foldl Reader.step r).finish = some tokens := by
    intro t
    induction t with
    | nil => exact fun r _ hr => hr
    | cons d t ih =>
        intro r ht hr
        refine ih (r.step d) (fun e he => ht e (List.mem_cons_of_mem d he)) ?_
        obtain ⟨hbackslash, hsingle, hdouble⟩ := ht d (List.mem_cons_self ..)
        have hone : ∀ r : Reader, r.mode = .plain → ∃ tokens, (r.read d).finish = some tokens := by
          intro r hmode
          unfold Reader.read
          rw [if_neg hbackslash, if_neg (not_or.mpr ⟨hsingle, hdouble⟩)]
          split_ifs
          · exact ⟨_, by rw [Reader.finish, Reader.flush, hmode]⟩
          · exact ⟨_, rfl⟩
          · exact ⟨_, rfl⟩
          · exact ⟨_, rfl⟩
          · exact ⟨_, by rw [Reader.finish, hmode]⟩
        unfold Reader.step
        split
        next hmode => exact hone r hmode
        next hmode =>
          rw [Reader.finish, hmode] at hr
          cases hr.choose_spec
        next hmode =>
          rw [Reader.finish, hmode] at hr
          cases hr.choose_spec
        next op hmode =>
          split
          · exact ⟨_, rfl⟩
          · exact hone (r.push op) rfl
  exact hread t .start h ⟨[], rfl⟩

/-- What the simple commands of a text write, with repetitions. -/
def rawTargets (t : Text) : List Text :=
  (tokenize t).elim [] fun tokens => (simpleCommands tokens).flatMap commandTargets

theorem rawTargets_newline (ht : Plain t) (hu : Plain u) :
    rawTargets (t ++ '\n' :: u) = rawTargets t ++ rawTargets u := by
  obtain ⟨ts, hts⟩ := ht.tokenize
  obtain ⟨us, hus⟩ := hu.tokenize
  rw [rawTargets, rawTargets, rawTargets, tokenize_newline hts, hts, hus]
  change (simpleCommands ((ts ++ [.operator ['\n']]) ++ us)).flatMap commandTargets = _
  rw [simpleCommands_newline, List.flatMap_append]
  rfl

/-! ## Words and targets -/

theorem mem_splitOnP {α : Type} {p : α → Bool} {l part : List α} (h : part ∈ l.splitOnP p) {a : α}
    (ha : a ∈ part) : a ∈ l ∧ p a = false := by
  induction l generalizing part with
  | nil =>
      rw [List.splitOnP_nil, List.mem_singleton] at h
      subst h
      cases ha
  | cons b l ih =>
      rw [List.splitOnP_cons_eq_if_modifyHead] at h
      split at h
      next =>
        rcases List.mem_cons.mp h with rfl | h
        · cases ha
        · exact (ih h ha).imp_left (List.mem_cons_of_mem b)
      next hb =>
        obtain ⟨first, others, hsplit⟩ := List.exists_cons_of_ne_nil (List.splitOnP_ne_nil p l)
        rw [hsplit, List.modifyHead_cons] at h
        rcases List.mem_cons.mp h with rfl | h
        · rcases List.mem_cons.mp ha with rfl | ha
          · exact ⟨List.mem_cons_self .., Bool.of_not_eq_true hb⟩
          · exact (ih (hsplit ▸ List.mem_cons_self ..) ha).imp_left (List.mem_cons_of_mem b)
        · exact (ih (hsplit ▸ List.mem_cons_of_mem first h) ha).imp_left (List.mem_cons_of_mem b)

theorem mem_simpleCommands {tokens simple : List Token} (h : simple ∈ simpleCommands tokens)
    {token : Token} (htoken : token ∈ simple) : token ∈ tokens ∧ token.separates = false :=
  mem_splitOnP (List.mem_of_mem_filter h) htoken

section

variable {ws : List Word} {valueFlags : List Text} {skip : Bool}

theorem mem_operandsOf (h : t ∈ operandsOf valueFlags skip ws) : ∃ w ∈ ws, w.text = t := by
  fun_induction operandsOf valueFlags skip ws with
  | case1 => cases h
  | case2 w ws ih =>
      obtain ⟨w', hw', heq⟩ := ih h
      exact ⟨w', List.mem_cons_of_mem w hw', heq⟩
  | case3 w ws hflag ih =>
      obtain ⟨w', hw', heq⟩ := ih h
      exact ⟨w', List.mem_cons_of_mem w hw', heq⟩
  | case4 w ws hflag ih =>
      rcases List.mem_cons.mp h with rfl | h
      · exact ⟨w, List.mem_cons_self .., rfl⟩
      · obtain ⟨w', hw', heq⟩ := ih h
        exact ⟨w', List.mem_cons_of_mem w hw', heq⟩

theorem mem_inPlaceOperands (h : t ∈ inPlaceOperands valueFlags skip ws) : ∃ w ∈ ws, w.text = t := by
  fun_induction inPlaceOperands valueFlags skip ws with
  | case1 => cases h
  | case2 w ws ih =>
      obtain ⟨w', hw', heq⟩ := ih h
      exact ⟨w', List.mem_cons_of_mem w hw', heq⟩
  | case3 w ws hflag suffix ih =>
      obtain ⟨w', hw', heq⟩ := ih h
      exact ⟨w', List.mem_cons_of_mem w hw', heq⟩
  | case4 w ws hflag ih =>
      rcases List.mem_cons.mp h with rfl | h
      · exact ⟨w, List.mem_cons_self .., rfl⟩
      · obtain ⟨w', hw', heq⟩ := ih h
        exact ⟨w', List.mem_cons_of_mem w hw', heq⟩

/-- What a command writes is one of its words, or the end of one. -/
theorem wordTargets_length (h : t ∈ wordTargets ws) : ∃ w ∈ ws, t.length ≤ w.text.length := by
  cases ws with
  | nil => cases h
  | cons w ws =>
      have hof : (∃ w' ∈ ws, w'.text = t) → ∃ w' ∈ w :: ws, t.length ≤ w'.text.length := by
        rintro ⟨w', hw', rfl⟩
        exact ⟨w', List.mem_cons_of_mem w hw', Nat.le_refl _⟩
      unfold wordTargets at h
      simp only at h
      split at h
      · obtain ⟨w', hw', rfl⟩ := List.mem_map.mp (List.mem_of_mem_filter h)
        refine ⟨w', List.mem_cons_of_mem w (List.mem_of_mem_filter hw'), ?_⟩
        rw [List.length_drop]
        omega
      split at h
      · refine hof ?_
        unfold gitTargets at h
        split at h
        next => cases h
        next subcommand words =>
          split at h
          · obtain ⟨w', hw', heq⟩ := mem_operandsOf h
            exact ⟨w', List.mem_cons_of_mem _ hw', heq⟩
          split at h
          · obtain ⟨w', hw', heq⟩ := List.mem_map.mp h
            exact ⟨w', (List.dropWhile_suffix _).subset (List.mem_of_mem_drop hw'), heq⟩
          · cases h
      split at h
      · refine hof ?_
        unfold inPlaceTargets at h
        simp only at h
        split at h
        · exact mem_inPlaceOperands (List.mem_of_mem_drop h)
        · cases h
      split at h
      · exact hof (mem_operandsOf h)
      · exact hof (mem_operandsOf (List.mem_of_getLast? (Option.mem_toList.mp h)))
      · cases h

theorem mem_words {simple : List Token} {w : Word} : w ∈ words simple ↔ .word w ∈ simple := by
  rw [words, List.mem_filterMap]
  constructor
  · rintro ⟨token, htoken, heq⟩
    cases token with
    | word w' =>
        cases heq
        exact htoken
    | operator op => cases heq
  · exact fun h => ⟨.word w, h, rfl⟩

theorem redirectionTargets_length {simple : List Token} (h : t ∈ redirectionTargets simple) :
    ∃ w, .word w ∈ simple ∧ w.text = t := by
  fun_induction redirectionTargets simple with
  | case1 => cases h
  | case2 w tokens ih =>
      obtain ⟨w', hw', heq⟩ := ih h
      exact ⟨w', List.mem_cons_of_mem _ hw', heq⟩
  | case3 op tokens ih =>
      rcases List.mem_append.mp h with h | h
      · split at h
        · unfold redirectionTarget at h
          split at h
          next w _ _ =>
            split_ifs at h
            · cases h
            · cases h
            · obtain rfl := List.mem_singleton.mp h
              exact ⟨w, List.mem_cons_of_mem _ (List.mem_cons_self ..), rfl⟩
          next => cases h
        · cases h
      · obtain ⟨w', hw', heq⟩ := ih h
        exact ⟨w', List.mem_cons_of_mem _ hw', heq⟩

theorem commandTargets_length {simple : List Token} (h : t ∈ commandTargets simple) :
    ∃ w, .word w ∈ simple ∧ t.length ≤ w.text.length := by
  rcases List.mem_append.mp h with h | h
  · obtain ⟨w, hw, rfl⟩ := redirectionTargets_length h
    exact ⟨w, hw, Nat.le_refl _⟩
  · obtain ⟨w, hw, hle⟩ := wordTargets_length h
    exact ⟨w, mem_words.mp ((List.dropWhile_suffix _).subset hw), hle⟩

theorem rawTargets_length (h : t ∈ rawTargets c) : t.length ≤ c.length := by
  unfold rawTargets at h
  cases htokens : tokenize c with
  | none =>
      rw [htokens] at h
      cases h
  | some tokens =>
      rw [htokens] at h
      obtain ⟨simple, hsimple, hmem⟩ := List.mem_flatMap.mp h
      obtain ⟨w, hw, hle⟩ := commandTargets_length hmem
      exact hle.trans (tokenize_length htokens (mem_simpleCommands hsimple hw).1)

end

/-! ## Blank words -/

theorem notMem_of_all {names : List Text} (hnames : names.all (fun name => !name.all isSpace) = true)
    (ht : t.all isSpace = true) : t ∉ names := by
  intro hmem
  have hname := List.all_eq_true.mp hnames t hmem
  rw [ht] at hname
  cases hname

theorem isWrapper_of_blank {w : Word} (hw : w.text.all isSpace = true) :
    w.isWrapper = false := by
  have hword : matchWord w.text = none := by
    cases hm : matchWord w.text with
    | none => rfl
    | some m =>
        obtain ⟨heq, hne', hall⟩ := matchWord_eq_some (r := m.2) (w := m.1) hm
        obtain ⟨d, hd⟩ := List.exists_mem_of_ne_nil _ hne'
        have hspace := List.all_eq_true.mp hw d (by rw [heq]; exact List.mem_append_left _ hd)
        rw [isSpace_of_isWordChar (hall d hd)] at hspace
        cases hspace
  have hname : w.text ∉ ["sudo", "command", "nohup", "time", "nice", "env"].map String.toList :=
    notMem_of_all (by decide) hw
  rw [Word.isWrapper, isAssignment, hword, decide_eq_false hname]
  simp

/-- A blank word is no command. -/
theorem wordTargets_of_blank {w : Word} {ws : List Word} (hw : w.text.all isSpace = true) :
    wordTargets (w :: ws) = [] := by
  have hname : (w.text.rtakeWhile (· ≠ '/')).all isSpace = true := by
    refine List.all_eq_true.mpr fun d hd => List.all_eq_true.mp hw d ?_
    exact (List.rtakeWhile_suffix _ _).subset hd
  have hnames : (["dd".toList, "git".toList] ++ IN_PLACE.map Prod.fst ++ WRITERS.map Prod.fst).all
      (fun name => !name.all isSpace) = true := by decide
  have hnot := notMem_of_all hnames hname
  simp only [List.mem_append, List.mem_cons, List.not_mem_nil, or_false, not_or] at hnot
  have hlookup : ∀ {β : Type} (l : List (Text × β)),
      w.text.rtakeWhile (· ≠ '/') ∉ l.map Prod.fst →
        l.lookup (w.text.rtakeWhile (· ≠ '/')) = none := by
    intro β l hl
    rw [List.lookup_eq_none_iff]
    intro e he
    rw [bne_iff_ne]
    exact fun heq => hl (List.mem_map.mpr ⟨e, he, heq.symm⟩)
  unfold wordTargets
  simp only [if_neg hnot.1.1.1, if_neg hnot.1.1.2, hlookup _ hnot.1.2, hlookup _ hnot.2]

/-- Nothing but white space has been read. -/
structure Blank (r : Reader) : Prop where
  mode : r.mode = .plain
  text : r.text.all isSpace = true
  tokens : ∀ token ∈ r.tokens, token.separates = true ∨
    ∃ w, token = .word w ∧ w.text.all isSpace = true

theorem Blank.flush {r : Reader} (h : Blank r) : Blank r.flush where
  mode := h.mode
  text := rfl
  tokens token htoken := by
    unfold Reader.flush at htoken
    split at htoken
    · rcases List.mem_append.mp htoken with htoken | htoken
      · exact h.tokens token htoken
      · exact .inr ⟨_, List.mem_singleton.mp htoken, h.text⟩
    · exact h.tokens token htoken

theorem Blank.step {r : Reader} (h : Blank r) {d : Char} (hd : isSpace d = true) :
    Blank (r.step d) := by
  have hne : ∀ e : Char, isSpace e = false → d ≠ e := by
    rintro e he rfl
    rw [hd] at he
    cases he
  have hop : d ∉ [';', '&', '|', '>', '<'] := by
    intro hmem
    simp only [List.mem_cons, List.not_mem_nil, or_false] at hmem
    rcases hmem with rfl | rfl | rfl | rfl | rfl <;> exact hne _ rfl rfl
  rw [Reader.step_plain h.mode, Reader.read, if_neg (hne '\\' rfl),
    if_neg (not_or.mpr ⟨hne '\'' rfl, hne '"' rfl⟩)]
  split
  · exact h.flush
  split
  · exact {
      mode := rfl
      text := h.flush.text
      tokens := fun token htoken => by
        rcases List.mem_append.mp htoken with htoken | htoken
        · exact h.flush.tokens token htoken
        · rw [List.mem_singleton.mp htoken]
          exact .inl rfl }
  · exact {
      mode := h.mode
      text := by rw [List.all_append, h.text, List.all_cons, hd]; rfl
      tokens := h.tokens }

theorem rawTargets_of_blank (ht : t.all isSpace = true) : rawTargets t = [] := by
  have hread : ∀ (t : Text) (r : Reader), t.all isSpace = true → Blank r →
      Blank (t.foldl Reader.step r) := by
    intro t
    induction t with
    | nil => exact fun r _ hr => hr
    | cons d t ih =>
        intro r ht hr
        rw [List.all_cons, Bool.and_eq_true] at ht
        exact ih _ ht.2 (hr.step ht.1)
  have hblank := hread t .start ht ⟨rfl, rfl, nofun⟩
  have htokens : tokenize t = some (t.foldl Reader.step .start).flush.tokens := by
    rw [tokenize, Reader.finish, hblank.mode]
  rw [rawTargets, htokens]
  refine List.flatMap_eq_nil_iff.mpr fun simple hsimple => ?_
  have hwords : ∀ token ∈ simple, ∃ w, token = .word w ∧ w.text.all isSpace = true := by
    intro token htoken
    obtain ⟨hmem, hseparates⟩ := mem_simpleCommands hsimple htoken
    refine (hblank.flush.tokens token hmem).resolve_left fun h => ?_
    rw [hseparates] at h
    cases h
  have hredirections : ∀ simple : List Token, (∀ token ∈ simple, ∃ w, token = .word w ∧
      w.text.all isSpace = true) → redirectionTargets simple = [] := by
    intro simple
    induction simple with
    | nil => exact fun _ => rfl
    | cons token simple ih =>
        intro h
        rw [List.forall_mem_cons] at h
        obtain ⟨⟨w, rfl, -⟩, hrest⟩ := h
        exact ih hrest
  rw [commandTargets, hredirections simple hwords, List.nil_append, commandWords]
  cases hws : words simple with
  | nil => rfl
  | cons w ws =>
      have hw : w.text.all isSpace = true := by
        obtain ⟨w', heq, hw'⟩ := hwords _ (mem_words.mp (hws ▸ List.mem_cons_self ..))
        cases heq
        exact hw'
      rw [List.dropWhile_cons_of_neg (by rw [isWrapper_of_blank hw]; exact Bool.false_ne_true)]
      exact wordTargets_of_blank hw

theorem all_of_trim (h : t.trim = []) : t.all isSpace = true := by
  rw [trim, trimEnd, List.rdropWhile_eq_nil_iff] at h
  refine List.all_eq_true.mpr fun d hd => ?_
  rw [← List.takeWhile_append_dropWhile (p := isSpace) (l := t)] at hd
  rcases List.mem_append.mp hd with hd | hd
  · exact List.mem_takeWhile_imp hd
  · exact h d hd

theorem shellWriteTargets_eq (c : Text) :
    shellWriteTargets c = fileTargets (rawTargets (stripHeredocs c)) := by
  rw [shellWriteTargets]
  split
  next hblank =>
    have hall := all_of_trim hblank
    have hnotMem : '<' ∉ c := fun hmem => by cases List.all_eq_true.mp hall _ hmem
    rw [stripHeredocs_of_notMem hnotMem, rawTargets_of_blank hall]
    rfl
  next =>
    rw [rawTargets]
    cases tokenize (stripHeredocs c) with
    | none => rfl
    | some tokens => rfl

/-! ## Both lines -/

theorem shellWriteTargets_length (h : t ∈ shellWriteTargets c) :
    t.length ≤ (stripHeredocs c).length := by
  rw [shellWriteTargets_eq, fileTargets, List.mem_eraseDups] at h
  exact rawTargets_length (List.mem_of_mem_filter h)

theorem Closed.targets_append (h : Closed c) (hc : Plain c) (hx : Plain x) :
    shellWriteTargets (c ++ '\n' :: x) =
      (shellWriteTargets c ++ shellWriteTargets x).eraseDups := by
  rw [shellWriteTargets_eq, shellWriteTargets_eq, shellWriteTargets_eq, h.stripHeredocs_newline,
    rawTargets_newline (hc.sublist (stripHeredocs_sublist c)) (hx.sublist (stripHeredocs_sublist x)),
    fileTargets_append]

section

variable {n : ℕ}

theorem tokenize_name {t : Text} {tokens : List Token} (ht : t.foldl Reader.step .start =
    ⟨tokens, [], false, false, .plain⟩) :
    tokenize (t ++ List.replicate (n + 1) 'a') =
      some (tokens ++ [.word ⟨List.replicate (n + 1) 'a', false⟩]) := by
  have hordinary : ∀ d ∈ List.replicate (n + 1) 'a', Ordinary d := by
    intro d hd
    rw [List.eq_of_mem_replicate hd]
    decide
  have hne : List.replicate (n + 1) 'a' ≠ [] := List.cons_ne_nil _ _
  rw [tokenize, List.foldl_append, ht, foldl_step_ordinary rfl hne hordinary]
  rfl

theorem rawTargets_rmLine : rawTargets (rmLine n) = [List.replicate (n + 1) 'a'] := by
  rw [rawTargets, rmLine, tokenize_name rfl]
  rfl

theorem rawTargets_blankLine : rawTargets (blankLine n) = [List.replicate (n + 1) 'a'] := by
  rw [rawTargets, blankLine, tokenize_name rfl]
  rfl

theorem rawTargets_wideLine : rawTargets (wideLine n) = [] := by
  rw [rawTargets, wideLine, blankLine, ← List.append_assoc, tokenize_name rfl]
  rfl

theorem plain_name {t : Text} (ht : Plain t) : Plain (t ++ List.replicate (n + 1) 'a') := by
  refine plain_append.mpr ⟨ht, fun d hd => ?_⟩
  rw [List.eq_of_mem_replicate hd]
  decide

theorem fileTargets_name :
    fileTargets [List.replicate (n + 1) 'a'] = [List.replicate (n + 1) 'a'] := by
  have hfile : List.replicate (n + 1) 'a' ∉ NOT_A_FILE := by
    intro hmem
    have hslash : ∀ name ∈ NOT_A_FILE, name.head? = some '/' := by decide
    cases hslash _ hmem
  have hne : List.replicate (n + 1) 'a' ≠ [] := List.cons_ne_nil _ _
  have hkept : [List.replicate (n + 1) 'a'].filter (fun t => t ≠ [] ∧ t ∉ NOT_A_FILE) =
      [List.replicate (n + 1) 'a'] := List.filter_cons_of_pos (decide_eq_true ⟨hne, hfile⟩)
  rw [fileTargets, hkept]
  rfl

theorem name_notMem (h : c.length ≤ n) : List.replicate (n + 1) 'a' ∉ shellWriteTargets c := by
  intro hmem
  have hle := (shellWriteTargets_length hmem).trans (stripHeredocs_sublist c).length_le
  rw [List.length_replicate] at hle
  omega

/-- The targets of a command and of any command on the next line are those of both,
one after the other, when every here-document that is found in the first ends there,
and only then. -/
theorem shellWriteTargets_newline {c₁ : Text} (h₁ : Plain c₁) :
    (∀ c₂, Plain c₂ → shellWriteTargets (c₁ ++ '\n' :: c₂) =
      (shellWriteTargets c₁ ++ shellWriteTargets c₂).eraseDups) ↔ Closed c₁ := by
  refine ⟨fun h => ?_, fun h c₂ h₂ => h.targets_append h₁ h₂⟩
  rcases closed_or_open c₁ with hclosed | hopen | hends
  · exact hclosed
  · -- The name behind `rm` is longer than all that is left.
    have hshort := hopen 0 (c₁.length + 1)
    have hline := h (rmLine (c₁.length + 1)) (plain_name (by decide))
    have hmem : List.replicate (c₁.length + 1 + 1) 'a' ∈
        shellWriteTargets (c₁ ++ '\n' :: rmLine (c₁.length + 1)) := by
      have hnotMem : '<' ∉ rmLine (c₁.length + 1) := by simp [rmLine]
      rw [hline, List.mem_eraseDups, List.mem_append, shellWriteTargets_eq (rmLine _),
        stripHeredocs_of_notMem hnotMem, rawTargets_rmLine, fileTargets_name]
      exact .inr (List.mem_singleton_self _)
    have hle := (shellWriteTargets_length hmem).trans hshort
    rw [List.length_replicate] at hle
    omega
  · -- The line comes to name a file once its first word is dropped.
    obtain ⟨s, hs, hstrip⟩ := hends c₁.length (wideLine c₁.length) (by simp)
    have hplain : Plain (blankLine c₁.length) := plain_name (by decide)
    have hwide : Plain (wideLine c₁.length) := plain_append.mpr ⟨by decide, hplain⟩
    have hline := h (wideLine c₁.length) hwide
    have hmem : List.replicate (c₁.length + 1) 'a' ∈
        shellWriteTargets (c₁ ++ '\n' :: wideLine c₁.length) := by
      rw [shellWriteTargets_eq, hstrip, rawTargets_newline (h₁.sublist hs) hplain,
        rawTargets_blankLine, fileTargets_append, List.mem_eraseDups, fileTargets_name]
      exact List.mem_append_right _ (List.mem_singleton_self _)
    have hnotMem : '<' ∉ wideLine c₁.length := by simp [wideLine, blankLine]
    rw [hline, List.mem_eraseDups, List.mem_append, shellWriteTargets_eq (wideLine _),
      stripHeredocs_of_notMem hnotMem, rawTargets_wideLine] at hmem
    rcases hmem with hmem | hmem
    · exact absurd hmem (name_notMem (Nat.le_refl _))
    · cases hmem

end

theorem shellWriteTargets_newline_rm :
    shellWriteTargets "rm a\nrm b".toList =
      (shellWriteTargets "rm a".toList ++ shellWriteTargets "rm b".toList).eraseDups := by
  have hclosed : Closed "rm a".toList := by
    refine .bare (by decide) fun t ht => Bool.of_not_eq_true fun hdangling => ?_
    unfold dangling at hdangling
    split at hdangling
    · exact absurd (ht.subset (List.mem_cons_self ..)) (by decide)
    · cases hdangling
  exact (shellWriteTargets_newline (by decide)).mpr hclosed "rm b".toList
    (by decide)

/-- The command behind a here-string is dropped. -/
theorem shellWriteTargets_drops_line :
    ¬ ∀ c₁ c₂ : Text, Plain c₁ → Plain c₂ → shellWriteTargets (c₁ ++ '\n' :: c₂) =
      (shellWriteTargets c₁ ++ shellWriteTargets c₂).eraseDups := by
  intro h
  have hboth := h "cat <<< word".toList "rm f".toList (by decide) (by decide)
  have hround : stripRound ("cat <<< word".toList ++ '\n' :: "rm f".toList) =
      .inr "cat <\n".toList := by decide
  have hmem : "f".toList ∈ shellWriteTargets "rm f".toList := by
    rw [shellWriteTargets_eq, stripHeredocs_of_notMem (by decide)]
    decide +kernel
  rw [shellWriteTargets_eq, stripHeredocs_of_inr hround,
    stripHeredocs_of_inl (by decide : stripRound "cat <\n".toList = .inl "cat <\n".toList)] at hboth
  have hlost : "f".toList ∉ fileTargets (rawTargets "cat <\n".toList) := by decide
  rw [hboth, List.mem_eraseDups] at hlost
  exact hlost (List.mem_append_right _ hmem)

end Acc.AdapterSdk.ShellLines
