import AgentsCanCommunicate.Library.Distinct
import AgentsCanCommunicate.Library.Text

/-!
# What a shell command would write

The reader takes a command apart character by character, breaks the tokens at the
separators and asks every simple command which files it writes.  Before that the
bodies of here-documents are dropped from the text.

Characters are read one at a time, so what was read of a text and what is read
after it are told apart by the state between the two.
-/

namespace Acc.AdapterSdk.ShellWrites

open Library Text

/-! ## Tokens -/

structure Word where
  text : Text
  quoted : Bool
deriving DecidableEq

inductive Token where
  | word (w : Word)
  | operator (op : Text)
deriving DecidableEq

/-- Where in the grammar the next character stands. -/
inductive Mode where
  | plain
  /-- After a backslash. -/
  | escaped
  | inside (quote : Char)
  | operator (op : Text)
deriving DecidableEq

structure Reader where
  tokens : List Token
  text : Text
  started : Bool
  quoted : Bool
  mode : Mode
deriving DecidableEq

def Reader.start : Reader := ⟨[], [], false, false, .plain⟩

/-- End the word that has been started. -/
def Reader.flush (r : Reader) : Reader :=
  { r with
    tokens := if r.started then r.tokens ++ [.word ⟨r.text, r.quoted⟩] else r.tokens
    text := []
    started := false
    quoted := false }

def Reader.push (r : Reader) (op : Text) : Reader :=
  { r with tokens := r.tokens ++ [.operator op], mode := .plain }

/-- A character outside of quotes. -/
def Reader.read (r : Reader) (c : Char) : Reader :=
  if c = '\\' then { r with started := true, quoted := true, mode := .escaped }
  else if c = '\'' ∨ c = '"' then { r with started := true, quoted := true, mode := .inside c }
  else if c = ' ' ∨ c = '\t' then r.flush
  else if c = '\n' then r.flush.push ['\n']
  else if c ∈ [';', '&', '|', '>', '<'] then
    -- A redirection may carry its descriptor on the front.
    if r.quoted = false ∧ r.text ≠ [] ∧ r.text.all Char.isDigit then
      { r with text := [], started := false, mode := .operator (r.text ++ [c]) }
    else { r.flush with mode := .operator [c] }
  else { r with text := r.text ++ [c], started := true }

def Reader.step (r : Reader) (c : Char) : Reader :=
  match r.mode with
  | .plain => r.read c
  | .escaped => { r with text := r.text ++ [c], mode := .plain }
  | .inside quote =>
      if c = quote then { r with mode := .plain } else { r with text := r.text ++ [c] }
  | .operator op =>
      if c ∈ ['&', '|', '<', '>'] then { r with mode := .operator (op ++ [c]) }
      else (r.push op).read c

/-- The tokens at the end of the text, where nothing is left open. -/
def Reader.finish (r : Reader) : Option (List Token) :=
  match r.mode with
  | .plain => some r.flush.tokens
  | .operator op => some (r.push op).flush.tokens
  | .escaped => none
  | .inside _ => none

def tokenize (command : Text) : Option (List Token) :=
  (command.foldl Reader.step .start).finish

def SEPARATORS : List Text := [";", "&&", "||", "|", "|&", "&", "\n"].map String.toList

def Token.separates : Token → Bool
  | .word _ => false
  | .operator op => op ∈ SEPARATORS

def simpleCommands (tokens : List Token) : List (List Token) :=
  (tokens.splitOnP Token.separates).filter (· ≠ [])

/-! ## Here-documents -/

def isWordStart (c : Char) : Bool := c.isAlpha || c = '_'

def isWordChar (c : Char) : Bool := c.isAlphanum || c = '_'

def isQuote (c : Char) : Bool := c = '\'' || c = '"'

/-- `([A-Za-z_][A-Za-z0-9_]*)` at the front of a text, and what follows it. -/
def matchWord (t : Text) : Option (Text × Text) :=
  if (t.head?).any isWordStart then some (t.takeWhile isWordChar, t.dropWhile isWordChar)
  else none

/-- `(['"]?)([A-Za-z_][A-Za-z0-9_]*)\1` -/
def matchQuotable : Text → Option (Text × Text)
  | [] => none
  | c :: t =>
      if isQuote c then
        (matchWord t).bind fun m => if m.2.head? = some c then some (m.1, m.2.tail) else none
      else matchWord (c :: t)

def dropDash (t : Text) : Text := if t.head? = some '-' then t.tail else t

/-- `<<-?\s*(['"]?)([A-Za-z_][A-Za-z0-9_]*)\1` at the front of a text: the word and
what follows the match.  Each part matches in one way only. -/
def matchOpener : Text → Option (Text × Text)
  | '<' :: '<' :: t => matchQuotable ((dropDash t).dropWhile isSpace)
  | _ => none

structure Opener where
  before : Text
  /-- The text from the match on. -/
  suffix : Text
  word : Text
deriving DecidableEq

/-- The first match in a text. -/
def findOpener : Text → Option Opener
  | [] => none
  | c :: t =>
      match matchOpener (c :: t) with
      | some m => some ⟨[], c :: t, m.1⟩
      | none => (findOpener t).map fun o => { o with before := c :: o.before }

/-- `t.replace(pattern, "")`, where the first characters are part of a match. -/
def removeFrom : ℕ → Text → Text
  | _, [] => []
  | n + 1, _ :: t => removeFrom n t
  | 0, c :: t =>
      match matchOpener (c :: t) with
      | some m => removeFrom (t.length - m.2.length) t
      | none => c :: removeFrom 0 t

def removeOpeners (t : Text) : Text := removeFrom 0 t

/-- What follows `\s*$`. -/
def blankEnd : Text → Option Text
  | [] => some []
  | c :: t =>
      if isSpace c then (blankEnd t).or (if isLineTerminator c then some (c :: t) else none)
      else none

/-- What follows `\s*word\s*$` at the front of a text. -/
def matchTerminator (word t : Text) : Option Text :=
  let t := t.dropWhile isSpace
  if word.isPrefixOf t then blankEnd (t.drop word.length) else none

/-- What follows the first match of `^\s*word\s*$`, where the text may start a line. -/
def afterTerminator (word : Text) : Bool → Text → Option Text
  | _, [] => none
  | starts, c :: t =>
      (if starts then matchTerminator word (c :: t) else none).or
        (afterTerminator word (isLineTerminator c) t)

/-- One round: the text that is returned, or the text of the next round. -/
def stripRound (command : Text) : Text ⊕ Text :=
  match findOpener command with
  | none => .inl command
  | some o =>
      match o.suffix.dropWhile (· ≠ '\n') with
      | [] => .inl (o.before ++ removeOpeners o.suffix)
      | _ :: rest =>
          .inr (o.before ++ removeOpeners (o.suffix.takeWhile (· ≠ '\n')) ++
            '\n' :: (afterTerminator o.word true rest).getD [])

/-! ## What a match takes -/

variable {t u x r w : Text} {c : Char}

theorem matchWord_eq_some (h : matchWord t = some (w, r)) :
    t = w ++ r ∧ w ≠ [] ∧ ∀ c ∈ w, isWordChar c = true := by
  unfold matchWord at h
  split at h
  next hstart =>
    cases h
    refine ⟨(List.takeWhile_append_dropWhile ..).symm, ?_, fun c hc => List.mem_takeWhile_imp hc⟩
    cases t with
    | nil => cases hstart
    | cons c t =>
        have hc : isWordChar c = true := by
          simp only [List.head?_cons, Option.any_some, isWordStart, Bool.or_eq_true] at hstart
          rw [isWordChar, Bool.or_eq_true, Char.isAlphanum, Bool.or_eq_true]
          exact hstart.imp_left .inl
        rw [List.takeWhile_cons_of_pos hc]
        exact List.cons_ne_nil _ _
  next => cases h

theorem matchQuotable_eq_some (h : matchQuotable t = some (w, r)) :
    (∃ taken, t = taken ++ r ∧ w ⊆ taken) ∧ w ≠ [] ∧ ∀ c ∈ w, isWordChar c = true := by
  cases t with
  | nil => cases h
  | cons c t =>
      rw [matchQuotable] at h
      split at h
      next =>
        obtain ⟨⟨w', u⟩, hword, hquote⟩ := Option.bind_eq_some_iff.mp h
        obtain ⟨rfl, hne, hall⟩ := matchWord_eq_some hword
        split at hquote
        next hhead =>
          cases hquote
          refine ⟨⟨c :: w' ++ [c], ?_, ?_⟩, hne, hall⟩
          · have hu : c :: u.tail = u := (List.eq_cons_of_mem_head? hhead).symm
            rw [List.append_assoc, List.singleton_append, hu]
            rfl
          · exact fun d hd => List.mem_append_left _ (List.mem_cons_of_mem c hd)
        next => cases hquote
      next =>
        obtain ⟨heq, hne, hall⟩ := matchWord_eq_some h
        exact ⟨⟨w, heq, List.Subset.refl w⟩, hne, hall⟩

theorem matchOpener_cons_cons (t : Text) :
    matchOpener ('<' :: '<' :: t) = matchQuotable ((dropDash t).dropWhile isSpace) := rfl

theorem dropDash_suffix (t : Text) : dropDash t <:+ t := by
  unfold dropDash
  split
  · exact List.tail_suffix t
  · exact List.suffix_refl t

theorem matchOpener_eq_some (h : matchOpener t = some (w, r)) :
    (∃ taken, t = taken ++ r ∧ w ⊆ taken) ∧ w ≠ [] ∧ ∀ c ∈ w, isWordChar c = true := by
  unfold matchOpener at h
  split at h
  next t =>
    obtain ⟨⟨taken, heq, hsub⟩, hw⟩ := matchQuotable_eq_some h
    refine ⟨?_, hw⟩
    obtain ⟨front, hfront⟩ := (List.dropWhile_suffix isSpace).trans (dropDash_suffix t)
    refine ⟨'<' :: '<' :: front ++ taken, ?_, ?_⟩
    · rw [List.append_assoc, ← heq]
      exact congrArg ('<' :: '<' :: ·) hfront.symm
    · exact fun d hd => List.mem_append_right _ (hsub hd)
  next => cases h

theorem findOpener_eq_some {o : Opener} (h : findOpener t = some o) :
    t = o.before ++ o.suffix ∧ ∃ r, matchOpener o.suffix = some (o.word, r) := by
  induction t generalizing o with
  | nil => cases h
  | cons c t ih =>
      rw [findOpener] at h
      split at h
      next m hm =>
        cases h
        exact ⟨rfl, m.2, hm⟩
      next =>
        obtain ⟨o', ho', rfl⟩ := Option.map_eq_some_iff.mp h
        obtain ⟨heq, hmatch⟩ := ih ho'
        exact ⟨congrArg (c :: ·) heq, hmatch⟩

theorem removeFrom_sublist : ∀ (n : ℕ) (t : Text), (removeFrom n t).Sublist (t.drop n)
  | n, [] => by
      rw [List.drop_nil]
      cases n <;> exact List.Sublist.refl []
  | n + 1, c :: t => removeFrom_sublist n t
  | 0, c :: t => by
      rw [removeFrom]
      split
      · exact ((removeFrom_sublist _ t).trans (List.drop_sublist _ t)).cons c
      · exact (removeFrom_sublist 0 t).cons_cons c

theorem removeOpeners_sublist (t : Text) : (removeOpeners t).Sublist t := removeFrom_sublist 0 t

/-- A match is taken away. -/
theorem removeOpeners_of_match (h : matchOpener t = some (w, r)) :
    (removeOpeners t).Sublist r := by
  obtain ⟨⟨taken, rfl, hsub⟩, hne, -⟩ := matchOpener_eq_some h
  cases taken with
  | nil => exact absurd (List.subset_nil.mp hsub) hne
  | cons c taken =>
      rw [List.cons_append] at h ⊢
      rw [removeOpeners, removeFrom, h]
      have hdrop : (taken ++ r).drop ((taken ++ r).length - r.length) = r := by
        rw [List.length_append, Nat.add_sub_cancel, List.drop_left]
      have hrest := removeFrom_sublist ((taken ++ r).length - r.length) (taken ++ r)
      rw [hdrop] at hrest
      exact hrest

theorem removeOpeners_length_lt (h : matchOpener t = some (w, r)) :
    (removeOpeners t).length < t.length := by
  obtain ⟨⟨taken, rfl, hsub⟩, hne, -⟩ := matchOpener_eq_some h
  have hle := (removeOpeners_of_match h).length_le
  have hpos : 0 < taken.length :=
    List.length_pos_of_ne_nil fun hnil => hne (List.subset_nil.mp (hnil ▸ hsub))
  rw [List.length_append]
  omega

theorem blankEnd_suffix (h : blankEnd t = some r) : r <:+ t := by
  induction t with
  | nil =>
      cases h
      exact List.suffix_refl []
  | cons c t ih =>
      rw [blankEnd] at h
      split at h
      next =>
        cases hrest : blankEnd t with
        | some r' =>
            rw [hrest, Option.some_or] at h
            cases h
            exact (ih hrest).trans (List.suffix_cons c t)
        | none =>
            rw [hrest, Option.none_or] at h
            split at h
            · cases h
              exact List.suffix_refl _
            · cases h
      next => cases h

/-- What is left after a terminator is behind its word. -/
theorem matchTerminator_eq_some (h : matchTerminator w t = some r) :
    ∃ taken, t = taken ++ r ∧ w <:+: taken := by
  rw [matchTerminator] at h
  split at h
  next hword =>
    obtain ⟨u, hu⟩ := List.isPrefixOf_iff_prefix.mp hword
    rw [← hu, List.drop_left] at h
    obtain ⟨blank, hblank⟩ := blankEnd_suffix h
    refine ⟨t.takeWhile isSpace ++ w ++ blank, ?_, ⟨t.takeWhile isSpace, blank, rfl⟩⟩
    rw [List.append_assoc, List.append_assoc, hblank, hu, List.takeWhile_append_dropWhile]
  next => cases h

theorem afterTerminator_eq_some {starts : Bool} (h : afterTerminator w starts t = some r) :
    ∃ taken, t = taken ++ r ∧ w <:+: taken := by
  induction t generalizing starts with
  | nil => cases h
  | cons c t ih =>
      rw [afterTerminator] at h
      rcases Option.or_eq_some_iff.mp h with hhere | ⟨-, hlater⟩
      · split at hhere
        · exact matchTerminator_eq_some hhere
        · cases hhere
      · obtain ⟨taken, rfl, hpart⟩ := ih hlater
        exact ⟨c :: taken, rfl, hpart.trans (List.suffix_cons c taken).isInfix⟩

theorem afterTerminator_suffix {starts : Bool} (h : afterTerminator w starts t = some r) :
    r <:+ t ∧ r.length + w.length ≤ t.length := by
  obtain ⟨taken, rfl, hpart⟩ := afterTerminator_eq_some h
  refine ⟨List.suffix_append _ _, ?_⟩
  rw [List.length_append, Nat.add_comm]
  exact Nat.add_le_add_right hpart.length_le _

/-! ## At a newline

A match that ends before a newline does not depend on what follows it, and one that
fails before a newline fails with anything behind it, unless all that is missing is
behind the newline. -/

theorem takeWhile_append_cons {p : Char → Bool} (hc : p c = false) (t x : Text) :
    (t ++ c :: x).takeWhile p = t.takeWhile p := by
  induction t with
  | nil => exact List.takeWhile_cons_of_neg (by simp [hc])
  | cons d t ih =>
      rw [List.cons_append, List.takeWhile_cons, List.takeWhile_cons, ih]

theorem dropWhile_append_cons {p : Char → Bool} (hc : p c = false) (t x : Text) :
    (t ++ c :: x).dropWhile p = t.dropWhile p ++ c :: x := by
  induction t with
  | nil => exact List.dropWhile_cons_of_neg (by simp [hc])
  | cons d t ih =>
      rw [List.cons_append, List.dropWhile_cons, List.dropWhile_cons, ih]
      split <;> rfl

/-- `<<-?\s*` and nothing more. -/
def dangling : Text → Bool
  | '<' :: '<' :: t => (dropDash t).all isSpace
  | _ => false

theorem matchWord_newline (t x : Text) :
    matchWord (t ++ '\n' :: x) = (matchWord t).map fun m => (m.1, m.2 ++ '\n' :: x) := by
  have hnewline : isWordChar '\n' = false := by decide
  have hhead : ((t ++ '\n' :: x).head?).any isWordStart = (t.head?).any isWordStart := by
    cases t with
    | nil => rfl
    | cons c t => rfl
  unfold matchWord
  rw [hhead, takeWhile_append_cons hnewline, dropWhile_append_cons hnewline]
  split <;> rfl

theorem matchQuotable_newline (ht : t ≠ []) (x : Text) :
    matchQuotable (t ++ '\n' :: x) =
      (matchQuotable t).map fun m => (m.1, m.2 ++ '\n' :: x) := by
  cases t with
  | nil => exact absurd rfl ht
  | cons c t =>
      rw [List.cons_append, matchQuotable, matchQuotable]
      split
      next hquote =>
        rw [matchWord_newline]
        cases matchWord t with
        | none => rfl
        | some m =>
            obtain ⟨w, u⟩ := m
            cases u with
            | nil =>
                have hne : ¬some '\n' = some c := by
                  rintro ⟨⟩
                  cases hquote
                simp [hne]
            | cons d u =>
                by_cases hd : d = c <;> simp [hd]
      next => exact matchWord_newline (c :: t) x

theorem dropDash_newline (t x : Text) : dropDash (t ++ '\n' :: x) = dropDash t ++ '\n' :: x := by
  cases t with
  | nil => rfl
  | cons c t =>
      rw [dropDash, dropDash, List.cons_append, List.head?_cons, List.head?_cons]
      split <;> rfl

theorem dropWhile_eq_nil_iff {p : Char → Bool} : t.dropWhile p = [] ↔ t.all p = true := by
  rw [List.dropWhile_eq_nil_iff, List.all_eq_true]

theorem dropWhile_append_of_all {p : Char → Bool} (ht : t.all p = true) (x : Text) :
    (t ++ x).dropWhile p = x.dropWhile p := by
  rw [List.dropWhile_append, if_pos]
  rw [dropWhile_eq_nil_iff.mpr ht]
  rfl

theorem dropWhile_append_of_not_all {p : Char → Bool} (ht : t.all p = false) (x : Text) :
    (t ++ x).dropWhile p = t.dropWhile p ++ x := by
  rw [List.dropWhile_append, if_neg]
  rw [List.isEmpty_iff, dropWhile_eq_nil_iff, ht]
  exact Bool.false_ne_true

theorem matchOpener_newline (ht : t ≠ []) (hdangling : dangling t = false) (x : Text) :
    matchOpener (t ++ '\n' :: x) = (matchOpener t).map fun m => (m.1, m.2 ++ '\n' :: x) := by
  match t with
  | [] => exact absurd rfl ht
  | [c] =>
      by_cases hc : c = '<'
      · subst hc
        rfl
      · simp [matchOpener, hc]
  | c :: d :: t =>
      by_cases hcd : c = '<' ∧ d = '<'
      · obtain ⟨rfl, rfl⟩ := hcd
        rw [List.cons_append, List.cons_append, matchOpener_cons_cons, matchOpener_cons_cons,
          dropDash_newline, dropWhile_append_of_not_all hdangling]
        refine matchQuotable_newline (fun hnil => ?_) x
        rw [dropWhile_eq_nil_iff] at hnil
        rw [dangling, hnil] at hdangling
        cases hdangling
      · have hnone : ∀ u : Text, matchOpener (c :: d :: u) = none := by
          intro u
          unfold matchOpener
          split
          next heq =>
            cases heq
            exact absurd ⟨rfl, rfl⟩ hcd
          next => rfl
        rw [List.cons_append, List.cons_append, hnone, hnone]
        rfl

/-- What is missing of a dangling match is the next word. -/
theorem matchOpener_dangling (hdangling : dangling t = true) (x : Text) :
    matchOpener (t ++ '\n' :: x) = matchQuotable (x.dropWhile isSpace) := by
  unfold dangling at hdangling
  split at hdangling
  next t =>
    rw [List.cons_append, List.cons_append, matchOpener_cons_cons, dropDash_newline,
      dropWhile_append_of_all hdangling, List.dropWhile_cons_of_pos (by decide)]
  next => cases hdangling

/-- A match that goes beyond a newline is a dangling one before it. -/
theorem dangling_of_matchOpener (h : matchOpener (t ++ '\n' :: x) = some (w, r))
    (hnone : matchOpener t = none) : dangling t = true := by
  by_cases ht : t = []
  · subst ht
    cases h
  · refine Bool.of_not_eq_false fun hdangling => ?_
    rw [matchOpener_newline ht hdangling, hnone] at h
    cases h

theorem split_at_newline {rest : Text} (h : t.dropWhile (· ≠ '\n') = c :: rest) :
    t = t.takeWhile (· ≠ '\n') ++ '\n' :: rest := by
  have hc : c = '\n' := by
    have hhead := List.head?_dropWhile_not (fun c => decide (c ≠ '\n')) t
    rw [h] at hhead
    simpa using hhead
  have hsplit := List.takeWhile_append_dropWhile (p := fun c => decide (c ≠ '\n')) (l := t)
  rw [h, hc] at hsplit
  exact hsplit.symm

theorem stripRound_length {command next : Text} (h : stripRound command = .inr next) :
    next.length < command.length := by
  unfold stripRound at h
  split at h
  next => cases h
  next o ho =>
    obtain ⟨heq, r, hmatch⟩ := findOpener_eq_some ho
    split at h
    next => cases h
    next c rest hrest =>
      cases h
      have hsuffix := split_at_newline hrest
      generalize o.suffix.takeWhile (· ≠ '\n') = line at hsuffix ⊢
      rw [hsuffix] at hmatch heq
      rw [heq]
      have hline := (removeOpeners_sublist line).length_le
      have hbody : ((afterTerminator o.word true rest).getD []).length ≤ rest.length := by
        cases hend : afterTerminator o.word true rest with
        | none => exact Nat.zero_le _
        | some r' => exact (Nat.le_add_right _ _).trans (afterTerminator_suffix hend).2
      simp only [List.length_append, List.length_cons]
      cases hone : matchOpener line with
      | some m =>
          have hshorter := removeOpeners_length_lt hone
          omega
      | none =>
          -- The word stands behind the newline, so that something of it is dropped.
          have hquotable := matchOpener_dangling (dangling_of_matchOpener hmatch hone) rest
          obtain ⟨⟨taken, hword, hsub⟩, hne, -⟩ :=
            matchQuotable_eq_some (hquotable.symm.trans hmatch)
          have hrest : 0 < rest.length := by
            refine List.length_pos_of_ne_nil fun hnil => hne (List.subset_nil.mp ?_)
            subst hnil
            exact (List.append_eq_nil_iff.mp hword.symm).1 ▸ hsub
          have hstrict : ((afterTerminator o.word true rest).getD []).length < rest.length := by
            cases hend : afterTerminator o.word true rest with
            | none => exact hrest
            | some r' =>
                have hlength := (afterTerminator_suffix hend).2
                have hpos := List.length_pos_of_ne_nil hne
                simp only [Option.getD_some]
                omega
          omega

def stripHeredocs (command : Text) : Text :=
  match _h : stripRound command with
  | .inl result => result
  | .inr next => stripHeredocs next
termination_by command.length
decreasing_by exact stripRound_length _h

theorem stripHeredocs_of_inl {command result : Text} (h : stripRound command = .inl result) :
    stripHeredocs command = result := by
  rw [stripHeredocs]
  split
  next heq => exact Sum.inl.inj (heq.symm.trans h)
  next heq => cases heq.symm.trans h

theorem stripHeredocs_of_inr {command next : Text} (h : stripRound command = .inr next) :
    stripHeredocs command = stripHeredocs next := by
  rw [stripHeredocs]
  split
  next heq => cases heq.symm.trans h
  next heq => rw [Sum.inr.inj (heq.symm.trans h)]

/-! ## Targets -/

/-- `^(?:[0-9]*|&)(?:>>|>\|?)$` -/
def isWriteRedirection (op : Text) : Bool :=
  (if op.head? = some '&' then op.tail else op.dropWhile Char.isDigit) ∈
    [">>", ">", ">|"].map String.toList

def NOT_A_FILE : List Text :=
  ["/dev/null", "/dev/stdout", "/dev/stderr", "/dev/tty"].map String.toList

/-- The word a redirection writes to, where it names a file. -/
def redirectionTarget : List Token → Option Text
  | .word w :: _ =>
      if w.text.head? = some '&' then none
      else if w.text ∈ NOT_A_FILE then none
      else some w.text
  | _ => none

def redirectionTargets : List Token → List Text
  | [] => []
  | .word _ :: tokens => redirectionTargets tokens
  | .operator op :: tokens =>
      (if isWriteRedirection op then (redirectionTarget tokens).toList else []) ++
        redirectionTargets tokens

def Word.isFlag (w : Word) : Bool := !w.quoted && w.text.head? = some '-' && w.text ≠ ['-']

/-- `^[A-Za-z_][A-Za-z0-9_]*=` -/
def isAssignment (t : Text) : Bool :=
  (matchWord t).any fun m => m.2.head? = some '='

/-- An environment assignment, or a command that runs another. -/
def Word.isWrapper (w : Word) : Bool :=
  (!w.quoted && isAssignment w.text) ||
    w.text ∈ ["sudo", "command", "nohup", "time", "nice", "env"].map String.toList

def commandWords (words : List Word) : List Word := words.dropWhile Word.isWrapper

/-- The words behind the first, without flags and their values. -/
def operandsOf (valueFlags : List Text) : Bool → List Word → List Text
  | _, [] => []
  | true, _ :: words => operandsOf valueFlags false words
  | false, w :: words =>
      if w.isFlag then operandsOf valueFlags (w.text ∈ valueFlags) words
      else w.text :: operandsOf valueFlags false words

def ddTargets (words : List Word) : List Text :=
  ((words.filter fun w => "of=".toList.isPrefixOf w.text).map fun w => w.text.drop 3).filter
    fun t => t ≠ [] ∧ t ∉ NOT_A_FILE

/-- The words behind `git`. -/
def gitTargets : List Word → List Text
  | [] => []
  | subcommand :: words =>
      if subcommand.text = "restore".toList then
        operandsOf (["--source", "-s"].map String.toList) false words
      else if subcommand.text = "checkout".toList then
        (((subcommand :: words).dropWhile fun w => !(w.text = "--".toList && !w.quoted)).drop 1).map
          Word.text
      else []

/-- `^-[A-Za-z]*[eEf]$` -/
def isScriptCluster (t : Text) : Bool :=
  t.head? = some '-' && t.tail.all Char.isAlpha && t.tail.getLast?.any (· ∈ ['e', 'E', 'f'])

/-- The operands of an in-place editor, its script among them. -/
def inPlaceOperands (valueFlags : List Text) : Bool → List Word → List Text
  | _, [] => []
  | true, _ :: words => inPlaceOperands valueFlags false words
  | false, w :: words =>
      if w.isFlag then
        let suffix := w.text = "-i".toList && words.head?.any fun next =>
          next.quoted && (next.text = [] || next.text.head? = some '.')
        inPlaceOperands valueFlags (w.text ∈ valueFlags || isScriptCluster w.text || suffix) words
      else w.text :: inPlaceOperands valueFlags false words

def inPlaceTargets (valueFlags : List Text) (words : List Word) : List Text :=
  let flags := words.filter fun w => !w.quoted && w.text.head? = some '-'
  let inPlace := flags.any fun w => "-i".toList.isPrefixOf w.text ||
    w.text = "--in-place".toList || "--in-place=".toList.isPrefixOf w.text
  let scriptGiven := flags.any fun w => isScriptCluster w.text ||
    "--expression".toList.isPrefixOf w.text || "--file".toList.isPrefixOf w.text
  if inPlace then
    (inPlaceOperands valueFlags false words).drop (if scriptGiven then 0 else 1)
  else []

inductive Pick where
  | all
  | last
deriving DecidableEq

/-- How each command spends its operands. -/
def WRITERS : List (Text × Pick × List Text) :=
  [("tee", Pick.all, []),
   ("touch", .all, ["-d", "-r", "-t", "--date", "--reference"]),
   ("truncate", .all, ["-s", "--size", "-r", "--reference"]),
   ("rm", .all, []),
   ("unlink", .all, []),
   ("shred", .all, ["-n", "--iterations", "-s", "--size"]),
   ("mkdir", .all, ["-m", "--mode"]),
   ("rmdir", .all, []),
   ("cp", .last, ["-t", "--target-directory", "-S", "--suffix"]),
   ("install", .last, ["-t", "--target-directory", "-m", "-o", "-g"]),
   ("rsync", .last, ["-e", "--rsh", "--exclude"]),
   ("ln", .last, ["-t", "--target-directory", "-S", "--suffix"]),
   ("mv", .all, ["-t", "--target-directory", "-S", "--suffix"])].map
    fun e => (e.1.toList, e.2.1, e.2.2.map String.toList)

def IN_PLACE : List (Text × List Text) :=
  [("sed", ["-e", "--expression", "-f", "--file", "-l", "-E"]),
   ("perl", ["-e", "-E", "-M", "-m"]),
   ("ruby", ["-e", "-r"])].map fun e => (e.1.toList, e.2.map String.toList)

/-- What a command writes beside its redirections. -/
def wordTargets : List Word → List Text
  | [] => []
  | w :: words =>
      let name := w.text.rtakeWhile (· ≠ '/')
      if name = "dd".toList then ddTargets words
      else if name = "git".toList then gitTargets words
      else match IN_PLACE.lookup name with
        | some valueFlags => inPlaceTargets valueFlags words
        | none =>
            match WRITERS.lookup name with
            | some (.all, valueFlags) => operandsOf valueFlags false words
            | some (.last, valueFlags) => (operandsOf valueFlags false words).getLast?.toList
            | none => []

def words (simple : List Token) : List Word :=
  simple.filterMap fun
    | .word w => some w
    | .operator _ => none

def commandTargets (simple : List Token) : List Text :=
  redirectionTargets simple ++ wordTargets (commandWords (words simple))

/-- The targets that are files, each once. -/
def fileTargets (targets : List Text) : List Text :=
  (targets.filter fun t => t ≠ [] ∧ t ∉ NOT_A_FILE).eraseDups

def shellWriteTargets (command : Text) : List Text :=
  if command.trim = [] then []
  else match tokenize (stripHeredocs command) with
    | none => []
    | some tokens => fileTargets ((simpleCommands tokens).flatMap commandTargets)

/-! ## Reading on -/

/-- The reader when other tokens were read before. -/
def Reader.after (r : Reader) (tokens : List Token) : Reader :=
  { r with tokens := tokens ++ r.tokens }

theorem Reader.flush_after (r : Reader) (tokens : List Token) :
    (r.after tokens).flush = r.flush.after tokens := by
  unfold Reader.flush Reader.after
  simp only
  split
  · rw [List.append_assoc]
  · rfl

theorem Reader.push_after (r : Reader) (tokens : List Token) (op : Text) :
    (r.after tokens).push op = (r.push op).after tokens := by
  rw [Reader.push, Reader.push, Reader.after, Reader.after, List.append_assoc]

theorem Reader.read_after (r : Reader) (tokens : List Token) (c : Char) :
    (r.after tokens).read c = (r.read c).after tokens := by
  have hquoted : (r.after tokens).quoted = r.quoted := rfl
  have htext : (r.after tokens).text = r.text := rfl
  unfold Reader.read
  rw [Reader.flush_after, Reader.push_after, hquoted, htext]
  split_ifs <;> rfl

theorem Reader.step_after (r : Reader) (tokens : List Token) (c : Char) :
    (r.after tokens).step c = (r.step c).after tokens := by
  obtain ⟨old, text, started, quoted, mode⟩ := r
  cases mode with
  | plain => exact Reader.read_after _ tokens c
  | escaped => rfl
  | inside quote =>
      simp only [Reader.step, Reader.after]
      split <;> rfl
  | operator op =>
      simp only [Reader.step]
      change (if c ∈ _ then _ else ((Reader.after _ tokens).push op).read c) = _
      rw [Reader.push_after, Reader.read_after]
      split <;> rfl

theorem Reader.finish_after (r : Reader) (tokens : List Token) :
    (r.after tokens).finish = r.finish.map (tokens ++ ·) := by
  obtain ⟨old, text, started, quoted, mode⟩ := r
  cases mode with
  | plain => exact congrArg some (congrArg Reader.tokens (Reader.flush_after _ tokens))
  | escaped => rfl
  | inside quote => rfl
  | operator op =>
      simp only [Reader.finish, Option.map_some]
      change some ((Reader.after _ tokens).push op).flush.tokens = _
      rw [Reader.push_after, Reader.flush_after]
      rfl

theorem foldl_step_after (t : Text) (r : Reader) (tokens : List Token) :
    t.foldl Reader.step (r.after tokens) = (t.foldl Reader.step r).after tokens := by
  induction t generalizing r with
  | nil => rfl
  | cons c t ih => rw [List.foldl_cons, List.foldl_cons, Reader.step_after, ih]

/-- A newline ends what has been read, if it may end there. -/
theorem Reader.step_newline {r : Reader} {tokens : List Token} (h : r.finish = some tokens) :
    r.step '\n' = Reader.start.after (tokens ++ [.operator ['\n']]) := by
  obtain ⟨old, text, started, quoted, mode⟩ := r
  cases mode with
  | plain =>
      cases h
      simp [Reader.step, Reader.read, Reader.push, Reader.after, Reader.start, Reader.flush]
  | escaped => cases h
  | inside quote => cases h
  | operator op =>
      cases h
      simp [Reader.step, Reader.read, Reader.push, Reader.after, Reader.start, Reader.flush]

theorem tokenize_newline {s : Text} {tokens : List Token} (h : tokenize s = some tokens) (t : Text) :
    tokenize (s ++ '\n' :: t) =
      (tokenize t).map ((tokens ++ [.operator ['\n']]) ++ ·) := by
  rw [tokenize, List.foldl_append, List.foldl_cons, Reader.step_newline h, foldl_step_after,
    Reader.finish_after]
  rfl

theorem simpleCommands_newline (tokens more : List Token) :
    simpleCommands ((tokens ++ [.operator ['\n']]) ++ more) =
      simpleCommands tokens ++ simpleCommands more := by
  rw [simpleCommands, List.append_assoc, List.singleton_append,
    List.splitOnP_append_cons _ _ (by decide : Token.separates (.operator ['\n']) = true),
    List.filter_append]
  rfl

theorem fileTargets_append (ts us : List Text) :
    fileTargets (ts ++ us) = (fileTargets ts ++ fileTargets us).eraseDups := by
  rw [fileTargets, fileTargets, fileTargets, List.filter_append, eraseDups_append_eraseDups]

/-! ## Ordinary characters -/

/-- A character that means nothing but itself outside of quotes. -/
def Ordinary (c : Char) : Prop :=
  c ∉ ['\\', '\'', '"', ' ', '\t', '\n', ';', '&', '|', '>', '<']

instance (c : Char) : Decidable (Ordinary c) := inferInstanceAs (Decidable (_ ∉ _))

theorem Reader.read_ordinary (r : Reader) (hc : Ordinary c) :
    r.read c = { r with text := r.text ++ [c], started := true } := by
  simp only [Ordinary, List.mem_cons, List.not_mem_nil, or_false, not_or] at hc
  unfold Reader.read
  simp [hc]

theorem Reader.step_plain {r : Reader} (h : r.mode = .plain) (c : Char) : r.step c = r.read c := by
  unfold Reader.step
  split
  next => rfl
  next heq => cases h.symm.trans heq
  next heq => cases h.symm.trans heq
  next heq => cases h.symm.trans heq

theorem foldl_step_ordinary {r : Reader} (hmode : r.mode = .plain) (hne : t ≠ [])
    (ht : ∀ c ∈ t, Ordinary c) :
    t.foldl Reader.step r = { r with text := r.text ++ t, started := true } := by
  induction t generalizing r with
  | nil => exact absurd rfl hne
  | cons c t ih =>
      rw [List.forall_mem_cons] at ht
      have hstep : r.step c = { r with text := r.text ++ [c], started := true } :=
        (Reader.step_plain hmode c).trans (r.read_ordinary ht.1)
      rw [List.foldl_cons, hstep]
      cases t with
      | nil => rfl
      | cons d t =>
          rw [ih (by exact hmode) (List.cons_ne_nil d t) ht.2]
          simp only [List.append_assoc, List.singleton_append]

/-! ## Lengths -/

theorem stripHeredocs_sublist (command : Text) : (stripHeredocs command).Sublist command := by
  cases hround : stripRound command with
  | inr next =>
      have hlt := stripRound_length hround
      rw [stripHeredocs_of_inr hround]
      refine (stripHeredocs_sublist next).trans ?_
      unfold stripRound at hround
      split at hround
      next => cases hround
      next o ho =>
        split at hround
        next => cases hround
        next c rest hrest =>
          cases hround
          rw [(findOpener_eq_some ho).1, List.append_assoc]
          conv_rhs => rw [split_at_newline hrest]
          refine (List.Sublist.refl _).append ((removeOpeners_sublist _).append ?_)
          refine List.Sublist.cons_cons _ ?_
          cases hend : afterTerminator o.word true rest with
          | none => exact List.nil_sublist _
          | some r => exact (afterTerminator_suffix hend).1.sublist
  | inl result =>
      rw [stripHeredocs_of_inl hround]
      unfold stripRound at hround
      split at hround
      next =>
        cases hround
        exact List.Sublist.refl _
      next o ho =>
        split at hround
        next =>
          cases hround
          conv_rhs => rw [(findOpener_eq_some ho).1]
          exact (List.Sublist.refl _).append (removeOpeners_sublist _)
        next => cases hround
termination_by command.length

/-- No word is longer than what was read. -/
structure Reader.Bounded (r : Reader) (n : ℕ) : Prop where
  text : r.text.length ≤ n
  tokens : ∀ w, Token.word w ∈ r.tokens → w.text.length ≤ n

namespace Reader.Bounded

variable {r : Reader} {n : ℕ}

theorem flush (h : r.Bounded n) : r.flush.Bounded n where
  text := Nat.zero_le n
  tokens w hw := by
    unfold Reader.flush at hw
    split at hw
    · rcases List.mem_append.mp hw with hw | hw
      · exact h.tokens w hw
      · cases List.mem_singleton.mp hw
        exact h.text
    · exact h.tokens w hw

theorem push (h : r.Bounded n) (op : Text) : (r.push op).Bounded n where
  text := h.text
  tokens w hw := by
    rcases List.mem_append.mp hw with hw | hw
    · exact h.tokens w hw
    · cases List.mem_singleton.mp hw

theorem mono {m : ℕ} (h : r.Bounded n) (hle : n ≤ m) : r.Bounded m where
  text := h.text.trans hle
  tokens w hw := (h.tokens w hw).trans hle

theorem append (h : r.Bounded n) (c : Char) (started quoted : Bool) (mode : Mode) :
    Reader.Bounded ⟨r.tokens, r.text ++ [c], started, quoted, mode⟩ (n + 1) where
  text := by
    rw [List.length_append]
    exact Nat.add_le_add_right h.text 1
  tokens w hw := (h.tokens w hw).trans (Nat.le_succ n)

theorem read (h : r.Bounded n) (c : Char) : (r.read c).Bounded (n + 1) := by
  unfold Reader.read
  have hle := h.mono (Nat.le_succ n)
  split_ifs
  · exact ⟨hle.text, hle.tokens⟩
  · exact ⟨hle.text, hle.tokens⟩
  · exact hle.flush
  · exact hle.flush.push _
  · exact ⟨Nat.zero_le _, hle.tokens⟩
  · exact ⟨hle.flush.text, hle.flush.tokens⟩
  · exact h.append c true r.quoted r.mode

theorem step (h : r.Bounded n) (c : Char) : (r.step c).Bounded (n + 1) := by
  have hle := h.mono (Nat.le_succ n)
  unfold Reader.step
  split
  · exact h.read c
  · exact h.append c r.started r.quoted .plain
  · split
    · exact ⟨hle.text, hle.tokens⟩
    · exact h.append c r.started r.quoted r.mode
  · split
    · exact ⟨hle.text, hle.tokens⟩
    · exact (h.push _).read c

theorem foldl (h : r.Bounded n) (t : Text) : (t.foldl Reader.step r).Bounded (n + t.length) := by
  induction t generalizing r n with
  | nil => exact h
  | cons c t ih =>
      rw [List.foldl_cons, List.length_cons, ← Nat.add_assoc, Nat.add_right_comm]
      exact ih (h.step c)

end Reader.Bounded

theorem tokenize_length {tokens : List Token} (h : tokenize t = some tokens) {w : Word}
    (hw : .word w ∈ tokens) : w.text.length ≤ t.length := by
  have hstart : Reader.start.Bounded 0 := ⟨Nat.le_refl 0, nofun⟩
  have hread := hstart.foldl t
  rw [Nat.zero_add] at hread
  unfold tokenize Reader.finish at h
  split at h
  · cases h
    exact hread.flush.tokens w hw
  · cases h
    exact (hread.push _).flush.tokens w hw
  · cases h
  · cases h

end Acc.AdapterSdk.ShellWrites
