import AgentsCanCommunicate.AdapterSdk.ShellLines

/-!
# Quoted words

A word can be written in pieces: in single quotes, in double quotes with a backslash
before a double quote and a backslash, and unquoted with backslashes.  The reader takes
what is in double quotes as it stands, so a word with such a backslash is read wrong,
and no other is (`reads_iff`).

The pattern for here-documents is looked for in the whole text, quoted or not, so a
command is also asked to have no match of it.
-/

namespace Acc.AdapterSdk.ShellQuoting

open Library Text ShellWrites

/-! ## Writing words -/

inductive Piece where
  | single (text : Text)
  | double (text : Text)
  | escaped (c : Char)
  | bare (c : Char)

namespace Piece

def text : Piece → Text
  | .single text => text
  | .double text => text
  | .escaped c => [c]
  | .bare c => [c]

def quoted : Piece → Bool
  | .single _ => true
  | .double _ => true
  | .escaped _ => true
  | .bare _ => false

/-- A backslash before a double quote and a backslash. -/
def escapeDouble (text : Text) : Text :=
  text.flatMap fun c => if c = '"' ∨ c = '\\' then ['\\', c] else [c]

def render : Piece → Text
  | .single text => '\'' :: text ++ ['\'']
  | .double text => '"' :: escapeDouble text ++ ['"']
  | .escaped c => ['\\', c]
  | .bare c => [c]

/-- A single quote cannot stand in single quotes, a backslash before a newline joins
two lines, and what has a meaning of its own is not written bare. -/
def Writable : Piece → Prop
  | .single text => '\'' ∉ text
  | .double _ => True
  | .escaped c => c ≠ '\n'
  | .bare c => Ordinary c

/-- A backslash in double quotes. -/
def Escapes : Piece → Prop
  | .double text => '"' ∈ text ∨ '\\' ∈ text
  | _ => False

end Piece

/-- A word as it is written. -/
structure Writing where
  pieces : List Piece
  nonempty : pieces ≠ []
  writable : ∀ p ∈ pieces, p.Writable

namespace Writing

def word (w : Writing) : Word := ⟨w.pieces.flatMap Piece.text, w.pieces.any Piece.quoted⟩

def render (w : Writing) : Text := w.pieces.flatMap Piece.render

def Escapes (w : Writing) : Prop := ∃ p ∈ w.pieces, p.Escapes

end Writing

/-- Words and a redirection to a file. -/
def command (ws : List Writing) (target : Writing) : Text :=
  (ws.flatMap fun w => w.render ++ [' ']) ++ ('>' :: ' ' :: target.render)

def tokens (ws : List Writing) (target : Writing) : List Token :=
  ws.map (fun w => .word w.word) ++ [.operator ['>'], .word target.word]

def Token.bare : Token → Token
  | .word w => .word ⟨w.text, false⟩
  | .operator op => .operator op

/-- What the reader is to make of a command: the words, the target, and no other
redirection. -/
def Reads (ws : List Writing) (target : Writing) : Prop :=
  (∃ read, tokenize (stripHeredocs (command ws target)) = some read ∧
    read.map Token.bare = (tokens ws target).map Token.bare ∧
    (simpleCommands read).flatMap redirectionTargets = [target.word.text]) ∧
  target.word.text ∈ shellWriteTargets (command ws target)

/-- The target is the name of a file. -/
def NamesFile (target : Writing) : Prop :=
  target.word.text ≠ [] ∧ target.word.text ∉ NOT_A_FILE ∧ target.word.text.head? ≠ some '&'

/-! ## Reading a piece -/

variable {r : Reader} {p : Piece} {ws : List Writing} {w target : Writing} {t u : Text}

theorem foldl_step_inside {quote : Char} (hmode : r.mode = .inside quote) (ht : quote ∉ t) :
    t.foldl Reader.step r = { r with text := r.text ++ t } := by
  induction t generalizing r with
  | nil => simp
  | cons c t ih =>
      rw [List.mem_cons, not_or] at ht
      have hstep : r.step c = { r with text := r.text ++ [c] } := by
        unfold Reader.step
        rw [hmode]
        exact if_neg (Ne.symm ht.1)
      rw [List.foldl_cons, hstep, ih (by exact hmode) ht.2]
      simp

theorem step_close {quote : Char} (hmode : r.mode = .inside quote) :
    r.step quote = { r with mode := .plain } := by
  unfold Reader.step
  rw [hmode]
  exact if_pos rfl

theorem step_quote {quote : Char} (hquote : quote = '\'' ∨ quote = '"') (hmode : r.mode = .plain) :
    r.step quote = { r with started := true, quoted := true, mode := .inside quote } := by
  rw [Reader.step_plain hmode, Reader.read, if_neg, if_pos hquote]
  rcases hquote with rfl | rfl <;> decide

/-- What is in quotes is taken as it stands. -/
theorem foldl_step_quotes {quote : Char} (hquote : quote = '\'' ∨ quote = '"') (ht : quote ∉ t)
    (hmode : r.mode = .plain) :
    (quote :: t ++ [quote]).foldl Reader.step r =
      { r with text := r.text ++ t, started := true, quoted := true } := by
  rw [List.cons_append, List.foldl_cons, step_quote hquote hmode, List.foldl_append,
    foldl_step_inside rfl ht, List.foldl_cons, step_close rfl, ← hmode]
  rfl

/-- What the reader takes a piece for. -/
def Piece.read : Piece → Text
  | .double text => escapeDouble text
  | p => p.text

theorem Piece.foldl_step (hp : p.Writable) (hdouble : ∀ text, p = .double text → '"' ∉ text)
    (hmode : r.mode = .plain) :
    p.render.foldl Reader.step r =
      { r with text := r.text ++ p.read, started := true, quoted := r.quoted || p.quoted } := by
  cases p with
  | single text =>
      rw [Piece.render, foldl_step_quotes (.inl rfl) hp hmode]
      simp [Piece.read, Piece.text, Piece.quoted]
  | double text =>
      have hnotMem : '"' ∉ escapeDouble text := by
        intro hmem
        obtain ⟨c, hc, hmem⟩ := List.mem_flatMap.mp hmem
        have hne : c ≠ '"' := fun heq => hdouble text rfl (heq ▸ hc)
        split at hmem
        · rcases List.mem_cons.mp hmem with heq | hmem
          · cases heq
          · exact hne (List.mem_singleton.mp hmem).symm
        · exact hne (List.mem_singleton.mp hmem).symm
      rw [Piece.render, foldl_step_quotes (.inr rfl) hnotMem hmode]
      simp [Piece.read, Piece.quoted]
  | escaped c =>
      have hstep : r.step '\\' = { r with started := true, quoted := true, mode := .escaped } := by
        rw [Reader.step_plain hmode, Reader.read, if_pos rfl]
      rw [Piece.render, List.foldl_cons, hstep, List.foldl_cons, List.foldl_nil, Reader.step,
        ← hmode]
      simp [Piece.read, Piece.text, Piece.quoted]
  | bare c =>
      rw [Piece.render, List.foldl_cons, List.foldl_nil, Reader.step_plain hmode,
        Reader.read_ordinary r hp]
      simp [Piece.read, Piece.text, Piece.quoted]

/-! ## Words without an escape in double quotes -/

theorem Piece.read_of_not_escapes (hp : ¬p.Escapes) : p.read = p.text := by
  cases p with
  | double text =>
      rw [Piece.Escapes, not_or] at hp
      have hall : ∀ t : Text, '"' ∉ t → '\\' ∉ t → escapeDouble t = t := by
        intro t
        induction t with
        | nil => exact fun _ _ => rfl
        | cons c t ih =>
            intro hdouble hbackslash
            rw [List.mem_cons, not_or] at hdouble hbackslash
            have hc : ¬(c = '"' ∨ c = '\\') :=
              not_or.mpr ⟨Ne.symm hdouble.1, Ne.symm hbackslash.1⟩
            rw [escapeDouble, List.flatMap_cons, if_neg hc]
            exact congrArg (c :: ·) (ih hdouble.2 hbackslash.2)
      exact hall text hp.1 hp.2
  | single text => rfl
  | escaped c => rfl
  | bare c => rfl

theorem not_double_of_not_escapes (hp : ¬p.Escapes) : ∀ text, p = .double text → '"' ∉ text := by
  rintro text rfl hmem
  exact hp (.inl hmem)

theorem foldl_step_pieces {ps : List Piece} (hps : ∀ p ∈ ps, p.Writable) (hne : ps ≠ [])
    (hescapes : ¬∃ p ∈ ps, p.Escapes) (hmode : r.mode = .plain) :
    (ps.flatMap Piece.render).foldl Reader.step r =
      { r with
        text := r.text ++ ps.flatMap Piece.text
        started := true
        quoted := r.quoted || ps.any Piece.quoted } := by
  induction ps generalizing r with
  | nil => exact absurd rfl hne
  | cons p ps ih =>
      rw [List.forall_mem_cons] at hps
      rw [List.exists_mem_cons_iff, not_or] at hescapes
      have hone := Piece.foldl_step hps.1 (not_double_of_not_escapes hescapes.1) hmode
      rw [Piece.read_of_not_escapes hescapes.1] at hone
      rw [List.flatMap_cons, List.foldl_append, hone]
      cases ps with
      | nil => simp
      | cons q qs =>
          rw [ih hps.2 (List.cons_ne_nil q qs) hescapes.2 (by exact hmode)]
          simp [List.append_assoc, Bool.or_assoc]

theorem Writing.foldl_step (hw : ¬w.Escapes) (tokens : List Token) :
    w.render.foldl Reader.step (Reader.start.after tokens) =
      ⟨tokens, w.word.text, true, w.word.quoted, .plain⟩ := by
  rw [Writing.render, foldl_step_pieces w.writable w.nonempty hw rfl]
  simp [Reader.after, Reader.start, Writing.word]

theorem foldl_step_words (hws : ∀ w ∈ ws, ¬w.Escapes) (tokens : List Token) :
    (ws.flatMap fun w => w.render ++ [' ']).foldl Reader.step (Reader.start.after tokens) =
      Reader.start.after (tokens ++ ws.map fun w => .word w.word) := by
  induction ws generalizing tokens with
  | nil => rw [List.map_nil, List.append_nil]; rfl
  | cons w ws ih =>
      rw [List.forall_mem_cons] at hws
      have hspace : (⟨tokens, w.word.text, true, w.word.quoted, .plain⟩ : Reader).step ' ' =
          Reader.start.after (tokens ++ [.word w.word]) := by
        simp [Reader.step, Reader.read, Reader.flush, Reader.after, Reader.start]
      rw [List.flatMap_cons, List.foldl_append, List.foldl_append, Writing.foldl_step hws.1,
        List.foldl_cons, hspace, List.foldl_nil, ih hws.2, List.append_assoc]
      rfl

theorem foldl_step_redirection (tokens : List Token) :
    ['>', ' '].foldl Reader.step (Reader.start.after tokens) =
      Reader.start.after (tokens ++ [.operator ['>']]) := by
  simp [Reader.step, Reader.read, Reader.flush, Reader.push, Reader.after, Reader.start]

theorem tokenize_command (hws : ∀ w ∈ ws, ¬w.Escapes) (htarget : ¬target.Escapes) :
    tokenize (command ws target) = some (tokens ws target) := by
  have hwords := foldl_step_words hws []
  have hstart : Reader.start.after [] = Reader.start := rfl
  rw [hstart, List.nil_append] at hwords
  rw [tokenize, command, List.foldl_append, hwords, List.foldl_cons, List.foldl_cons]
  have hredirection := foldl_step_redirection (ws.map fun w => .word w.word)
  rw [List.foldl_cons, List.foldl_cons, List.foldl_nil] at hredirection
  rw [hredirection, Writing.foldl_step htarget]
  simp [Reader.finish, Reader.flush, tokens]

/-! ## Words with an escape -/

theorem tokens_flush (r : Reader) : r.tokens <+: r.flush.tokens := by
  unfold Reader.flush
  simp only
  split
  · exact List.prefix_append _ _
  · exact List.prefix_refl _

theorem tokens_read (r : Reader) (c : Char) : r.tokens <+: (r.read c).tokens := by
  have hflush := tokens_flush r
  unfold Reader.read
  split_ifs
  · exact List.prefix_refl _
  · exact List.prefix_refl _
  · exact hflush
  · exact hflush.trans (List.prefix_append _ _)
  · exact List.prefix_refl _
  · exact hflush
  · exact List.prefix_refl _

/-- What has been read stays read. -/
theorem tokens_step (r : Reader) (c : Char) : r.tokens <+: (r.step c).tokens := by
  unfold Reader.step
  split
  · exact tokens_read r c
  · exact List.prefix_refl _
  · split <;> exact List.prefix_refl _
  · split
    · exact List.prefix_refl _
    · exact (List.prefix_append _ _).trans (tokens_read (r.push _) c)

/-- The reader is inside a quoted word that begins with `u`, or has read one. -/
inductive Begins (old : List Token) (u : Text) (r : Reader) : Prop where
  | inside (htokens : r.tokens = old) (hstarted : r.started = true) (hquoted : r.quoted = true)
      (hmode : ∀ op, r.mode ≠ .operator op) (htext : u <+: r.text)
  | behind (v : Text) (htokens : old ++ [.word ⟨u ++ v, true⟩] <+: r.tokens)

namespace Begins

variable {old : List Token}

theorem flush (h : Begins old u r) : ∃ v, old ++ [.word ⟨u ++ v, true⟩] <+: r.flush.tokens := by
  cases h with
  | inside htokens hstarted hquoted hmode htext =>
      obtain ⟨v, hv⟩ := htext
      refine ⟨v, ?_⟩
      rw [Reader.flush, htokens, hstarted, hquoted, hv]
      exact List.prefix_refl _
  | behind v htokens => exact ⟨v, htokens.trans (tokens_flush r)⟩

theorem step (h : Begins old u r) (c : Char) : Begins old u (r.step c) := by
  cases h with
  | behind v htokens => exact .behind v (htokens.trans (tokens_step r c))
  | inside htokens hstarted hquoted hmode htext =>
      have happend : u <+: r.text ++ [c] := htext.trans (List.prefix_append _ _)
      obtain ⟨v, hflush⟩ := Begins.flush (.inside htokens hstarted hquoted hmode htext)
      unfold Reader.step
      split
      next hplain =>
        unfold Reader.read
        split_ifs with _ _ _ _ _ hstarts
        · exact .inside htokens rfl rfl nofun htext
        · exact .inside htokens rfl rfl nofun htext
        · exact .behind v hflush
        · exact .behind v (hflush.trans (List.prefix_append _ _))
        · rw [hquoted] at hstarts
          cases hstarts.1
        · exact .behind v hflush
        · exact .inside htokens rfl hquoted hmode happend
      next => exact .inside htokens hstarted hquoted nofun happend
      next =>
        split
        · exact .inside htokens hstarted hquoted nofun htext
        · exact .inside htokens hstarted hquoted hmode happend
      next op hop => exact absurd hop (hmode op)

theorem foldl (h : Begins old u r) (t : Text) : Begins old u (t.foldl Reader.step r) := by
  induction t generalizing r with
  | nil => exact h
  | cons c t ih => exact ih (h.step c)

theorem finish (h : Begins old u r) {read : List Token} (hread : r.finish = some read) :
    ∃ v, old ++ [.word ⟨u ++ v, true⟩] <+: read := by
  unfold Reader.finish at hread
  split at hread
  next =>
    cases hread
    exact h.flush
  next op hop =>
    cases hread
    cases h with
    | inside htokens hstarted hquoted hmode htext => exact absurd hop (hmode op)
    | behind v htokens =>
        exact ⟨v, (htokens.trans (List.prefix_append _ _)).trans (tokens_flush (r.push op))⟩
  next => cases hread
  next => cases hread

end Begins

theorem escapeDouble_cons (c : Char) (t : Text) : Piece.escapeDouble (c :: t) =
    (if c = '"' ∨ c = '\\' then ['\\', c] else [c]) ++ Piece.escapeDouble t :=
  List.flatMap_cons

theorem escapeDouble_spec (t : Text) :
    (Piece.escapeDouble t).count '"' = t.count '"' ∧ t.length ≤ (Piece.escapeDouble t).length ∧
      ('"' ∈ t ∨ '\\' ∈ t → t.length < (Piece.escapeDouble t).length) := by
  induction t with
  | nil => exact ⟨rfl, Nat.le_refl _, by simp⟩
  | cons c t ih =>
      obtain ⟨hcount, hle, hlt⟩ := ih
      rw [escapeDouble_cons]
      by_cases hc : c = '"' ∨ c = '\\'
      · rw [if_pos hc]
        refine ⟨?_, ?_, fun _ => ?_⟩
        · rw [List.count_append, hcount, List.count_cons, List.count_cons, List.count_nil,
            List.count_cons]
          simp [Nat.add_comm]
        · simp only [List.length_append, List.length_cons, List.length_nil]
          omega
        · simp only [List.length_append, List.length_cons, List.length_nil]
          omega
      · rw [if_neg hc]
        rw [not_or] at hc
        refine ⟨?_, ?_, fun h => ?_⟩
        · rw [List.singleton_append, List.count_cons, List.count_cons, hcount]
        · simp only [List.length_append, List.length_cons, List.length_nil]
          omega
        · have hmem : '"' ∈ t ∨ '\\' ∈ t := by
            rw [List.mem_cons, List.mem_cons, or_iff_right (Ne.symm hc.1),
              or_iff_right (Ne.symm hc.2)] at h
            exact h
          have hshorter := hlt hmem
          simp only [List.length_append, List.length_cons, List.length_nil]
          omega

/-- A piece is read as itself, with more backslashes. -/
theorem Piece.read_spec (p : Piece) :
    p.read.count '"' = p.text.count '"' ∧ p.text.length ≤ p.read.length ∧
      (p.Escapes → p.text.length < p.read.length) := by
  cases p with
  | double text => exact escapeDouble_spec text
  | single text => exact ⟨rfl, Nat.le_refl _, nofun⟩
  | escaped c => exact ⟨rfl, Nat.le_refl _, nofun⟩
  | bare c => exact ⟨rfl, Nat.le_refl _, nofun⟩

/-- A text that has a backslash where the other has a double quote is no beginning of it,
when both have the same double quotes before. -/
theorem not_prefix_of_count {x y z : Text} (hcount : x.count '"' = y.count '"')
    (hle : y.length ≤ x.length) : ¬x ++ ['\\'] <+: y ++ '"' :: z := by
  intro h
  have hquote : y ++ ['"'] <+: y ++ '"' :: z := ⟨z, by simp⟩
  have hbefore : y ++ ['"'] <+: x ++ ['\\'] :=
    List.prefix_of_prefix_length_le hquote h (by simpa using hle)
  have hcounts := hbefore.sublist.count_le '"'
  rw [List.count_append, List.count_append, hcount] at hcounts
  simp at hcounts

/-- A reader that has begun to misread a word. -/
def Misreads (old : List Token) (text : Text) (r : Reader) : Prop :=
  ∃ u, ¬u <+: text ∧ Begins old u r

theorem misreads_pieces {ps : List Piece} {before : Text} (hps : ∀ p ∈ ps, p.Writable)
    (hmode : r.mode = .plain) (hcount : r.text.count '"' = before.count '"')
    (hle : before.length ≤ r.text.length)
    (hescapes : (before.length < r.text.length ∧ r.started = true ∧ r.quoted = true) ∨
      ∃ p ∈ ps, p.Escapes) :
    Misreads r.tokens (before ++ ps.flatMap Piece.text)
      ((ps.flatMap Piece.render).foldl Reader.step r) := by
  induction ps generalizing r before with
  | nil =>
      rcases hescapes with ⟨hlt, hstarted, hquoted⟩ | ⟨p, hp, -⟩
      · refine ⟨r.text, fun h => ?_, .inside rfl hstarted hquoted (fun op hop => ?_)
          (List.prefix_refl _)⟩
        · have hlength := h.length_le
          rw [List.flatMap_nil, List.append_nil] at hlength
          omega
        · cases hmode.symm.trans hop
      · cases hp
  | cons p ps ih =>
      rw [List.forall_mem_cons] at hps
      rw [List.flatMap_cons, List.flatMap_cons, List.foldl_append, ← List.append_assoc]
      by_cases hdouble : ∀ text, p = .double text → '"' ∉ text
      · have hone := Piece.foldl_step hps.1 hdouble hmode
        obtain ⟨hcount', hle', hlt'⟩ := Piece.read_spec p
        rw [hone]
        refine ih (r := ⟨r.tokens, r.text ++ p.read, true, r.quoted || p.quoted, r.mode⟩) hps.2 hmode
          ?_ ?_ ?_
        · rw [List.count_append, List.count_append, hcount, hcount']
        · rw [List.length_append, List.length_append]
          omega
        · rw [List.length_append, List.length_append]
          rcases hescapes with ⟨hlt, -, hquoted⟩ | ⟨q, hq, hqescapes⟩
          · exact .inl ⟨by omega, rfl, by rw [hquoted]; rfl⟩
          · rcases List.mem_cons.mp hq with rfl | hq
            · have hquoted : q.quoted = true := by
                cases q with
                | double text => rfl
                | single text => rfl
                | escaped c => rfl
                | bare c => cases hqescapes
              have hshorter := hlt' hqescapes
              exact .inl ⟨by omega, rfl, by rw [hquoted, Bool.or_true]⟩
            · exact .inr ⟨q, hq, hqescapes⟩
      · -- The reader takes the quotes to end behind the backslash.
        obtain ⟨text, hdouble⟩ := not_forall.mp hdouble
        obtain ⟨rfl, hmem⟩ := Classical.not_imp.mp hdouble
        obtain ⟨front, rest, rfl, hfront⟩ := List.eq_append_cons_of_mem (not_not.mp hmem)
        have hnotMem : '"' ∉ Piece.escapeDouble front := by
          rw [← List.count_eq_zero, (escapeDouble_spec front).1, List.count_eq_zero]
          exact hfront
        have hrender : (Piece.double (front ++ '"' :: rest)).render =
            ('"' :: Piece.escapeDouble front ++ ['\\']) ++
              ('"' :: Piece.escapeDouble rest ++ ['"']) := by
          simp [Piece.render, Piece.escapeDouble]
        have hread : ('"' :: Piece.escapeDouble front ++ ['\\']).foldl Reader.step r =
            ⟨r.tokens, r.text ++ Piece.escapeDouble front ++ ['\\'], true, true, .inside '"'⟩ := by
          rw [List.cons_append, List.foldl_cons, step_quote (.inr rfl) hmode, foldl_step_inside rfl]
          · rw [List.append_assoc]
          · rw [List.mem_append, not_or]
            exact ⟨hnotMem, by decide⟩
        rw [hrender, List.foldl_append, hread]
        refine ⟨r.text ++ Piece.escapeDouble front ++ ['\\'], ?_, ?_⟩
        · have hlonger := (escapeDouble_spec front).2.1
          have htext : before ++ (Piece.double (front ++ '"' :: rest)).text ++
              ps.flatMap Piece.text = (before ++ front) ++ '"' :: (rest ++ ps.flatMap Piece.text) := by
            simp [Piece.text]
          rw [htext]
          refine not_prefix_of_count ?_ ?_
          · rw [List.count_append, List.count_append, hcount, (escapeDouble_spec front).1]
          · rw [List.length_append, List.length_append]
            omega
        · have hinside : Begins r.tokens (r.text ++ Piece.escapeDouble front ++ ['\\'])
              ⟨r.tokens, r.text ++ Piece.escapeDouble front ++ ['\\'], true, true, .inside '"'⟩ :=
            .inside rfl rfl rfl (fun op => nofun) (List.prefix_refl _)
          exact (hinside.foldl _).foldl _

theorem Misreads.foldl {old : List Token} {text : Text} (h : Misreads old text r) (t : Text) :
    Misreads old text (t.foldl Reader.step r) := by
  obtain ⟨u, hu, hbegins⟩ := h
  exact ⟨u, hu, hbegins.foldl t⟩

theorem Writing.misreads (hw : w.Escapes) (tokens : List Token) :
    Misreads tokens w.word.text (w.render.foldl Reader.step (Reader.start.after tokens)) := by
  have htokens : (Reader.start.after tokens).tokens = tokens := List.append_nil tokens
  have hread := misreads_pieces (r := Reader.start.after tokens) w.writable rfl rfl
    (Nat.le_refl _) (.inr hw)
  rw [htokens] at hread
  exact hread

/-- Some word or the target is misread. -/
theorem misreads_command (h : (∃ w ∈ ws, w.Escapes) ∨ target.Escapes) :
    ∃ old w, Misreads old w.text ((command ws target).foldl Reader.step .start) ∧
      ∃ rest, tokens ws target = old ++ .word w :: rest := by
  have hstart : Reader.start.after [] = Reader.start := rfl
  by_cases hws : ∃ w ∈ ws, w.Escapes
  · have hsplit : ∃ front w rest, ws = front ++ w :: rest ∧ w.Escapes ∧ ∀ v ∈ front, ¬v.Escapes := by
      classical
      have hsome : (ws.find? fun w => decide w.Escapes).isSome = true := by
        obtain ⟨w, hw, hescapes⟩ := hws
        exact List.find?_isSome.mpr ⟨w, hw, decide_eq_true hescapes⟩
      obtain ⟨w, hfind⟩ := Option.isSome_iff_exists.mp hsome
      obtain ⟨hescapes, front, rest, heq, hfront⟩ := List.find?_eq_some_iff_append.mp hfind
      refine ⟨front, w, rest, heq, of_decide_eq_true hescapes, fun v hv => ?_⟩
      simpa using hfront v hv
    obtain ⟨front, w, rest, rfl, hw, hfront⟩ := hsplit
    have hwords := foldl_step_words hfront []
    rw [hstart, List.nil_append] at hwords
    refine ⟨front.map fun w => .word w.word, w.word, ?_, ?_⟩
    · rw [command, List.flatMap_append, List.flatMap_cons, List.foldl_append, List.foldl_append,
        hwords, List.foldl_append, List.foldl_append]
      exact (((Writing.misreads hw _).foldl _).foldl _).foldl _
    · exact ⟨rest.map (fun w => .word w.word) ++ [.operator ['>'], .word target.word],
        by simp [tokens]⟩
  · have htarget := h.resolve_left hws
    have hgood : ∀ w ∈ ws, ¬w.Escapes := fun w hw hescapes => hws ⟨w, hw, hescapes⟩
    have hwords := foldl_step_words hgood []
    have hredirection := foldl_step_redirection (ws.map fun w => .word w.word)
    rw [hstart, List.nil_append] at hwords
    rw [List.foldl_cons, List.foldl_cons, List.foldl_nil] at hredirection
    refine ⟨ws.map (fun w => .word w.word) ++ [.operator ['>']], target.word, ?_, [], ?_⟩
    · rw [command, List.foldl_append, hwords, List.foldl_cons, List.foldl_cons, hredirection]
      exact Writing.misreads htarget _
    · simp [tokens]

/-- A misread word is not recovered. -/
theorem not_recovered (h : (∃ w ∈ ws, w.Escapes) ∨ target.Escapes) {read : List Token}
    (hread : tokenize (command ws target) = some read) :
    read.map Token.bare ≠ (tokens ws target).map Token.bare := by
  obtain ⟨old, w, ⟨u, hu, hbegins⟩, rest, htokens⟩ := misreads_command h
  obtain ⟨v, more, rfl⟩ := hbegins.finish hread
  intro heq
  rw [htokens, List.map_append, List.map_append, List.map_append, List.append_assoc] at heq
  have hword : Token.bare (.word ⟨u ++ v, true⟩) = Token.bare (.word w) :=
    (List.cons.inj (List.append_cancel_left heq)).1
  have htext : u ++ v = w.text := congrArg Word.text (Token.word.inj hword)
  exact hu (htext ▸ List.prefix_append u v)

/-! ## Here-documents in quotes

Dropping what the pattern matches takes letters out of the text, and every letter of
the text is one of a word. -/

/-- How often a character stands in the words. -/
def wordCount (c : Char) (tokens : List Token) : ℕ :=
  (tokens.map fun
    | .word w => w.text.count c
    | .operator _ => 0).sum

theorem wordCount_append (c : Char) (ts us : List Token) :
    wordCount c (ts ++ us) = wordCount c ts + wordCount c us := by
  rw [wordCount, List.map_append, List.sum_append]
  rfl

theorem wordCount_bare (c : Char) (ts : List Token) :
    wordCount c (ts.map Token.bare) = wordCount c ts := by
  rw [wordCount, List.map_map]
  refine congrArg List.sum (List.map_congr_left fun token _ => ?_)
  cases token with
  | word w => rfl
  | operator op => rfl

/-- What the reader has of a character. -/
def held (c : Char) (r : Reader) : ℕ := wordCount c r.tokens + r.text.count c

theorem held_flush (c : Char) (r : Reader) : held c r.flush ≤ held c r := by
  unfold Reader.flush held
  simp only
  split
  · rw [wordCount_append]
    simp [wordCount]
  · simp

theorem held_push (c : Char) (r : Reader) (op : Text) : held c (r.push op) = held c r := by
  rw [held, held, Reader.push, wordCount_append]
  rfl

theorem held_append (c d : Char) (r : Reader) (started quoted : Bool) (mode : Mode) :
    held c ⟨r.tokens, r.text ++ [d], started, quoted, mode⟩ = held c r + [d].count c := by
  rw [held, held, List.count_append, Nat.add_assoc]

theorem held_read (c d : Char) (r : Reader) : held c (r.read d) ≤ held c r + [d].count c := by
  have hflush := held_flush c r
  unfold Reader.read
  split_ifs
  · exact Nat.le_add_right _ _
  · exact Nat.le_add_right _ _
  · exact hflush.trans (Nat.le_add_right _ _)
  · rw [held_push]
    exact hflush.trans (Nat.le_add_right _ _)
  · exact (Nat.add_le_add_left (Nat.zero_le _) _).trans (Nat.le_add_right _ _)
  · exact hflush.trans (Nat.le_add_right _ _)
  · exact (held_append c d r true r.quoted r.mode).le

theorem held_step (c d : Char) (r : Reader) : held c (r.step d) ≤ held c r + [d].count c := by
  unfold Reader.step
  split
  · exact held_read c d r
  · exact (held_append c d r r.started r.quoted .plain).le
  · split
    · exact Nat.le_add_right _ _
    · exact (held_append c d r r.started r.quoted r.mode).le
  · split
    · exact Nat.le_add_right _ _
    · exact (held_read c d _).trans (Nat.add_le_add_right (held_push c r _).le _)

theorem held_foldl (c : Char) (t : Text) (r : Reader) :
    held c (t.foldl Reader.step r) ≤ held c r + t.count c := by
  induction t generalizing r with
  | nil => exact Nat.le_refl _
  | cons d t ih =>
      have hcount : (d :: t).count c = [d].count c + t.count c :=
        @List.count_append _ _ c [d] t
      rw [List.foldl_cons, hcount, ← Nat.add_assoc]
      exact (ih _).trans (Nat.add_le_add_right (held_step c d r) _)

theorem wordCount_tokenize (c : Char) {read : List Token} (h : tokenize t = some read) :
    wordCount c read ≤ t.count c := by
  have hheld := held_foldl c t .start
  rw [show held c Reader.start = 0 from rfl, Nat.zero_add] at hheld
  have hflush : ∀ r : Reader, wordCount c r.flush.tokens ≤ held c r :=
    fun r => (Nat.le_add_right _ _).trans (held_flush c r)
  unfold tokenize Reader.finish at h
  split at h
  next =>
    cases h
    exact (hflush _).trans hheld
  next op _ =>
    cases h
    exact ((hflush _).trans (held_push c _ op).le).trans hheld
  next => cases h
  next => cases h

theorem count_escapeDouble {c : Char} (hc : c ≠ '\\') (t : Text) :
    (Piece.escapeDouble t).count c = t.count c := by
  induction t with
  | nil => rfl
  | cons d t ih =>
      have hone : (if d = '"' ∨ d = '\\' then ['\\', d] else [d]).count c = [d].count c := by
        split
        · exact List.count_cons_of_ne (Ne.symm hc)
        · rfl
      rw [escapeDouble_cons, List.count_append, ih, hone]
      exact (@List.count_append _ _ c [d] t).symm

/-- Every letter of a command is one of a word. -/
theorem count_command {c : Char} (hc : c ∉ ['\'', '"', '\\', ' ', '>']) :
    (command ws target).count c = wordCount c (tokens ws target) := by
  simp only [List.mem_cons, List.not_mem_nil, or_false, not_or] at hc
  obtain ⟨hsingle, hdouble, hbackslash, hspace, hgreater⟩ := hc
  have hpiece : ∀ p : Piece, p.render.count c = p.text.count c := by
    intro p
    cases p with
    | single text => simp [Piece.render, Piece.text, Ne.symm hsingle]
    | double text =>
        simp [Piece.render, Piece.text, Ne.symm hdouble, count_escapeDouble hbackslash]
    | escaped d => simp [Piece.render, Piece.text, List.count_cons, Ne.symm hbackslash]
    | bare d => rfl
  have hpieces : ∀ ps : List Piece,
      (ps.flatMap Piece.render).count c = (ps.flatMap Piece.text).count c := by
    intro ps
    induction ps with
    | nil => rfl
    | cons p ps ih =>
        rw [List.flatMap_cons, List.flatMap_cons, List.count_append, List.count_append, hpiece, ih]
  have hword : ∀ w : Writing, w.render.count c = w.word.text.count c := fun w => hpieces w.pieces
  have hwords : (ws.flatMap fun w => w.render ++ [' ']).count c =
      wordCount c (ws.map fun w => .word w.word) := by
    induction ws with
    | nil => rfl
    | cons w ws ih =>
        rw [List.flatMap_cons, List.count_append, List.count_append, ih, hword]
        simp [wordCount, Ne.symm hspace]
  rw [command, List.count_append, hwords, tokens, wordCount_append]
  simp [wordCount, hword, Ne.symm hspace, Ne.symm hgreater]

/-- Where a here-document is found, a letter of its word is dropped. -/
theorem count_stripHeredocs {o : Opener} (h : findOpener t = some o) :
    ∃ c, isWordChar c = true ∧ (stripHeredocs t).count c < t.count c := by
  obtain ⟨heq, r, hmatch⟩ := findOpener_eq_some h
  obtain ⟨-, hne, hall⟩ := matchOpener_eq_some hmatch
  obtain ⟨c, hc⟩ := List.exists_mem_of_ne_nil _ hne
  refine ⟨c, hall c hc, ?_⟩
  -- A match that is taken away takes the letter with it.
  have htaken : ∀ {t r : Text}, matchOpener t = some (o.word, r) →
      (removeOpeners t).count c < t.count c := by
    intro t r hmatch
    obtain ⟨⟨taken, rfl, hsub⟩, -⟩ := matchOpener_eq_some hmatch
    have hle := (removeOpeners_of_match hmatch).count_le c
    have hpos : 0 < taken.count c := List.count_pos_iff.mpr (hsub hc)
    rw [List.count_append]
    omega
  cases hline : o.suffix.dropWhile (· ≠ '\n') with
  | nil =>
      have hround : stripRound t = .inl (o.before ++ removeOpeners o.suffix) := by
        rw [stripRound, h]
        simp only [hline]
      rw [stripHeredocs_of_inl hround, heq, List.count_append, List.count_append]
      exact Nat.add_lt_add_left (htaken hmatch) _
  | cons d rest =>
      have hsplit := split_at_newline hline
      have hd : d = '\n' := by
        have hhead := List.head?_dropWhile_not (fun c => decide (c ≠ '\n')) o.suffix
        rw [hline] at hhead
        simpa using hhead
      rw [hd] at hline
      have hround := ShellLines.stripRound_body h hline
      have hnext := (stripHeredocs_sublist (o.before ++ removeOpeners
        (o.suffix.takeWhile (· ≠ '\n')) ++ '\n' :: (afterTerminator o.word true rest).getD
          [])).count_le c
      rw [stripHeredocs_of_inr hround]
      refine Nat.lt_of_le_of_lt hnext ?_
      generalize o.suffix.takeWhile (· ≠ '\n') = line at hsplit ⊢
      have hbody : ((afterTerminator o.word true rest).getD []).count c ≤ rest.count c := by
        cases hend : afterTerminator o.word true rest with
        | none => exact Nat.zero_le _
        | some r' => exact (afterTerminator_suffix hend).1.sublist.count_le c
      rw [hsplit] at hmatch heq
      rw [heq]
      simp only [List.count_append, List.count_cons]
      have hkept := (removeOpeners_sublist line).count_le c
      cases hone : matchOpener line with
      | some m =>
          have hne' : line ≠ [] := by
            rintro rfl
            cases hone
          have hdangling : dangling line = false := by
            refine Bool.of_not_eq_true fun htrue => ?_
            rw [ShellLines.matchOpener_of_dangling htrue] at hone
            cases hone
          have hword := (matchOpener_newline hne' hdangling rest).symm.trans hmatch
          rw [hone, Option.map_some, Option.some.injEq, Prod.mk.injEq] at hword
          have hless := htaken (t := line) (r := m.2) (by rw [hone, ← hword.1])
          omega
      | none =>
          -- The word stands behind the newline.
          have hquotable := matchOpener_dangling (dangling_of_matchOpener hmatch hone) rest
          obtain ⟨⟨taken, hword, hsub⟩, -⟩ := matchQuotable_eq_some (hquotable.symm.trans hmatch)
          have hmem : c ∈ rest := by
            have hbehind : c ∈ rest.dropWhile isSpace := by
              rw [hword]
              exact List.mem_append_left _ (hsub hc)
            exact (List.dropWhile_suffix isSpace).subset hbehind
          have hstrict : ((afterTerminator o.word true rest).getD []).count c < rest.count c := by
            cases hend : afterTerminator o.word true rest with
            | none => exact List.count_pos_iff.mpr hmem
            | some r' =>
                obtain ⟨taken', rfl, hpart⟩ := afterTerminator_eq_some hend
                have hpos : 0 < taken'.count c := List.count_pos_iff.mpr (hpart.subset hc)
                rw [Option.getD_some, List.count_append]
                omega
          omega

/-! ## When a command is read -/

theorem simpleCommands_tokens : simpleCommands (tokens ws target) = [tokens ws target] := by
  have hnone : ∀ token ∈ tokens ws target, token.separates = false := by
    intro token htoken
    rw [tokens, List.mem_append, List.mem_map] at htoken
    rcases htoken with ⟨w, -, rfl⟩ | htoken
    · rfl
    · rcases List.mem_cons.mp htoken with rfl | htoken
      · rfl
      · rw [List.mem_singleton.mp htoken]
        rfl
  rw [simpleCommands, List.splitOnP_eq_singleton hnone]
  exact List.filter_cons_of_pos (by simp [tokens])

theorem redirectionTargets_tokens :
    redirectionTargets (tokens ws target) = (redirectionTarget [.word target.word]).toList := by
  rw [tokens]
  induction ws with
  | nil => exact List.append_nil _
  | cons w ws ih => exact ih

theorem redirectionTarget_eq_some :
    redirectionTarget [.word target.word] = some target.word.text ↔
      target.word.text.head? ≠ some '&' ∧ target.word.text ∉ NOT_A_FILE := by
  rw [redirectionTarget]
  split_ifs with hhead hsink
  · exact ⟨nofun, fun h => absurd hhead h.1⟩
  · exact ⟨nofun, fun h => absurd hsink h.2⟩
  · exact ⟨fun _ => ⟨hhead, hsink⟩, fun _ => rfl⟩

theorem shellWriteTargets_file {c : Text} (h : t ∈ shellWriteTargets c) :
    t ≠ [] ∧ t ∉ NOT_A_FILE := by
  rw [ShellLines.shellWriteTargets_eq, fileTargets, List.mem_eraseDups, List.mem_filter,
    decide_eq_true_eq] at h
  exact h.2

/-- A command is read as it is meant exactly when nothing is escaped in double quotes,
nothing looks like a here-document, and the target is the name of a file. -/
theorem reads_iff (ws : List Writing) (target : Writing) :
    Reads ws target ↔ (∀ w ∈ ws, ¬w.Escapes) ∧ ¬target.Escapes ∧
      findOpener (command ws target) = none ∧ NamesFile target := by
  constructor
  · rintro ⟨⟨read, hread, hwords, hredirections⟩, htarget⟩
    have hopener : findOpener (command ws target) = none := by
      cases hfind : findOpener (command ws target) with
      | none => rfl
      | some o =>
          obtain ⟨c, hc, hlt⟩ := count_stripHeredocs hfind
          have hletter : c ∉ ['\'', '"', '\\', ' ', '>'] := by
            intro hmem
            simp only [List.mem_cons, List.not_mem_nil, or_false] at hmem
            rcases hmem with rfl | rfl | rfl | rfl | rfl <;> cases hc
          have hheld := wordCount_tokenize c hread
          rw [← wordCount_bare, hwords, wordCount_bare, ← count_command hletter] at hheld
          omega
    have hstrip : stripHeredocs (command ws target) = command ws target :=
      stripHeredocs_of_inl (by rw [stripRound, hopener])
    rw [hstrip] at hread
    have hgood : ¬((∃ w ∈ ws, w.Escapes) ∨ target.Escapes) :=
      fun hescapes => not_recovered hescapes hread hwords
    rw [not_or] at hgood
    have hws : ∀ w ∈ ws, ¬w.Escapes := fun w hw hescapes => hgood.1 ⟨w, hw, hescapes⟩
    obtain rfl : tokens ws target = read :=
      Option.some.inj ((tokenize_command hws hgood.2).symm.trans hread)
    rw [simpleCommands_tokens, List.flatMap_singleton, redirectionTargets_tokens] at hredirections
    have hone : redirectionTarget [.word target.word] = some target.word.text := by
      cases hredirection : redirectionTarget [.word target.word] with
      | none =>
          rw [hredirection] at hredirections
          cases hredirections
      | some name =>
          rw [hredirection] at hredirections
          exact congrArg some (List.singleton_inj.mp hredirections)
    obtain ⟨hhead, hsink⟩ := redirectionTarget_eq_some.mp hone
    exact ⟨hws, hgood.2, hopener, (shellWriteTargets_file htarget).1, hsink, hhead⟩
  · rintro ⟨hws, htarget, hopener, hne, hsink, hhead⟩
    have hstrip : stripHeredocs (command ws target) = command ws target :=
      stripHeredocs_of_inl (by rw [stripRound, hopener])
    have hread := tokenize_command hws htarget
    have hredirections : (simpleCommands (tokens ws target)).flatMap redirectionTargets =
        [target.word.text] := by
      rw [simpleCommands_tokens, List.flatMap_singleton, redirectionTargets_tokens,
        redirectionTarget_eq_some.mpr ⟨hhead, hsink⟩]
      rfl
    refine ⟨⟨tokens ws target, by rw [hstrip, hread], rfl, hredirections⟩, ?_⟩
    rw [ShellLines.shellWriteTargets_eq, hstrip, ShellLines.rawTargets, hread, fileTargets,
      List.mem_eraseDups, List.mem_filter, decide_eq_true_eq]
    refine ⟨?_, hne, hsink⟩
    change _ ∈ (simpleCommands (tokens ws target)).flatMap commandTargets
    rw [simpleCommands_tokens, List.flatMap_singleton] at hredirections ⊢
    rw [commandTargets, hredirections]
    exact List.mem_append_left _ (List.mem_singleton_self _)

/-! ## A misread word -/

def echo : Writing where
  pieces := [.bare 'e', .bare 'c', .bare 'h', .bare 'o']
  nonempty := List.cons_ne_nil _ _
  writable := by
    simp only [List.forall_mem_cons, Piece.Writable]
    exact ⟨by decide, by decide, by decide, by decide, nofun⟩

def quote : Writing where
  pieces := [.double "a\"b".toList]
  nonempty := List.cons_ne_nil _ _
  writable := by
    simp only [List.forall_mem_cons, Piece.Writable]
    exact ⟨trivial, nofun⟩

def file : Writing where
  pieces := [.bare 'f']
  nonempty := List.cons_ne_nil _ _
  writable := by
    simp only [List.forall_mem_cons, Piece.Writable]
    exact ⟨by decide, nofun⟩

example : command [echo, quote] file = "echo \"a\\\"b\" > f".toList := by decide

/-- The quotes are taken to end at the escaped one, and then never to end again. -/
theorem quote_not_read : ¬∀ (ws : List Writing) (target : Writing), NamesFile target →
    Reads ws target := by
  intro h
  obtain ⟨⟨read, hread, -⟩, -⟩ := h [echo, quote] file ⟨by decide, by decide, by decide⟩
  rw [ShellLines.stripHeredocs_of_notMem (by decide)] at hread
  have hnone : tokenize (command [echo, quote] file) = none := by decide
  cases hnone.symm.trans hread

end Acc.AdapterSdk.ShellQuoting
