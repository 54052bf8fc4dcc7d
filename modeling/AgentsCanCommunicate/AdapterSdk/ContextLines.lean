import AgentsCanCommunicate.AdapterSdk.ContextProjector

/-!
# Which messages a text tells

A peer's text is escaped before it goes into a block, so no line of it begins as
the subject of a block does.  A line that does begin so stands in the head of a
block, below the line with the message's identifier, and no line between the two
has an identifier.  So the messages of a text can be read from its lines alone.
-/

namespace Acc.AdapterSdk.ContextProjector

open Library (Utf16)
open Library.Utf16 (ofString ofChar newline unlines lines replaceAll)

variable {s t : Utf16} {c : UInt16}

/-! ## Escaping -/

theorem newline_notMem_unicodeEscape : ∀ n < 128, newline ∉ unicodeEscape n := by
  decide +kernel

theorem isControl_lt (h : isControl c = true) : c.toNat < 128 := by
  simp only [isControl, Bool.or_eq_true, Bool.and_eq_true, decide_eq_true_eq, beq_iff_eq,
    UInt16.le_iff_toNat_le] at h
  rcases h with (h | h) | rfl
  · exact lt_of_le_of_lt h (by decide)
  · exact lt_of_le_of_lt h.2 (by decide)
  · decide

/-- What is written for one unit has no newline but where the unit is one. -/
theorem newline_notMem_escaped (hc : c ≠ newline) :
    newline ∉ if isControl c then unicodeEscape c.toNat else [c] := by
  split
  next h => exact newline_notMem_unicodeEscape _ (isControl_lt h)
  next => exact fun h => hc (List.mem_singleton.mp h).symm

theorem newline_notMem_escapeControl (hs : newline ∉ s) : newline ∉ escapeControl s := by
  intro h
  obtain ⟨c, hc, hmem⟩ := List.mem_flatMap.mp h
  exact newline_notMem_escaped (fun heq => hs (heq ▸ hc)) hmem

theorem newline_notMem_quoteHeads (hs : newline ∉ s) (atStart : Bool) :
    newline ∉ quoteHeads atStart s := by
  induction s generalizing atStart with
  | nil => exact hs
  | cons c rest ih =>
      rw [List.mem_cons, not_or] at hs
      simp only [quoteHeads, List.mem_append, List.mem_cons, not_or]
      refine ⟨?_, hs.1, ih hs.2 _⟩
      split
      next => decide
      next => exact List.not_mem_nil

theorem newline_notMem_escapePeerText (hs : newline ∉ s) : newline ∉ escapePeerText s := by
  have hopened : newline ∉ replaceAll (fence ++ block) (ofString "'" ++ fence ++ block) s :=
    Library.Utf16.notMem_replaceAll (by decide) hs
  have hfenced : newline ∉ replaceAll fence (ofString "'" ++ fence) (replaceAll (fence ++ block)
      (ofString "'" ++ fence ++ block) s) :=
    Library.Utf16.notMem_replaceAll (by decide) hopened
  exact newline_notMem_escapeControl (newline_notMem_quoteHeads hfenced true)

theorem newline_notMem_oneLine (s : Utf16) : newline ∉ oneLine s :=
  Library.Utf16.notMem_replaceAll (by decide) (Library.Utf16.notMem_replaceAll_self (by decide))

/-! ## Subjects -/

/-- No line begins as a subject does, but the first where it does not start one. -/
def NoSubject : Bool → Utf16 → Prop
  | _, [] => True
  | atStart, c :: rest =>
      (atStart = true → ¬subjectHead <+: c :: rest) ∧ NoSubject (c == newline) rest

theorem NoSubject.mono : ∀ {s : Utf16} {b : Bool}, NoSubject true s → NoSubject b s
  | [], _, _ => trivial
  | _ :: _, _, h => ⟨fun _ => h.1 rfl, h.2⟩

/-- Text without a line terminator that begins what was quoted inside a line was there before. -/
theorem prefix_of_quoteHeads {p : Utf16} (hp : p.any isLineTerminator = false)
    (h : p <+: quoteHeads false s) : p <+: s := by
  induction p generalizing s with
  | nil => exact List.nil_prefix
  | cons c p ih =>
      cases s with
      | nil => exact h
      | cons d rest =>
          simp only [quoteHeads, Bool.false_and, Bool.false_eq_true, if_false,
            List.nil_append, List.cons_prefix_cons] at h
          obtain ⟨rfl, hrest⟩ := h
          obtain ⟨hc, hp⟩ := Bool.or_eq_false_iff.mp (List.any_cons ▸ hp)
          rw [hc] at hrest
          exact List.cons_prefix_cons.mpr ⟨rfl, ih hp hrest⟩

theorem isLineTerminator_newline (h : (c == newline) = true) : isLineTerminator c = true := by
  rw [beq_iff_eq.mp h]
  decide

/-- After the heads are quoted no line begins with one. -/
theorem quoteHeads_noSubject {atStart quoting : Bool} (h : atStart = true → quoting = true) :
    NoSubject atStart (quoteHeads quoting s) := by
  induction s generalizing atStart quoting with
  | nil => trivial
  | cons c rest ih =>
      have hrest : NoSubject (c == newline) (quoteHeads (isLineTerminator c) rest) :=
        ih isLineTerminator_newline
      rw [quoteHeads]
      by_cases hquoted : (quoting &&
          (subjectHead.isPrefixOf (c :: rest) || bodyHead.isPrefixOf (c :: rest))) = true
      · rw [if_pos hquoted]
        refine ⟨fun _ hpre => ?_, fun hfalse => ?_, hrest⟩
        · exact absurd (List.cons_prefix_cons.mp hpre).1 (by decide)
        · exact absurd hfalse (by decide)
      · rw [if_neg hquoted]
        refine ⟨fun hstart hpre => ?_, hrest⟩
        have hhead : ¬subjectHead <+: c :: rest := by
          intro hsubject
          refine hquoted ?_
          rw [h hstart, Bool.true_and, Bool.or_eq_true]
          exact .inl (List.isPrefixOf_iff_prefix.mpr hsubject)
        obtain ⟨hc, htail⟩ := List.cons_prefix_cons.mp hpre
        rw [← hc] at htail
        have hrest := prefix_of_quoteHeads (by decide) htail
        exact hhead (List.cons_prefix_cons.mpr ⟨hc, hrest⟩)

theorem prefix_of_escapeControl {p : Utf16} (hp : 92 ∉ p) (h : p <+: escapeControl s) :
    p <+: s := by
  induction p generalizing s with
  | nil => exact List.nil_prefix
  | cons c p ih =>
      rw [List.mem_cons, not_or] at hp
      cases s with
      | nil => exact h
      | cons d rest =>
          rw [escapeControl, List.flatMap_cons] at h
          split at h
          next => exact absurd (List.cons_prefix_cons.mp h).1.symm hp.1
          next =>
            obtain ⟨rfl, hrest⟩ := List.cons_prefix_cons.mp h
            exact List.cons_prefix_cons.mpr ⟨rfl, ih hp.2 hrest⟩

/-- Inside a line nothing starts one. -/
theorem NoSubject.inLine (hline : newline ∉ s) (ht : NoSubject false t) :
    NoSubject false (s ++ t) := by
  induction s with
  | nil => exact ht
  | cons c rest ih =>
      rw [List.mem_cons, not_or] at hline
      have hc : (c == newline) = false := beq_false_of_ne fun heq => hline.1 heq.symm
      refine ⟨nofun, ?_⟩
      rw [hc]
      exact ih hline.2

theorem escapeControl_noSubject : ∀ {s : Utf16} {atStart : Bool}, NoSubject atStart s →
    NoSubject atStart (escapeControl s)
  | [], _, _ => trivial
  | c :: rest, atStart, h => by
      have hrest := escapeControl_noSubject h.2
      have hcons : escapeControl (c :: rest) =
          (if isControl c then unicodeEscape c.toNat else [c]) ++ escapeControl rest :=
        List.flatMap_cons
      by_cases hcontrol : isControl c = true
      · -- an escape begins with a backslash and stays in its line
        have hc : (c == newline) = false := beq_false_of_ne (by rintro rfl; cases hcontrol)
        have hline := newline_notMem_unicodeEscape _ (isControl_lt hcontrol)
        rw [hc] at hrest
        rw [hcons, if_pos hcontrol]
        have hin := NoSubject.inLine hline hrest
        exact ⟨fun _ hpre => absurd (List.cons_prefix_cons.mp hpre).1 (by decide), hin.2⟩
      · have heq : escapeControl (c :: rest) = c :: escapeControl rest := by
          rw [hcons, if_neg hcontrol]
          rfl
        refine heq ▸ ⟨fun hstart hpre => ?_, hrest⟩
        exact h.1 hstart (prefix_of_escapeControl (by decide) (heq ▸ hpre))

theorem escapePeerText_noSubject (s : Utf16) : NoSubject true (escapePeerText s) :=
  escapeControl_noSubject (quoteHeads_noSubject fun h => h)

theorem NoSubject.ofOneLine (hline : newline ∉ s) (hhead : ¬subjectHead <+: s) :
    NoSubject true s := by
  cases s with
  | nil => trivial
  | cons c rest =>
      have hin := NoSubject.inLine hline (t := []) trivial
      rw [List.append_nil] at hin
      exact ⟨fun _ => hhead, hin.2⟩

theorem NoSubject.tail : ∀ {s : Utf16} {atStart : Bool}, NoSubject atStart (s ++ newline :: t) →
    NoSubject true t
  | [], _, h => h.2
  | _ :: _, _, h => NoSubject.tail h.2

theorem NoSubject.head (h : NoSubject true s) : ¬subjectHead <+: s := by
  cases s with
  | nil => decide
  | cons c rest => exact h.1 rfl

theorem NoSubject.lines {l : Utf16} (h : NoSubject true s) (hl : l ∈ lines s) :
    ¬subjectHead <+: l := by
  induction hn : s.length using Nat.strong_induction_on generalizing s with
  | _ n ih =>
      by_cases hmem : newline ∈ s
      · obtain ⟨first, rest, rfl, hfirst⟩ := List.eq_append_cons_of_mem hmem
        rw [Library.Utf16.lines_append, Library.Utf16.lines_of_oneLine hfirst,
          List.singleton_append] at hl
        rcases List.mem_cons.mp hl with rfl | hl
        · exact fun hpre => h.head (hpre.trans (List.prefix_append _ _))
        · refine ih rest.length ?_ h.tail hl rfl
          simp only [List.length_append, List.length_cons] at hn
          omega
      · rw [Library.Utf16.lines_of_oneLine hmem, List.mem_singleton] at hl
        exact hl ▸ h.head

/-! ## What lines tell -/

def messageIdHead : Utf16 := ofString "messageId: "

/-- The lines with an identifier that are the last before a subject, from one that was
read before. -/
def announced : Utf16 → List Utf16 → List Utf16
  | _, [] => []
  | last, l :: ls =>
      if subjectHead.isPrefixOf l then last :: announced last ls
      else if messageIdHead.isPrefixOf l then announced l ls
      else announced last ls

variable {last : Utf16} {ls ms : List Utf16}

theorem announced_append (last : Utf16) (ls ms : List Utf16) :
    ∃ later, announced last (ls ++ ms) = announced last ls ++ announced later ms := by
  induction ls generalizing last with
  | nil => exact ⟨last, rfl⟩
  | cons l ls ih =>
      simp only [List.cons_append, announced]
      split
      next =>
        obtain ⟨later, h⟩ := ih last
        exact ⟨later, by rw [h, List.cons_append]⟩
      next =>
        split
        next => exact ih l
        next => exact ih last

theorem announced_eq_nil (h : ∀ l ∈ ls, ¬subjectHead <+: l) : announced last ls = [] := by
  induction ls generalizing last with
  | nil => rfl
  | cons l ls ih =>
      have hl : ¬subjectHead.isPrefixOf l = true :=
        fun hpre => h l List.mem_cons_self (List.isPrefixOf_iff_prefix.mp hpre)
      have hls := fun last => @ih last fun l hl => h l (List.mem_cons_of_mem _ hl)
      rw [announced, if_neg hl]
      split
      next => exact hls l
      next => exact hls last

/-- Lines that neither have an identifier nor a subject. -/
def Silent (ls : List Utf16) : Prop :=
  ∀ l ∈ ls, subjectHead.isPrefixOf l = false ∧ messageIdHead.isPrefixOf l = false

theorem announced_silent (h : Silent ls) : announced last (ls ++ ms) = announced last ms := by
  induction ls with
  | nil => rfl
  | cons l ls ih =>
      obtain ⟨hsubject, hid⟩ := h l List.mem_cons_self
      rw [List.cons_append, announced, hsubject, hid]
      exact ih fun l hl => h l (List.mem_cons_of_mem _ hl)

/-! ## Blocks -/

variable {message : Message} {repeats : List Repeat} {line : Line}

def messageIdLine (message : Message) : Utf16 := messageIdHead ++ message.messageId.val

def subjectLine (message : Message) : Utf16 :=
  ofString "subject: " ++ oneLine (escapePeerText message.subject)

/-- What a block has between its identifier and its subject. -/
def afterId (repeats : List Repeat) (message : Message) : List Utf16 :=
  (messageHead message).drop 5 ++ repeatLines repeats message ++
    (decisionLines message).map escapePeerText

/-- A block from its second line to its subject. -/
def blockOpening (repeats : List Repeat) (message : Message) : List Utf16 :=
  ((messageHead message).take 4).tail ++ messageIdLine message ::
    (afterId repeats message ++ [subjectLine message])

def blockBody (message : Message) : List Utf16 :=
  [bodyHead, escapePeerText message.body, fence]

/-- A block as a text. -/
def blockText (repeats : List Repeat) (message : Message) : Utf16 :=
  unlines (messageLines repeats message)

theorem messageLines_eq : messageLines repeats message =
    (fence ++ block) ::
      (blockOpening repeats message ++ blockBody message) := by
  simp only [messageLines, messageHead, blockOpening, blockBody, afterId, subjectLine, bodyHead,
    List.take_succ_cons, List.take_zero, List.drop_succ_cons, List.drop_zero, List.tail_cons,
    List.cons_append, List.nil_append, List.append_assoc]
  rfl

/-- The words of the closed sets are one line. -/
theorem messageKind_oneLine (kind : MessageKind) : newline ∉ ofString kind.word := by
  cases kind <;> decide

theorem obligation_oneLine (obligation : Obligation) : newline ∉ ofString obligation.word := by
  cases obligation <;> decide

theorem decimal_oneLine (n : Nat) : newline ∉ decimal n := by
  intro h
  obtain ⟨c, hc, hmem⟩ := List.mem_flatMap.mp h
  have hdigit := Nat.isDigit_of_mem_toDigits (by decide) (by decide) hc
  have hnat : c.toNat ≤ 57 ∧ 48 ≤ c.toNat := by
    simp only [Char.isDigit, Bool.and_eq_true, decide_eq_true_eq] at hdigit
    exact ⟨hdigit.2, hdigit.1⟩
  rw [ofChar, if_pos (by omega), List.mem_singleton] at hmem
  have hten := congrArg UInt16.toNat hmem
  simp only [Nat.toUInt16_eq, UInt16.toNat_ofNat'] at hten
  have hval : newline.toNat = 10 := rfl
  omega

theorem newline_notMem_intercalate {sep : Utf16} (hsep : newline ∉ sep)
    (h : ∀ l ∈ ls, newline ∉ l) : newline ∉ sep.intercalate ls := by
  induction ls with
  | nil => exact List.not_mem_nil
  | cons l ls ih =>
      have hl := h l List.mem_cons_self
      have hls := ih fun m hm => h m (List.mem_cons_of_mem _ hm)
      cases ls with
      | nil => simpa [List.intercalate] using hl
      | cons m ls =>
          rw [List.intercalate_cons_cons]
          exact List.not_mem_append (List.not_mem_append hl hsep) hls

theorem decisionLines_oneLine {l : Utf16} (h : l ∈ decisionLines message) : newline ∉ l := by
  rw [decisionLines] at h
  split at h
  next => cases h
  next =>
    rcases List.mem_append.mp h with h | h
    · obtain ⟨change, -, rfl⟩ := Option.mem_map.mp (Option.mem_toList.mp h)
      have hids : newline ∉ (ofString ", ").intercalate (change.messageIds.map Line.val) := by
        refine newline_notMem_intercalate (by decide) fun l hl => ?_
        obtain ⟨line, -, rfl⟩ := List.mem_map.mp hl
        exact line.oneLine
      refine List.not_mem_append (List.not_mem_append (List.not_mem_append ?_ ?_) ?_) hids
      · decide
      · cases change.action <;> decide
      · decide
    · obtain ⟨status, -, rfl⟩ := Option.mem_map.mp (Option.mem_toList.mp h)
      refine List.not_mem_append (List.not_mem_append (by decide) status.state.oneLine) ?_
      split
      next => exact List.not_mem_append (by decide) (decimal_oneLine _)
      next => exact List.not_mem_nil

theorem repeatLines_oneLine {l : Utf16} (h : l ∈ repeatLines repeats message) : newline ∉ l := by
  rw [repeatLines] at h
  split at h
  next => cases h
  next => exact List.mem_singleton.mp h ▸ newline_notMem_oneLine _

theorem messageHead_oneLine {l : Utf16} (h : l ∈ messageHead message) : newline ∉ l := by
  simp only [messageHead, List.mem_cons, List.not_mem_nil, or_false] at h
  rcases h with rfl | rfl | rfl | rfl | rfl | rfl | rfl
  · decide
  · decide
  · exact List.not_mem_append (by decide) (messageKind_oneLine _)
  · exact List.not_mem_append (by decide) message.threadId.oneLine
  · exact List.not_mem_append (by decide) message.messageId.oneLine
  · refine List.not_mem_append (List.not_mem_append (List.not_mem_append
      (List.not_mem_append ?_ message.fromParticipantId.oneLine) ?_)
      message.fromSessionId.oneLine) ?_
    all_goals decide
  · exact List.not_mem_append (by decide) (obligation_oneLine _)

theorem afterId_oneLine {l : Utf16} (h : l ∈ afterId repeats message) : newline ∉ l := by
  rcases List.mem_append.mp h with h | h
  · rcases List.mem_append.mp h with h | h
    · exact messageHead_oneLine (List.mem_of_mem_drop h)
    · exact repeatLines_oneLine h
  · obtain ⟨line, hline, rfl⟩ := List.mem_map.mp h
    exact newline_notMem_escapePeerText (decisionLines_oneLine hline)

theorem blockOpening_oneLine {l : Utf16} (h : l ∈ blockOpening repeats message) :
    newline ∉ l := by
  rcases List.mem_append.mp h with h | h
  · exact messageHead_oneLine (List.mem_of_mem_take (List.mem_of_mem_tail h))
  · rcases List.mem_cons.mp h with rfl | h
    · exact List.not_mem_append (by decide) message.messageId.oneLine
    · rcases List.mem_append.mp h with h | h
      · exact afterId_oneLine h
      · rw [List.mem_singleton.mp h]
        exact List.not_mem_append (by decide) (newline_notMem_oneLine _)

theorem flatMap_lines_of_oneLine (h : ∀ l ∈ ls, newline ∉ l) : ls.flatMap lines = ls := by
  induction ls with
  | nil => rfl
  | cons l ls ih =>
      rw [List.flatMap_cons, Library.Utf16.lines_of_oneLine (h l List.mem_cons_self),
        ih fun m hm => h m (List.mem_cons_of_mem _ hm), List.singleton_append]

/-! ## The messages of a text -/

theorem silent_cons {l : Utf16} (hsubject : subjectHead.isPrefixOf l = false)
    (hid : messageIdHead.isPrefixOf l = false) (h : Silent ls) : Silent (l :: ls) := by
  intro m hm
  rcases List.mem_cons.mp hm with rfl | hm
  · exact ⟨hsubject, hid⟩
  · exact h m hm

theorem silent_nil : Silent [] := fun _ h => absurd h List.not_mem_nil

theorem Silent.append (hls : Silent ls) (hms : Silent ms) : Silent (ls ++ ms) :=
  fun l hl => (List.mem_append.mp hl).elim (hls l) (hms l)

/-! A unit that nothing escapes stays the first of its text. -/

theorem isPrefixOf_eq_false {head rest : Utf16} (hne : head ≠ []) (hhead : head.head? ≠ some c) :
    head.isPrefixOf (c :: rest) = false := by
  obtain ⟨d, head, rfl⟩ := List.exists_cons_of_ne_nil hne
  have hdc : (d == c) = false := beq_false_of_ne fun heq => hhead (congrArg some heq)
  rw [List.isPrefixOf_cons_cons, hdc, Bool.false_and]

theorem replaceAll_head? {find put : Utf16} (hfind : find ≠ []) (hne : find.head? ≠ some c)
    (h : s.head? = some c) : (replaceAll find put s).head? = some c := by
  obtain ⟨rest, rfl⟩ := List.head?_eq_some_iff.mp h
  rw [replaceAll, Library.Utf16.replaceFrom, isPrefixOf_eq_false hfind hne,
    if_neg Bool.false_ne_true]
  rfl

theorem quoteHeads_head? (hsubject : subjectHead.head? ≠ some c) (hbody : bodyHead.head? ≠ some c)
    (h : s.head? = some c) : (quoteHeads true s).head? = some c := by
  obtain ⟨rest, rfl⟩ := List.head?_eq_some_iff.mp h
  rw [quoteHeads, isPrefixOf_eq_false (by decide) hsubject, isPrefixOf_eq_false (by decide) hbody]
  rfl

theorem escapeControl_head? (hc : isControl c = false) (h : s.head? = some c) :
    (escapeControl s).head? = some c := by
  obtain ⟨rest, rfl⟩ := List.head?_eq_some_iff.mp h
  rw [escapeControl, List.flatMap_cons, hc]
  rfl

/-- The units that may begin what is escaped and are found again. -/
def Kept (c : UInt16) : Prop :=
  fence.head? ≠ some c ∧ subjectHead.head? ≠ some c ∧ bodyHead.head? ≠ some c ∧
    isControl c = false

instance : DecidablePred Kept := fun c =>
  inferInstanceAs (Decidable (fence.head? ≠ some c ∧ subjectHead.head? ≠ some c ∧
    bodyHead.head? ≠ some c ∧ isControl c = false))

theorem escapePeerText_head? (hc : Kept c) (h : s.head? = some c) :
    (escapePeerText s).head? = some c := by
  obtain ⟨hfence, hsubject, hbody, hcontrol⟩ := hc
  have hopened : (replaceAll (fence ++ block) (ofString "'" ++ fence ++ block) s).head? = some c :=
    replaceAll_head? (by decide) hfence h
  have hfenced : (replaceAll fence (ofString "'" ++ fence) (replaceAll (fence ++ block)
      (ofString "'" ++ fence ++ block) s)).head? = some c :=
    replaceAll_head? (by decide) hfence hopened
  exact escapeControl_head? hcontrol (quoteHeads_head? hsubject hbody hfenced)

theorem oneLine_head? (hreturn : c ≠ 13) (hline : c ≠ newline) (h : s.head? = some c) :
    (oneLine s).head? = some c := by
  have hpairs : (replaceAll [13, 10] (ofString "\\n") s).head? = some c :=
    replaceAll_head? (by decide) (fun heq => hreturn (Option.some.inj heq).symm) h
  have hlines : (replaceAll [10] (ofString "\\n") (replaceAll [13, 10] (ofString "\\n") s)).head? =
      some c :=
    replaceAll_head? (by decide) (fun heq => hline (Option.some.inj heq).symm) hpairs
  exact replaceAll_head? (by decide) (fun heq => hreturn (Option.some.inj heq).symm) hlines

theorem silent_of_head? (hsubject : subjectHead.head? ≠ some c)
    (hid : messageIdHead.head? ≠ some c) (h : ∀ l ∈ ls, l.head? = some c) : Silent ls := by
  intro l hl
  obtain ⟨rest, rfl⟩ := List.head?_eq_some_iff.mp (h l hl)
  exact ⟨isPrefixOf_eq_false (by decide) hsubject, isPrefixOf_eq_false (by decide) hid⟩

theorem repeatLines_head? {l : Utf16} (h : l ∈ repeatLines repeats message) :
    l.head? = some 114 := by
  rw [repeatLines] at h
  split at h
  next => cases h
  next =>
    rw [List.mem_singleton.mp h]
    exact oneLine_head? (by decide) (by decide) (escapePeerText_head? (by decide) rfl)

theorem decisionLines_head? {l : Utf16} (h : l ∈ decisionLines message) : l.head? = some 68 := by
  rw [decisionLines] at h
  split at h
  next => cases h
  next =>
    rcases List.mem_append.mp h with h | h
    · obtain ⟨change, -, rfl⟩ := Option.mem_map.mp (Option.mem_toList.mp h)
      rfl
    · obtain ⟨status, -, rfl⟩ := Option.mem_map.mp (Option.mem_toList.mp h)
      rfl

theorem afterId_silent : Silent (afterId repeats message) := by
  refine Silent.append (Silent.append ?_ ?_) ?_
  · exact silent_cons rfl rfl (silent_cons rfl rfl silent_nil)
  · exact silent_of_head? (by decide) (by decide) fun l hl => repeatLines_head? hl
  · refine silent_of_head? (c := 68) (by decide) (by decide) fun l hl => ?_
    obtain ⟨line, hline, rfl⟩ := List.mem_map.mp hl
    exact escapePeerText_head? (by decide) (decisionLines_head? hline)

theorem announced_opening (last : Utf16) (rest : List Utf16) :
    announced last (blockOpening repeats message ++ rest) =
      messageIdLine message :: announced (messageIdLine message) rest := by
  have hhead : Silent (((messageHead message).take 4).tail) :=
    silent_cons rfl rfl (silent_cons rfl rfl (silent_cons rfl rfl silent_nil))
  have hid : subjectHead.isPrefixOf (messageIdLine message) = false := rfl
  have hidHead : messageIdHead.isPrefixOf (messageIdLine message) = true := rfl
  have hsubject : subjectHead.isPrefixOf (subjectLine message) = true := rfl
  rw [blockOpening, List.append_assoc, announced_silent hhead, List.cons_append, announced,
    hid, hidHead, List.append_assoc]
  simp only [Bool.false_eq_true, if_false, if_true]
  rw [announced_silent afterId_silent, List.singleton_append, announced, hsubject, if_pos rfl]

/-- Lines that tell these identifiers, whatever was read before. -/
def Announces (ls told : List Utf16) : Prop :=
  ∀ last, announced last (ls.flatMap lines) = told

variable {told more : List Utf16}

theorem announces_nil : Announces [] [] := fun _ => rfl

theorem Announces.append (hls : Announces ls told) (hms : Announces ms more) :
    Announces (ls ++ ms) (told ++ more) := by
  intro last
  obtain ⟨later, h⟩ := announced_append last (ls.flatMap lines) (ms.flatMap lines)
  rw [List.flatMap_append, h, hls, hms]

/-- Lines with no subject tell nothing. -/
theorem announces_of_noSubject (h : ∀ l ∈ ls, NoSubject true l) : Announces ls [] := by
  intro last
  refine announced_eq_nil fun l hl => ?_
  obtain ⟨m, hm, hlm⟩ := List.mem_flatMap.mp hl
  exact (h m hm).lines hlm

theorem blockBody_noSubject {l : Utf16} (h : l ∈ blockBody message) : NoSubject true l := by
  simp only [blockBody, List.mem_cons, List.not_mem_nil, or_false] at h
  rcases h with rfl | rfl | rfl
  · exact NoSubject.ofOneLine (by decide) (by decide)
  · exact escapePeerText_noSubject _
  · exact NoSubject.ofOneLine (by decide) (by decide)

/-- A block tells its message. -/
theorem announces_messageLines :
    Announces (messageLines repeats message) [messageIdLine message] := by
  intro last
  have hopening : (blockOpening repeats message).flatMap lines = blockOpening repeats message :=
    flatMap_lines_of_oneLine fun l hl => blockOpening_oneLine hl
  have hfirst : Silent [fence ++ block] :=
    silent_cons rfl rfl silent_nil
  have hlines : lines (fence ++ block) =
      [fence ++ block] :=
    Library.Utf16.lines_of_oneLine (by decide)
  have hbody : Announces (blockBody message) [] :=
    announces_of_noSubject fun l hl => blockBody_noSubject hl
  rw [messageLines_eq, List.flatMap_cons, List.flatMap_append, hopening, hlines,
    announced_silent hfirst, announced_opening, hbody]

/-- A text with a block in it tells its message. -/
theorem announced_of_infix {text : Utf16} (h : blockText repeats message <:+: text) :
    messageIdLine message ∈ announced [] (lines text) := by
  obtain ⟨before, after, rfl⟩ := h
  have hne : blockOpening repeats message ++ blockBody message ≠ [] := by simp [blockBody]
  have hblock : blockText repeats message =
      (fence ++ block) ++ newline ::
        (unlines (blockOpening repeats message) ++ newline :: unlines (blockBody message)) := by
    rw [blockText, messageLines_eq, Library.Utf16.unlines_cons hne,
      Library.Utf16.unlines_append (by simp [blockOpening]) (by simp [blockBody])]
  have hopening : lines (unlines (blockOpening repeats message)) = blockOpening repeats message := by
    rw [Library.Utf16.lines_unlines_flatMap (by simp [blockOpening])]
    exact flatMap_lines_of_oneLine fun l hl => blockOpening_oneLine hl
  have hlines : lines (before ++ blockText repeats message ++ after) =
      lines (before ++ (fence ++ block)) ++
        (blockOpening repeats message ++ lines (unlines (blockBody message) ++ after)) := by
    rw [hblock, ← List.append_assoc, List.append_assoc (before ++ _), List.cons_append,
      Library.Utf16.lines_append, List.append_assoc (unlines _), List.cons_append,
      Library.Utf16.lines_append, hopening]
  obtain ⟨later, happend⟩ := announced_append []
    (lines (before ++ (fence ++ block)))
    (blockOpening repeats message ++ lines (unlines (blockBody message) ++ after))
  rw [hlines, happend, announced_opening]
  exact List.mem_append_right _ List.mem_cons_self

theorem messageId_of_line {other : Message} (h : messageIdLine message = messageIdLine other) :
    message.messageId = other.messageId := by
  have hval := List.append_cancel_left h
  cases hm : message.messageId
  cases ho : other.messageId
  rw [hm, ho] at hval
  cases hval
  rfl

end Acc.AdapterSdk.ContextProjector
