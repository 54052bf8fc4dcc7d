import AgentsCanCommunicate.Library.Text

/-!
# Scanning TOML

A configuration is edited by its statements.  The scan is lexical and reads no values: it
tells only where a statement ends, at a newline outside of every string, array and inline
table.  The Codex adapter has the same scan, with other words in its errors.

Between two statements the scan remembers nothing, so a text is scanned statement by
statement (`statements_eq_ok`), and any of them can be left out (`statements_sublist`).
-/

namespace Acc.AdapterSdk.TomlScan

open Library Library.Text

/-! ## The code -/

/-- Why a text is not edited. -/
structure Refusal where
  reason : String
deriving DecidableEq

def refuse {α : Type} (reason : String) : Except Refusal α := .error ⟨reason⟩

/-- Basic strings have escapes and literal strings have none. -/
inductive Mark where
  | basic
  | literal
deriving DecidableEq

def Mark.char : Mark → Char
  | .basic => '"'
  | .literal => '\''

/-- What ends the string that is open.  One of several lines has its mark three times. -/
structure Quote where
  mark : Mark
  long : Bool
deriving DecidableEq

def Quote.text (quote : Quote) : Text := List.replicate (if quote.long then 3 else 1) quote.mark.char

structure Lex where
  quote : Option Quote
  stack : List Char
deriving DecidableEq

def Lex.start : Lex := ⟨none, []⟩

/-- A turn of the loop: the state behind it, the characters it took besides the first, and
whether they are code. -/
structure Turn where
  lex : Lex
  more : Nat
  isCode : Bool

def insideQuote (lex : Lex) (quote : Quote) (c : Char) (rest : Text) : Except Refusal Turn :=
  if quote.mark = .basic ∧ c = '\\' then .ok ⟨lex, 1, true⟩
  else if quote.text.isPrefixOf (c :: rest) then
    let others := ((c :: rest).drop quote.text.length).takeWhile (· = quote.mark.char)
    if quote.long then
      if 5 < 3 + others.length then refuse "unsupported string quote delimiter"
      else .ok ⟨{ lex with quote := none }, 2 + others.length, true⟩
    else .ok ⟨{ lex with quote := none }, 0, true⟩
  else if quote.long = false ∧ (c = '\r' ∨ c = '\n') then refuse "newline in single-line string"
  else .ok ⟨lex, 0, true⟩

def openQuote (lex : Lex) (mark : Mark) (rest : Text) : Turn :=
  let long := [mark.char, mark.char].isPrefixOf rest
  ⟨{ lex with quote := some ⟨mark, long⟩ }, if long then 2 else 0, true⟩

def outsideQuote (lex : Lex) (c : Char) (rest : Text) : Except Refusal Turn :=
  if c = '#' then .ok ⟨lex, (rest.takeWhile (· ≠ '\n')).length, false⟩
  else if c = '"' then .ok (openQuote lex .basic rest)
  else if c = '\'' then .ok (openQuote lex .literal rest)
  else if c = '[' ∨ c = '{' then .ok ⟨{ lex with stack := c :: lex.stack }, 0, true⟩
  else if c = ']' ∨ c = '}' then
    if lex.stack.head? = some (if c = ']' then '[' else '{') then
      .ok ⟨{ lex with stack := lex.stack.tail }, 0, true⟩
    else refuse "mismatched collection delimiter"
  else .ok ⟨lex, 0, true⟩

def readTurn (lex : Lex) (c : Char) (rest : Text) : Except Refusal Turn :=
  match lex.quote with
  | some quote => insideQuote lex quote c rest
  | none => outsideQuote lex c rest

/-- The text of a statement with its newline, and what of it is neither comment nor space
around the rest.  A comment and an empty line are statements without code. -/
structure Statement where
  raw : Text
  code : Text
deriving DecidableEq

/-- A newline between statements. -/
def isEnd (lex : Lex) (c : Char) (turn : Turn) : Bool :=
  lex.quote = none && c = '\n' && turn.lex.stack.isEmpty

def scan (lex : Lex) (raw code : Text) : Text → Except Refusal (List Statement)
  | [] =>
      if lex.quote.isSome then refuse "unclosed string"
      else if lex.stack ≠ [] then refuse "unclosed collection"
      else .ok (if raw = [] then [] else [⟨raw, trim code⟩])
  | c :: rest =>
      match readTurn lex c rest with
      | .error e => .error e
      | .ok turn =>
          let used := c :: rest.take turn.more
          let code := if turn.isCode then code ++ used else code
          if isEnd lex c turn then
            match scan .start [] [] (rest.drop turn.more) with
            | .error e => .error e
            | .ok others => .ok (⟨raw ++ used, trim code⟩ :: others)
          else scan turn.lex (raw ++ used) code (rest.drop turn.more)
termination_by text => text.length
decreasing_by all_goals simp only [List.length_drop, List.length_cons]; omega

def statements (source : Text) : Except Refusal (List Statement) := scan .start [] [] source

/-! ## Declarations -/

def isBareKey (c : Char) : Bool := c.isAlphanum || c = '_' || c = '-'

/-- What is inside of a basic key, and what is behind its closing mark. -/
def matchBasic : Text → Option (Text × Text)
  | '"' :: rest => some ([], rest)
  | '\\' :: c :: rest =>
      if c = '\r' ∨ c = '\n' then none
      else (matchBasic rest).map fun found => ('\\' :: c :: found.1, found.2)
  | c :: rest =>
      if c = '\\' ∨ c = '\r' ∨ c = '\n' then none
      else (matchBasic rest).map fun found => (c :: found.1, found.2)
  | [] => none

def matchLiteral (body : Text) : Option (Text × Text) :=
  let inner := body.takeWhile fun c => c ≠ '\'' ∧ c ≠ '\r' ∧ c ≠ '\n'
  match body.drop inner.length with
  | '\'' :: rest => some (inner, rest)
  | _ => none

/-- A key as it is written, and the rest. -/
def matchKey : Text → Option (Text × Text)
  | '\'' :: body => (matchLiteral body).map fun found => ('\'' :: found.1 ++ ['\''], found.2)
  | '"' :: body => (matchBasic body).map fun found => ('"' :: found.1 ++ ['"'], found.2)
  | rest =>
      let name := rest.takeWhile isBareKey
      if name = [] then none else some (name, rest.drop name.length)

def hexDigit? (c : Char) : Option Nat :=
  if c.isDigit then some (c.toNat - '0'.toNat)
  else if 'a' ≤ c ∧ c ≤ 'f' then some (c.toNat - 'a'.toNat + 10)
  else if 'A' ≤ c ∧ c ≤ 'F' then some (c.toNat - 'A'.toNat + 10)
  else none

/-- The number that the first `n` characters are in base 16. -/
def hexNumber? (n : Nat) (s : Text) : Option Nat :=
  if s.length < n then none
  else (s.take n).foldlM (fun total c => (hexDigit? c).map (16 * total + ·)) 0

def pointChar (point : Nat) : Except Refusal Char :=
  if 0x10ffff < point ∨ (0xd800 ≤ point ∧ point ≤ 0xdfff) then
    refuse "invalid quoted-key Unicode escape"
  else .ok (Char.ofNat point)

def escapes : List (Char × Char) :=
  [('b', '\x08'), ('t', '\t'), ('n', '\n'), ('f', '\x0c'), ('r', '\r'), ('"', '"'), ('\\', '\\')]

/-- The digits of an escape by number. -/
def escapeDigits (c : Char) : Option Nat :=
  if c = 'U' then some 8 else if c = 'u' then some 4 else none

/-- The inside of a basic key.  A backslash before a line separator is no escape. -/
def unescape : Text → Except Refusal Text
  | '\\' :: c :: rest =>
      match escapeDigits c with
      | some n =>
          match hexNumber? n rest with
          | some point => do
              let char ← pointChar point
              let behind ← unescape (rest.drop n)
              return char :: behind
          | none => refuse "unsupported quoted-key escape"
      | none =>
          match escapes.lookup c with
          | some char => do
              let behind ← unescape rest
              return char :: behind
          | none =>
              if isLineTerminator c then do
                let behind ← unescape rest
                return '\\' :: c :: behind
              else refuse "unsupported quoted-key escape"
  | c :: rest => do
      let behind ← unescape rest
      return c :: behind
  | [] => .ok []
termination_by text => text.length
decreasing_by all_goals simp only [List.length_drop, List.length_cons]; omega

def decodeKey (key : Text) : Except Refusal Text :=
  if key.head? = some '\'' then .ok key.tail.dropLast
  else if key.head? ≠ some '"' then .ok key
  else unescape key.tail.dropLast

theorem matchBasic_length (rest : Text) : ∀ found, matchBasic rest = some found →
    found.2.length < rest.length := by
  fun_induction matchBasic rest with
  | case1 rest =>
      intro found h
      cases h
      exact Nat.lt_succ_self _
  | case2 => exact fun found h => nomatch h
  | case3 c rest hc ih =>
      intro found h
      obtain ⟨inner, hinner, rfl⟩ := Option.map_eq_some_iff.mp h
      exact Nat.lt_succ_of_lt (Nat.lt_succ_of_lt (ih inner hinner))
  | case4 => exact fun found h => nomatch h
  | case5 c rest _ _ hc ih =>
      intro found h
      obtain ⟨inner, hinner, rfl⟩ := Option.map_eq_some_iff.mp h
      exact Nat.lt_succ_of_lt (ih inner hinner)
  | case6 => exact fun found h => nomatch h

theorem matchLiteral_length {body : Text} {found : Text × Text}
    (h : matchLiteral body = some found) : found.2.length < body.length := by
  rw [matchLiteral] at h
  split at h
  next rest hrest =>
    cases h
    have hlength := congrArg List.length hrest
    rw [List.length_drop, List.length_cons] at hlength
    simp only
    omega
  next => cases h

theorem matchKey_length {rest key after : Text} (h : matchKey rest = some (key, after)) :
    after.length < rest.length := by
  unfold matchKey at h
  split at h
  · obtain ⟨found, hfound, heq⟩ := Option.map_eq_some_iff.mp h
    cases heq
    exact Nat.lt_succ_of_lt (matchLiteral_length hfound)
  · obtain ⟨found, hfound, heq⟩ := Option.map_eq_some_iff.mp h
    cases heq
    exact Nat.lt_succ_of_lt (matchBasic_length _ _ hfound)
  · dsimp only at h
    split at h
    next => cases h
    next hname =>
      cases h
      have hpos := List.length_pos_of_ne_nil hname
      have hle := (List.takeWhile_prefix isBareKey (l := rest)).length_le
      rw [List.length_drop]
      omega

def readKeys (keys : List Text) (rest : Text) : Except Refusal (List Text × Text) :=
  match _h : matchKey rest with
  | none => refuse "unrecognized TOML key"
  | some (written, after) =>
      match decodeKey written with
      | .error e => .error e
      | .ok key =>
          match _hdot : trimStart after with
          | '.' :: behind => readKeys (keys ++ [key]) (trimStart behind)
          | others => .ok (keys ++ [key], others)
termination_by rest.length
decreasing_by
  have hshort := matchKey_length _h
  have hafter : (trimStart after).length ≤ after.length :=
    (List.dropWhile_suffix isSpace).length_le
  have hbehind : (trimStart behind).length ≤ behind.length :=
    (List.dropWhile_suffix isSpace).length_le
  rw [_hdot, List.length_cons] at hafter
  omega

def keyPath (code : Text) : Except Refusal (List Text × Text) := readKeys [] (trimStart code)

structure Declaration where
  keys : List Text
  header : Bool
  array : Bool
  value : Option Text
deriving DecidableEq

def declaration (code : Text) : Except Refusal Declaration := do
  let header := ['['].isPrefixOf code
  let array := header && ['[', '['].isPrefixOf code
  let (keys, rest) ← keyPath (if header then code.drop (if array then 2 else 1) else code)
  if header then
    if rest ≠ (if array then [']', ']'] else [']']) then refuse "unrecognized TOML declaration"
    else return ⟨keys, true, array, none⟩
  else if ['='].isPrefixOf rest = false then refuse "unrecognized TOML declaration"
  else return ⟨keys, false, false, some (trim (rest.drop 1))⟩

/-- A statement with its place, the table that it stands in and the whole path it declares. -/
structure Entry extends Statement where
  start : Nat
  stop : Nat
  table : List Text
  keys : List Text
  header : Bool
  array : Bool
  value : Option Text

def scanFrom (start : Nat) (table : List Text) : List Statement → Except Refusal (List Entry)
  | [] => .ok []
  | item :: rest =>
      let stop := start + item.raw.length
      if item.code = [] then do
        let others ← scanFrom stop table rest
        return ⟨item, start, stop, table, [], false, false, none⟩ :: others
      else do
        let entry ← declaration item.code
        let inside := if entry.header then entry.keys else table
        let keys := if entry.header then entry.keys else table ++ entry.keys
        let others ← scanFrom stop inside rest
        return ⟨item, start, stop, inside, keys, entry.header, entry.array, entry.value⟩ :: others

def scanConfig (source : Text) : Except Refusal (List Entry) := do
  let items ← statements source
  scanFrom 0 [] items

theorem map_eq_ok {α β : Type} {f : α → β} {x : Except Refusal α} {b : β} :
    x.map f = .ok b ↔ ∃ a, x = .ok a ∧ f a = b := by
  cases x with
  | error e => simp [Except.map]
  | ok a => simp [Except.map]

/-! ## Turns -/

variable {lex : Lex} {c q : Char} {rest x raw code s t p : Text} {turn : Turn}
  {ps qs : List Statement} {st : Statement} {n : Nat}

theorem Mark.char_ne_newline (mark : Mark) : '\n' ≠ mark.char := by
  cases mark <;> decide

/-- What stops a run of one character stops it also before more text. -/
theorem isPrefixOf_append (hp : ∃ d ∈ p, d ≠ q) :
    (List.replicate n q).isPrefixOf (p ++ x) = (List.replicate n q).isPrefixOf p := by
  rw [Bool.eq_iff_iff, List.isPrefixOf_iff_prefix, List.isPrefixOf_iff_prefix]
  constructor
  · intro h
    rcases List.prefix_or_prefix_of_prefix h (List.prefix_append p x) with h | h
    · exact h
    · obtain ⟨d, hd, hne⟩ := hp
      exact absurd (List.eq_of_mem_replicate (h.subset hd)) hne
  · exact fun h => h.trans (List.prefix_append p x)

theorem takeWhile_append {f : Char → Bool} (hp : ∃ d ∈ p, f d = false) :
    (p ++ x).takeWhile f = p.takeWhile f := by
  rw [List.takeWhile_append, if_neg]
  intro hall
  have hself : p.takeWhile f = p := (List.takeWhile_prefix f).eq_of_length hall
  obtain ⟨d, hd, hf⟩ := hp
  rw [List.takeWhile_eq_self_iff.mp hself d hd] at hf
  cases hf

theorem takeWhile_length_lt {f : Char → Bool} (hp : ∃ d ∈ p, f d = false) :
    (p.takeWhile f).length < p.length := by
  refine lt_of_le_of_ne (List.takeWhile_prefix f).length_le fun hall => ?_
  obtain ⟨d, hd, hf⟩ := hp
  have hself : p.takeWhile f = p := (List.takeWhile_prefix f).eq_of_length hall
  rw [List.takeWhile_eq_self_iff.mp hself d hd] at hf
  cases hf

/-- A text that ends with a newline ends with it behind its first character, too. -/
theorem rest_ends (h : (c :: rest).getLast? = some '\n') (hc : c ≠ '\n') :
    rest.getLast? = some '\n' := by
  cases rest with
  | nil => exact absurd (Option.some.inj h) hc
  | cons d rest => rwa [List.getLast?_cons_cons] at h

theorem newline_mem (h : s.getLast? = some '\n') : '\n' ∈ s := List.mem_of_getLast? h

/-- A text that ends with a newline and begins with marks goes on behind them. -/
theorem drop_marks {mark : Mark} (h : s.getLast? = some '\n')
    (hpre : (List.replicate n mark.char).isPrefixOf s = true) :
    (s.drop n).getLast? = some '\n' ∧ n < s.length := by
  obtain ⟨behind, rfl⟩ := List.isPrefixOf_iff_prefix.mp hpre
  have hne : behind ≠ [] := by
    rintro rfl
    rw [List.append_nil] at h
    exact mark.char_ne_newline (List.eq_of_mem_replicate (newline_mem h))
  rw [List.getLast?_append_of_ne_nil _ hne] at h
  rw [List.drop_left' (List.length_replicate ..), List.length_append, List.length_replicate]
  exact ⟨h, by have := List.length_pos_iff.mpr hne; omega⟩

theorem insideQuote_append {quote : Quote} (h : (c :: rest).getLast? = some '\n') (x : Text) :
    insideQuote lex quote c (rest ++ x) = insideQuote lex quote c rest := by
  have hstop : ∃ d ∈ c :: rest, d ≠ quote.mark.char := ⟨'\n', newline_mem h, quote.mark.char_ne_newline⟩
  have hpre : quote.text.isPrefixOf (c :: (rest ++ x)) = quote.text.isPrefixOf (c :: rest) :=
    isPrefixOf_append hstop
  rw [insideQuote, insideQuote, hpre]
  by_cases hmarks : quote.text.isPrefixOf (c :: rest) = true
  · obtain ⟨hlast, hlt⟩ := drop_marks h hmarks
    have hlength : quote.text.length = if quote.long then 3 else 1 := List.length_replicate ..
    have hothers : ((c :: (rest ++ x)).drop quote.text.length).takeWhile (· = quote.mark.char) =
        ((c :: rest).drop quote.text.length).takeWhile (· = quote.mark.char) := by
      rw [hlength, ← List.cons_append, List.drop_append_of_le_length hlt.le]
      exact takeWhile_append ⟨'\n', newline_mem hlast, by simpa using quote.mark.char_ne_newline⟩
    rw [hothers]
  · rw [if_neg hmarks, if_neg hmarks]

theorem openQuote_append {mark : Mark} (h : rest.getLast? = some '\n') (x : Text) :
    openQuote lex mark (rest ++ x) = openQuote lex mark rest := by
  have hpre : [mark.char, mark.char].isPrefixOf (rest ++ x) = [mark.char, mark.char].isPrefixOf rest :=
    isPrefixOf_append (n := 2) ⟨'\n', newline_mem h, mark.char_ne_newline⟩
  rw [openQuote, openQuote, hpre]

theorem outsideQuote_append (h : (c :: rest).getLast? = some '\n') (x : Text) :
    outsideQuote lex c (rest ++ x) = outsideQuote lex c rest := by
  rw [outsideQuote, outsideQuote]
  by_cases hc : c = '\n'
  · simp [hc]
  · have hrest := rest_ends h hc
    rw [takeWhile_append ⟨'\n', newline_mem hrest, by simp⟩, openQuote_append hrest,
      openQuote_append hrest]

/-- What a turn does is decided by the text through the next newline at the end. -/
theorem readTurn_append (h : (c :: rest).getLast? = some '\n') (x : Text) :
    readTurn lex c (rest ++ x) = readTurn lex c rest := by
  rw [readTurn, readTurn]
  cases lex.quote with
  | some quote => exact insideQuote_append h x
  | none => exact outsideQuote_append h x

/-- A turn stays in a text that ends with a newline.  If it takes all of it, then it ends a
statement, or a string or a collection is left open. -/
def Within (lex : Lex) (c : Char) (rest : Text) (turn : Turn) : Prop :=
  turn.more ≤ rest.length ∧ (rest.drop turn.more = [] →
    isEnd lex c turn = true ∨ turn.lex ≠ .start)

theorem within_of_lt (h : turn.more < rest.length) : Within lex c rest turn := by
  refine ⟨h.le, fun hnil => ?_⟩
  rw [List.drop_eq_nil_iff] at hnil
  omega

theorem insideQuote_within {quote : Quote} (h : (c :: rest).getLast? = some '\n')
    (hquote : lex.quote = some quote) (hturn : insideQuote lex quote c rest = .ok turn) :
    Within lex c rest turn := by
  have hopen : lex ≠ .start := by
    rintro rfl
    cases hquote
  simp only [insideQuote] at hturn
  split at hturn
  next hescape =>
    cases hturn
    have hrest := rest_ends h (by rw [hescape.2]; decide)
    exact ⟨List.length_pos_iff.mpr fun hnil => by simp [hnil] at hrest, fun _ => .inr hopen⟩
  next =>
    split at hturn
    next hmarks =>
      obtain ⟨hlast, hlt⟩ := drop_marks h hmarks
      have hlength : quote.text.length = if quote.long then 3 else 1 := List.length_replicate ..
      rw [hlength] at hturn
      cases hlong : quote.long with
      | true =>
          rw [hlong] at hlast hlt hturn
          have hothers := takeWhile_length_lt (f := (· = quote.mark.char))
            ⟨'\n', newline_mem hlast, by simpa using quote.mark.char_ne_newline⟩
          simp only [if_true, List.length_drop, List.length_cons] at hothers hlt
          simp only [if_true] at hturn
          split at hturn
          next => cases hturn
          next =>
            cases hturn
            refine within_of_lt ?_
            simp only
            omega
      | false =>
          rw [hlong] at hlt hturn
          cases hturn
          refine within_of_lt ?_
          simpa using hlt
    next =>
      split at hturn
      next => cases hturn
      next =>
        cases hturn
        exact ⟨Nat.zero_le _, fun _ => .inr hopen⟩

theorem openQuote_within {mark : Mark} : Within lex c rest (openQuote lex mark rest) := by
  refine ⟨?_, fun _ => .inr ?_⟩
  · simp only [openQuote]
    split
    next hlong => exact (List.isPrefixOf_iff_prefix.mp hlong).length_le
    next => exact Nat.zero_le _
  · intro heq
    cases congrArg Lex.quote heq

theorem outsideQuote_within (h : (c :: rest).getLast? = some '\n') (hquote : lex.quote = none)
    (hturn : outsideQuote lex c rest = .ok turn) : Within lex c rest turn := by
  have hpos : c ≠ '\n' → 0 < rest.length := by
    intro hc
    have hrest := rest_ends h hc
    exact List.length_pos_iff.mpr fun hnil => by simp [hnil] at hrest
  rw [outsideQuote] at hturn
  split at hturn
  next hcomment =>
    cases hturn
    have hrest := rest_ends h (by rw [hcomment]; decide)
    exact within_of_lt (takeWhile_length_lt ⟨'\n', newline_mem hrest, by simp⟩)
  next =>
    split at hturn
    next =>
      cases hturn
      exact openQuote_within
    next =>
      split at hturn
      next =>
        cases hturn
        exact openQuote_within
      next =>
        split at hturn
        next =>
          cases hturn
          refine ⟨Nat.zero_le _, fun _ => .inr fun heq => ?_⟩
          cases congrArg Lex.stack heq
        next =>
          split at hturn
          next hclose =>
            by_cases hopen : lex.stack.head? = some (if c = ']' then '[' else '{')
            · rw [if_pos hopen] at hturn
              cases hturn
              exact within_of_lt (hpos (by rcases hclose with rfl | rfl <;> decide))
            · rw [if_neg hopen] at hturn
              cases hturn
          next =>
            cases hturn
            refine ⟨Nat.zero_le _, fun hnil => ?_⟩
            by_cases hc : c = '\n'
            · cases hstack : lex.stack with
              | nil => exact .inl (by simp [isEnd, hquote, hc, hstack])
              | cons _ _ =>
                  refine .inr fun heq => ?_
                  rw [show lex = .start from heq] at hstack
                  cases hstack
            · have := hpos hc
              simp only [List.drop_zero] at hnil
              simp [hnil] at this

theorem readTurn_within (h : (c :: rest).getLast? = some '\n')
    (hturn : readTurn lex c rest = .ok turn) : Within lex c rest turn := by
  rw [readTurn] at hturn
  split at hturn
  next quote hquote => exact insideQuote_within h hquote hturn
  next hquote => exact outsideQuote_within h hquote hturn

/-- The turn that ends a statement takes a newline and nothing else. -/
theorem turn_of_isEnd (hturn : readTurn lex c rest = .ok turn) (hend : isEnd lex c turn = true) :
    c = '\n' ∧ turn = ⟨.start, 0, true⟩ := by
  simp only [isEnd, Bool.and_eq_true, decide_eq_true_eq, List.isEmpty_iff] at hend
  obtain ⟨⟨hquote, rfl⟩, hstack⟩ := hend
  rw [readTurn, hquote] at hturn
  simp only [outsideQuote] at hturn
  have hplain : turn = ⟨lex, 0, true⟩ := by simpa using hturn.symm
  subst hplain
  have hlex : lex = .start := by
    cases lex
    cases hquote
    cases hstack
    rfl
  exact ⟨rfl, by rw [hlex]⟩

/-! ## Statements -/

theorem scan_cons (hturn : readTurn lex c rest = .ok turn) : scan lex raw code (c :: rest) =
    if isEnd lex c turn then (statements rest).map (⟨raw ++ [c], trim (code ++ [c])⟩ :: ·)
    else scan turn.lex (raw ++ c :: rest.take turn.more)
      (if turn.isCode then code ++ c :: rest.take turn.more else code) (rest.drop turn.more) := by
  rw [scan, hturn]
  simp only
  by_cases hend : isEnd lex c turn = true
  · obtain ⟨-, rfl⟩ := turn_of_isEnd hturn hend
    rw [if_pos hend, if_pos hend]
    simp only [List.take_zero, List.drop_zero, if_true, ← statements.eq_1]
    cases statements rest <;> rfl
  · rw [if_neg hend, if_neg hend]

theorem scan_cons_error {e : Refusal} (hturn : readTurn lex c rest = .error e) :
    scan lex raw code (c :: rest) = .error e := by
  rw [scan, hturn]

/-- At the end of a text nothing is open. -/
theorem scan_nil (h : scan lex raw code [] = .ok ps) :
    lex = .start ∧ ps = if raw = [] then [] else [⟨raw, trim code⟩] := by
  rw [scan] at h
  split at h
  next => cases h
  next hquote =>
    split at h
    next => cases h
    next hstack =>
      cases h
      refine ⟨?_, rfl⟩
      cases lex with
      | mk quote stack =>
          simp only [Bool.not_eq_true, Option.isSome_eq_false_iff, Option.isNone_iff_eq_none] at hquote
          simp only [ne_eq, not_not] at hstack
          rw [hquote, hstack]
          rfl

/-- What comes behind a text that ends with a newline is scanned afresh. -/
theorem scan_append (h : scan lex raw code p = .ok ps) (hp : p.getLast? = some '\n') (x : Text) :
    scan lex raw code (p ++ x) = (statements x).map (ps ++ ·) := by
  induction hn : p.length using Nat.strong_induction_on generalizing lex raw code p ps with
  | _ n ih =>
      cases p with
      | nil => cases hp
      | cons c rest =>
          cases hturn : readTurn lex c rest with
          | error e =>
              rw [scan_cons_error hturn] at h
              cases h
          | ok turn =>
              have hturn' : readTurn lex c (rest ++ x) = .ok turn := (readTurn_append hp x).trans hturn
              obtain ⟨hmore, hall⟩ := readTurn_within hp hturn
              rw [List.cons_append, scan_cons hturn']
              rw [scan_cons hturn] at h
              by_cases hend : isEnd lex c turn = true
              · rw [if_pos hend] at h ⊢
                cases hothers : statements rest with
                | error e =>
                    rw [hothers] at h
                    cases h
                | ok others =>
                    rw [hothers] at h
                    cases h
                    have hrest : statements (rest ++ x) = (statements x).map (others ++ ·) := by
                      cases rest with
                      | nil =>
                          obtain ⟨-, rfl⟩ := scan_nil hothers
                          cases hx : statements x <;> simp [hx, Except.map]
                      | cons d rest =>
                          rw [List.getLast?_cons_cons] at hp
                          exact ih _ (by rw [← hn]; exact Nat.lt_succ_self _) hothers hp rfl
                    rw [hrest]
                    cases statements x <;> rfl
              · rw [if_neg hend] at h ⊢
                have hne : rest.drop turn.more ≠ [] := by
                  intro hnil
                  rw [hnil] at h
                  exact (hall hnil).elim hend fun hlex => hlex (scan_nil h).1
                have hlast : (rest.drop turn.more).getLast? = some '\n' := by
                  have hrest : rest ≠ [] := fun hnil => hne (by rw [hnil, List.drop_nil])
                  rw [List.getLast?_drop, if_neg (by simpa using hne)]
                  rwa [List.getLast?_cons_of_ne_nil hrest] at hp
                rw [List.take_append_of_le_length hmore, List.drop_append_of_le_length hmore]
                refine ih _ ?_ h hlast rfl
                rw [← hn, List.length_drop, List.length_cons]
                omega

/-- A scan ends with what is left, or has a first statement that is one by itself. -/
theorem scan_split (h : scan lex raw code s = .ok ps) :
    (ps = [] ∧ raw ++ s = []) ∨ (∃ st, ps = [st] ∧ st.raw = raw ++ s) ∨
      ∃ first behind st others, s = first ++ behind ∧ first.getLast? = some '\n' ∧
        ps = st :: others ∧ st.raw = raw ++ first ∧ scan lex raw code first = .ok [st] ∧
          statements behind = .ok others := by
  induction hn : s.length using Nat.strong_induction_on generalizing lex raw code s ps with
  | _ n ih =>
      cases s with
      | nil =>
          obtain ⟨-, rfl⟩ := scan_nil h
          rw [List.append_nil]
          by_cases hraw : raw = []
          · exact .inl ⟨if_pos hraw, hraw⟩
          · exact .inr (.inl ⟨_, if_neg hraw, rfl⟩)
      | cons c rest =>
          cases hturn : readTurn lex c rest with
          | error e =>
              rw [scan_cons_error hturn] at h
              cases h
          | ok turn =>
              rw [scan_cons hturn] at h
              by_cases hend : isEnd lex c turn = true
              · rw [if_pos hend] at h
                obtain ⟨rfl, -⟩ := turn_of_isEnd hturn hend
                cases hothers : statements rest with
                | error e =>
                    rw [hothers] at h
                    cases h
                | ok others =>
                    rw [hothers] at h
                    cases h
                    have halone : readTurn lex '\n' [] = .ok turn :=
                      (readTurn_append (by rfl) rest).symm.trans hturn
                    refine .inr (.inr ⟨['\n'], rest, _, others, rfl, rfl, rfl, rfl, ?_, hothers⟩)
                    rw [scan_cons halone, if_pos hend, statements, scan]
                    rfl
              · rw [if_neg hend] at h
                have hsplit : rest.take turn.more ++ rest.drop turn.more = rest :=
                  List.take_append_drop ..
                rcases ih _ (by rw [← hn, List.length_drop, List.length_cons]; omega) h rfl with
                  ⟨-, hnil⟩ | ⟨st, hst, hraw⟩ | ⟨first, behind, st, others, hdrop, hfirst, hst, hraw,
                    hscan, hothers⟩
                · simp at hnil
                · refine .inr (.inl ⟨st, hst, ?_⟩)
                  rw [hraw, List.append_assoc, List.cons_append, hsplit]
                · have hne : first ≠ [] := by
                    rintro rfl
                    cases hfirst
                  have hlast : (c :: (rest.take turn.more ++ first)).getLast? = some '\n' := by
                    rw [← List.cons_append, List.getLast?_append_of_ne_nil _ hne, hfirst]
                  have hrest : rest.take turn.more ++ first ++ behind = rest := by
                    rw [List.append_assoc, ← hdrop, hsplit]
                  have hlength : (rest.take turn.more).length = turn.more := by
                    have hpos := congrArg List.length hdrop
                    have hfirst := List.length_pos_iff.mpr hne
                    rw [List.length_drop, List.length_append] at hpos
                    rw [List.length_take]
                    omega
                  have hshort : readTurn lex c (rest.take turn.more ++ first) = .ok turn := by
                    rw [← readTurn_append hlast behind, hrest, hturn]
                  refine .inr (.inr ⟨c :: (rest.take turn.more ++ first), behind, st, others, ?_,
                    hlast, hst, ?_, ?_, hothers⟩)
                  · rw [List.cons_append, hrest]
                  · rw [hraw, List.append_assoc, List.cons_append]
                  · rw [scan_cons hshort, if_neg hend, List.take_left' hlength,
                      List.drop_left' hlength, hscan]

/-- A statement by itself. -/
def Single (st : Statement) : Prop := statements st.raw = .ok [st]

instance (st : Statement) : Decidable (Single st) := inferInstanceAs (Decidable (_ = _))

/-- Its text ends with a newline. -/
def Ended (st : Statement) : Prop := st.raw.getLast? = some '\n'

/-- The text of statements. -/
def rawText (ps : List Statement) : Text := (ps.map Statement.raw).flatten

theorem statements_nil : statements [] = .ok [] := by
  rw [statements, scan]
  rfl

/-- A text is its statements one after the other: each is one by itself, and all but the last
end with a newline. -/
theorem statements_eq_ok : statements s = .ok ps ↔
    s = rawText ps ∧ (∀ st ∈ ps, Single st) ∧ ∀ st ∈ ps.dropLast, Ended st := by
  constructor
  · intro h
    induction hn : s.length using Nat.strong_induction_on generalizing s ps with
    | _ n ih =>
        rcases scan_split h with ⟨rfl, hs⟩ | ⟨st, rfl, hraw⟩ | ⟨first, behind, st, others, rfl, hfirst,
          rfl, hraw, hscan, hothers⟩
        · rw [List.nil_append] at hs
          exact ⟨hs, by simp, by simp⟩
        · rw [List.nil_append] at hraw
          refine ⟨by simp [rawText, hraw], ?_, by simp⟩
          intro st' hst'
          rw [List.mem_singleton.mp hst', Single, hraw]
          exact h
        · rw [List.nil_append] at hraw
          have hpos : 0 < first.length := List.length_pos_iff.mpr (by rintro rfl; cases hfirst)
          obtain ⟨hbehind, hsingle, hended⟩ := ih behind.length
            (by rw [← hn, List.length_append]; omega) hothers rfl
          refine ⟨?_, ?_, ?_⟩
          · rw [rawText, List.map_cons, List.flatten_cons, hraw, ← rawText, ← hbehind]
          · refine List.forall_mem_cons.mpr ⟨?_, hsingle⟩
            rw [Single, hraw]
            exact hscan
          · cases others with
            | nil => simp
            | cons other others =>
                rw [List.dropLast_cons_cons]
                exact List.forall_mem_cons.mpr ⟨by rw [Ended, hraw, hfirst], hended⟩
  · rintro ⟨rfl, hsingle, hended⟩
    induction ps with
    | nil => exact statements_nil
    | cons st others ih =>
        obtain ⟨hst, hothers⟩ := List.forall_mem_cons.mp hsingle
        cases others with
        | nil =>
            simpa [rawText, Single] using hst
        | cons other others =>
            rw [List.dropLast_cons_cons] at hended
            obtain ⟨hend, hended⟩ := List.forall_mem_cons.mp hended
            rw [rawText, List.map_cons, List.flatten_cons, ← rawText, statements,
              scan_append hst hend, ih hothers hended]
            rfl

/-- Statements can be left out. -/
theorem statements_sublist (h : statements s = .ok ps) (hsub : qs.Sublist ps) :
    statements (rawText qs) = .ok qs := by
  obtain ⟨-, hsingle, hended⟩ := statements_eq_ok.mp h
  have hlast : qs.dropLast.Sublist ps.dropLast := by
    have htail := hsub.reverse.tail
    rw [List.tail_reverse, List.tail_reverse] at htail
    exact List.reverse_sublist.mp htail
  exact statements_eq_ok.mpr ⟨rfl, fun st hst => hsingle st (hsub.subset hst),
    fun st hst => hended st (hlast.subset hst)⟩

/-- What comes behind statements that end with newlines is scanned by itself. -/
theorem statements_behind (hs : statements s = .ok ps) (hend : s = [] ∨ s.getLast? = some '\n')
    (t : Text) : statements (s ++ t) = (statements t).map (ps ++ ·) := by
  rcases hend with rfl | hend
  · cases statements_nil.symm.trans hs
    cases h : statements t <;> simp [h, Except.map]
  · exact scan_append hs hend t

end Acc.AdapterSdk.TomlScan
