import AgentsCanCommunicate.AdapterCodex.ConfigBlock

/-!
# The lines of ACC's block

Each line that ACC writes is a statement by itself.  A string is where this can fail:
`tomlString` escapes its mark and the backslash only, so a string of several lines is not
scanned (`scan_tomlString`).
-/

namespace Acc.AdapterCodex.ConfigBlock

open Library Library.Text
open Library.JsonSyntax
open AdapterSdk.TomlBlock (BEGIN END)
open AdapterSdk.TomlScan

variable {raw code rest p s t name value : Text} {stack : List Char} {c : Char}

/-! ## Spaces at the ends -/

theorem trim_newline (s : Text) : trim (s ++ ['\n']) = trim s := by
  have hspace : isSpace '\n' = true := by decide
  rw [trim, trim, trimStart, trimStart, List.dropWhile_append]
  split
  next hnil =>
    rw [List.isEmpty_iff] at hnil
    rw [hnil]
    rfl
  next => exact List.rdropWhile_concat_pos isSpace _ _ hspace

theorem trim_eq_self (hhead : s.head?.any isSpace = false)
    (hlast : s.getLast?.any isSpace = false) : trim s = s := by
  have hstart : trimStart s = s := by
    cases s with
    | nil => rfl
    | cons c s => exact List.dropWhile_cons_of_neg (by simpa using hhead)
  rw [trim, hstart, trimEnd, List.rdropWhile_eq_self_iff]
  intro hne
  rw [List.getLast?_eq_some_getLast hne] at hlast
  exact Bool.eq_false_iff.mp hlast

/-! ## Scanning a line -/

/-- A character that opens and closes nothing and ends no statement. -/
def isPlain (c : Char) : Bool := c ∉ ['#', '"', '\'', '[', ']', '{', '}', '\n']

theorem scan_plain (hp : p.all isPlain = true) :
    scan ⟨none, stack⟩ raw code (p ++ rest) = scan ⟨none, stack⟩ (raw ++ p) (code ++ p) rest := by
  induction p generalizing raw code with
  | nil => simp
  | cons c p ih =>
      rw [List.all_cons, Bool.and_eq_true] at hp
      obtain ⟨hc, hp⟩ := hp
      simp only [isPlain, List.mem_cons, List.not_mem_nil, or_false, not_or,
        decide_eq_true_eq] at hc
      have hturn : readTurn ⟨none, stack⟩ c (p ++ rest) = .ok ⟨⟨none, stack⟩, 0, true⟩ := by
        simp [readTurn, outsideQuote, hc]
      rw [List.cons_append, scan_cons hturn, if_neg (by simp [isEnd, hc])]
      simp only [List.take_zero, List.drop_zero, if_true]
      rw [ih hp, List.append_assoc, List.append_assoc]
      rfl

theorem scan_open : scan ⟨none, stack⟩ raw code ('[' :: rest) =
    scan ⟨none, '[' :: stack⟩ (raw ++ ['[']) (code ++ ['[']) rest := by
  have hturn : readTurn ⟨none, stack⟩ '[' rest = .ok ⟨⟨none, '[' :: stack⟩, 0, true⟩ := by
    simp [readTurn, outsideQuote]
  rw [scan_cons hturn, if_neg (by simp [isEnd])]
  rfl

theorem scan_close : scan ⟨none, '[' :: stack⟩ raw code (']' :: rest) =
    scan ⟨none, stack⟩ (raw ++ [']']) (code ++ [']']) rest := by
  have hturn : readTurn ⟨none, '[' :: stack⟩ ']' rest = .ok ⟨⟨none, stack⟩, 0, true⟩ := by
    simp [readTurn, outsideQuote]
  rw [scan_cons hturn, if_neg (by simp [isEnd])]
  rfl

theorem scan_newline : scan .start raw code ('\n' :: rest) =
    (statements rest).map (⟨raw ++ ['\n'], trim code⟩ :: ·) := by
  have hturn : readTurn .start '\n' rest = .ok ⟨.start, 0, true⟩ := by
    simp [readTurn, outsideQuote, Lex.start]
  rw [scan_cons hturn, trim_newline]
  exact if_pos rfl

/-- Neither a newline nor a carriage return. -/
def isInLine (c : Char) : Bool := c ≠ '\n' && c ≠ '\r'

theorem scan_escape (hc : isInLine c = true) :
    scan ⟨some ⟨.basic, false⟩, stack⟩ raw code (tomlEscape c ++ rest) =
      scan ⟨some ⟨.basic, false⟩, stack⟩ (raw ++ tomlEscape c) (code ++ tomlEscape c) rest := by
  rw [tomlEscape]
  split
  next hslash =>
    have hturn : readTurn ⟨some ⟨.basic, false⟩, stack⟩ '\\' ('\\' :: rest) =
        .ok ⟨⟨some ⟨.basic, false⟩, stack⟩, 1, true⟩ := by
      simp [readTurn, insideQuote]
    exact (scan_cons hturn).trans (if_neg (by simp [isEnd]))
  next hslash =>
    split
    next hmark =>
      have hturn : readTurn ⟨some ⟨.basic, false⟩, stack⟩ '\\' ('"' :: rest) =
          .ok ⟨⟨some ⟨.basic, false⟩, stack⟩, 1, true⟩ := by
        simp [readTurn, insideQuote]
      exact (scan_cons hturn).trans (if_neg (by simp [isEnd]))
    next hmark =>
      simp only [isInLine, Bool.and_eq_true, decide_eq_true_eq] at hc
      have hturn : readTurn ⟨some ⟨.basic, false⟩, stack⟩ c rest =
          .ok ⟨⟨some ⟨.basic, false⟩, stack⟩, 0, true⟩ := by
        simp [readTurn, insideQuote, Quote.text, Mark.char, hslash, hc, Ne.symm hmark]
      exact (scan_cons hturn).trans (if_neg (by simp [isEnd]))

theorem scan_lineBreak (hc : isInLine c = false) :
    scan ⟨some ⟨.basic, false⟩, stack⟩ raw code (tomlEscape c ++ rest) =
      refuse "newline in single-line string" := by
  simp only [isInLine, Bool.and_eq_false_iff, decide_eq_false_iff_not, not_not] at hc
  have hescape : tomlEscape c = [c] := by
    rcases hc with rfl | rfl <;> rfl
  have hturn : readTurn ⟨some ⟨.basic, false⟩, stack⟩ c rest =
      refuse "newline in single-line string" := by
    rcases hc with rfl | rfl <;> simp [readTurn, insideQuote, Quote.text, Mark.char]
  rw [hescape]
  exact scan_cons_error hturn

theorem scan_inside (value : Text) :
    scan ⟨some ⟨.basic, false⟩, stack⟩ raw code (value.flatMap tomlEscape ++ '"' :: rest) =
      if value.all isInLine then
        scan ⟨none, stack⟩ (raw ++ value.flatMap tomlEscape ++ ['"'])
          (code ++ value.flatMap tomlEscape ++ ['"']) rest
      else refuse "newline in single-line string" := by
  induction value generalizing raw code with
  | nil =>
      have hturn : readTurn ⟨some ⟨.basic, false⟩, stack⟩ '"' rest =
          .ok ⟨⟨none, stack⟩, 0, true⟩ := by
        simp [readTurn, insideQuote, Quote.text, Mark.char]
      rw [List.flatMap_nil, List.nil_append, scan_cons hturn, if_neg (by simp [isEnd])]
      simp
  | cons c value ih =>
      rw [List.flatMap_cons, List.append_assoc]
      cases hc : isInLine c with
      | true =>
          rw [scan_escape hc, ih]
          simp [hc]
      | false =>
          rw [scan_lineBreak hc]
          simp [hc]

/-- A string that ACC writes is scanned when it is of one line. -/
theorem scan_tomlString (hrest : rest.head? ≠ some '"') (value : Text) :
    scan ⟨none, stack⟩ raw code (tomlString value ++ rest) =
      if value.all isInLine then
        scan ⟨none, stack⟩ (raw ++ tomlString value) (code ++ tomlString value) rest
      else refuse "newline in single-line string" := by
  have hlong : ['"', '"'].isPrefixOf (value.flatMap tomlEscape ++ '"' :: rest) = false := by
    cases value with
    | nil =>
        cases rest with
        | nil => rfl
        | cons d rest =>
            have hd : '"' ≠ d := fun h => hrest (by rw [h]; rfl)
            simp [Bool.eq_false_iff, List.isPrefixOf_iff_prefix, hd]
    | cons c value =>
        rw [List.flatMap_cons, tomlEscape]
        split
        next => rfl
        next =>
          split
          next => rfl
          next hmark => simp [Bool.eq_false_iff, List.isPrefixOf_iff_prefix, Ne.symm hmark]
  have hturn : readTurn ⟨none, stack⟩ '"' (value.flatMap tomlEscape ++ '"' :: rest) =
      .ok ⟨⟨some ⟨.basic, false⟩, stack⟩, 0, true⟩ := by
    simp [readTurn, outsideQuote, openQuote, Mark.char, hlong]
  have htext : tomlString value ++ rest = '"' :: (value.flatMap tomlEscape ++ '"' :: rest) := by
    simp [tomlString]
  rw [htext, scan_cons hturn, if_neg (by simp [isEnd])]
  simp only [List.take_zero, List.drop_zero, if_true, scan_inside]
  simp [tomlString]

/-! ## Lines -/

/-- A line of code. -/
def line (code : Text) : Statement := ⟨code ++ ['\n'], code⟩

/-- A comment, or an empty line. -/
def comment (text : Text) : Statement := ⟨text ++ ['\n'], []⟩

theorem statements_single {item : Statement} (hsingle : Single item) (hended : Ended item)
    (rest : Text) : statements (item.raw ++ rest) = (statements rest).map (item :: ·) := by
  rw [statements, scan_append hsingle hended]
  rfl

theorem comment_single (h : OneLine s) : Single (comment ('#' :: s)) := by
  have htake : (s ++ ['\n']).takeWhile (· ≠ '\n') = s := by
    rw [List.takeWhile_append_of_pos fun c hc => by simpa using fun heq : c = '\n' => h (heq ▸ hc)]
    simp
  have hturn : readTurn .start '#' (s ++ ['\n']) = .ok ⟨.start, s.length, false⟩ := by
    rw [readTurn, Lex.start, outsideQuote, if_pos rfl, htake]
  rw [Single, comment, List.cons_append, statements, scan_cons hturn, if_neg (by simp [isEnd])]
  simp only [List.take_left, List.drop_left, Bool.false_eq_true, if_false]
  rw [scan_newline, statements_nil]
  rfl

theorem line_ended : Ended (line s) := by
  rw [Ended, line, List.getLast?_concat]

theorem comment_ended : Ended (comment s) := by
  rw [Ended, comment, List.getLast?_concat]

def pluginsHeader : Text :=
  "[plugins.".toList ++ tomlString "agents-can-communicate@acc-local".toList ++ [']']

/-- The lines that are the same in every block are statements by themselves. -/
theorem fixed_single : Single (comment BEGIN) ∧ Single (line "[marketplaces.acc-local]".toList) ∧
    Single (line "source_type = \"local\"".toList) ∧ Single (comment []) ∧
      Single (line pluginsHeader) ∧ Single (line "enabled = true".toList) ∧
        Single (line "[sandbox_workspace_write]".toList) ∧ Single (comment END) := by
  decide +kernel

/-- What they declare.  An empty line declares nothing. -/
theorem fixed_declarations :
    declaration "[marketplaces.acc-local]".toList = .ok ⟨marketplaceKeys, true, false, none⟩ ∧
    declaration pluginsHeader = .ok ⟨pluginKeys, true, false, none⟩ ∧
    declaration "[sandbox_workspace_write]".toList = .ok ⟨sandboxKeys, true, false, none⟩ ∧
    declaration "source_type = \"local\"".toList =
      .ok ⟨["source_type".toList], false, false, some "\"local\"".toList⟩ ∧
    declaration "enabled = true".toList =
      .ok ⟨["enabled".toList], false, false, some "true".toList⟩ ∧
    declaration [] = refuse "unrecognized TOML key" := by
  decide +kernel

/-- Which comments are markers. -/
theorem fixed_comments : isBegin (comment BEGIN) = true ∧ isEndMarker (comment END) = true ∧
    isMetadata (comment END) = false ∧ isBegin (comment []) = false ∧
      isEndMarker (comment []) = false ∧ trim (comment []).raw = [] := by
  decide +kernel

/-- Which of ACC's tables are registered, and what their keys may be. -/
theorem fixed_keys :
    OWNED.lookup marketplaceKeys = some ["source_type".toList, "source".toList] ∧
    OWNED.lookup pluginKeys = some ["enabled".toList] ∧
    OWNED.lookup sandboxKeys = some ["writable_roots".toList] ∧
    marketplaceKeys.head? ≠ sandboxKeys.head? ∧ pluginKeys.head? ≠ sandboxKeys.head? ∧
    isValid "source_type".toList "\"local\"".toList = true ∧
    isValid "enabled".toList "true".toList = true ∧ "source_type".toList ≠ "source".toList := by
  decide +kernel

theorem trim_assignment (hname : name.head?.any isSpace = false) (hne : name ≠ [])
    (hc : isSpace c = false) : trim (name ++ s ++ [c]) = name ++ s ++ [c] := by
  refine trim_eq_self ?_ ?_
  · rwa [List.append_assoc, List.head?_append_of_ne_nil _ hne]
  · rwa [List.getLast?_concat]

/-- The line that names the root of the marketplace. -/
theorem statements_source (value rest : Text) :
    statements ((line ("source = ".toList ++ tomlString value)).raw ++ rest) =
      if value.all isInLine then
        (statements rest).map (line ("source = ".toList ++ tomlString value) :: ·)
      else refuse "newline in single-line string" := by
  have htrim : trim ("source = ".toList ++ tomlString value) =
      "source = ".toList ++ tomlString value := by
    rw [tomlString, ← List.append_assoc]
    exact trim_assignment (by decide +kernel) (by decide +kernel) (by decide)
  rw [line, List.append_assoc, List.append_assoc, statements, Lex.start, scan_plain (by decide +kernel),
    List.cons_append, scan_tomlString (by simp)]
  split
  next =>
    rw [← Lex.start, List.nil_append, scan_newline, htrim]
    rfl
  next => rfl

def rootsStart : Text := "writable_roots = ".toList

def rootsLine (root : Text) : Text := rootsStart ++ '[' :: (tomlString root ++ [']'])

/-- The line that names the root of the sandbox. -/
theorem statements_rootsLine (value rest : Text) :
    statements ((line (rootsLine value)).raw ++ rest) =
      if value.all isInLine then (statements rest).map (line (rootsLine value) :: ·)
      else refuse "newline in single-line string" := by
  have hraw : (line (rootsLine value)).raw ++ rest =
      rootsStart ++ '[' :: (tomlString value ++ (']' :: '\n' :: rest)) := by
    simp only [line, rootsLine, List.append_assoc, List.cons_append, List.nil_append]
  have htrim : trim (rootsLine value) = rootsLine value := by
    rw [rootsLine, ← List.cons_append, ← List.append_assoc]
    exact trim_assignment (by decide +kernel) (by decide +kernel) (by decide)
  have hscanned : ([] : Text) ++ rootsStart ++ ['['] ++ tomlString value ++ [']'] =
      rootsLine value := by
    simp only [rootsLine, List.append_assoc, List.cons_append, List.nil_append]
  rw [hraw, statements, Lex.start, scan_plain (by decide +kernel), scan_open,
    scan_tomlString (by simp)]
  split
  next =>
    rw [scan_close, ← Lex.start, scan_newline, hscanned, htrim]
    rfl
  next => rfl

/-! ## Declarations of a line -/

theorem ascii_of_isBareKey (h : isBareKey c = true) : c.toNat < 128 := by
  simp only [isBareKey, Bool.or_eq_true, decide_eq_true_eq] at h
  rcases h with (h | rfl) | rfl
  · simp only [Char.isAlphanum, Char.isAlpha, Char.isUpper, Char.isLower, Char.isDigit,
      Bool.or_eq_true, Bool.and_eq_true, decide_eq_true_eq, UInt32.le_iff_toNat_le] at h
    have hval : c.toNat = c.val.toNat := rfl
    simp at h
    omega
  · decide
  · decide

/-- What starts no bare key. -/
def startsOther (c : Char) : Bool := isSpace c || c ∈ ['[', '"', '\'']

theorem startsOther_of_isBareKey (h : isBareKey c = true) : startsOther c = false := by
  have hall : ∀ n < 128, isBareKey (Char.ofNat n) = true → startsOther (Char.ofNat n) = false := by
    decide
  have := hall c.toNat (ascii_of_isBareKey h)
  rw [Char.ofNat_toNat] at this
  exact this h

theorem matchKey_bare (hne : name ≠ []) (hname : name.all isBareKey = true)
    (hrest : rest.head?.any isBareKey = false) : matchKey (name ++ rest) = some (name, rest) := by
  have htake : (name ++ rest).takeWhile isBareKey = name := by
    rw [List.takeWhile_append_of_pos fun c hc => List.all_eq_true.mp hname c hc]
    cases rest with
    | nil => simp
    | cons d rest => rw [List.takeWhile_cons_of_neg (by simpa using hrest), List.append_nil]
  cases name with
  | nil => exact absurd rfl hne
  | cons c name =>
      rw [List.all_cons, Bool.and_eq_true] at hname
      have hquote : c ≠ '\'' := by
        rintro rfl
        exact absurd hname.1 (by decide)
      have hmark : c ≠ '"' := by
        rintro rfl
        exact absurd hname.1 (by decide)
      rw [List.cons_append] at htake ⊢
      rw [matchKey.eq_3 _ (fun body h => hquote (List.cons.inj h).1)
        (fun body h => hmark (List.cons.inj h).1), htake]
      simp

/-- The last key of a path. -/
theorem readKeys_last {keys : List Text} {written key after : Text}
    (hmatch : matchKey rest = some (written, after)) (hkey : decodeKey written = .ok key)
    (hdot : (trimStart after).head? ≠ some '.') :
    readKeys keys rest = .ok (keys ++ [key], trimStart after) := by
  rw [readKeys]
  split
  next h => rw [hmatch] at h; cases h
  next written' after' h =>
    rw [hmatch] at h
    cases h
    rw [hkey]
    simp only
    split
    next behind h => rw [h] at hdot; exact absurd rfl hdot
    next => rfl

/-- An assignment to a bare key. -/
theorem declaration_bare (hne : name ≠ []) (hname : name.all isBareKey = true) (value : Text) :
    declaration (name ++ " = ".toList ++ value) = .ok ⟨[name], false, false, some (trim value)⟩ := by
  have hkey : matchKey (name ++ (" = ".toList ++ value)) = some (name, " = ".toList ++ value) :=
    matchKey_bare hne hname (by simp; decide)
  cases name with
  | nil => exact absurd rfl hne
  | cons c name =>
      rw [List.all_cons, Bool.and_eq_true] at hname
      have hother := startsOther_of_isBareKey hname.1
      simp only [startsOther, Bool.or_eq_false_iff, decide_eq_false_iff_not, List.mem_cons,
        List.not_mem_nil, or_false, not_or] at hother
      obtain ⟨hspace, hopen, hmark, hquote⟩ := hother
      have hdecode : decodeKey (c :: name) = .ok (c :: name) := by
        simp [decodeKey, hmark, hquote]
      have hstart : trimStart (c :: name ++ (" = ".toList ++ value)) =
          c :: name ++ (" = ".toList ++ value) := by
        rw [trimStart, List.cons_append, List.dropWhile_cons_of_neg (by simp [hspace])]
      have hequals : trimStart (" = ".toList ++ value) = '=' :: ' ' :: value := rfl
      have hpath : keyPath (c :: name ++ (" = ".toList ++ value)) =
          .ok ([c :: name], '=' :: ' ' :: value) := by
        rw [keyPath, hstart, readKeys_last hkey hdecode (by rw [hequals]; simp), hequals]
        rfl
      have hheader : ['['].isPrefixOf (c :: name ++ (" = ".toList ++ value)) = false := by
        simp [Bool.eq_false_iff, List.isPrefixOf_iff_prefix, Ne.symm hopen]
      have hvalue : trim (' ' :: value) = trim value := rfl
      rw [declaration, List.append_assoc]
      simp only [hheader, Bool.false_and, Bool.false_eq_true, if_false, hpath]
      simp [Bind.bind, Except.bind, pure, Except.pure, hvalue]

/-! ## The sandbox -/

/-- A character that `JSON.parse` takes inside of a string and `.` matches. -/
def isJsonPlain (c : Char) : Bool := 32 ≤ c.toNat && !isLineTerminator c

theorem readString_tomlEscape (c : Char) (rest : Text) : readString (tomlEscape c ++ rest) =
    if 32 ≤ c.toNat then
      (readString rest).map fun found => (Utf16.ofChar c ++ found.1, found.2)
    else none := by
  rw [tomlEscape]
  split
  next hslash =>
    subst hslash
    exact readString_escape (c := '\\') (by decide) (by decide) rest
  next hslash =>
    split
    next hmark =>
      subst hmark
      exact readString_escape (c := '"') (by decide) (by decide) rest
    next hmark =>
      rw [List.cons_append, List.nil_append]
      split
      next hplain => exact readString_plain hmark hslash (by omega) rest
      next hcontrol => exact readString_control hmark hslash (by omega) rest

theorem readString_inside (value rest : Text) :
    readString (value.flatMap tomlEscape ++ '"' :: rest) =
      if value.all (32 ≤ ·.toNat) then some (units value, rest) else none := by
  induction value with
  | nil => rfl
  | cons c value ih =>
      rw [List.flatMap_cons, List.append_assoc, readString_tomlEscape, ih, units_cons]
      by_cases hc : 32 ≤ c.toNat <;> cases hall : value.all (32 ≤ ·.toNat) <;>
        simp [hc, hall]

/-- What `JSON.parse` gives for the roots that ACC writes. -/
theorem parse_roots (value : Text) : parse ('[' :: tomlString value ++ [']']) =
    if value.all (32 ≤ ·.toNat) then some (.array [.string (units value)]) else none := by
  have hread := readString_inside value [']']
  have htext : '[' :: tomlString value ++ [']'] =
      '[' :: '"' :: (value.flatMap tomlEscape ++ '"' :: [']']) := by
    simp [tomlString]
  have hlength : ∃ n, 2 * ('[' :: tomlString value ++ [']']).length + 1 = n + 3 :=
    ⟨_, by simp [tomlString]; rfl⟩
  obtain ⟨n, hn⟩ := hlength
  rw [parse, hn, htext]
  cases hall : value.all (32 ≤ ·.toNat) with
  | true =>
      rw [hall, if_pos rfl] at hread
      simp [readValue, readItems, skip, isBlank, hread]
  | false =>
      rw [hall, if_neg Bool.false_ne_true] at hread
      simp [readValue, readItems, skip, isBlank, hread]

theorem all_flatMap_tomlEscape (value : Text) :
    (value.flatMap tomlEscape).all (!isLineTerminator ·) = value.all (!isLineTerminator ·) := by
  induction value with
  | nil => rfl
  | cons c value ih =>
      rw [List.flatMap_cons, List.all_append, ih, List.all_cons, tomlEscape]
      split
      next h => subst h; rfl
      next =>
        split
        next h => subst h; rfl
        next => simp

theorem rootsValue_rootsLine (root : Text) : rootsValue (rootsLine root) =
    if root.all (!isLineTerminator ·) then some ('[' :: tomlString root ++ [']']) else none := by
  have hpre : "writable_roots".toList.isPrefixOf (rootsLine root) = true := rfl
  have hequals : trimStart ((rootsLine root).drop "writable_roots".toList.length) =
      '=' :: ' ' :: '[' :: (tomlString root ++ [']']) := rfl
  have hvalue : trimStart (' ' :: '[' :: (tomlString root ++ [']'])) =
      '[' :: tomlString root ++ [']'] := rfl
  have hlast : ('[' :: tomlString root ++ [']']).getLast? = some ']' := List.getLast?_concat
  have hall : ('[' :: tomlString root ++ [']']).all (!isLineTerminator ·) =
      root.all (!isLineTerminator ·) := by
    rw [← all_flatMap_tomlEscape root]
    simp [tomlString, isLineTerminator]
  simp only [rootsValue, hpre, hequals, hvalue, hlast, hall]
  simp

theorem isMetadata_ownership (root : Text) :
    trim (comment (sandboxOwnership root)).raw = ROOT ++ quote root ∧
      isMetadata (comment (sandboxOwnership root)) = true := by
  have htrim : trim (comment (sandboxOwnership root)).raw = ROOT ++ quote root := by
    rw [comment, trim_newline, sandboxOwnership, quote, ← List.append_assoc]
    exact trim_assignment (by decide +kernel) (by decide +kernel) (by decide)
  refine ⟨htrim, ?_⟩
  rw [isMetadata, htrim, List.isPrefixOf_iff_prefix.mpr (List.prefix_append ROOT _)]
  rfl

/-- The sandbox that ACC writes is found to be ACC's unless its root has a character that
should have been escaped. -/
theorem ownsSandbox_written (root : Text) :
    ownsSandbox [comment (sandboxOwnership root), line (rootsLine root), comment END] =
      root.all isJsonPlain := by
  obtain ⟨htrim, hnote⟩ := isMetadata_ownership root
  have hvalue : hasCode (line (rootsLine root)) = true := rfl
  have hnotes : [comment (sandboxOwnership root), line (rootsLine root), comment END].filter
      isMetadata = [comment (sandboxOwnership root)] := by
    have hend : isMetadata (comment END) = false := fixed_comments.2.2.1
    have hline : isMetadata (line (rootsLine root)) = false := rfl
    simp [hnote, hend, hline]
  have hvalues : [comment (sandboxOwnership root), line (rootsLine root), comment END].filter
      hasCode = [line (rootsLine root)] := by
    have hend : hasCode (comment END) = false := rfl
    have hcomment : hasCode (comment (sandboxOwnership root)) = false := rfl
    simp [hvalue, hend, hcomment]
  have hroot : (ROOT ++ quote root).drop ROOT.length = quote root := List.drop_left
  have hcode : (line (rootsLine root)).code = rootsLine root := rfl
  have hplain : root.all isJsonPlain =
      (root.all (32 ≤ ·.toNat) && root.all (!isLineTerminator ·)) := by
    rw [Bool.eq_iff_iff]
    simp [isJsonPlain, List.all_eq_true, imp_and, forall_and]
  rw [ownsSandbox, hnotes, hvalues]
  simp only [htrim, hroot, parse_quote, hcode, rootsValue_rootsLine, hplain]
  cases hline : root.all (!isLineTerminator ·) with
  | false => simp
  | true =>
      simp only [if_true, Option.bind_some, parse_roots]
      cases root.all (32 ≤ ·.toNat) <;> simp

end Acc.AdapterCodex.ConfigBlock
