import AgentsCanCommunicate.Library.JsonValue
import AgentsCanCommunicate.Library.Text

/-!
# JSON as text

`quote` is what `JSON.stringify` gives for a string and `parse` is `JSON.parse`.  A number is
read as the double that is nearest.

The depth of a value bounds how often `readValue` calls itself; it is bounded by the length of
the text, so `parse` never stops for want of it.
-/

namespace Library.JsonSyntax

open Library.Text

/-! ## Strings -/

def hexDigit (n : Nat) : Char := (Nat.digitChar n)

/-- `\u` and the four digits of a number below 32. -/
def unicodeEscape (n : Nat) : Text := ['\\', 'u', '0', '0', hexDigit (n / 16), hexDigit (n % 16)]

def escapeChar (c : Char) : Text :=
  if c = '"' then ['\\', '"']
  else if c = '\\' then ['\\', '\\']
  else if c = '\x08' then ['\\', 'b']
  else if c = '\x0c' then ['\\', 'f']
  else if c = '\n' then ['\\', 'n']
  else if c = '\r' then ['\\', 'r']
  else if c = '\t' then ['\\', 't']
  else if c.toNat < 32 then unicodeEscape c.toNat
  else [c]

/-- `JSON.stringify` of a string. -/
def quote (s : Text) : Text := '"' :: s.flatMap escapeChar ++ ['"']

def hexValue (c : Char) : Option Nat :=
  if c.isDigit then some (c.toNat - '0'.toNat)
  else if 'a' ≤ c ∧ c ≤ 'f' then some (c.toNat - 'a'.toNat + 10)
  else if 'A' ≤ c ∧ c ≤ 'F' then some (c.toNat - 'A'.toNat + 10)
  else none

def hexUnit (a b c d : Char) : Option UInt16 := do
  let w ← hexValue a
  let x ← hexValue b
  let y ← hexValue c
  let z ← hexValue d
  return UInt16.ofNat (((w * 16 + x) * 16 + y) * 16 + z)

/-- What a backslash and this character stand for. -/
def unescapeChar (c : Char) : Option Char :=
  [('"', '"'), ('\\', '\\'), ('/', '/'), ('b', '\x08'), ('f', '\x0c'), ('n', '\n'), ('r', '\r'),
    ('t', '\t')].lookup c

/-- The inside of a string, and what is behind its closing mark. -/
def readString : Text → Option (Utf16 × Text)
  | [] => none
  | '"' :: rest => some ([], rest)
  | '\\' :: 'u' :: a :: b :: c :: d :: rest => do
      let unit ← hexUnit a b c d
      let found ← readString rest
      return (unit :: found.1, found.2)
  | '\\' :: c :: rest => do
      let char ← unescapeChar c
      let found ← readString rest
      return (Utf16.ofChar char ++ found.1, found.2)
  | c :: rest =>
      if c = '\\' ∨ c.toNat < 32 then none
      else do
        let found ← readString rest
        return (Utf16.ofChar c ++ found.1, found.2)

/-! ## Numbers -/

/-- The integer nearest to a number, the even one of two. -/
def roundHalfEven (x : ℚ) : ℤ :=
  let below := ⌊x⌋
  if x - below < 1 / 2 ∨ (x - below = 1 / 2 ∧ below % 2 = 0) then below else below + 1

/-- The double nearest to a number. -/
def toDouble (x : ℚ) : JsonValue :=
  if x = 0 then .number 0
  else
    let exponent := max (Int.log 2 |x| - 52) (-1074)
    let nearest := roundHalfEven (x / 2 ^ exponent) * (2 : ℚ) ^ exponent
    if 2 ^ 1024 ≤ |nearest| then .infinity else .number nearest

def digits (s : Text) : Text := s.takeWhile Char.isDigit

def natural (digits : Text) : Nat := digits.foldl (fun n c => 10 * n + (c.toNat - '0'.toNat)) 0

/-- The digits behind a point, if there is one, and the rest. -/
def readFraction (s : Text) : Option (Text × Text) :=
  match s with
  | '.' :: rest => if digits rest = [] then none else some (digits rest, rest.dropWhile Char.isDigit)
  | _ => some ([], s)

def readExponent (s : Text) : Option (ℤ × Text) :=
  match s with
  | c :: rest =>
      if c = 'e' ∨ c = 'E' then
        let negative := rest.head? = some '-'
        let rest := if negative ∨ rest.head? = some '+' then rest.tail else rest
        if digits rest = [] then none
        else
          let n : ℤ := natural (digits rest)
          some (if negative then -n else n, rest.dropWhile Char.isDigit)
      else some (0, s)
  | [] => some (0, s)

def readNumber (s : Text) : Option (JsonValue × Text) := do
  let negative := s.head? = some '-'
  let s := if negative then s.tail else s
  let whole := digits s
  if whole = [] ∨ (whole.head? = some '0' ∧ whole.length ≠ 1) then none
  else
    let (fraction, s) ← readFraction (s.dropWhile Char.isDigit)
    let (exponent, s) ← readExponent s
    let size : ℚ := natural (whole ++ fraction) * (10 : ℚ) ^ (exponent - fraction.length)
    return (toDouble (if negative then -size else size), s)

/-! ## Values -/

/-- The white space of JSON. -/
def isBlank (c : Char) : Bool := c = ' ' || c = '\t' || c = '\n' || c = '\r'

def skip (s : Text) : Text := s.dropWhile isBlank

def words : List (Text × JsonValue) :=
  [("null".toList, .null), ("true".toList, .bool true), ("false".toList, .bool false)]

def readWord (s : Text) : Option (JsonValue × Text) :=
  (words.find? fun word => word.1.isPrefixOf s).map fun word => (word.2, s.drop word.1.length)

/-- A member more.  One of the same key takes its value. -/
def putMember (key : Utf16) (value : JsonValue) (members : List (Utf16 × JsonValue)) :
    List (Utf16 × JsonValue) :=
  if members.any (·.1 = key) then members.map fun m => if m.1 = key then (key, value) else m
  else members ++ [(key, value)]

mutual

def readValue : Nat → Text → Option (JsonValue × Text)
  | 0, _ => none
  | fuel + 1, s =>
      match skip s with
      | '"' :: rest => (readString rest).map fun found => (.string found.1, found.2)
      | '[' :: rest =>
          match skip rest with
          | ']' :: behind => some (.array [], behind)
          | inside => (readItems fuel inside).map fun found => (.array found.1, found.2)
      | '{' :: rest =>
          match skip rest with
          | '}' :: behind => some (.object [], behind)
          | inside => (readMembers fuel [] inside).map fun found => (.object found.1, found.2)
      | rest => (readWord rest).orElse fun _ => readNumber rest

def readItems : Nat → Text → Option (List JsonValue × Text)
  | 0, _ => none
  | fuel + 1, s => do
      let (value, s) ← readValue fuel s
      match skip s with
      | ',' :: rest => (readItems fuel rest).map fun found => (value :: found.1, found.2)
      | ']' :: rest => some ([value], rest)
      | _ => none

def readMembers : Nat → List (Utf16 × JsonValue) → Text →
    Option (List (Utf16 × JsonValue) × Text)
  | 0, _, _ => none
  | fuel + 1, members, s =>
      match skip s with
      | '"' :: rest => do
          let (key, s) ← readString rest
          match skip s with
          | ':' :: rest => do
              let (value, s) ← readValue fuel rest
              match skip s with
              | ',' :: rest => readMembers fuel (putMember key value members) rest
              | '}' :: rest => some (putMember key value members, rest)
              | _ => none
          | _ => none
      | _ => none

end

/-- `JSON.parse`, or nothing where it throws. -/
def parse (s : Text) : Option JsonValue :=
  match readValue (2 * s.length + 1) s with
  | some (value, rest) => if skip rest = [] then some value else none
  | none => none

/-! ## Reading what was written -/

variable {s rest : Text} {c : Char}

/-- The units of a text. -/
def units (s : Text) : Utf16 := s.flatMap Utf16.ofChar

theorem units_cons (c : Char) (s : Text) : units (c :: s) = Utf16.ofChar c ++ units s :=
  List.flatMap_cons ..

theorem readString_plain (hquote : c ≠ '"') (hslash : c ≠ '\\') (hcontrol : ¬c.toNat < 32)
    (rest : Text) : readString (c :: rest) =
      (readString rest).map fun found => (Utf16.ofChar c ++ found.1, found.2) := by
  rw [readString.eq_5 c rest hquote (fun _ _ _ _ _ h => absurd h hslash)
    (fun _ _ h => absurd h hslash), if_neg (by simp [hslash, hcontrol])]
  cases readString rest <;> rfl

theorem readString_control (hquote : c ≠ '"') (hslash : c ≠ '\\') (hcontrol : c.toNat < 32)
    (rest : Text) : readString (c :: rest) = none := by
  rw [readString.eq_5 c rest hquote (fun _ _ _ _ _ h => absurd h hslash)
    (fun _ _ h => absurd h hslash), if_pos (.inr hcontrol)]

theorem readString_escape {d : Char} (h : unescapeChar d = some c) (hu : d ≠ 'u') (rest : Text) :
    readString ('\\' :: d :: rest) =
      (readString rest).map fun found => (Utf16.ofChar c ++ found.1, found.2) := by
  rw [readString.eq_4 d rest (fun _ _ _ _ _ h => absurd h hu), h]
  cases readString rest <;> rfl

theorem hexUnit_unicodeEscape : ∀ n < 32,
    (hexUnit '0' '0' (hexDigit (n / 16)) (hexDigit (n % 16))).map (fun unit => [unit]) =
      some (Utf16.ofChar (Char.ofNat n)) := by decide

theorem readString_unicodeEscape (hcontrol : c.toNat < 32) (rest : Text) :
    readString (unicodeEscape c.toNat ++ rest) =
      (readString rest).map fun found => (Utf16.ofChar c ++ found.1, found.2) := by
  have hunit := hexUnit_unicodeEscape c.toNat hcontrol
  obtain ⟨unit, hunit, hchar⟩ := Option.map_eq_some_iff.mp hunit
  rw [Char.ofNat_toNat] at hchar
  rw [unicodeEscape, List.cons_append, List.cons_append, List.cons_append, List.cons_append,
    List.cons_append, List.cons_append, List.nil_append, readString.eq_3, hunit, ← hchar]
  cases readString rest <;> rfl

/-- A character as it is written is read as itself. -/
theorem readString_escapeChar (c : Char) (rest : Text) : readString (escapeChar c ++ rest) =
    (readString rest).map fun found => (Utf16.ofChar c ++ found.1, found.2) := by
  rw [escapeChar]
  split
  next h => subst h; exact readString_escape (by decide) (by decide) rest
  next hquote =>
    split
    next h => subst h; exact readString_escape (by decide) (by decide) rest
    next hslash =>
      split
      next h => subst h; exact readString_escape (by decide) (by decide) rest
      next =>
        split
        next h => subst h; exact readString_escape (by decide) (by decide) rest
        next =>
          split
          next h => subst h; exact readString_escape (by decide) (by decide) rest
          next =>
            split
            next h => subst h; exact readString_escape (by decide) (by decide) rest
            next =>
              split
              next h => subst h; exact readString_escape (by decide) (by decide) rest
              next =>
                split
                next hcontrol => exact readString_unicodeEscape hcontrol rest
                next hcontrol => exact readString_plain hquote hslash hcontrol rest

/-- What is written has no control characters. -/
theorem escapeChar_plain (c : Char) : (escapeChar c).all (32 ≤ ·.toNat) = true := by
  by_cases hcontrol : c.toNat < 32
  · have hall : ∀ n < 32, (escapeChar (Char.ofNat n)).all (32 ≤ ·.toNat) = true := by decide
    have hc := hall c.toNat hcontrol
    rwa [Char.ofNat_toNat] at hc
  · rw [escapeChar]
    have hplain : [c].all (32 ≤ ·.toNat) = true := by simp; omega
    split_ifs <;> first | exact hplain | decide

theorem quote_plain (s : Text) : (quote s).all (32 ≤ ·.toNat) = true := by
  have hinner : (s.flatMap escapeChar).all (32 ≤ ·.toNat) = true := by
    rw [List.all_flatMap]
    exact List.all_eq_true.mpr fun c _ => escapeChar_plain c
  rw [quote, List.all_append, List.all_cons, hinner]
  rfl

/-- A string that was written is read back, and what is behind it is left. -/
theorem readString_quote (s rest : Text) :
    readString (s.flatMap escapeChar ++ '"' :: rest) = some (units s, rest) := by
  induction s with
  | nil => rfl
  | cons c s ih =>
      rw [List.flatMap_cons, List.append_assoc, readString_escapeChar, ih, units_cons]
      rfl

theorem readValue_string {n : Nat} {value : Utf16} (h : readString s = some (value, rest)) :
    readValue (n + 1) ('"' :: s) = some (.string value, rest) := by
  simp [readValue, skip, isBlank, h]

theorem parse_quote (s : Text) : parse (quote s) = some (.string (units s)) := by
  rw [parse, quote, List.cons_append, readValue_string (readString_quote s [])]
  rfl

end Library.JsonSyntax
