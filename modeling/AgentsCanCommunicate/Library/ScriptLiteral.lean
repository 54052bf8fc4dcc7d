import AgentsCanCommunicate.Library.Utf16

/-!
# String literals of a script

`stringify` writes a string as `JSON.stringify` does: a surrogate that stands alone is escaped,
so that what is written can be encoded.  `readLiteral` reads a literal of a module in double
quotes, with every escape of the language.  What was written is read back
(`readLiteral_stringify`).
-/

namespace Library.ScriptLiteral

open Utf16 (isHigh isLow)

/-! ## Writing -/

def mark : UInt16 := 0x22
def backslash : UInt16 := 0x5C

/-- The units that are escaped by a letter or a mark of their own. -/
def letters : List (UInt16 × UInt16) :=
  [(0x08, 0x62), (0x09, 0x74), (0x0A, 0x6E), (0x0C, 0x66), (0x0D, 0x72), (mark, mark),
    (backslash, backslash)]

def hexDigit (n : Nat) : UInt16 := if n < 10 then (0x30 + n).toUInt16 else (0x57 + n).toUInt16

def unicodeEscape (c : UInt16) : Utf16 :=
  [backslash, 0x75, hexDigit (c.toNat / 0x1000), hexDigit (c.toNat / 0x100 % 16),
    hexDigit (c.toNat / 0x10 % 16), hexDigit (c.toNat % 16)]

/-- A unit that is no part of a pair. -/
def stringifyUnit (c : UInt16) : Utf16 :=
  match letters.lookup c with
  | some letter => [backslash, letter]
  | none => if c < 0x20 || isHigh c || isLow c then unicodeEscape c else [c]

def stringifyUnits : Utf16 → Utf16
  | [] => []
  | [c] => stringifyUnit c
  | c :: d :: rest =>
      if isHigh c && isLow d then c :: d :: stringifyUnits rest
      else stringifyUnit c ++ stringifyUnits (d :: rest)

/-- `JSON.stringify` of a string. -/
def stringify (s : Utf16) : Utf16 := mark :: stringifyUnits s ++ [mark]

/-! ## Reading -/

def hexValue (c : UInt16) : Option Nat :=
  if 0x30 ≤ c && c ≤ 0x39 then some (c.toNat - 0x30)
  else if 0x61 ≤ c && c ≤ 0x66 then some (c.toNat - 0x57)
  else if 0x41 ≤ c && c ≤ 0x46 then some (c.toNat - 0x37)
  else none

/-- The units of a code point. -/
def encode (point : Nat) : Utf16 :=
  if point < 0x10000 then [point.toUInt16]
  else [(0xD800 + (point - 0x10000) / 0x400).toUInt16, (0xDC00 + (point - 0x10000) % 0x400).toUInt16]

inductive Mode where
  | plain
  | escape
  /-- Some digits are still to come. -/
  | hex (left value : Nat)
  | unicode
  /-- Between braces. -/
  | point (value : Option Nat)
  /-- At the line feed of a line that goes on. -/
  | feed

/-- What a letter behind a backslash stands for. -/
def escaped : List (UInt16 × UInt16) :=
  [(0x62, 0x08), (0x74, 0x09), (0x6E, 0x0A), (0x76, 0x0B), (0x66, 0x0C), (0x72, 0x0D)]

def isDigit (c : UInt16) : Bool := 0x30 ≤ c && c ≤ 0x39

def put (s : Utf16) (found : Option (Utf16 × Utf16)) : Option (Utf16 × Utf16) :=
  found.map fun found => (s ++ found.1, found.2)

/-- The rest of a literal, and what is behind it. -/
def readUnits : Mode → Utf16 → Option (Utf16 × Utf16)
  | _, [] => none
  | .plain, c :: rest =>
      if c = mark then some ([], rest)
      else if c = backslash then readUnits .escape rest
      else if c = 0x0A ∨ c = 0x0D then none
      else put [c] (readUnits .plain rest)
  | .escape, c :: rest =>
      match escaped.lookup c with
      | some value => put [value] (readUnits .plain rest)
      | none =>
          if c = 0x75 then readUnits .unicode rest
          else if c = 0x78 then readUnits (.hex 2 0) rest
          else if c = 0x30 then
            if rest.head?.any isDigit then none else put [0] (readUnits .plain rest)
          -- The code of a module has no octal escapes.
          else if isDigit c then none
          else if c = 0x0A ∨ c = 0x2028 ∨ c = 0x2029 then readUnits .plain rest
          else if c = 0x0D then
            if rest.head? = some 0x0A then readUnits .feed rest else readUnits .plain rest
          else put [c] (readUnits .plain rest)
  | .hex left value, c :: rest =>
      match hexValue c with
      | some digit =>
          let value := 16 * value + digit
          if left ≤ 1 then put [value.toUInt16] (readUnits .plain rest)
          else readUnits (.hex (left - 1) value) rest
      | none => none
  | .unicode, c :: rest =>
      if c = 0x7B then readUnits (.point none) rest
      else
        match hexValue c with
        | some digit => readUnits (.hex 3 digit) rest
        | none => none
  | .point value, c :: rest =>
      if c = 0x7D then
        match value with
        | some point => if point ≤ 0x10FFFF then put (encode point) (readUnits .plain rest) else none
        | none => none
      else
        match hexValue c with
        | some digit => readUnits (.point (some (16 * value.getD 0 + digit))) rest
        | none => none
  | .feed, _ :: rest => readUnits .plain rest

def readLiteral : Utf16 → Option (Utf16 × Utf16)
  | [] => none
  | c :: rest => if c = mark then readUnits .plain rest else none

/-! ## Reading what was written -/

variable {s rest : Utf16} {c : UInt16} {found : Option (Utf16 × Utf16)}

theorem put_put {s t : Utf16} : put s (put t found) = put (s ++ t) found := by
  cases found <;> simp [put]

theorem hexValue_hexDigit : ∀ n < 16, hexValue (hexDigit n) = some n := by decide

theorem hexDigit_ne : ∀ n < 16, hexDigit n ≠ 0x7B := by decide

theorem readUnits_hex {n : Nat} (hn : n < 16) (left value : Nat) (rest : Utf16) :
    readUnits (.hex (left + 2) value) (hexDigit n :: rest) =
      readUnits (.hex (left + 1) (16 * value + n)) rest := by
  rw [readUnits, hexValue_hexDigit n hn]
  dsimp only
  rw [if_neg (by omega)]
  rfl

theorem readUnits_lastHex {n : Nat} (hn : n < 16) (value : Nat) (rest : Utf16) :
    readUnits (.hex 1 value) (hexDigit n :: rest) =
      put [(16 * value + n).toUInt16] (readUnits .plain rest) := by
  rw [readUnits, hexValue_hexDigit n hn]
  rfl

theorem readUnits_unicodeEscape (c : UInt16) (rest : Utf16) :
    readUnits .plain (unicodeEscape c ++ rest) = put [c] (readUnits .plain rest) := by
  have hlt := c.toNat_lt
  have hfirst : c.toNat / 0x1000 < 16 := by omega
  have hvalue : 16 * (16 * (16 * (c.toNat / 0x1000) + c.toNat / 0x100 % 16) +
      c.toNat / 0x10 % 16) + c.toNat % 16 = c.toNat := by omega
  have hread : readUnits .plain (unicodeEscape c ++ rest) = readUnits .unicode
      (hexDigit (c.toNat / 0x1000) :: hexDigit (c.toNat / 0x100 % 16) ::
        hexDigit (c.toNat / 0x10 % 16) :: hexDigit (c.toNat % 16) :: rest) := rfl
  rw [hread, readUnits, if_neg (hexDigit_ne _ hfirst), hexValue_hexDigit _ hfirst]
  dsimp only
  rw [readUnits_hex (Nat.mod_lt _ (by decide)), readUnits_hex (Nat.mod_lt _ (by decide)),
    readUnits_lastHex (Nat.mod_lt _ (by decide)), hvalue]
  exact congrArg (fun d => put [d] _) (UInt16.ofNat_toNat)

theorem readUnits_stringifyUnit (c : UInt16) (rest : Utf16) :
    readUnits .plain (stringifyUnit c ++ rest) = put [c] (readUnits .plain rest) := by
  rw [stringifyUnit]
  split
  next letter hletter =>
    obtain ⟨ls, ms, hls, -⟩ := List.lookup_eq_some_iff.mp hletter
    have hmem : (c, letter) ∈ letters := by simp [hls]
    simp only [letters, List.mem_cons, List.not_mem_nil, or_false, Prod.mk.injEq] at hmem
    rcases hmem with ⟨rfl, rfl⟩ | ⟨rfl, rfl⟩ | ⟨rfl, rfl⟩ | ⟨rfl, rfl⟩ | ⟨rfl, rfl⟩ | ⟨rfl, rfl⟩ |
      ⟨rfl, rfl⟩ <;> rfl
  next hnone =>
    split
    next => exact readUnits_unicodeEscape c rest
    next =>
      have hplain : ∀ pair ∈ letters, c ≠ pair.1 := fun pair hpair heq =>
        absurd (List.lookup_eq_none_iff.mp hnone pair hpair) (by simp [heq])
      rw [List.cons_append, List.nil_append, readUnits, if_neg (hplain (mark, mark) (by decide)),
        if_neg (hplain (backslash, backslash) (by decide)),
        if_neg (not_or.mpr ⟨hplain (0x0A, 0x6E) (by decide), hplain (0x0D, 0x72) (by decide)⟩)]

/-- A surrogate is written as it stands where it is part of a pair. -/
theorem readUnits_surrogate (h : isHigh c = true ∨ isLow c = true) (rest : Utf16) :
    readUnits .plain (c :: rest) = put [c] (readUnits .plain rest) := by
  have hnot : ∀ d, isHigh d = false → isLow d = false → c ≠ d := by
    rintro d hhigh hlow rfl
    rcases h with h | h
    · rw [h] at hhigh
      cases hhigh
    · rw [h] at hlow
      cases hlow
  rw [readUnits, if_neg (hnot _ (by decide) (by decide)), if_neg (hnot _ (by decide) (by decide)),
    if_neg (not_or.mpr ⟨hnot _ (by decide) (by decide), hnot _ (by decide) (by decide)⟩)]

theorem readUnits_stringifyUnits (s rest : Utf16) :
    readUnits .plain (stringifyUnits s ++ mark :: rest) = some (s, rest) := by
  fun_induction stringifyUnits s with
  | case1 => rfl
  | case2 c => rw [readUnits_stringifyUnit]; rfl
  | case3 c d more hpair ih =>
      obtain ⟨hhigh, hlow⟩ := (Bool.and_eq_true _ _).mp hpair
      rw [List.cons_append, List.cons_append, readUnits_surrogate (.inl hhigh),
        readUnits_surrogate (.inr hlow), ih]
      rfl
  | case4 c d more hpair ih =>
      rw [List.append_assoc, readUnits_stringifyUnit, ih]
      rfl

/-- A literal denotes the string it was written for. -/
theorem readLiteral_stringify (s rest : Utf16) :
    readLiteral (stringify s ++ rest) = some (s, rest) := by
  have hopen : readLiteral (stringify s ++ rest) =
      readUnits .plain (stringifyUnits s ++ mark :: rest) := by
    rw [stringify, List.append_assoc]
    rfl
  rw [hopen, readUnits_stringifyUnits]

end Library.ScriptLiteral
