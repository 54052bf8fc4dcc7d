import AgentsCanCommunicate.Library.Text

/-!
# Strings of UTF-16 code units

A string is the list of its code units, and its bytes are its UTF-8 encoding, in
which a surrogate that stands alone becomes the replacement character.  A string
and its bytes have different lengths as soon as a unit is not ASCII, and the
bytes of an ASCII string are those of no other string.
-/

namespace Library

/-- A string, by its code units. -/
abbrev Utf16 := List UInt16

instance : LawfulBEq Utf16 := inferInstance

namespace Utf16

def isHigh (c : UInt16) : Bool := 0xD800 ≤ c && c < 0xDC00

def isLow (c : UInt16) : Bool := 0xDC00 ≤ c && c < 0xE000

def isAscii (c : UInt16) : Bool := c < 0x80

/-- The bytes of U+FFFD. -/
def replacement : List UInt8 := [0xEF, 0xBF, 0xBD]

/-- A byte of the sequence that is not the first. -/
def trail (n : Nat) : UInt8 := (0x80 + n % 0x40).toUInt8

def two (n : Nat) : List UInt8 := [(0xC0 + n / 0x40).toUInt8, trail n]

def three (n : Nat) : List UInt8 := [(0xE0 + n / 0x1000).toUInt8, trail (n / 0x40), trail n]

def four (n : Nat) : List UInt8 :=
  [(0xF0 + n / 0x40000).toUInt8, trail (n / 0x1000), trail (n / 0x40), trail n]

/-- The code point of a pair of surrogates. -/
def point (c d : UInt16) : Nat := 0x10000 + (c.toNat - 0xD800) * 0x400 + (d.toNat - 0xDC00)

/-- The bytes of one unit that is no part of a pair. -/
def unit (c : UInt16) : List UInt8 :=
  if isAscii c then [c.toUInt8]
  else if c < 0x800 then two c.toNat
  else if isHigh c || isLow c then replacement
  else three c.toNat

/-- The UTF-8 encoding. -/
def utf8 : Utf16 → List UInt8
  | [] => []
  | [c] => unit c
  | c :: d :: rest =>
      if isHigh c && isLow d then four (point c d) ++ utf8 rest
      else unit c ++ utf8 (d :: rest)

/-- The code units of one character. -/
def ofChar (c : Char) : Utf16 :=
  if c.toNat < 0x10000 then [c.toNat.toUInt16]
  else [(0xD800 + (c.toNat - 0x10000) / 0x400).toUInt16,
    (0xDC00 + (c.toNat - 0x10000) % 0x400).toUInt16]

def ofString (s : String) : Utf16 := s.toList.flatMap ofChar

/-- Every unit is ASCII. -/
def Ascii (s : Utf16) : Prop := ∀ c ∈ s, isAscii c = true

variable {s t : Utf16} {c : UInt16}

/-- Only an ASCII unit begins with an ASCII byte. -/
theorem unit_head (h : isAscii c = false) : ∃ b rest, unit c = b :: rest ∧ 0x80 ≤ b.toNat := by
  have hbound := c.toNat_lt
  simp only [unit, h, Bool.false_eq_true, if_false]
  split
  next hshort =>
    have hlt : c.toNat < 0x800 := UInt16.lt_iff_toNat_lt.mp hshort
    refine ⟨_, _, rfl, ?_⟩
    simp only [Nat.toUInt8_eq, UInt8.toNat_ofNat']
    omega
  next =>
    split
    next => exact ⟨0xEF, _, rfl, by decide⟩
    next =>
      refine ⟨_, _, rfl, ?_⟩
      simp only [Nat.toUInt8_eq, UInt8.toNat_ofNat']
      omega

theorem four_head {d : UInt16} (hc : isHigh c = true) (hd : isLow d = true) :
    ∃ b rest, four (point c d) = b :: rest ∧ 0x80 ≤ b.toNat := by
  simp only [isHigh, isLow, Bool.and_eq_true, decide_eq_true_eq] at hc hd
  have hhigh : c.toNat < 0xDC00 := by simpa [UInt16.lt_iff_toNat_lt] using hc.2
  have hlow : d.toNat < 0xE000 := by simpa [UInt16.lt_iff_toNat_lt] using hd.2
  have hpoint : point c d / 0x40000 ≤ 4 := by
    unfold point
    omega
  have hbyte : 0x80 ≤ (0xF0 + point c d / 0x40000).toUInt8.toNat := by
    rw [Nat.toUInt8_eq, UInt8.toNat_ofNat']
    omega
  exact ⟨_, _, rfl, hbyte⟩

theorem isHigh_of_ascii (h : isAscii c = true) : isHigh c = false := by
  simp only [isAscii, decide_eq_true_eq] at h
  have hlt : c.toNat < 0x80 := UInt16.lt_iff_toNat_lt.mp h
  simp only [isHigh, Bool.and_eq_false_iff, decide_eq_false_iff_not, UInt16.not_le]
  refine Or.inl (UInt16.lt_iff_toNat_lt.mpr ?_)
  exact lt_trans hlt (by decide)

theorem unit_ascii (h : isAscii c = true) : unit c = [c.toUInt8] := by
  simp [unit, h]

/-- An ASCII string is one byte for a unit. -/
theorem utf8_ascii (h : Ascii s) : utf8 s = s.map UInt16.toUInt8 := by
  induction s with
  | nil => rfl
  | cons c rest ih =>
      have hc := h c List.mem_cons_self
      have hrest := ih fun d hd => h d (List.mem_cons_of_mem _ hd)
      cases rest with
      | nil => simp [utf8, unit_ascii hc]
      | cons d rest =>
          rw [utf8, isHigh_of_ascii hc, unit_ascii hc, hrest]
          simp

/-- An ASCII unit is told from its byte. -/
theorem eq_of_toUInt8 {d : UInt16} (hc : isAscii c = true) (hd : isAscii d = true)
    (h : c.toUInt8 = d.toUInt8) : c = d := by
  simp only [isAscii, decide_eq_true_eq] at hc hd
  have hc' : c.toNat < 0x80 := UInt16.lt_iff_toNat_lt.mp hc
  have hd' : d.toNat < 0x80 := UInt16.lt_iff_toNat_lt.mp hd
  have hbytes := congrArg UInt8.toNat h
  rw [UInt16.toNat_toUInt8, UInt16.toNat_toUInt8] at hbytes
  apply UInt16.toNat_inj.mp
  omega

/-- The first unit is ASCII when the first byte is. -/
theorem ascii_of_head {b : UInt8} {tail bytes : List UInt8} (hb : b.toNat < 0x80)
    (h : unit c ++ tail = b :: bytes) : isAscii c = true := by
  by_contra hascii
  rw [Bool.not_eq_true] at hascii
  obtain ⟨b', rest, hunit, hlarge⟩ := unit_head hascii
  rw [hunit, List.cons_append] at h
  cases h
  omega

theorem toUInt8_lt (h : isAscii c = true) : c.toUInt8.toNat < 0x80 := by
  simp only [isAscii, decide_eq_true_eq] at h
  have hlt : c.toNat < 0x80 := UInt16.lt_iff_toNat_lt.mp h
  rw [UInt16.toNat_toUInt8]
  omega

/-- A string whose bytes begin with an ASCII byte begins with that unit. -/
theorem cons_of_unit {d : UInt16} {tail bytes : List UInt8} (hd : isAscii d = true)
    (h : unit c ++ tail = d.toUInt8 :: bytes) : c = d ∧ tail = bytes := by
  have hc := ascii_of_head (toUInt8_lt hd) h
  rw [unit_ascii hc] at h
  simp only [List.singleton_append, List.cons.injEq] at h
  exact ⟨eq_of_toUInt8 hc hd h.1, h.2⟩

theorem unit_ne_nil : unit c ≠ [] := by
  intro hnil
  cases hascii : isAscii c with
  | true =>
      rw [unit_ascii hascii] at hnil
      cases hnil
  | false =>
      obtain ⟨b, rest, hunit, -⟩ := unit_head hascii
      rw [hunit] at hnil
      cases hnil

/-- The bytes of an ASCII string are those of no other string. -/
theorem eq_of_utf8_eq (ht : Ascii t) (h : utf8 s = utf8 t) : s = t := by
  rw [utf8_ascii ht] at h
  induction s using utf8.induct generalizing t with
  | case1 =>
      cases t with
      | nil => rfl
      | cons d t => cases h
  | case2 c =>
      cases t with
      | nil => exact absurd h unit_ne_nil
      | cons d t =>
          rw [utf8, ← List.append_nil (unit c)] at h
          obtain ⟨rfl, hrest⟩ := cons_of_unit (ht d List.mem_cons_self) h
          cases t with
          | nil => rfl
          | cons e t => cases hrest
  | case3 c d rest hpair ih =>
      rw [utf8, if_pos hpair] at h
      rw [Bool.and_eq_true] at hpair
      obtain ⟨b, bytes, hfour, hlarge⟩ := four_head hpair.1 hpair.2
      rw [hfour, List.cons_append] at h
      cases t with
      | nil => cases h
      | cons e t =>
          simp only [List.map_cons, List.cons.injEq] at h
          have hsmall := toUInt8_lt (ht e List.mem_cons_self)
          rw [← h.1] at hsmall
          omega
  | case4 c d rest hpair ih =>
      rw [utf8, if_neg hpair] at h
      cases t with
      | nil => exact absurd (List.append_eq_nil_iff.mp h).1 unit_ne_nil
      | cons e t =>
          obtain ⟨rfl, hrest⟩ := cons_of_unit (ht e List.mem_cons_self) h
          rw [ih (fun u hu => ht u (List.mem_cons_of_mem _ hu)) hrest]

/-- A unit that is no surrogate is encoded for itself. -/
theorem utf8_append_cons (hlow : isLow c = false) (hhigh : isHigh c = false) (s t : Utf16) :
    utf8 (s ++ c :: t) = utf8 s ++ (unit c ++ utf8 t) := by
  have hcons : utf8 (c :: t) = unit c ++ utf8 t := by
    cases t with
    | nil => exact (List.append_nil _).symm
    | cons d t => rw [utf8, hhigh]; rfl
  induction s using utf8.induct with
  | case1 => exact hcons
  | case2 d =>
      have hpair : ¬(isHigh d && isLow c) = true := by simp [hlow]
      have hunfold : utf8 (d :: c :: t) = unit d ++ utf8 (c :: t) := by
        rw [utf8, if_neg hpair]
      rw [List.singleton_append, hunfold, hcons]
      rfl
  | case3 d e rest hpair ih =>
      rw [List.cons_append, List.cons_append, utf8, if_pos hpair, ih, utf8, if_pos hpair,
        List.append_assoc]
  | case4 d e rest hpair ih =>
      rw [List.cons_append, List.cons_append, utf8, if_neg hpair, utf8, if_neg hpair,
        List.append_assoc]
      exact congrArg (unit d ++ ·) ih

/-! ## Lines -/

/-- The unit that ends a line. -/
abbrev newline : UInt16 := 10

def lines (s : Utf16) : List Utf16 := s.splitOn newline

def unlines (ls : List Utf16) : Utf16 := [newline].intercalate ls

theorem lines_append (s t : Utf16) : lines (s ++ newline :: t) = lines s ++ lines t :=
  List.splitOn_append_cons_self s t

theorem lines_of_oneLine (h : newline ∉ s) : lines s = [s] := List.splitOn_eq_singleton h

/-- The lines of strings put together with newlines are the lines of each. -/
theorem lines_unlines_flatMap {ls : List Utf16} (hls : ls ≠ []) :
    lines (unlines ls) = ls.flatMap lines :=
  Text.splitOn_intercalate_flatMap newline hls

theorem unlines_cons {ls : List Utf16} (hls : ls ≠ []) (l : Utf16) :
    unlines (l :: ls) = l ++ newline :: unlines ls := by
  obtain ⟨m, ls, rfl⟩ := List.exists_cons_of_ne_nil hls
  simp [unlines, List.intercalate]

theorem unlines_append {ls ms : List Utf16} (hls : ls ≠ []) (hms : ms ≠ []) :
    unlines (ls ++ ms) = unlines ls ++ newline :: unlines ms := by
  induction ls with
  | nil => exact absurd rfl hls
  | cons l ls ih =>
      cases ls with
      | nil => simpa [unlines, List.intercalate] using unlines_cons hms l
      | cons m ls =>
          rw [List.cons_append, unlines_cons (by simp), ih (by simp),
            unlines_cons (List.cons_ne_nil m ls), List.append_assoc, List.cons_append]

/-! ## Replacing -/

/-- Replaces each match, with `skip` units of the last one still to be passed over. -/
def replaceFrom (find put : Utf16) : Nat → Utf16 → Utf16
  | _, [] => []
  | skip + 1, _ :: rest => replaceFrom find put skip rest
  | 0, c :: rest =>
      if find.isPrefixOf (c :: rest) then put ++ replaceFrom find put (find.length - 1) rest
      else c :: replaceFrom find put 0 rest

def replaceAll (find put s : Utf16) : Utf16 := replaceFrom find put 0 s

/-- What is not in the text and not put in is not there afterwards. -/
theorem notMem_replaceAll {find put : Utf16} (hput : c ∉ put) (hs : c ∉ s) :
    c ∉ replaceAll find put s := by
  rw [replaceAll]
  generalize 0 = skip
  induction s generalizing skip with
  | nil => cases skip <;> exact hs
  | cons d rest ih =>
      rw [List.mem_cons, not_or] at hs
      cases skip with
      | succ skip => exact ih hs.2 skip
      | zero =>
          rw [replaceFrom]
          split
          next => exact fun h => (List.mem_append.mp h).elim hput (ih hs.2 _)
          next => exact fun h => (List.mem_cons.mp h).elim hs.1 (ih hs.2 _)

/-- A unit that is replaced itself is gone. -/
theorem notMem_replaceAll_self {put : Utf16} (hput : c ∉ put) : c ∉ replaceAll [c] put s := by
  rw [replaceAll]
  induction s with
  | nil => exact List.not_mem_nil
  | cons d rest ih =>
      rw [replaceFrom]
      split
      next => exact fun h => (List.mem_append.mp h).elim hput ih
      next hpre =>
        have hne : c ≠ d := by
          rintro rfl
          exact hpre (by simp)
        exact fun h => (List.mem_cons.mp h).elim hne ih

/-! ## White space -/

/-- White space of ECMAScript, line terminators among it. -/
def isSpace (c : UInt16) : Bool :=
  (9 ≤ c && c ≤ 13) || c == 32 || c == 0xA0 || c == 0x1680 || (0x2000 ≤ c && c ≤ 0x200A)
    || c == 0x2028 || c == 0x2029 || c == 0x202F || c == 0x205F || c == 0x3000 || c == 0xFEFF

def trim (s : Utf16) : Utf16 := (s.dropWhile isSpace).rdropWhile isSpace

theorem count_dropWhile (hc : isSpace c = false) (s : Utf16) :
    (s.dropWhile isSpace).count c = s.count c := by
  have hnone : (s.takeWhile isSpace).count c = 0 := by
    refine List.count_eq_zero.mpr fun hmem => ?_
    rw [List.mem_takeWhile_imp hmem] at hc
    cases hc
  have hsplit := congrArg (List.count c) (List.takeWhile_append_dropWhile (p := isSpace) (l := s))
  rw [List.count_append, hnone, Nat.zero_add] at hsplit
  exact hsplit

/-- What is no white space stays. -/
theorem count_trim (hc : isSpace c = false) (s : Utf16) : (trim s).count c = s.count c := by
  rw [trim, List.rdropWhile, List.count_reverse, count_dropWhile hc, List.count_reverse,
    count_dropWhile hc]

end Utf16

end Library
