import AgentsCanCommunicate.Protocol.Ids

/-!
# Field validators

The checks a record field passes before it is written.  Each takes the value and
the path of the field, and a refusal names that path.

A text is measured in UTF-16 code units, and sorted by them where the source
calls `sort` without a comparison.  A timestamp is its instant in milliseconds:
the source keeps one spelling for each instant, so the spelling says no more.
-/

namespace Acc

/-! ## Texts as code units -/

/-- The UTF-16 code units of a text. -/
def codeUnits (value : String) : List Nat :=
  value.toList.flatMap fun c =>
    if c.toNat < 0x10000 then [c.toNat]
    else [0xD800 + (c.toNat - 0x10000) / 0x400, 0xDC00 + (c.toNat - 0x10000) % 0x400]

/-- The order of `sort` without a comparison. -/
def sortTexts (values : List String) : List String :=
  values.mergeSort fun a b => decide (codeUnits a ≤ codeUnits b)

theorem isAlphanum_lt {c : Char} (h : c.isAlphanum = true) : c.toNat < 128 := by
  simp only [Char.isAlphanum, Char.isAlpha, Char.isUpper, Char.isLower, Char.isDigit,
    Bool.or_eq_true, Bool.and_eq_true, decide_eq_true_eq, ge_iff_le, UInt32.le_iff_toNat_le] at h
  have hnat : c.toNat = c.val.toNat := rfl
  have hZ : 'Z'.val.toNat = 90 := rfl
  have hz : 'z'.val.toNat = 122 := rfl
  have h9 : '9'.val.toNat = 57 := rfl
  omega

/-- The text of an identifier is of characters that are one code unit each. -/
theorem Id.portableChar_lt (i : Id) {c : Char} (hc : c ∈ i.val.toList) : c.toNat < 128 := by
  have hportable := i.portable
  rw [isPortableId] at hportable
  split at hportable
  next => cases hportable
  next first rest heq =>
    simp only [Bool.and_eq_true, List.all_eq_true] at hportable
    rw [heq] at hc
    rcases List.mem_cons.mp hc with rfl | hc
    · exact isAlphanum_lt hportable.1.1.1.1
    · have hchar := hportable.1.1.1.2 c hc
      simp only [isPortableChar, Bool.or_eq_true, beq_iff_eq] at hchar
      rcases hchar with ((halphanum | rfl) | rfl) | rfl
      · exact isAlphanum_lt halphanum
      all_goals decide

/-- Two identifiers with the same code units are one. -/
theorem Id.codeUnits_injective {i j : Id} (h : codeUnits i.val = codeUnits j.val) : i = j := by
  have hunits : ∀ k : Id, codeUnits k.val = k.val.toList.map Char.toNat := by
    intro k
    rw [codeUnits, List.map_eq_flatMap]
    refine List.flatMap_congr fun c hc => ?_
    have hlt := k.portableChar_lt hc
    rw [if_pos (by omega)]
  rw [hunits, hunits] at h
  have hinj : Function.Injective Char.toNat := fun a b hab => Char.ext (UInt32.toNat_inj.mp hab)
  have hval := String.toList_inj.mp (List.map_injective_iff.mpr hinj h)
  cases i
  cases j
  cases hval
  rfl

/-- What `\s` matches and `trim` removes. -/
def isBlank (c : Char) : Bool :=
  (9 ≤ c.toNat && c.toNat ≤ 13) || c.toNat == 0x20 || c.toNat == 0xA0 || c.toNat == 0x1680
    || (0x2000 ≤ c.toNat && c.toNat ≤ 0x200A) || c.toNat == 0x2028 || c.toNat == 0x2029
    || c.toNat == 0x202F || c.toNat == 0x205F || c.toNat == 0x3000 || c.toNat == 0xFEFF

def hasControl (value : String) (allowNewline : Bool) : Bool :=
  value.toList.any fun c =>
    !(allowNewline && (c.toNat == 10 || c.toNat == 13)) && (c.toNat < 32 || c.toNat == 127)

/-! ## Checks -/

def invalid (field message : String) : AccError := ⟨.data, s!"{field} {message}"⟩

def text (max : Nat) (multiline : Bool) (value field : String) : Result Unit := do
  refuse (value.toList.all isBlank) (invalid field "must be a non-empty string")
  refuse (max < (codeUnits value).length) (invalid field s!"must be at most {max} characters")
  refuse (hasControl value multiline) (invalid field "must not contain control characters")

def line : String → String → Result Unit := text 500 false

def prose : String → String → Result Unit := text 4000 true

def summary : String → String → Result Unit := text 280 false

/-- The largest integer the source counts exactly. -/
def maxSafe : Nat := 9007199254740991

def positiveInteger (value : Nat) (field : String) : Result Unit :=
  refuse (value = 0 ∨ maxSafe < value) (invalid field "must be a positive integer")

/-- An identifier a caller gave as text. -/
def id (value field : String) : Result Id :=
  if h : isPortableId value = true then .ok ⟨value, h⟩
  else .error (invalid field "must be a portable identifier")

/-- An identifier keeps its text. -/
theorem id_eq_ok {value field : String} {i : Id} (h : id value field = .ok i) : i.val = value := by
  rw [id] at h
  split at h
  · cases h
    rfl
  · cases h

/-- A check on every item, named by its position. -/
def listOf {α : Type} (check : α → String → Result Unit) (values : List α) (field : String) :
    Result Unit :=
  values.zipIdx.forM fun item => check item.1 s!"{field}[{item.2}]"

def nullable {α : Type} (check : α → String → Result Unit) (value : Option α) (field : String) :
    Result Unit :=
  value.elim (.ok ()) fun v => check v field

/-! ## Resources -/

def isSchemeChar (c : Char) : Bool :=
  c.isLower || c.isDigit || c == '+' || c == '.' || c == '-'

/-- The pattern of a scheme-qualified resource. -/
def isResourceUri (value : String) : Bool :=
  match value.toList.span (· != ':') with
  | (c :: scheme, _ :: rest) =>
      c.isLower && scheme.all isSchemeChar && !rest.isEmpty && rest.all fun c => !isBlank c
  | _ => false

def resourceUri (value field : String) : Result Unit :=
  refuse (isResourceUri value = false ∨ hasControl value false = true
      ∨ 1024 < (codeUnits value).length)
    (invalid field "must be a scheme-qualified resource URI")

/-! ## Timestamps -/

/-- A canonical UTC timestamp, in milliseconds since the epoch. -/
abbrev Timestamp := Int

/-- The instants a date can hold. -/
def dateRange : Nat := 8640000000000000

/-- `new Date(ms).toISOString()`.  A date drops what is less than a
millisecond. -/
def toISOString (ms : ℚ) : Result Timestamp :=
  let whole := if 0 ≤ ms then ms.floor else ms.ceil
  if whole.natAbs ≤ dateRange then .ok whole else .error ⟨.data, "Invalid time value"⟩

end Acc
