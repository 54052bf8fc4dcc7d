import AgentsCanCommunicate.Library.JsonSyntax

/-!
# Versions and their order

A version is ordered by its release triple: a suffix counts for nothing.  A text that is no
version has no triple and is below every version that has one.  The numbers of a triple are
doubles, so two long ones may be the same.
-/

namespace Acc.AdapterSdk.Versions

open Library Library.Text

/-! ## The code -/

/-- `Number` of some digits. -/
def number (digits : Text) : WithTop ℚ :=
  match JsonSyntax.toDouble (JsonSyntax.natural digits) with
  | .number value => value
  | _ => ⊤

structure Triple where
  major : WithTop ℚ
  minor : WithTop ℚ
  patch : WithTop ℚ
deriving DecidableEq

def digits (t : Text) : Text := t.takeWhile Char.isDigit

def isSuffixChar (c : Char) : Bool := c.isAlphanum || c = '.' || c = '-'

/-- `(?:[-+][0-9A-Za-z.-]+)?$`, where `marks` are what may begin it. -/
def isSuffix (marks : List Char) : Text → Bool
  | [] => true
  | c :: rest => c ∈ marks && rest ≠ [] && rest.all isSuffixChar

/-- `(\d+)\.(\d+)\.(\d+)` and a suffix. -/
def matchTriple (marks : List Char) (t : Text) : Option (Text × Text × Text) :=
  let major := digits t
  match t.drop major.length with
  | '.' :: t =>
      let minor := digits t
      match t.drop minor.length with
      | '.' :: t =>
          let patch := digits t
          if major ≠ [] ∧ minor ≠ [] ∧ patch ≠ [] ∧ isSuffix marks (t.drop patch.length) then
            some (major, minor, patch)
          else none
      | _ => none
  | _ => none

def toTriple (found : Text × Text × Text) : Triple :=
  ⟨number found.1, number found.2.1, number found.2.2⟩

/-- The triple that orders a client version.  The word `unknown` is not of its form. -/
def versionOrder (text : Option Text) : Option Triple :=
  text.bind fun text => (matchTriple ['-', '+'] text).map toTriple

/-- The first two numbers that differ decide. -/
def compareTriples (left right : Triple) : Ordering :=
  if left.major ≠ right.major then if left.major < right.major then .lt else .gt
  else if left.minor ≠ right.minor then if left.minor < right.minor then .lt else .gt
  else if left.patch ≠ right.patch then if left.patch < right.patch then .lt else .gt
  else .eq

def compareVersionOrder : Option Triple → Option Triple → Ordering
  | none, none => .eq
  | none, some _ => .lt
  | some _, none => .gt
  | some left, some right => compareTriples left right

/-- Without a leading zero. -/
def isPlainNumber (digits : Text) : Bool := digits = ['0'] || digits.head? ≠ some '0'

/-- A version without a prerelease. -/
def parseStableVersion (text : Option Text) : Option Triple :=
  text.bind fun text => (matchTriple ['+'] text).bind fun found =>
    if isPlainNumber found.1 ∧ isPlainNumber found.2.1 ∧ isPlainNumber found.2.2 then
      some (toTriple found)
    else none

/-! ## The order -/

namespace Triple

/-- Numbers from the left. -/
def key (t : Triple) : WithTop ℚ ×ₗ WithTop ℚ ×ₗ WithTop ℚ :=
  toLex (t.major, toLex (t.minor, t.patch))

theorem key_injective : Function.Injective key := by
  rintro ⟨a, b, c⟩ ⟨a', b', c'⟩ h
  have hpair := toLex_inj.mp h
  obtain ⟨rfl, hrest⟩ := Prod.mk.inj hpair
  obtain ⟨rfl, rfl⟩ := Prod.mk.inj (toLex_inj.mp hrest)
  rfl

instance : LinearOrder Triple := LinearOrder.lift' key key_injective

theorem lt_iff {l r : Triple} : l < r ↔ l.major < r.major ∨
    l.major = r.major ∧ (l.minor < r.minor ∨ l.minor = r.minor ∧ l.patch < r.patch) := by
  have hkey : l < r ↔ l.key < r.key := Iff.rfl
  rw [hkey, key, key, Prod.Lex.toLex_lt_toLex, Prod.Lex.toLex_lt_toLex]

end Triple

variable {l r : Triple} {left right : Option Triple}

theorem compareTriples_of_lt (h : l < r) : compareTriples l r = .lt := by
  rw [compareTriples]
  rcases Triple.lt_iff.mp h with hmajor | ⟨hmajor, hminor | ⟨hminor, hpatch⟩⟩
  · rw [if_pos hmajor.ne, if_pos hmajor]
  · rw [if_neg (not_not.mpr hmajor), if_pos hminor.ne, if_pos hminor]
  · rw [if_neg (not_not.mpr hmajor), if_neg (not_not.mpr hminor), if_pos hpatch.ne, if_pos hpatch]

theorem compareTriples_of_gt (h : r < l) : compareTriples l r = .gt := by
  rw [compareTriples]
  rcases Triple.lt_iff.mp h with hmajor | ⟨hmajor, hminor | ⟨hminor, hpatch⟩⟩
  · rw [if_pos hmajor.ne', if_neg hmajor.asymm]
  · rw [if_neg (not_not.mpr hmajor.symm), if_pos hminor.ne', if_neg hminor.asymm]
  · rw [if_neg (not_not.mpr hmajor.symm), if_neg (not_not.mpr hminor.symm), if_pos hpatch.ne',
      if_neg hpatch.asymm]

theorem compareTriples_self : compareTriples l l = .eq := by
  simp [compareTriples]

theorem compareTriples_eq_cmp : compareTriples l r = cmp l r := by
  rcases lt_trichotomy l r with h | rfl | h
  · rw [compareTriples_of_lt h, (cmp_eq_lt_iff _ _).mpr h]
  · rw [compareTriples_self, cmp_self_eq_eq]
  · rw [compareTriples_of_gt h, (cmp_eq_gt_iff _ _).mpr h]

/-- A text without a triple is at the bottom. -/
theorem compareVersionOrder_eq_cmp :
    compareVersionOrder left right = cmp (α := WithBot Triple) left right := by
  cases left with
  | none =>
      cases right with
      | none => exact (cmp_self_eq_eq (α := WithBot Triple) ⊥).symm
      | some r => exact ((cmp_eq_lt_iff _ _).mpr (WithBot.bot_lt_coe r)).symm
  | some l =>
      cases right with
      | none => exact ((cmp_eq_gt_iff _ _).mpr (WithBot.bot_lt_coe l)).symm
      | some r =>
          rw [compareVersionOrder, compareTriples_eq_cmp]
          rcases lt_trichotomy l r with h | rfl | h
          · rw [(cmp_eq_lt_iff _ _).mpr h]
            exact ((cmp_eq_lt_iff _ _).mpr (WithBot.coe_lt_coe.mpr h)).symm
          · rw [cmp_self_eq_eq]
            exact (cmp_self_eq_eq (α := WithBot Triple) l).symm
          · rw [(cmp_eq_gt_iff _ _).mpr h]
            exact ((cmp_eq_gt_iff _ _).mpr (WithBot.coe_lt_coe.mpr h)).symm

example : versionOrder (some "1.22.3-rc.1".toList) = some ⟨1, 22, 3⟩ := by decide +kernel

end Acc.AdapterSdk.Versions
