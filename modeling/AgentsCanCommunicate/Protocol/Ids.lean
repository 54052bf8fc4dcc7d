import Mathlib

/-!
# Errors and portable identifiers

An `AccError` is an exit slot and a message.  The slots are numbers scripts
branch on, so `Exit.code` keeps the source's numbers.

An identifier becomes a path segment and a file name on every backend.  `Id`
carries `isPortableId` as a field, so a record in this development is never
keyed by a name that a backend would refuse.

A directory of records is listed by `localeCompare` on the whole path.  The
order on `Id` is that order.  Two file names of one directory are compared
first by letters and digits without their case, the punctuation `_`, `-` and
`.` before the digits and the digits before the letters, and only then by case,
lower case first.  The extension `.json` takes part in the comparison.
-/

namespace Acc

universe u

/-! ## Errors -/

/-- The exit slots. -/
inductive Exit where
  | ok
  | usage
  | timeout
  | data
  | conflict
  | attention
deriving DecidableEq, Repr

/-- The number a script sees. -/
def Exit.code : Exit → Nat
  | .ok => 0
  | .usage => 2
  | .timeout => 3
  | .data => 4
  | .conflict => 5
  | .attention => 6

/-- A rejected operation. -/
structure AccError where
  /-- The exit slot. -/
  exit : Exit
  /-- The message an operator reads. -/
  message : String
deriving DecidableEq, Repr

/-- What an operation of the program answers. -/
abbrev Result := Except AccError

instance {α : Type*} [DecidableEq α] : DecidableEq (Result α)
  | .error e, .error f => decidable_of_iff (e = f) ⟨fun h => h ▸ rfl, fun h => by cases h; rfl⟩
  | .ok a, .ok b => decidable_of_iff (a = b) ⟨fun h => h ▸ rfl, fun h => by cases h; rfl⟩
  | .error _, .ok _ => isFalse nofun
  | .ok _, .error _ => isFalse nofun

/-- The source's `if (bad) throw`. -/
def refuse (bad : Prop) [Decidable bad] (e : AccError) : Result Unit :=
  if bad then .error e else .ok ()

@[simp] theorem refuse_eq_ok {bad : Prop} [Decidable bad] {e : AccError} {u : Unit} :
    refuse bad e = .ok u ↔ ¬bad := by
  rw [refuse]
  split
  next h => exact ⟨by simp, fun hn => absurd h hn⟩
  next h => exact ⟨fun _ => h, fun _ => rfl⟩

/-- A sequence of operations answers when each of them does. -/
@[simp] theorem bind_eq_ok {α β : Type u} {x : Result α} {f : α → Result β} {b : β} :
    (x >>= f) = .ok b ↔ ∃ a, x = .ok a ∧ f a = .ok b := by
  cases x with
  | error e =>
      constructor
      · intro h
        cases h
      · rintro ⟨a, ha, -⟩
        cases ha
  | ok a =>
      constructor
      · exact fun h => ⟨a, rfl, h⟩
      · rintro ⟨a', ha, h⟩
        cases ha
        exact h

@[simp] theorem pure_eq_ok {α : Type*} {a b : α} : (pure a : Result α) = .ok b ↔ a = b :=
  ⟨fun h => by cases h; rfl, fun h => h ▸ rfl⟩

@[simp] theorem map_eq_ok {α β : Type u} {f : α → β} {x : Result α} {b : β} :
    (f <$> x) = .ok b ↔ ∃ a, x = .ok a ∧ f a = b := by
  cases x with
  | error e => simp [Functor.map, Except.map]
  | ok a => simp [Functor.map, Except.map]

/-- Only what an operation answers matters to what follows it. -/
theorem bind_congr_ok {α β : Type u} {x : Result α} {f g : α → Result β}
    (h : ∀ a, x = .ok a → f a = g a) : x >>= f = x >>= g := by
  cases x with
  | error e => rfl
  | ok a => exact h a rfl

/-- An operation that answers answers its answer. -/
theorem eq_ok_get {α : Type u} {x : Result α} (h : x.toOption.isSome = true) :
    x = .ok (x.toOption.get h) := by
  cases x with
  | error e => cases h
  | ok a => rfl

/-- What an operation answers on a list, it answered on one of the items. -/
theorem mem_of_mapM_eq_ok {α β : Type} {f : α → Result β} {xs : List α} {ys : List β}
    (h : xs.mapM f = .ok ys) : ∀ y ∈ ys, ∃ x ∈ xs, f x = .ok y := by
  induction xs generalizing ys with
  | nil =>
      simp only [List.mapM_nil, pure_eq_ok] at h
      simp [← h]
  | cons x xs ih =>
      simp only [List.mapM_cons, bind_eq_ok, pure_eq_ok] at h
      obtain ⟨y, hy, ys', hys, rfl⟩ := h
      intro z hz
      rcases List.mem_cons.mp hz with rfl | hz
      · exact ⟨x, List.mem_cons_self .., hy⟩
      · obtain ⟨x', hx', hz'⟩ := ih hys z hz
        exact ⟨x', List.mem_cons_of_mem _ hx', hz'⟩

/-- An operation that answers on a list answers on each of its items. -/
theorem mapM_eq_ok_of_mem {α β : Type} {f : α → Result β} {xs : List α} {ys : List β}
    (h : xs.mapM f = .ok ys) : ∀ x ∈ xs, ∃ y ∈ ys, f x = .ok y := by
  induction xs generalizing ys with
  | nil =>
      intro x hx
      cases hx
  | cons x xs ih =>
      simp only [List.mapM_cons, bind_eq_ok, pure_eq_ok] at h
      obtain ⟨y, hy, ys', hys, rfl⟩ := h
      intro z hz
      rcases List.mem_cons.mp hz with rfl | hz
      · exact ⟨y, List.mem_cons_self .., hy⟩
      · obtain ⟨y', hy', hz'⟩ := ih hys z hz
        exact ⟨y', List.mem_cons_of_mem _ hy', hz'⟩

/-- What is read back of each answer is read back of the list of answers. -/
theorem map_of_mapM_eq_ok {α β γ : Type} {f : α → Result β} {g : β → γ} {k : α → γ}
    (hf : ∀ x y, f x = .ok y → g y = k x) {xs : List α} {ys : List β} (h : xs.mapM f = .ok ys) :
    ys.map g = xs.map k := by
  induction xs generalizing ys with
  | nil =>
      simp only [List.mapM_nil, pure_eq_ok] at h
      simp [← h]
  | cons x xs ih =>
      simp only [List.mapM_cons, bind_eq_ok, pure_eq_ok] at h
      obtain ⟨y, hy, ys', hys, rfl⟩ := h
      rw [List.map_cons, List.map_cons, hf x y hy, ih hys]

/-! ## Portable identifiers -/

def isPortableChar (c : Char) : Bool := c.isAlphanum || c == '.' || c == '_' || c == '-'

/-- The device names Windows reserves, with or without an extension. -/
def windowsDevices : List String :=
  ["con", "prn", "aux", "nul",
    "com1", "com2", "com3", "com4", "com5", "com6", "com7", "com8", "com9",
    "lpt1", "lpt2", "lpt3", "lpt4", "lpt5", "lpt6", "lpt7", "lpt8", "lpt9"]

def isWindowsDevice (cs : List Char) : Bool :=
  windowsDevices.any fun device => device.toList == (cs.takeWhile (· != '.')).map Char.toLower

/-- The test of `assertPortableId`. -/
def isPortableId (value : String) : Bool :=
  match value.toList with
  | [] => false
  | c :: cs =>
      c.isAlphanum && cs.all isPortableChar && decide (cs.length ≤ 199)
        && (c :: cs).getLast? != some '.' && !isWindowsDevice (c :: cs)

/-- A portable identifier. -/
structure Id where
  /-- The text. -/
  val : String
  /-- It is safe as a file name on every backend. -/
  portable : isPortableId val = true
deriving DecidableEq

instance : Repr Id := ⟨fun i _ => repr i.val⟩

/-- Reads a text as an identifier. -/
def assertPortableId (value : String) (label : String) : Result Id :=
  if h : isPortableId value = true then .ok ⟨value, h⟩
  else .error ⟨.data, s!"invalid {label}"⟩

/-! ## The listing order -/

/-- The first weight of a character in the root collation. -/
def primaryWeight (c : Char) : Nat :=
  if c == '_' then 1
  else if c == '-' then 2
  else if c == '.' then 3
  else if c.isDigit then 4 + (c.toNat - '0'.toNat)
  else 14 + c.toLower.toNat

/-- The case weight: a lower-case letter comes before its capital. -/
def caseWeight (c : Char) : Nat := if c.isUpper then 1 else 0

/-- What `localeCompare` compares of a record file.  The last part never
decides, since the first two determine a portable name. -/
def Id.sortKey (i : Id) : List Nat ×ₗ (List Nat ×ₗ List Char) :=
  let name := i.val.toList ++ ".json".toList
  toLex (name.map primaryWeight, toLex (name.map caseWeight, i.val.toList))

/-- What `localeCompare` compares of an identifier by itself. -/
def Id.localeKey (i : Id) : List Nat ×ₗ (List Nat ×ₗ List Char) :=
  toLex (i.val.toList.map primaryWeight, toLex (i.val.toList.map caseWeight, i.val.toList))

theorem Id.sortKey_injective : Function.Injective Id.sortKey := by
  intro i j h
  have hchars : i.val.toList = j.val.toList :=
    congrArg (fun k => (ofLex (ofLex k).2).2) h
  have hval : i.val = j.val := String.toList_inj.mp hchars
  cases i
  cases j
  cases hval
  rfl

theorem Id.localeKey_injective : Function.Injective Id.localeKey := by
  intro i j h
  have hchars : i.val.toList = j.val.toList :=
    congrArg (fun k => (ofLex (ofLex k).2).2) h
  have hval : i.val = j.val := String.toList_inj.mp hchars
  cases i
  cases j
  cases hval
  rfl

instance : LinearOrder Id := LinearOrder.lift' Id.sortKey Id.sortKey_injective

example : (⟨"session_a", by decide⟩ : Id) < ⟨"session_B", by decide⟩ := by decide

example : (⟨"a_b", by decide⟩ : Id) < ⟨"a-b", by decide⟩ := by decide

end Acc
