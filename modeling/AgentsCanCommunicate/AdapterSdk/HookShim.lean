import AgentsCanCommunicate.Library.ScriptLiteral
import AgentsCanCommunicate.Library.ShellWord
import AgentsCanCommunicate.Library.Substitution
import AgentsCanCommunicate.Protocol.Fields

/-!
# Pinned commands

An install pins absolute paths: in the shims it writes, in the owner header and in the skills,
whose placeholder becomes the command that runs the CLI.  On POSIX a path is written for a
shell, and on Windows for a script or between double quotes.

What is written is read back as the path it was written for.  The command is put into a skill
by a replacement that reads it as a template, so a skill names the command exactly where the
path of the shim has no dollar before one of `specials` (`pinned_iff`).
-/

namespace Acc.AdapterSdk.HookShim

open Library (Utf16)
open Library.Utf16 (ofString)
open Library.ShellWord (Ends word doubleMark backslash slash)
open Library.ScriptLiteral (readLiteral)
open Library.Substitution (dollar hasPattern marks)

/-! ## Quoting -/

inductive Platform where
  | win32
  /-- Every platform that has a POSIX shell. -/
  | posix
deriving DecidableEq

def shellQuote (value : Utf16) : Utf16 := Library.ShellWord.doubleQuote value

/-- The quotes of the owner header. -/
def posixQuote (value : Utf16) : Utf16 := Library.ShellWord.singleQuote value

/-- A path that is one word of a shell as it stands. -/
def isShellWord : Utf16 → Bool
  | [] => false
  | c :: rest => c = slash && rest.all Library.ShellWord.isPortable

/-- A literal of the shim that Windows runs. -/
def json (value : Utf16) : Utf16 := Library.ScriptLiteral.stringify value

/-! ## Skills -/

def placeholder : Utf16 := ofString "\x7b\x7bACC\x7d\x7d"

/-- The entries of a directory, in the order they are read. -/
inductive Entries where
  | nil
  | file (name text : Utf16) (rest : Entries)
  | directory (name : Utf16) (entries rest : Entries)
deriving DecidableEq

def skillName : Utf16 := ofString "SKILL.md"

/-- A backslash is replaced by a slash. -/
def slashed (path : Utf16) : Utf16 := path.map fun c => if c = backslash then slash else c

/-- What a skill calls the CLI by. -/
def command (platform : Platform) (bareWhenSafe : Bool) (cliShim : Utf16) : Utf16 :=
  match platform with
  | .win32 => ofString "node \"" ++ slashed cliShim ++ [doubleMark]
  | .posix => if bareWhenSafe && isShellWord cliShim then cliShim else shellQuote cliShim

/-- Every skill under the directory, changed by `f`. -/
def Entries.walk (f : Utf16 → Utf16) : Entries → Entries
  | .nil => .nil
  | .file name text rest =>
      .file name (if name = skillName ∧ placeholder <:+: text then f text else text) (rest.walk f)
  | .directory name entries rest => .directory name (entries.walk f) (rest.walk f)

/-- The paths of the skills that have the placeholder, below `path`. -/
def Entries.baked (path : List Utf16) : Entries → List (List Utf16)
  | .nil => []
  | .file name text rest =>
      (if name = skillName ∧ placeholder <:+: text then [path ++ [name]] else [])
        ++ rest.baked path
  | .directory name entries rest => entries.baked (path ++ [name]) ++ rest.baked path

/-- Puts the command into every skill under a directory.  The answer lists the skills that
were written. -/
def bakeSkillCommand (platform : Platform) (bareWhenSafe : Bool) (cliShim : Utf16)
    (root : Entries) : Result (Entries × List (List Utf16)) :=
  if cliShim = [] then .error ⟨.data, "refusing to bake an empty skill command"⟩
  else .ok (root.walk (Library.Substitution.replaceAll placeholder
    (command platform bareWhenSafe cliShim)), root.baked [])

/-! ## What the pins mean -/

/-- Every pin is read back as what was pinned. -/
structure Pinned (platform : Platform) (bareWhenSafe : Bool) (cliShim : Utf16) : Prop where
  shellQuote : ∀ value rest, Ends rest → word (shellQuote value ++ rest) = some (value, rest)
  posixQuote : ∀ value rest, Ends rest → word (posixQuote value ++ rest) = some (value, rest)
  bare : ∀ value rest, isShellWord value = true → Ends rest →
    word (value ++ rest) = some (value, rest)
  json : ∀ value rest, readLiteral (json value ++ rest) = some (value, rest)
  named : platform = .posix → ∀ rest, Ends rest →
    word (command platform bareWhenSafe cliShim ++ rest) = some (cliShim, rest)
  /-- Each placeholder of each skill is the command, and nothing else is changed. -/
  baked : ∀ root, cliShim ≠ [] → bakeSkillCommand platform bareWhenSafe cliShim root =
    .ok (root.walk (Library.Utf16.replaceAll placeholder
      (command platform bareWhenSafe cliShim)), root.baked [])

/-- What a dollar in the path of a shim may not stand before.  Quoting parts a dollar from
another one and from a backquote. -/
def specials : Platform → List UInt16
  | .win32 => marks
  | .posix => [0x26, 0x27]

variable {platform : Platform} {bareWhenSafe : Bool} {cliShim value rest : Utf16}

theorem word_isShellWord (h : isShellWord value = true) (hrest : Ends rest) :
    word (value ++ rest) = some (value, rest) := by
  cases value with
  | nil => cases h
  | cons c value =>
      obtain ⟨hc, hvalue⟩ := (Bool.and_eq_true _ _).mp h
      rw [of_decide_eq_true hc]
      exact Library.ShellWord.word_portable hvalue hrest

/-- On POSIX the shell reads the command as the path of the shim. -/
theorem word_command (hrest : Ends rest) :
    word (command .posix bareWhenSafe cliShim ++ rest) = some (cliShim, rest) := by
  rw [command]
  split
  next h => exact word_isShellWord ((Bool.and_eq_true _ _).mp h).2 hrest
  next => exact Library.ShellWord.word_doubleQuote cliShim hrest

/-! ## Dollars of a command -/

variable {ms : List UInt16} {s : Utf16} {c : UInt16}

theorem hasPattern_cons : hasPattern ms (c :: s) =
    ((decide (c = dollar) && s.head?.any (· ∈ ms)) || hasPattern ms s) := by
  cases s <;> simp [hasPattern]

theorem hasPattern_cons_of_ne (h : c ≠ dollar) : hasPattern ms (c :: s) = hasPattern ms s := by
  rw [hasPattern_cons, decide_eq_false h, Bool.false_and, Bool.false_or]

theorem hasPattern_of_notMem (h : dollar ∉ s) : hasPattern ms s = false := by
  induction s with
  | nil => rfl
  | cons c s ih =>
      rw [List.mem_cons, not_or] at h
      rw [hasPattern_cons_of_ne (Ne.symm h.1), ih h.2]

/-- Quoting puts a backslash between two dollars, and before a backquote. -/
theorem hasPattern_quoted (s : Utf16) :
    hasPattern marks (s.flatMap (fun c =>
      if Library.ShellWord.doubled c then [backslash, c] else [c]) ++ [doubleMark]) =
      hasPattern (specials .posix) s := by
  induction s with
  | nil => rfl
  | cons c s ih =>
      rw [List.flatMap_cons, List.append_assoc, hasPattern_cons, ← ih]
      by_cases hc : c = dollar
      · subst hc
        -- The unit behind the dollar is its own quotation, or it is behind a backslash.
        have hnext : (s.flatMap (fun c => if Library.ShellWord.doubled c then [backslash, c]
            else [c]) ++ [doubleMark]).head?.any (· ∈ marks) =
            s.head?.any (· ∈ specials .posix) := by
          cases s with
          | nil => rfl
          | cons d s =>
              rw [List.flatMap_cons, List.append_assoc]
              by_cases hd : Library.ShellWord.doubled d = true
              · have hspecial : d ∉ specials .posix := by
                  intro hmem
                  simp only [specials, List.mem_cons, List.not_mem_nil, or_false] at hmem
                  rcases hmem with rfl | rfl <;> cases hd
                rw [if_pos hd]
                exact (decide_eq_false hspecial).symm
              · simp only [Library.ShellWord.doubled, List.mem_cons, List.not_mem_nil, or_false,
                  decide_eq_true_eq, not_or] at hd
                rw [if_neg (by simp [Library.ShellWord.doubled, hd])]
                have hdollar : d ≠ dollar := hd.2.2.1
                have hbackquote : d ≠ 0x60 := hd.2.2.2
                simp [marks, specials, hdollar, hbackquote]
        rw [if_pos (by decide), List.cons_append, List.cons_append, List.nil_append,
          hasPattern_cons_of_ne (by decide), hasPattern_cons, hnext]
      · rw [decide_eq_false hc, Bool.false_and, Bool.false_or]
        split
        next => rw [List.cons_append, List.cons_append, List.nil_append,
          hasPattern_cons_of_ne (by decide), hasPattern_cons_of_ne hc]
        next => rw [List.cons_append, List.nil_append, hasPattern_cons_of_ne hc]

theorem hasPattern_slashed (s : Utf16) :
    hasPattern marks (slashed s ++ [doubleMark]) = hasPattern marks s := by
  induction s with
  | nil => rfl
  | cons c s ih =>
      have hcons : slashed (c :: s) ++ [doubleMark] =
          (if c = backslash then slash else c) :: (slashed s ++ [doubleMark]) := rfl
      rw [hcons]
      by_cases hc : c = backslash
      · rw [if_pos hc, hasPattern_cons_of_ne (by decide), ih, hc, hasPattern_cons_of_ne (by decide)]
      · have hnext : (slashed s ++ [doubleMark]).head?.any (· ∈ marks) =
            s.head?.any (· ∈ marks) := by
          cases s with
          | nil => rfl
          | cons d s =>
              by_cases hd : d = backslash
              · subst hd
                rfl
              · rw [slashed, List.map_cons, if_neg hd]
                rfl
        rw [if_neg hc, hasPattern_cons, hnext, ih, ← hasPattern_cons]

theorem dollar_notMem (h : isShellWord value = true) : dollar ∉ value := by
  cases value with
  | nil => cases h
  | cons c value =>
      obtain ⟨hc, hvalue⟩ := (Bool.and_eq_true _ _).mp h
      intro hmem
      rcases List.mem_cons.mp hmem with rfl | hmem
      · cases hc
      · cases List.all_eq_true.mp hvalue dollar hmem

theorem hasPattern_command (platform : Platform) (bareWhenSafe : Bool) (cliShim : Utf16) :
    hasPattern marks (command platform bareWhenSafe cliShim) =
      hasPattern (specials platform) cliShim := by
  cases platform with
  | win32 =>
      have hnode : command .win32 bareWhenSafe cliShim =
          0x6E :: 0x6F :: 0x64 :: 0x65 :: 0x20 :: doubleMark :: (slashed cliShim ++ [doubleMark]) :=
        rfl
      rw [hnode, hasPattern_cons_of_ne (by decide), hasPattern_cons_of_ne (by decide),
        hasPattern_cons_of_ne (by decide), hasPattern_cons_of_ne (by decide),
        hasPattern_cons_of_ne (by decide), hasPattern_cons_of_ne (by decide), hasPattern_slashed]
      rfl
  | posix =>
      rw [command]
      split
      next h =>
        have hnone : dollar ∉ cliShim := dollar_notMem ((Bool.and_eq_true _ _).mp h).2
        rw [hasPattern_of_notMem hnone, hasPattern_of_notMem hnone]
      next =>
        rw [shellQuote, Library.ShellWord.doubleQuote, List.cons_append,
          hasPattern_cons_of_ne (by decide), hasPattern_quoted]

/-! ## The pins -/

/-- A skill of one placeholder between two letters. -/
def between : Utf16 := 0x78 :: placeholder ++ [0x78]

/-- Every pin means what was pinned exactly where the path of the shim has no dollar before a
special unit. -/
theorem pinned_iff (platform : Platform) (bareWhenSafe : Bool) (cliShim : Utf16) :
    Pinned platform bareWhenSafe cliShim ↔ hasPattern (specials platform) cliShim = false := by
  constructor
  · intro h
    by_cases hempty : cliShim = []
    · rw [hempty]
      rfl
    have hbaked := h.baked (.file skillName between .nil) hempty
    have hskill : skillName = skillName ∧ placeholder <:+: between := ⟨rfl, [0x78], [0x78], rfl⟩
    have hwalk : ∀ f : Utf16 → Utf16, Entries.walk f (.file skillName between .nil) =
        .file skillName (f between) .nil := by
      intro f
      rw [Entries.walk, if_pos hskill]
      rfl
    rw [bakeSkillCommand, if_neg hempty, hwalk, hwalk] at hbaked
    simp only [Except.ok.injEq, Prod.mk.injEq, Entries.file.injEq, and_true, true_and] at hbaked
    have hcode : Library.Substitution.replaceAll placeholder
        (command platform bareWhenSafe cliShim) between = 0x78 ::
          (Library.Substitution.substitute placeholder [0x78] [0x78]
            (command platform bareWhenSafe cliShim) ++ [0x78]) := rfl
    have hmeant : Library.Utf16.replaceAll placeholder (command platform bareWhenSafe cliShim)
        between = 0x78 :: (command platform bareWhenSafe cliShim ++ [0x78]) := rfl
    rw [hcode, hmeant] at hbaked
    have hsame := List.append_cancel_right (List.cons.inj hbaked).2
    have hletter : ∃ c u, [(0x78 : UInt16)] = c :: u ∧ c ≠ dollar := ⟨_, _, rfl, by decide⟩
    rw [← hasPattern_command platform bareWhenSafe cliShim]
    exact (Library.Substitution.substitute_eq_replicate ⟨0x7B, _, rfl, by decide⟩ hletter hletter
      0 hsame).2
  · intro h
    exact
      { shellQuote := fun value rest hrest => Library.ShellWord.word_doubleQuote value hrest
        posixQuote := fun value rest hrest => Library.ShellWord.word_singleQuote value hrest
        bare := fun value rest => word_isShellWord
        json := Library.ScriptLiteral.readLiteral_stringify
        named := by
          rintro rfl rest hrest
          exact word_command hrest
        baked := fun root hne => by
          have hliteral : Library.Substitution.replaceAll placeholder
              (command platform bareWhenSafe cliShim) = Library.Utf16.replaceAll placeholder
                (command platform bareWhenSafe cliShim) :=
            funext fun text => Library.Substitution.replaceAll_literal
              ((hasPattern_command platform bareWhenSafe cliShim).trans h)
          rw [← hliteral, bakeSkillCommand, if_neg hne] }

/-! ## A shim under a home with a dollar -/

/-- The home of the shim is `/home/a$&b`. -/
def dollarShim : Utf16 := ofString "/home/a$&b/acc-cli.sh"

def statusSkill : Entries :=
  .file skillName (ofString "Run `" ++ placeholder ++ ofString " status`.") .nil

/-- The command in the skill names another path. -/
theorem bakeSkillCommand_altered :
    bakeSkillCommand .posix false dollarShim statusSkill = .ok (.file skillName
      (ofString "Run `\"/home/a\\" ++ placeholder ++ ofString "b/acc-cli.sh\" status`.") .nil,
        [[skillName]]) ∧
    ¬Pinned .posix false dollarShim := by
  have haltered : bakeSkillCommand .posix false dollarShim statusSkill = .ok (.file skillName
      (ofString "Run `\"/home/a\\" ++ placeholder ++ ofString "b/acc-cli.sh\" status`.") .nil,
        [[skillName]]) := by decide +kernel
  refine ⟨haltered, fun h => ?_⟩
  have hmeant := haltered.symm.trans (h.baked statusSkill (by decide))
  revert hmeant
  decide +kernel

end Acc.AdapterSdk.HookShim
