import AgentsCanCommunicate.Protocol.Paths

/-!
# The workspace config

A config is read from JSON and checked member by member.  A member that is null
counts as missing where the source writes `??`.

A declared root is relative to the directory of the config.  `assertRoot` counts
its depth over the segments between separators of either kind, and where the
root leads is up to `path.resolve`, to which on POSIX a backslash is a character
like any other.
-/

namespace Acc.Config

open Library (Move Climb walk climb)

/-! ## Values -/

/-- A JSON value.  The members of an object stand in the order of its keys. -/
inductive Value where
  | null
  | bool (value : Bool)
  | number (value : ℚ)
  | text (value : String)
  | array (values : List Value)
  | object (fields : List (String × Value))

abbrev Members := List (String × Value)

/-- A member, or undefined. -/
def Members.get (fields : Members) (key : String) : Option Value :=
  (fields.find? fun field => field.1 = key).map Prod.snd

/-- `value ?? undefined`. -/
def given : Option Value → Option Value
  | some .null => none
  | value => value

/-- `data`. -/
def data {α : Type} (message : String) : Result α := .error ⟨.data, message⟩

/-- `assertPortableId` on a value that may be no text. -/
def assertId (label : String) : Option Value → Result Id
  | some (.text value) => assertPortableId value label
  | _ => data s!"invalid {label}"

/-! ## Roots -/

def isSeparator (c : Char) : Bool := c == '/' || c == '\\'

/-- `root.split(/[\\/]/)`. -/
def splitSeparators (root : List Char) : List (List Char) := root.splitOnP isSeparator

/-- A leading separator or a drive. -/
def isRooted : List Char → Bool
  | [] => false
  | c :: rest => isSeparator c || (c.isAlpha && rest.head? == some ':')

/-- One segment of the depth check. -/
def descend (depth : Int) (segment : List Char) : Result Int :=
  if segment = [] ∨ segment = ['.'] then .ok depth
  else
    let next := depth + (if segment = ['.', '.'] then -1 else 1)
    if next < 0 then data "a workspace root must not leave the workspace" else .ok next

/-- A root that passes is answered as it stands. -/
def assertRoot : Value → Result String
  | .text root => do
      refuse (root = "") ⟨.data, "each workspace root must be a non-empty string"⟩
      refuse (isRooted root.toList = true)
        ⟨.data, "a workspace root must be relative to the config"⟩
      let _ ← (splitSeparators root.toList).foldlM descend 0
      pure root
  | _ => data "each workspace root must be a non-empty string"

/-! ## The config -/

structure Policy where
  claimMode : String
  contextBudgetBytes : ℚ

structure ProjectConfig where
  workspaceId : Id
  displayName : Option String
  roots : List String
  policy : Policy
  requiredAdapters : List Id
  extensions : Members

def runtimeKeys : List String :=
  ["sessions", "participants", "messages", "claims", "receipts", "intents", "events",
    "deliveryBindings", "tokens", "credentials"]

def knownKeys : List String :=
  ["schemaVersion", "workspaceId", "displayName", "roots", "policy", "requiredAdapters",
    "extensions"]

def claimModes : List String := ["advisory", "guarded"]

def defaultContextBudgetBytes : ℚ := 6000

def maxContextBudgetBytes : ℚ := 64000

def join (keys : List String) : String := ", ".intercalate keys

def claimModeOf : Option Value → Result String
  | none => .ok "advisory"
  | some (.text mode) =>
      if mode ∈ claimModes then .ok mode
      else data s!"policy.claimMode must be one of {join claimModes}"
  | some _ => data s!"policy.claimMode must be one of {join claimModes}"

/-- An integer is a number without a fraction. -/
def contextBudgetOf : Option Value → Result ℚ
  | none => .ok defaultContextBudgetBytes
  | some (.number budget) =>
      if budget.isInt = true ∧ 0 < budget ∧ budget ≤ maxContextBudgetBytes then .ok budget
      else data "policy.contextBudgetBytes must be an integer between 1 and 64000"
  | some _ => data "policy.contextBudgetBytes must be an integer between 1 and 64000"

def assertPolicy : Option Value → Result Policy
  | none => .ok ⟨"advisory", defaultContextBudgetBytes⟩
  | some (.object policy) => do
      let unknown := (policy.map Prod.fst).filter (· ∉ ["claimMode", "contextBudgetBytes"])
      refuse (unknown ≠ []) ⟨.data, s!"unknown policy key: {unknown.headD default}"⟩
      let claimMode ← claimModeOf (given (Members.get policy "claimMode"))
      let contextBudgetBytes ← contextBudgetOf (given (Members.get policy "contextBudgetBytes"))
      pure ⟨claimMode, contextBudgetBytes⟩
  | some _ => data "policy must be an object"

def schemaVersionIs (version : ℚ) : Option Value → Bool
  | some (.number value) => value = version
  | _ => false

def displayNameOf : Option Value → Result (Option String)
  | none => .ok none
  | some (.text value) => .ok (some value)
  | some _ => data "displayName must be a string"

def rootsOf : Option Value → Result (List Value)
  | none => .ok [.text "."]
  | some (.array []) => data "roots must be a non-empty array"
  | some (.array roots) => .ok roots
  | some _ => data "roots must be a non-empty array"

def requiredAdaptersOf : Option Value → Result (List Value)
  | none => .ok []
  | some (.array adapters) => .ok adapters
  | some _ => data "requiredAdapters must be an array"

def extensionsOf : Option Value → Result Members
  | none => .ok []
  | some (.object extensions) => .ok extensions
  | some _ => data "extensions must be an object"

def validateProjectConfig : Value → Result ProjectConfig
  | .object fields => do
      let config : Members := fields
      refuse (schemaVersionIs 1 (config.get "schemaVersion") = false)
        ⟨.data, "unknown workspace config schemaVersion"⟩
      let keys := config.map Prod.fst
      let runtime := runtimeKeys.filter (· ∈ keys)
      refuse (runtime ≠ [])
        ⟨.data, s!"the workspace config must not carry runtime state: {join runtime}"⟩
      let unknown := keys.filter (· ∉ knownKeys)
      refuse (unknown ≠ []) ⟨.data, s!"unknown workspace config key: {join unknown}"⟩
      let workspaceId ← assertId "workspace id" (config.get "workspaceId")
      let displayName ← displayNameOf (config.get "displayName")
      let roots ← rootsOf (given (config.get "roots"))
      let roots ← roots.mapM assertRoot
      let requiredAdapters ← requiredAdaptersOf (given (config.get "requiredAdapters"))
      let requiredAdapters ← requiredAdapters.mapM fun adapter =>
        assertId "adapter id" (some adapter)
      let extensions ← extensionsOf (config.get "extensions")
      let policy ← assertPolicy (config.get "policy")
      pure ⟨workspaceId, displayName, roots, policy, requiredAdapters, extensions⟩
  | _ => data "the workspace config must be an object"

/-- Each root of a config passed the check. -/
theorem validateProjectConfig_assertRoot {value : Value} {config : ProjectConfig}
    (h : validateProjectConfig value = .ok config) {root : String} (hroot : root ∈ config.roots) :
    assertRoot (.text root) = .ok root := by
  cases value with
  | object fields =>
      simp only [validateProjectConfig, bind_eq_ok, pure_eq_ok] at h
      obtain ⟨-, -, -, -, -, -, id, -, name, -, values, -, roots, hroots, given, -, adapters, -,
        extensions, -, policy, -, rfl⟩ := h
      obtain ⟨given, -, hgiven⟩ := mem_of_mapM_eq_ok hroots root hroot
      cases given with
      | text text =>
          have htext := hgiven
          simp only [assertRoot, bind_eq_ok, pure_eq_ok] at htext
          obtain ⟨-, -, -, -, -, -, rfl⟩ := htext
          exact hgiven
      | _ => cases hgiven
  | _ => cases h

/-! ## Where a root leads -/

def windowsMoves (path : List Char) : List (Move (List Char)) := (splitSeparators path).map moveOf

/-- `path.win32.resolve`, on a base given as its device and what follows it.  A
root with a separator or a drive in front does not start from the base. -/
def windowsResolve (device base root : List Char) : Option (List Char × List (List Char)) :=
  if isRooted root = true then none
  else some (device, walk [] (windowsMoves base ++ windowsMoves root))

/-- The root leads to the base or below it, under POSIX. -/
def PosixContained (base root : List Char) : Prop :=
  posixResolve [] base <+: posixResolve (posixResolve [] base) root

/-- The root leads to the base or below it, under Windows. -/
def WindowsContained (device base root : List Char) : Prop :=
  ∃ place, windowsResolve device base root = some (device, place)
    ∧ walk [] (windowsMoves base) <+: place

/-- The depth check, over the segments between slashes. -/
def NeverAbove (root : List Char) : Prop := ∃ depth, (segments root).foldlM descend 0 = .ok depth

/-- The names a root climbs over are the first that it goes down to. -/
def Returns (base root : List Char) : Prop :=
  let start := posixResolve [] base
  let path := climb (posixMoves root)
  start.drop (start.length - path.ups) <+: path.downs

/-! ## The depth check -/

/-- The depth check passes exactly the paths that do not climb. -/
theorem foldlM_descend {c : Climb (List Char)} (hups : c.ups = 0) (path : List (List Char)) :
    (∃ depth, path.foldlM descend (c.downs.length : Int) = .ok depth) ↔
      ((path.map moveOf).foldl Climb.apply c).ups = 0 := by
  induction path generalizing c with
  | nil => exact ⟨fun _ => hups, fun _ => ⟨_, rfl⟩⟩
  | cons segment path ih =>
      rw [List.foldlM_cons, List.map_cons, List.foldl_cons]
      by_cases hstay : segment = [] ∨ segment = ['.']
      · rw [descend, if_pos hstay, moveOf, if_pos hstay]
        exact ih hups
      · by_cases hup : segment = ['.', '.']
        · rw [descend, if_neg hstay, moveOf, if_neg hstay, if_pos hup, if_pos hup]
          by_cases hdowns : c.downs = []
          · have hclimb := Climb.ups_le_foldl (c.apply .up) (path.map moveOf)
            have hone : (c.apply .up).ups = c.ups + 1 := by rw [Climb.apply, if_pos hdowns]
            refine ⟨?_, fun hzero => by omega⟩
            rintro ⟨depth, h⟩
            rw [hdowns] at h
            cases h
          · have hpos := List.length_pos_iff.mpr hdowns
            have hnext : (c.downs.length : Int) + -1 = (c.downs.dropLast.length : Int) := by
              rw [List.length_dropLast]
              omega
            have hne : ¬(c.downs.length : Int) + -1 < 0 := by omega
            rw [if_neg hne, hnext, Climb.apply, if_neg hdowns]
            exact ih (c := ⟨c.ups, c.downs.dropLast⟩) hups
        · have hnext : (c.downs.length : Int) + 1 = ((c.downs ++ [segment]).length : Int) := by simp
          have hne : ¬(c.downs.length : Int) + 1 < 0 := by omega
          rw [descend, if_neg hstay, moveOf, if_neg hstay, if_neg hup, if_neg hup, if_neg hne,
            hnext]
          exact ih (c := ⟨c.ups, c.downs ++ [segment]⟩) hups

theorem descend_iff (path : List (List Char)) :
    (∃ depth, path.foldlM descend 0 = .ok depth) ↔ (climb (path.map moveOf)).ups = 0 :=
  foldlM_descend (c := Climb.here) rfl path

theorem assertRoot_eq_ok {root : String} (h : assertRoot (.text root) = .ok root) :
    isRooted root.toList = false ∧ (climb (windowsMoves root.toList)).ups = 0 := by
  simp only [assertRoot, bind_eq_ok, refuse_eq_ok, pure_eq_ok] at h
  obtain ⟨-, -, -, hrooted, depth, hdepth, -⟩ := h
  exact ⟨by simpa using hrooted, (descend_iff _).mp ⟨depth, hdepth⟩⟩

/-! ## Containment -/

theorem head?_of_not_isRooted {root : List Char} (h : isRooted root = false) :
    root.head? ≠ some '/' := by
  rintro hhead
  cases root with
  | nil => cases hhead
  | cons c rest =>
      cases hhead
      cases h

theorem posixResolve_of_not_isRooted {root : List Char} (h : isRooted root = false)
    (base : List (List Char)) : posixResolve base root = walk base (posixMoves root) := by
  rw [posixResolve, if_neg (head?_of_not_isRooted h)]

theorem posixContained_iff {base root : List Char} (h : isRooted root = false) :
    PosixContained base root ↔ Returns base root := by
  rw [PosixContained, posixResolve_of_not_isRooted h, Library.prefix_walk_iff, Returns]

/-- A root that the check passes stays in the base under Windows. -/
theorem windowsContained {device base root : List Char} (hrooted : isRooted root = false)
    (hups : (climb (windowsMoves root)).ups = 0) : WindowsContained device base root := by
  refine ⟨_, by rw [windowsResolve, hrooted]; rfl, ?_⟩
  rw [Library.walk_append]
  exact Library.prefix_walk_of_ups hups

/-- A base as deep as one likes, of one name. -/
def baseOf (n : Nat) (name : List Char) : List Char :=
  '/' :: ['/'].intercalate (List.replicate n name)

theorem posixResolve_baseOf {n : Nat} (hn : n ≠ 0) {name : List Char}
    (hname : moveOf name = .down name) (hslash : '/' ∉ name) :
    posixResolve [] (baseOf n name) = List.replicate n name := by
  have hsegments : segments (baseOf n name) = [] :: List.replicate n name := by
    rw [segments, baseOf, List.splitOn_cons_eq_if_modifyHead, if_pos (by simp),
      List.splitOn_intercalate '/' (fun l hl => List.eq_of_mem_replicate hl ▸ hslash)
        (by simpa using hn)]
  have hdowns : ∀ (m : Nat) (place : List (List Char)),
      walk place ((List.replicate m name).map moveOf) = place ++ List.replicate m name := by
    intro m
    induction m with
    | zero => simp [walk]
    | succ m ih =>
        intro place
        rw [List.replicate_succ, List.map_cons, hname]
        exact (ih (place ++ [name])).trans (by simp)
  rw [posixResolve, ite_self, posixMoves, hsegments]
  exact hdowns n []

theorem neverAbove_iff (root : List Char) :
    NeverAbove root ↔ (climb (posixMoves root)).ups = 0 :=
  descend_iff (segments root)

/-- A root that climbs leaves some base. -/
theorem exists_not_contained {root : List Char} (hrooted : isRooted root = false)
    (h : ¬NeverAbove root) : ∃ base, base.head? = some '/' ∧ ¬PosixContained base root := by
  rw [neverAbove_iff] at h
  obtain ⟨name, hname, hnot⟩ :=
    Library.exists_not_prefix_walk (a := ['a']) (b := ['b']) (by decide) h
  have hplain : moveOf name = .down name ∧ '/' ∉ name := by
    rcases hname with rfl | rfl
    · exact ⟨by decide, by decide⟩
    · exact ⟨by decide, by decide⟩
  refine ⟨baseOf (climb (posixMoves root)).ups name, rfl, fun hcontained => hnot ?_⟩
  rw [PosixContained, posixResolve_of_not_isRooted hrooted,
    posixResolve_baseOf h hplain.1 hplain.2] at hcontained
  exact hcontained

/-- A root of an accepted config leads to the base or below it, under both
rules, exactly when it returns to the names it climbs over.  It does so for
every base exactly when it passes the depth check also with the slash as the
only separator. -/
theorem validateProjectConfig_contained {value : Value} {config : ProjectConfig}
    (h : validateProjectConfig value = .ok config) {root : String} (hroot : root ∈ config.roots) :
    (∀ base, base.head? = some '/' → ∀ device tail,
        PosixContained base root.toList ∧ WindowsContained device tail root.toList ↔
          Returns base root.toList)
      ∧ ((∀ base, base.head? = some '/' → ∀ device tail,
          PosixContained base root.toList ∧ WindowsContained device tail root.toList) ↔
          NeverAbove root.toList) := by
  obtain ⟨hrooted, hups⟩ := assertRoot_eq_ok (validateProjectConfig_assertRoot h hroot)
  have hwindows : ∀ device tail, WindowsContained device tail root.toList := fun _ _ =>
    windowsContained hrooted hups
  refine ⟨fun base _ device tail => ?_, ⟨fun hall => ?_, fun hnever base _ device tail => ?_⟩⟩
  · rw [posixContained_iff hrooted]
    exact and_iff_left (hwindows device tail)
  · by_contra hnever
    obtain ⟨base, hbase, hnot⟩ := exists_not_contained hrooted hnever
    exact hnot (hall base hbase [] []).1
  · refine ⟨?_, hwindows device tail⟩
    rw [PosixContained, posixResolve_of_not_isRooted hrooted]
    exact Library.prefix_walk_of_ups ((neverAbove_iff _).mp hnever)

/-- A config that declares one root. -/
def configWith (root : String) : Value :=
  .object [("schemaVersion", .number 1), ("workspaceId", .text "w"), ("roots", .array [.text root])]

/-- What is read of it. -/
def readWith (root : String) : ProjectConfig :=
  ⟨⟨"w", by decide⟩, none, [root], ⟨"advisory", defaultContextBudgetBytes⟩, [], []⟩

/-- `a\b` is one name under POSIX and two names to the check. -/
def escapingRoot : String := "a\\b/../.."

theorem validateProjectConfig_contained_sample :
    validateProjectConfig (configWith "packages/../lib") = .ok (readWith "packages/../lib")
      ∧ NeverAbove "packages/../lib".toList
      ∧ ∀ device tail, PosixContained "/w".toList "packages/../lib".toList
        ∧ WindowsContained device tail "packages/../lib".toList := by
  have hread : validateProjectConfig (configWith "packages/../lib")
      = .ok (readWith "packages/../lib") := rfl
  have hnever : NeverAbove "packages/../lib".toList := ⟨1, by decide⟩
  have hcontained := validateProjectConfig_contained hread (List.mem_singleton_self _)
  exact ⟨hread, hnever, fun device tail => hcontained.2.mpr hnever _ (by decide) device tail⟩

theorem validateProjectConfig_escapes :
    ¬∀ (value : Value) (config : ProjectConfig), validateProjectConfig value = .ok config →
      ∀ root ∈ config.roots, ∀ base, base.head? = some '/' → ∀ device tail,
        PosixContained base root.toList ∧ WindowsContained device tail root.toList := by
  intro h
  have hread : validateProjectConfig (configWith escapingRoot) = .ok (readWith escapingRoot) := rfl
  have hnot : ¬PosixContained "/w".toList escapingRoot.toList := by
    unfold PosixContained
    decide
  exact hnot (h _ _ hread escapingRoot (List.mem_singleton_self _) _ (by decide) [] []).1

end Acc.Config
