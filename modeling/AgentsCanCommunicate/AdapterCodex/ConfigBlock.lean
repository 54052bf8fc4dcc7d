import AgentsCanCommunicate.AdapterSdk.TomlBlock
import AgentsCanCommunicate.AdapterSdk.TomlScan
import AgentsCanCommunicate.Library.JsonSyntax

/-!
# ACC's block in the Codex configuration

Codex sorts and extends its configuration, so ACC's tables are found by the statements
between ACC's marker comments and not by its lines.  A marker is a comment and ends no table.
What stands between the markers and is not a table of ACC's belongs to the client and stays.
-/

namespace Acc.AdapterCodex.ConfigBlock

open Library Library.Text
open Library.JsonSyntax (quote parse)
open AdapterSdk.TomlBlock (BEGIN END renderBlock separator)
open AdapterSdk.TomlScan

/-! ## The code -/

def Refusal.message (refusal : Refusal) : String :=
  s!"cannot safely edit Codex config: {refusal.reason}; " ++
    "repair ambiguous TOML or ACC markers before retrying"

def ROOT : Text := "# ACC sandbox writable_roots created with: ".toList

def sandboxOwnership (root : Text) : Text := ROOT ++ quote root

def marketplaceKeys : List Text := ["marketplaces".toList, "acc-local".toList]

def pluginKeys : List Text := ["plugins".toList, "agents-can-communicate@acc-local".toList]

def sandboxKeys : List Text := ["sandbox_workspace_write".toList]

/-- The tables of ACC's, each with the keys that ACC writes. -/
def OWNED : List (List Text × List Text) :=
  [(marketplaceKeys, ["source_type".toList, "source".toList]),
    (pluginKeys, ["enabled".toList]),
    (sandboxKeys, ["writable_roots".toList])]

def isBegin (item : Statement) : Bool := item.code.isEmpty && trim item.raw = BEGIN

def isEndMarker (item : Statement) : Bool := item.code.isEmpty && trim item.raw = END

/-- The comment that names the root of a sandbox. -/
def isMetadata (item : Statement) : Bool := item.code.isEmpty && ROOT.isPrefixOf (trim item.raw)

def hasCode (item : Statement) : Bool := !item.code.isEmpty

/-- What `writable_roots` is set to, on one line. -/
def rootsValue (code : Text) : Option Text :=
  let name := "writable_roots".toList
  match name.isPrefixOf code, trimStart (code.drop name.length) with
  | true, '=' :: rest =>
      let value := trimStart rest
      if value.head? = some '[' ∧ value.getLast? = some ']' ∧ value.all (!isLineTerminator ·) then
        some value
      else none
  | _, _ => none

/-- The sandbox is ACC's when its only value is the root that its comment names. -/
def ownsSandbox (body : List Statement) : Bool :=
  match body.filter isMetadata, body.filter hasCode with
  | [note], [value] =>
      match parse ((trim note.raw).drop ROOT.length), (rootsValue value.code).bind parse with
      | some (.string root), some (.array [.string only]) => root = only
      | _, _ => false
  | _, _ => false

/-- The rest of a basic string, through its closing mark at the end. -/
def endsBasic : Text → Bool
  | ['"'] => true
  | '\\' :: c :: rest => !isLineTerminator c && endsBasic rest
  | c :: rest => c ≠ '"' && c ≠ '\\' && endsBasic rest
  | [] => false

def isString : Text → Bool
  | '"' :: rest => endsBasic rest
  | '\'' :: rest => rest.getLast? = some '\'' && rest.dropLast.all (· ≠ '\'')
  | _ => false

/-- A value that ACC may have given to one of its keys. -/
def isValid (key value : Text) : Bool :=
  if key = "source_type".toList then
    (value.head? = some '"' || value.head? = some '\'') && value.tail.dropLast = "local".toList
      && (value.tail.getLast? = some '"' || value.tail.getLast? = some '\'')
  else if key = "source".toList then isString value
  else value = "true".toList || value = "false".toList

def assertRegistration (body : List Statement) (keys : List Text) : Except Refusal Unit := do
  let values ← (body.filter hasCode).mapM fun item => declaration item.code
  if values.any fun item => item.keys.length ≠ 1 || !item.keys.head?.any (· ∈ keys) then
    refuse "unknown key in owned table"
  else if values.length ≠ keys.length || keys.any fun key =>
      (values.filter fun item => item.keys = [key] && item.value.any (isValid key)).length ≠ 1 then
    refuse "changed or incomplete owned registration"
  else .ok ()

/-- What follows a header, to the next one. -/
def tableBody : List Statement → Except Refusal (List Statement)
  | [] => .ok []
  | item :: rest =>
      if hasCode item then
        match declaration item.code with
        | .error e => .error e
        | .ok entry => if entry.header then .ok [] else (tableBody rest).map (item :: ·)
      else (tableBody rest).map (item :: ·)

structure State where
  kept : List Text
  declarations : List (List Text × Bool)
  inside : Bool
  owned : Option (List Text)
  table : List Text

def State.initial : State := ⟨[], [], false, none, []⟩

def State.keep (s : State) (item : Statement) : State := { s with kept := s.kept ++ [item.raw] }

def State.declare (s : State) (item : Statement) (keys : List Text) (header : Bool) : State :=
  { s.keep item with declarations := s.declarations ++ [(keys, header)] }

/-- The keys of ACC's table that a header opens, if it is one. -/
def ownedBy (inside : Bool) (table : List Text) (rest : List Statement) :
    Except Refusal (Option (List Text)) :=
  match if inside then OWNED.lookup table else none with
  | none => .ok none
  | some keys =>
      if table = sandboxKeys then
        (tableBody rest).map fun body => if ownsSandbox body then some keys else none
      else .ok (some keys)

def inspectHeader (s : State) (item : Statement) (entry : Declaration) (rest : List Statement) :
    Except Refusal State := do
  match ← ownedBy s.inside entry.keys rest with
  | none => return ({ s with table := entry.keys, owned := none }).declare item entry.keys true
  | some keys =>
      if entry.array then refuse "owned table declared as an array"
      else if entry.keys.head? ≠ sandboxKeys.head? then assertRegistration (← tableBody rest) keys
      return { s with table := entry.keys, owned := some keys }

def inspectAssignment (s : State) (item : Statement) (entry : Declaration) :
    Except Refusal State :=
  match s.owned with
  | none => .ok (s.declare item (s.table ++ entry.keys) false)
  | some keys =>
      if s.inside = false then refuse "assignment continues owned table after END marker"
      else if entry.keys.length ≠ 1 || !entry.keys.head?.any (· ∈ keys) then
        refuse "unknown key in owned table"
      else .ok s

/-- Whether a comment or an empty line stays. -/
def keepsComment (s : State) (item : Statement) : Bool :=
  !s.inside || s.owned.isNone ||
    (trim item.raw ≠ [] && !(s.table = sandboxKeys && ROOT.isPrefixOf (trim item.raw)))

def inspectItem (s : State) (item : Statement) (rest : List Statement) : Except Refusal State :=
  if isBegin item then
    if s.inside then refuse "nested BEGIN marker" else .ok { s with inside := true }
  else if isEndMarker item then
    if s.inside then .ok { s with inside := false } else refuse "unmatched END marker"
  else if hasCode item = false then .ok (if keepsComment s item then s.keep item else s)
  else
    match declaration item.code with
    | .error e => .error e
    | .ok entry =>
        if entry.header then inspectHeader s item entry rest else inspectAssignment s item entry

def inspectFrom (s : State) : List Statement → Except Refusal State
  | [] => .ok s
  | item :: rest =>
      match inspectItem s item rest with
      | .error e => .error e
      | .ok s => inspectFrom s rest

structure Inspection where
  source : Text
  sandbox : Bool
  registration : Bool
deriving DecidableEq

/-- Whether some declaration lies below a path. -/
def has (declarations : List (List Text × Bool)) (keys : List Text) : Bool :=
  declarations.any fun declared => keys.isPrefixOf declared.1

def inspect (source : Text) : Except Refusal Inspection := do
  let items ← statements source
  let s ← inspectFrom .initial items
  if s.inside then refuse "missing END marker"
  else
    let assignedParent := s.declarations.any fun declared => !declared.2 &&
      (declared.1 = ["marketplaces".toList] || declared.1 = ["plugins".toList])
    return { source := s.kept.flatten
             sandbox := has s.declarations sandboxKeys
             registration := assignedParent || has s.declarations marketplaceKeys ||
               has s.declarations pluginKeys }

def inspectConfig (source : Text) (file : String) : Except String Inspection :=
  (inspect source).mapError fun refusal => s!"{file}: {Refusal.message refusal}"

/-- What is written to the file behind what is left of it. -/
def writeTomlBlock (source : Text) (body : List Text) : Text :=
  source ++ separator source ++ renderBlock body ++ ['\n']

/-- What is left in the file, and whether anything was there. -/
def removeTomlBlock (before : Text) : Except Refusal (Text × Bool) :=
  (inspect before).map fun inspection => (inspection.source, inspection.source ≠ before)

/-! ## What an installation writes -/

/-- A basic string.  Only its mark and the backslash are escaped. -/
def tomlEscape (c : Char) : Text :=
  if c = '\\' then ['\\', '\\'] else if c = '"' then ['\\', '"'] else [c]

def tomlString (value : Text) : Text := '"' :: value.flatMap tomlEscape ++ ['"']

/-- The table of the sandbox, unless the client has one. -/
def sandboxTable (stateRoot : Option Text) (theirs : Bool) : List Text :=
  match stateRoot with
  | none => []
  | some root =>
      if root = [] ∨ theirs then []
      else [[], "[sandbox_workspace_write]".toList, sandboxOwnership root,
        "writable_roots = [".toList ++ tomlString root ++ [']']]

def installedBody (marketplaceRoot : Text) (stateRoot : Option Text) (theirs : Bool) : List Text :=
  ["[marketplaces.acc-local]".toList, "source_type = \"local\"".toList,
    "source = ".toList ++ tomlString marketplaceRoot, [],
    "[plugins.".toList ++ tomlString "agents-can-communicate@acc-local".toList ++ [']'],
    "enabled = true".toList] ++ sandboxTable stateRoot theirs

end Acc.AdapterCodex.ConfigBlock
