import AgentsCanCommunicate.Library.JsonValue

/-!
# Protocol readiness

A client of 2025 initializes its transport, and one of 2026 sends its metadata with each
request.  The protocol remembers how far the first has come.

The name and version of the server, its capabilities and the handler of the methods are
parameters.
-/

namespace Acc.McpServer.Protocol

open Library
open Library.Utf16 (ofString)

def PROTOCOL_VERSION : Utf16 := ofString "2026-07-28"

def INITIALIZED_VERSIONS : List Utf16 := ["2025-11-25", "2025-06-18"].map ofString

def SUPPORTED_VERSIONS : List Utf16 := PROTOCOL_VERSION :: INITIALIZED_VERSIONS

def VERSION_KEY : String := "io.modelcontextprotocol/protocolVersion"

def CAPABILITIES_KEY : String := "io.modelcontextprotocol/clientCapabilities"

/-- An error, with its code when it has one. -/
structure RpcError where
  rpcCode : Option ℤ
  message : Utf16
  rpcData : Option JsonValue

def rpcError (rpcCode : ℤ) (message : Utf16) (rpcData : Option JsonValue) : RpcError :=
  ⟨some rpcCode, message, rpcData⟩

/-- What a call of the handler comes to. -/
inductive Handled where
  | result (value : JsonValue)
  /-- A result that cannot be written as JSON, with the error of the attempt. -/
  | unwritable (error : RpcError)
  | failed (error : RpcError)

structure Server where
  serverInfo : JsonValue
  accCapabilities : JsonValue
  /-- The handler.  Its answer depends on how often it was called before. -/
  handle : ℕ → JsonValue → Handled

inductive Phase where
  | uninitialized
  | initializing
  | ready
deriving DecidableEq

def obj (members : List (String × JsonValue)) : JsonValue :=
  .object (members.map fun member => (ofString member.1, member.2))

def CAPABILITIES : JsonValue := obj [("tools", .object []), ("resources", .object [])]

/-- The members of an object, or none. -/
def membersOf : JsonValue → List (Utf16 × JsonValue)
  | .object members => members
  | _ => []

/-- The members with those of the other put over them. -/
def spread (members others : List (Utf16 × JsonValue)) : List (Utf16 × JsonValue) :=
  members.map (fun member => (others.find? fun other => other.1 = member.1).getD member) ++
    others.filter fun other => !members.any fun member => member.1 = other.1

def complete (server : Server) (result : JsonValue) : JsonValue :=
  .object (spread [(ofString "resultType", .string (ofString "complete")),
    (ofString "_meta", obj [("io.modelcontextprotocol/serverInfo", server.serverInfo)])]
    (membersOf result))

/-- A member of something that may be undefined. -/
def member (value : Option JsonValue) (key : String) : Option JsonValue :=
  value.bind (JsonValue.get key)

def isStringMember (value : Option JsonValue) (key : String) : Bool :=
  (member value key).any JsonValue.isString

def isObjectMember (value : Option JsonValue) (key : String) : Bool :=
  (member value key).any JsonValue.isObject

def requireProtocolMeta (params : Option JsonValue) : Except RpcError Unit :=
  let given := member params "_meta"
  match member given VERSION_KEY with
  | some (.string version) =>
      if isObjectMember given CAPABILITIES_KEY = false then
        .error (rpcError (-32602)
          (ofString "each request requires _meta protocolVersion and clientCapabilities") none)
      else if version ≠ PROTOCOL_VERSION then
        .error (rpcError (-32022) (ofString "unsupported protocol version: " ++ version)
          (some (obj [("supported", .array (SUPPORTED_VERSIONS.map .string)),
            ("requested", .string version)])))
      else .ok ()
  | _ => .error (rpcError (-32602)
      (ofString "each request requires _meta protocolVersion and clientCapabilities") none)

def notify (phase : Phase) (method : Utf16) : Phase :=
  if method = ofString "notifications/initialized" ∧ phase = .initializing then .ready else phase

/-- The method `initialize`, and the phase after it. -/
def onInitialize (server : Server) (phase : Phase) (params : Option JsonValue) :
    Phase × Except RpcError JsonValue :=
  if phase ≠ .uninitialized then
    (phase, .error (rpcError (-32600) (ofString "already initialized") none))
  else
    let info := member params "clientInfo"
    match member params "protocolVersion" with
    | some (.string requested) =>
        if isObjectMember params "capabilities" && (info.any JsonValue.isObject) &&
            isStringMember info "name" && isStringMember info "version" then
          let version := if requested ∈ INITIALIZED_VERSIONS then requested
            else INITIALIZED_VERSIONS.headD []
          (.initializing, .ok (obj [("protocolVersion", .string version),
            ("capabilities", CAPABILITIES), ("serverInfo", server.serverInfo)]))
        else
          (phase, .error (rpcError (-32602)
            (ofString "initialize requires protocolVersion, capabilities and clientInfo") none))
    | _ => (phase, .error (rpcError (-32602)
        (ofString "initialize requires protocolVersion, capabilities and clientInfo") none))

/-- The metadata of 2026 is there, or part of it. -/
def isModern (method : Utf16) (params : Option JsonValue) : Bool :=
  let given := member params "_meta"
  method = ofString "server/discover" || (given.any JsonValue.isObject &&
    ((member given VERSION_KEY).isSome || (member given CAPABILITIES_KEY).isSome))

/-- Whether the request may be made now. -/
def admitMethod (phase : Phase) (method : Utf16) (params : Option JsonValue) : Except RpcError Unit :=
  if isModern method params then requireProtocolMeta params
  else if method ≠ ofString "ping" ∧ phase ≠ .ready then
    if phase = .initializing then
      .error (rpcError (-32600) (ofString "client has not sent initialized") none)
    else requireProtocolMeta params
  else .ok ()

/-- A result as a client of 2025 takes it. -/
def legacy : JsonValue → JsonValue
  | .object members =>
      if (JsonValue.get "structuredContent" (.object members)).any fun value => !value.isObject then
        .object (members.filter fun member => member.1 ≠ ofString "structuredContent")
      else .object members
  | value => value

def shape (server : Server) (modern : Bool) : Handled → Handled
  | .result value =>
      if modern then .result (complete server value)
      else if value.isNull then
        .failed ⟨none, ofString "Cannot convert undefined or null to object", none⟩
      else .result (legacy value)
  | handled => handled

/-- A request: the phase after it, the calls of the handler so far, and what it comes to. -/
def request (server : Server) (phase : Phase) (calls : ℕ) (message : JsonValue) (method : Utf16) :
    Phase × ℕ × Handled :=
  let params := message.get "params"
  if method = ofString "initialize" then
    match onInitialize server phase params with
    | (phase, .ok value) => (phase, calls, .result value)
    | (phase, .error error) => (phase, calls, .failed error)
  else
    match admitMethod phase method params with
    | .error error => (phase, calls, .failed error)
    | .ok () =>
        if method = ofString "server/discover" then
          (phase, calls, shape server (isModern method params) (.result
            (obj [("supportedVersions", .array (SUPPORTED_VERSIONS.map .string)),
              ("capabilities", CAPABILITIES), ("serverInfo", server.serverInfo),
              ("accCapabilities", server.accCapabilities)])))
        else if method = ofString "ping" then
          (phase, calls, shape server (isModern method params) (.result (.object [])))
        else (phase, calls + 1, shape server (isModern method params) (server.handle calls message))

end Acc.McpServer.Protocol
