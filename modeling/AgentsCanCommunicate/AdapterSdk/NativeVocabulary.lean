import AgentsCanCommunicate.Protocol.Ids
import AgentsCanCommunicate.AdapterSdk.Versions

/-!
# The vocabulary of native delivery

The values that an adapter, a probe or a handshake hands over may be anything, so each is read
member by member, and a member of the wrong form is refused with the source's own message.
What is answered for the form of a value is the value in a type that has that form only.
-/

namespace Acc.AdapterSdk.NativeDelivery

open Library Library.Text
open Versions

/-! ## Values -/

/-- A value of the language.  A number is told by what it prints as: nothing here reads it. -/
inductive Value where
  | undefined
  | null
  | bool (value : Bool)
  | number (printed : Text)
  | text (value : Text)
  | array (values : List Value)
  | object (fields : List (String × Value))

abbrev Members := List (String × Value)

def Members.get (fields : Members) (key : String) : Value :=
  ((fields.find? fun field => field.1 = key).map Prod.snd).getD .undefined

def Members.has (fields : Members) (key : String) : Bool := fields.any fun field => field.1 = key

/-- The members of `{ ...value }`. -/
def Value.spread : Value → Members
  | .object fields => fields
  | .array values => values.zipIdx.map fun item => (toString item.2, item.1)
  | .text value => value.zipIdx.map fun item => (toString item.2, .text [item.1])
  | _ => []

/-- The members that `Object.hasOwn` and `value?.member` find: a list and a text have none of
the names that are asked for. -/
def Value.members : Value → Members
  | .object fields => fields
  | _ => []

/-- `isText`, and the text. -/
def Value.toText : Value → Option Text
  | .text value => if value = [] then none else some value
  | _ => none

/-- What a template makes of a value, where a list separates its items by a comma. -/
def Value.print : Value → Text
  | .undefined => "undefined".toList
  | .null => "null".toList
  | .bool value => (toString value).toList
  | .number printed => printed
  | .text value => value
  | .array values => [','].intercalate (printItems values)
  | .object _ => "[object Object]".toList
where
  printItems : List Value → List Text
    | [] => []
    | .undefined :: values => [] :: printItems values
    | .null :: values => [] :: printItems values
    | value :: values => value.print :: printItems values

def usage {α : Type} (message : String) : Result α := .error ⟨.usage, message⟩

/-- A value with the given members, and no others but the optional ones. -/
def closed (value : Value) (keys : List String) (label : String) (optional : List String) :
    Result Members :=
  match value with
  | .object fields => do
      let unknown := (fields.map Prod.fst).filter (· ∉ keys ++ optional)
      refuse (unknown ≠ []) ⟨.usage, s!"unknown {label} field {unknown.headD default}"⟩
      let missing := keys.filter fun key => !Members.has fields key
      refuse (missing ≠ []) ⟨.usage, s!"{label} requires {missing.headD default}"⟩
      pure fields
  | _ => usage s!"{label} must be an object"

/-! ## Names -/

/-- `NATIVE_BINDING_MODES`. -/
inductive Mode where
  | livePush
  | idleWake
  | busyQueue
  | replyRoute
deriving DecidableEq

def Mode.all : List Mode := [.livePush, .idleWake, .busyQueue, .replyRoute]

def Mode.name : Mode → String
  | .livePush => "livePush"
  | .idleWake => "idleWake"
  | .busyQueue => "busyQueue"
  | .replyRoute => "replyRoute"

/-- `NATIVE_REASON_CODES`. -/
inductive ReasonCode where
  | nativeDeliveryUnsupported
  | platformNotCaptured
  | versionUnavailable
  | prereleaseNotCaptured
  | belowMinimumVersion
  | knownBadVersion
  | featureProbeFailed
  | probeTimeout
  | probeVersionMismatch
  | protocolMismatch
  | nativeEndpointUnavailable
  | nativeSessionUnavailable
  | transportPermissionDenied
  | handshakeFailed
  | handshakeTimeout
  | handshakeVersionMismatch
  | sessionGenerationStale
  | clientProcessUnknown
  | unsupportedShell
  | workspaceIdentityUnavailable
  | clientSessionEmbedded
deriving DecidableEq

def ReasonCode.all : List ReasonCode :=
  [.nativeDeliveryUnsupported, .platformNotCaptured, .versionUnavailable, .prereleaseNotCaptured,
    .belowMinimumVersion, .knownBadVersion, .featureProbeFailed, .probeTimeout,
    .probeVersionMismatch, .protocolMismatch, .nativeEndpointUnavailable,
    .nativeSessionUnavailable, .transportPermissionDenied, .handshakeFailed, .handshakeTimeout,
    .handshakeVersionMismatch, .sessionGenerationStale, .clientProcessUnknown, .unsupportedShell,
    .workspaceIdentityUnavailable, .clientSessionEmbedded]

def ReasonCode.name : ReasonCode → String
  | .nativeDeliveryUnsupported => "native_delivery_unsupported"
  | .platformNotCaptured => "platform_not_captured"
  | .versionUnavailable => "version_unavailable"
  | .prereleaseNotCaptured => "prerelease_not_captured"
  | .belowMinimumVersion => "below_minimum_version"
  | .knownBadVersion => "known_bad_version"
  | .featureProbeFailed => "feature_probe_failed"
  | .probeTimeout => "probe_timeout"
  | .probeVersionMismatch => "probe_version_mismatch"
  | .protocolMismatch => "protocol_mismatch"
  | .nativeEndpointUnavailable => "native_endpoint_unavailable"
  | .nativeSessionUnavailable => "native_session_unavailable"
  | .transportPermissionDenied => "transport_permission_denied"
  | .handshakeFailed => "handshake_failed"
  | .handshakeTimeout => "handshake_timeout"
  | .handshakeVersionMismatch => "handshake_version_mismatch"
  | .sessionGenerationStale => "session_generation_stale"
  | .clientProcessUnknown => "client_process_unknown"
  | .unsupportedShell => "unsupported_shell"
  | .workspaceIdentityUnavailable => "workspace_identity_unavailable"
  | .clientSessionEmbedded => "client_session_embedded"

/-- `PLANNABLE_ACTIVATION_KINDS`. -/
inductive ActivationKind where
  | nativeConfig
  | nativeService
deriving DecidableEq

def ActivationKind.all : List ActivationKind := [.nativeConfig, .nativeService]

def ActivationKind.name : ActivationKind → String
  | .nativeConfig => "native-config"
  | .nativeService => "native-service"

/-- The one of some names that a value is. -/
def named {α : Type} (all : List α) (name : α → String) : Value → Option α
  | .text value => all.find? fun item => (name item).toList = value
  | _ => none

/-- A list of names without a repeated one. -/
def uniqueNames {α : Type} [DecidableEq α] (all : List α) (name : α → String) :
    Value → Option (List α)
  | .array values => do
      let items ← values.mapM (named all name)
      if items.Nodup then some items else none
  | _ => none

def join (names : List String) : String := ", ".intercalate names

def assertModes (modes : Value) (label : String) : Result (List Mode) :=
  match uniqueNames Mode.all Mode.name modes with
  | some modes => .ok modes
  | none => usage s!"{label} modes must be unique entries of {join (Mode.all.map Mode.name)}"

def assertReasonCode (value : Value) (label : String) : Result (Option ReasonCode) :=
  match value with
  | .null => .ok none
  | value =>
      match named ReasonCode.all ReasonCode.name value with
      | some code => .ok (some code)
      | none => usage s!"{label} reasonCode must be null or a closed native reason code"

/-! ## Forms of texts -/

def isLowerAlphanum (c : Char) : Bool := c.isLower || c.isDigit

/-- `CONTRACT_ID`. -/
def isContractId (t : Text) : Bool :=
  match t.splitOn '-' with
  | [] => false
  | first :: rest =>
      first.head?.any Char.isLower && first.all isLowerAlphanum
        && rest.all fun word => word ≠ [] && word.all isLowerAlphanum

/-- `FINGERPRINT`. -/
def isFingerprint (t : Text) : Bool :=
  t.take 7 = "sha256:".toList && (t.drop 7).length = 64
    && (t.drop 7).all fun c => c.isDigit || ('a' ≤ c && c ≤ 'f')

/-- `isLaunchOption`. -/
def isLaunchOption (t : Text) : Bool :=
  t.length ≤ 40 && match t with
    | ['-', c] => c.isLower
    | '-' :: '-' :: rest => isContractId rest
    | _ => false

def timestampShape : Text := "0000-00-00T00:00:00".toList

/-- What may follow the seconds. -/
def isFraction : Text → Bool
  | ['Z'] => true
  | '.' :: rest =>
      let digits := digits rest
      1 ≤ digits.length && digits.length ≤ 3 && rest.drop digits.length = ['Z']
  | _ => false

/-- `TIMESTAMP`. -/
def isTimestamp (t : Text) : Bool :=
  (t.take 19).length = 19
    && ((t.take 19).zip timestampShape).all
      (fun pair => if pair.2 = '0' then pair.1.isDigit else pair.1 = pair.2)
    && isFraction (t.drop 19)

/-- `Date.parse` answers a number for a text of this form: each part is in its range, and the
hour 24 is the end of the day alone. -/
def isDate (t : Text) : Bool :=
  let part (start : Nat) := JsonSyntax.natural ((t.drop start).take 2)
  1 ≤ part 5 && part 5 ≤ 12 && 1 ≤ part 8 && part 8 ≤ 31 && part 14 ≤ 59 && part 17 ≤ 59
    && (part 11 ≤ 23
      || part 11 = 24 && part 14 = 0 && part 17 = 0 && (t.drop 19).all (fun c => c ∈ ['.', '0', 'Z']))

/-- A version that `parseStableVersion` reads. -/
structure StableVersion where
  text : Text
  triple : Triple
  parses : parseStableVersion (some text) = some triple

def StableVersion.of (value : Value) : Option StableVersion :=
  match value with
  | .text text =>
      match h : parseStableVersion (some text) with
      | some triple => some ⟨text, triple, h⟩
      | none => none
  | _ => none

def compareStableVersions (left right : StableVersion) : Ordering :=
  compareTriples left.triple right.triple

/-! ## Stable versions -/

variable {marks marks' : List Char} {t : Text} {found : Text × Text × Text}

theorem isSuffix_mono (hmarks : marks ⊆ marks') (h : isSuffix marks t = true) :
    isSuffix marks' t = true := by
  cases t with
  | nil => rfl
  | cons c rest =>
      simp only [isSuffix, Bool.and_eq_true, decide_eq_true_eq] at h ⊢
      exact ⟨⟨hmarks h.1.1, h.1.2⟩, h.2⟩

theorem matchTriple_mono (hmarks : marks ⊆ marks') (h : matchTriple marks t = some found) :
    matchTriple marks' t = some found := by
  simp only [matchTriple] at h ⊢
  split at h
  · split at h
    · split at h
      · next hform =>
          rw [if_pos ⟨hform.1, hform.2.1, hform.2.2.1, isSuffix_mono hmarks hform.2.2.2⟩]
          exact h
      · cases h
    · cases h
  · cases h

namespace StableVersion

variable (version : StableVersion)

/-- A stable version is ordered by its own numbers. -/
theorem versionOrder_text : versionOrder (some version.text) = some version.triple := by
  have hparses := version.parses
  simp only [parseStableVersion, Option.bind_some, Option.bind_eq_some_iff] at hparses
  obtain ⟨found, hfound, hplain⟩ := hparses
  split at hplain
  · rw [versionOrder, Option.bind_some, matchTriple_mono (by simp) hfound]
    exact hplain
  · cases hplain

theorem text_ne_nil : version.text ≠ [] := by
  intro hempty
  have horder := version.versionOrder_text
  rw [hempty] at horder
  cases horder

end StableVersion

end Acc.AdapterSdk.NativeDelivery
