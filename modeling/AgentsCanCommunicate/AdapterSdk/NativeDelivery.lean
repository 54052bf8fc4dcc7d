import AgentsCanCommunicate.AdapterSdk.Certification
import AgentsCanCommunicate.AdapterSdk.NativeVocabulary

/-!
# Native delivery

A contract names the captured minimum of an adapter's primary product, the protocols that its
products speak, each anchored at a version, and a denylist.  One rule judges a version by it.
Asked about no protocol, or the one that is anchored at the minimum, it reads the minimum and
the denylist; asked about another one it reads the first version that anchored that one, and
no denylist.

Probes and handshakes are judged by the rule for the protocol that they report, and an offer
that was accepted by the rule for none.
-/

namespace Acc.AdapterSdk.NativeDelivery

open Library Library.Text
open Versions Certification

/-! ## Contracts -/

/-- A capture of a protocol.  Without a client of its own it is of the primary product. -/
structure Anchor where
  version : StableVersion
  protocolContract : Text
  contractId : isContractId protocolContract = true
  client : Option Text

inductive KnownBad where
  | exact (version : StableVersion)
  | interval (first last : StableVersion) (ordered : compareStableVersions first last ≠ .gt)

inductive OfferKind where
  | message
  | wake
deriving DecidableEq

structure Contract where
  minimum : StableVersion
  anchors : List Anchor
  knownBad : List KnownBad
  activationKinds : List ActivationKind
  offerKind : OfferKind

def stableVersion (value : Value) (message : String) : Result StableVersion :=
  match StableVersion.of value with
  | some version => .ok version
  | none => usage message

/-- The text is one of the clients. -/
def includes (clients : List Text) : Value → Option Text
  | .text value => if value ∈ clients then some value else none
  | _ => none

def proven (evidence : List Row) (owner version : Text) : Bool :=
  evidence.any fun item =>
    item.result = .pass && item.capability = "delivery.livePush".toList && item.client = owner
      && item.version = version

def validateAnchor (evidence : List Row) (client : Text) (clients : List Text)
    (minimum : StableVersion) (index : Nat) (anchor : Value) : Result Anchor := do
  refuse (Members.has anchor.members "platform" = true) ⟨.usage,
    s!"nativeDelivery anchor {index} names a platform; the platform a capture was taken on "
      ++ "is recorded by its evidence, and the anchor names the version alone "
      ++ "(docs/design/2026-09-26-native-delivery-across-platforms.md)"⟩
  let fields ← closed anchor ["version", "protocolContract"] "nativeDelivery anchor" ["client"]
  let version ← stableVersion (Members.get fields "version")
    s!"nativeDelivery anchor {index} version must be a stable version"
  let printed := String.ofList version.text
  let named := if Members.has fields "client" then Members.get fields "client" else .text client
  match includes clients named with
  | none =>
      usage (s!"nativeDelivery anchor {printed} names client {String.ofList named.print}, "
        ++ "which the adapter does not declare")
  | some owner => do
      refuse (owner = client ∧ compareStableVersions version minimum = .lt) ⟨.usage,
        s!"nativeDelivery anchor {index} version {printed} is below the minimum "
          ++ s!"{String.ofList minimum.text}: the minimum must be the first passing capture"⟩
      match Members.get fields "protocolContract" with
      | .text protocolContract =>
          if h : isContractId protocolContract = true then do
            refuse (proven evidence owner version.text = false) ⟨.usage,
              s!"nativeDelivery anchor {printed} has no passing delivery.livePush certification"⟩
            pure ⟨version, protocolContract, h,
              if Members.has fields "client" then some owner else none⟩
          else usage s!"nativeDelivery anchor {index} protocolContract must be a closed identifier"
      | _ => usage s!"nativeDelivery anchor {index} protocolContract must be a closed identifier"

def validateAnchors (evidence : List Row) (client : Text) (clients : List Text)
    (minimum : StableVersion) : Value → Result (List Anchor)
  | .array (anchor :: anchors) =>
      (anchor :: anchors).zipIdx.mapM fun item =>
        validateAnchor evidence client clients minimum item.2 item.1
  | _ => usage "nativeDelivery.anchors must name at least one passing capture"

/-- The products that the protocols met so far belong to. -/
def addOwner (client : Text) (owners : List (Text × Text)) (anchor : Anchor) :
    Result (List (Text × Text)) :=
  let owner := anchor.client.getD client
  match owners.lookup anchor.protocolContract with
  | some previous => do
      refuse (previous ≠ owner) ⟨.usage,
        s!"nativeDelivery protocol {String.ofList anchor.protocolContract} is anchored for both "
          ++ s!"{String.ofList previous} and {String.ofList owner}"⟩
      pure owners
  | none => pure ((anchor.protocolContract, owner) :: owners)

def validateKnownBad (entry : Value) : Result KnownBad :=
  let reason (fields : Members) : Result Unit :=
    refuse (named ReasonCode.all ReasonCode.name (Members.get fields "reasonCode")
        ≠ some .knownBadVersion)
      ⟨.usage, "nativeDelivery.knownBad reasonCode must be known_bad_version"⟩
  if Members.has entry.members "version" then do
    let fields ← closed entry ["version", "reasonCode"] "nativeDelivery.knownBad entry" []
    let version ← stableVersion (Members.get fields "version")
      "nativeDelivery.knownBad version must be a stable version"
    reason fields
    pure (.exact version)
  else do
    let fields ← closed entry ["from", "to", "reasonCode"] "nativeDelivery.knownBad entry" []
    let first ← stableVersion (Members.get fields "from")
      "nativeDelivery.knownBad from must be a stable version"
    let last ← stableVersion (Members.get fields "to")
      "nativeDelivery.knownBad to must be a stable version"
    if h : compareStableVersions first last ≠ .gt then do
      reason fields
      pure (.interval first last h)
    else usage "nativeDelivery.knownBad interval from must not exceed to"

def offerKindOf : Value → Result OfferKind
  | .text value =>
      if value = "message".toList then .ok .message
      else if value = "wake".toList then .ok .wake
      else usage "nativeDelivery.offerKind must be message or wake"
  | _ => usage "nativeDelivery.offerKind must be message or wake"

def isText (value : Value) (expected : String) : Bool :=
  match value with
  | .text value => value = expected.toList
  | _ => false

/-- The two members that a contract may leave out come after its own. -/
def withDefaults (value : Value) : Members :=
  value.spread
    ++ (if Members.has value.members "policySource" then []
      else [("policySource", .text "installation-record".toList)])
    ++ (if Members.has value.members "offerKind" then []
      else [("offerKind", .text "message".toList)])

def activationKindsOf (value : Value) : Result (List ActivationKind) :=
  match uniqueNames ActivationKind.all ActivationKind.name value with
  | some (kind :: kinds) => .ok (kind :: kinds)
  | _ => usage ("nativeDelivery.activationKinds must be unique entries of "
      ++ join (ActivationKind.all.map ActivationKind.name))

def validateNativeDeliveryContract (evidence : List Row) (client : Text) (clients : List Text)
    (value : Value) : Result Contract := do
  refuse (Members.has value.members "minimumByPlatform" = true) ⟨.usage,
    "nativeDelivery.minimumByPlatform is no longer declared; a capture's minimum applies on "
      ++ "every platform, so declare nativeDelivery.minimum instead "
      ++ "(docs/design/2026-09-26-native-delivery-across-platforms.md)"⟩
  let fields ← closed (.object (withDefaults value))
    ["minimum", "anchors", "knownBad", "activationKinds", "policySource", "offerKind"]
    "nativeDelivery" []
  refuse (isText (Members.get fields "policySource") "installation-record" = false)
    ⟨.usage, "nativeDelivery.policySource must be installation-record"⟩
  let offerKind ← offerKindOf (Members.get fields "offerKind")
  let minimum ← stableVersion (Members.get fields "minimum")
    "nativeDelivery.minimum must be a stable version"
  let anchors ← validateAnchors evidence client clients minimum (Members.get fields "anchors")
  let _ ← anchors.foldlM (addOwner client) []
  refuse ((anchors.any fun anchor => anchor.client.getD client = client
      && compareStableVersions anchor.version minimum = .eq) = false) ⟨.usage,
    s!"nativeDelivery minimum {String.ofList minimum.text} must be the first passing capture: "
      ++ "no anchor matches it"⟩
  let knownBad ← match Members.get fields "knownBad" with
    | .array values => values.mapM validateKnownBad
    | _ => usage "nativeDelivery.knownBad must be an array"
  let activationKinds ← activationKindsOf (Members.get fields "activationKinds")
  pure ⟨minimum, anchors, knownBad, activationKinds, offerKind⟩

/-! ## The rule -/

/-- An adapter as `defineAdapter` answers it. -/
structure NativeAdapter where
  client : Option Client
  nativeDelivery : Option Contract

/-- The part of `defineAdapter` that reads the contract. -/
def defineAdapter (adapter : Adapter) (nativeDelivery : Option Value) : Result NativeAdapter :=
  match primary adapter.client with
  | none => usage "an adapter must declare client.command, the binary its client installs"
  | some client =>
      match nativeDelivery with
      | none => .ok ⟨adapter.client, none⟩
      | some value => do
          let contract ← validateNativeDeliveryContract adapter.evidence client
            (declared adapter.client).reduceOption value
          pure ⟨adapter.client, some contract⟩

structure VersionRule where
  reasonCode : Option ReasonCode
  minimumVersion : Option Text
  protocolContract : Option Text
deriving DecidableEq

def KnownBad.hits (order : Triple) : KnownBad → Bool
  | .exact version => compareVersionOrder (some order) (versionOrder (some version.text)) = .eq
  | .interval first last _ =>
      compareVersionOrder (some order) (versionOrder (some first.text)) ≠ .lt
        && compareVersionOrder (some order) (versionOrder (some last.text)) ≠ .gt

def knownBadHit (contract : Contract) (order : Triple) : Bool :=
  contract.knownBad.any fun entry => entry.hits order

/-- Where both the rule for the primary product and a protocol's own one look first. -/
def judgeFloor (minimumVersion : Text) (clientVersion : Option Text) : Except ReasonCode Triple :=
  match versionOrder clientVersion with
  | none => .error .versionUnavailable
  | some order =>
      if compareVersionOrder (some order) (versionOrder (some minimumVersion)) = .lt then
        .error .belowMinimumVersion
      else .ok order

/-- The first of the lowest versions. -/
def lowest : List StableVersion → Option StableVersion
  | [] => none
  | version :: versions =>
      some (versions.foldl (fun first version =>
        if compareStableVersions version first = .lt then version else first) version)

def protocolFloor (anchors : List Anchor) (protocolContract : Text) (clientVersion : Option Text) :
    VersionRule :=
  let own := anchors.filter fun item =>
    item.protocolContract = protocolContract && item.version.text ≠ []
  match lowest (own.map Anchor.version) with
  | none => ⟨some .protocolMismatch, none, some protocolContract⟩
  | some minimumVersion =>
      match judgeFloor minimumVersion.text clientVersion with
      | .error reason => ⟨some reason, some minimumVersion.text, some protocolContract⟩
      | .ok _ => ⟨none, some minimumVersion.text, some protocolContract⟩

/-- The anchor of the primary product at the minimum, whose protocol is the primary one. -/
def primaryAnchor (client : Option Client) (contract : Contract) : Option Anchor :=
  contract.anchors.find? fun item => item.version.text = contract.minimum.text
    && (item.client.getD [] = [] || item.client = primary client)

def unsupported : VersionRule := ⟨some .nativeDeliveryUnsupported, none, none⟩

def evaluateVersionContract (adapter : NativeAdapter) (clientVersion protocolContract : Option Text) :
    VersionRule :=
  match adapter.nativeDelivery with
  | none => unsupported
  | some contract =>
      match primaryAnchor adapter.client contract with
      | none => unsupported
      | some anchor =>
          let asked := protocolContract.getD []
          if asked ≠ [] ∧ asked ≠ anchor.protocolContract then
            protocolFloor contract.anchors asked clientVersion
          else
            let minimumVersion := some contract.minimum.text
            match judgeFloor contract.minimum.text clientVersion with
            | .error reason => ⟨some reason, minimumVersion, some anchor.protocolContract⟩
            | .ok order =>
                if knownBadHit contract order then
                  ⟨some .knownBadVersion, minimumVersion, some anchor.protocolContract⟩
                else ⟨none, minimumVersion, some anchor.protocolContract⟩

def anchorsOf (adapter : NativeAdapter) : List Anchor :=
  (adapter.nativeDelivery.map Contract.anchors).getD []

def reportedProtocol (adapter : NativeAdapter) (reported : Value) : Option Text :=
  reported.toText.filter fun reported =>
    (anchorsOf adapter).any fun item => item.protocolContract = reported

/-! ## Probes -/

structure Probe where
  supported : Bool
  clientVersion : Option Text
  protocolContract : Option Text
  executableFingerprint : Option Text
  modes : List Mode
  reasonCode : Option ReasonCode
deriving DecidableEq

def booleanOf (value : Value) (message : String) : Result Bool :=
  match value with
  | .bool value => .ok value
  | _ => usage message

/-- Null, or a text that is not empty and has the form. -/
def textOrNull (form : Text → Bool) (value : Value) (message : String) : Result (Option Text) :=
  match value with
  | .null => .ok none
  | .text value => do
      refuse (value = [] ∨ form value = false) ⟨.usage, message⟩
      pure (some value)
  | _ => usage message

def validateNativeProbe (probe : Value) : Result Probe := do
  let fields ← closed probe
    ["supported", "clientVersion", "protocolContract", "executableFingerprint", "modes",
      "reasonCode"] "native probe" []
  let supported ← booleanOf (Members.get fields "supported")
    "native probe supported must be a boolean"
  let clientVersion ← textOrNull (fun _ => true) (Members.get fields "clientVersion")
    "native probe clientVersion must be a string or null"
  let protocolContract ← textOrNull isContractId (Members.get fields "protocolContract")
    "native probe protocolContract must be a closed identifier or null"
  let executableFingerprint ← textOrNull isFingerprint (Members.get fields "executableFingerprint")
    "native probe executableFingerprint must be sha256:<64 hex> or null"
  let modes ← assertModes (Members.get fields "modes") "native probe"
  let reasonCode ← assertReasonCode (Members.get fields "reasonCode") "native probe"
  pure ⟨supported, clientVersion, protocolContract, executableFingerprint, modes, reasonCode⟩

structure Eligibility where
  eligible : Bool
  reasonCode : Option ReasonCode
  minimumVersion : Option Text
  protocolContract : Option Text
  modes : List Mode
deriving DecidableEq

def orderedModes (modes : List Mode) : List Mode := Mode.all.filter (· ∈ modes)

/-- The version that serves: the one that is reported, if it is one. -/
def servingVersion (reported : Value) (clientVersion : Option Text) : Option Text :=
  (Members.get reported.members "clientVersion").toText.or clientVersion

def isMissing : Value → Bool
  | .undefined => true
  | .null => true
  | _ => false

def evaluateNativeEligibility (adapter : NativeAdapter) (clientVersion : Option Text)
    (probe : Value) : Result Eligibility :=
  let rule := evaluateVersionContract adapter (servingVersion probe clientVersion)
    (reportedProtocol adapter (Members.get probe.members "protocolContract"))
  let closedResult (reasonCode : ReasonCode) : Eligibility :=
    ⟨false, some reasonCode, rule.minimumVersion, rule.protocolContract, []⟩
  match rule.reasonCode with
  | some reasonCode => .ok (closedResult reasonCode)
  | none =>
      if isMissing probe then .ok (closedResult .featureProbeFailed)
      else do
        let facts ← validateNativeProbe probe
        if facts.supported = false then
          pure (closedResult (facts.reasonCode.getD .featureProbeFailed))
        else if facts.protocolContract ≠ rule.protocolContract then
          pure (closedResult .protocolMismatch)
        else
          let modes := orderedModes facts.modes
          if .livePush ∉ modes then pure (closedResult .featureProbeFailed)
          else pure ⟨true, none, rule.minimumVersion, rule.protocolContract, modes⟩

/-! ## Handshakes -/

structure Handshake where
  supported : Bool
  clientVersion : Option Text
  protocolContract : Option Text
  modes : List Mode
  opaqueEndpointRef : Option Text
  leaseUntil : Option Text
  reasonCode : Option ReasonCode
  launchOption : Option Text
deriving DecidableEq

def endpointOf (supported : Bool) (fields : Members) : Result (Option Text × Option Text) :=
  if supported then
    match (Members.get fields "opaqueEndpointRef").toText with
    | none => usage "native handshake opaqueEndpointRef must be a non-empty opaque string"
    | some opaqueEndpointRef =>
        match (Members.get fields "leaseUntil").toText.filter fun t => isTimestamp t && isDate t with
        | none => usage "native handshake leaseUntil must be a UTC timestamp"
        | some leaseUntil => .ok (some opaqueEndpointRef, some leaseUntil)
  else
    match Members.get fields "opaqueEndpointRef", Members.get fields "leaseUntil" with
    | .null, .null => .ok (none, none)
    | _, _ => usage "an unsupported native handshake carries no endpoint or lease"

def launchOptionOf (supported : Bool) (fields : Members) : Result (Option Text) :=
  if Members.has fields "launchOption" then do
    refuse (supported = true) ⟨.usage, "only a refused native handshake names a launchOption"⟩
    match Members.get fields "launchOption" with
    | .text value => do
        refuse (isLaunchOption value = false)
          ⟨.usage, "native handshake launchOption must be a bare command-line option"⟩
        pure (some value)
    | _ => usage "native handshake launchOption must be a bare command-line option"
  else pure none

def validateNativeHandshakeShape (handshake : Value) : Result Handshake := do
  let fields ← closed handshake
    ["supported", "clientVersion", "protocolContract", "modes", "opaqueEndpointRef", "leaseUntil",
      "reasonCode"] "native handshake" ["launchOption"]
  let supported ← booleanOf (Members.get fields "supported")
    "native handshake supported must be a boolean"
  let clientVersion ← textOrNull (fun _ => true) (Members.get fields "clientVersion")
    "native handshake clientVersion must be a string or null"
  let protocolContract ← textOrNull isContractId (Members.get fields "protocolContract")
    "native handshake protocolContract must be a closed identifier or null"
  let modes ← assertModes (Members.get fields "modes") "native handshake"
  let reasonCode ← assertReasonCode (Members.get fields "reasonCode") "native handshake"
  let endpoint ← endpointOf supported fields
  let launchOption ← launchOptionOf supported fields
  pure ⟨supported, clientVersion, protocolContract, modes, endpoint.1, endpoint.2, reasonCode,
    launchOption⟩

structure Verdict where
  ok : Bool
  reasonCode : Option ReasonCode
  clientVersion : Option Text
  protocolContract : Option Text
  modes : List Mode
  opaqueEndpointRef : Option Text
  leaseUntil : Option Text
  launchOption : Option Text
deriving DecidableEq

def validateNativeHandshake (adapter : NativeAdapter) (clientVersion : Option Text)
    (handshake : Value) : Result Verdict :=
  let serving := servingVersion handshake clientVersion
  let rule := evaluateVersionContract adapter serving
    (reportedProtocol adapter (Members.get handshake.members "protocolContract"))
  let closedResult (reasonCode : ReasonCode) (launchOption : Option Text) : Verdict :=
    ⟨false, some reasonCode, none, rule.protocolContract, [], none, none, launchOption⟩
  match rule.reasonCode with
  | some reasonCode => .ok (closedResult reasonCode none)
  | none =>
      if isMissing handshake then .ok (closedResult .handshakeFailed none)
      else do
        let facts ← validateNativeHandshakeShape handshake
        if facts.supported = false then
          pure (closedResult (facts.reasonCode.getD .handshakeFailed) facts.launchOption)
        else if facts.protocolContract ≠ rule.protocolContract then
          pure (closedResult .protocolMismatch none)
        else
          let modes := orderedModes facts.modes
          if .livePush ∉ modes then pure (closedResult .handshakeFailed none)
          else
            pure ⟨true, none, serving, rule.protocolContract, modes, facts.opaqueEndpointRef,
              facts.leaseUntil, none⟩

/-! ## Offers -/

/-- What the router records as the failure of a message that the adapter has accepted, with
the version that it answered. -/
def acceptedFailure (adapter : NativeAdapter) (clientVersion : Option Text) : Option String :=
  if (evaluateVersionContract adapter clientVersion none).reasonCode ≠ none then
    some "unsupported_client_version"
  else none

end Acc.AdapterSdk.NativeDelivery
