import AgentsCanCommunicate.AdapterSdk.NativeDelivery

/-!
# Where native delivery is judged

A probe and a handshake with the same facts are judged alike.  An offer that was accepted is
judged without the protocol, so it is held to the primary product's minimum and denylist even
where the session was admitted by another protocol's own floor.  The two agree exactly when
each anchor of another protocol is at or above the minimum and past every version of the
denylist (`SeparateLines`).
-/

namespace Acc.AdapterSdk.NativeDelivery

open Library Library.Text
open Versions Certification

variable {adapter : NativeAdapter} {contract : Contract} {base anchor : Anchor}
  {clientVersion clientVersion' protocolContract : Option Text} {order : Triple}
  {version : StableVersion} {probe handshake value : Value} {verdict : Verdict}

/-! ## The rule -/

theorem compare_text_eq_lt :
    compareVersionOrder (some order) (versionOrder (some version.text)) = .lt ↔
      order < version.triple := by
  rw [version.versionOrder_text, compareVersionOrder, compareTriples_eq_cmp, cmp_eq_lt_iff]

theorem compare_text_eq_gt :
    compareVersionOrder (some order) (versionOrder (some version.text)) = .gt ↔
      version.triple < order := by
  rw [version.versionOrder_text, compareVersionOrder, compareTriples_eq_cmp, cmp_eq_gt_iff]

theorem compare_text_eq_eq :
    compareVersionOrder (some order) (versionOrder (some version.text)) = .eq ↔
      order = version.triple := by
  rw [version.versionOrder_text, compareVersionOrder, compareTriples_eq_cmp, cmp_eq_eq_iff]

theorem judgeFloor_eq_ok :
    judgeFloor version.text clientVersion = .ok order ↔
      versionOrder clientVersion = some order ∧ version.triple ≤ order := by
  rw [judgeFloor]
  cases versionOrder clientVersion with
  | none => simp
  | some asked =>
      simp only [compare_text_eq_lt]
      split
      · next hbelow =>
          refine iff_of_false nofun ?_
          rintro ⟨hasked, hle⟩
          exact hle.not_gt (Option.some.inj hasked ▸ hbelow)
      · next hbelow =>
          constructor
          · rintro ⟨⟩
            exact ⟨rfl, not_lt.mp hbelow⟩
          · rintro ⟨⟨⟩, -⟩
            rfl

/-- The versions that an entry of the denylist reaches. -/
def KnownBad.first : KnownBad → StableVersion
  | .exact version => version
  | .interval first _ _ => first

def KnownBad.last : KnownBad → StableVersion
  | .exact version => version
  | .interval _ last _ => last

theorem KnownBad.first_le_last (entry : KnownBad) : entry.first.triple ≤ entry.last.triple := by
  cases entry with
  | exact version => exact le_rfl
  | interval first last ordered =>
      rw [compareStableVersions, compareTriples_eq_cmp, ne_eq, cmp_eq_gt_iff, not_lt] at ordered
      exact ordered

theorem KnownBad.hits_iff (entry : KnownBad) :
    entry.hits order = true ↔ entry.first.triple ≤ order ∧ order ≤ entry.last.triple := by
  cases entry with
  | exact version =>
      rw [KnownBad.hits, decide_eq_true_eq, compare_text_eq_eq]
      exact ⟨fun h => ⟨h.ge, h.le⟩, fun h => le_antisymm h.2 h.1⟩
  | interval first last _ =>
      simp only [KnownBad.hits, Bool.and_eq_true, decide_eq_true_eq, ne_eq, compare_text_eq_lt,
        compare_text_eq_gt, not_lt, KnownBad.first, KnownBad.last]

theorem foldl_lowest {versions : List StableVersion} {first : StableVersion} :
    let found := versions.foldl (fun first version =>
      if compareStableVersions version first = .lt then version else first) first
    found ∈ first :: versions ∧ ∀ version ∈ first :: versions, found.triple ≤ version.triple := by
  induction versions generalizing first with
  | nil => simp
  | cons version versions ih =>
      have hlt : compareStableVersions version first = .lt ↔ version.triple < first.triple := by
        rw [compareStableVersions, compareTriples_eq_cmp, cmp_eq_lt_iff]
      simp only [List.foldl_cons, hlt]
      by_cases h : version.triple < first.triple
      · rw [if_pos h]
        obtain ⟨hmem, hle⟩ := @ih version
        refine ⟨List.mem_cons_of_mem _ hmem, ?_⟩
        simp only [List.forall_mem_cons] at hle ⊢
        exact ⟨hle.1.trans h.le, hle⟩
      · rw [if_neg h]
        obtain ⟨hmem, hle⟩ := @ih first
        simp only [List.forall_mem_cons] at hle ⊢
        refine ⟨?_, hle.1, hle.1.trans (not_lt.mp h), hle.2⟩
        rcases List.mem_cons.mp hmem with heq | hmem
        · exact List.mem_cons.mpr (.inl heq)
        · exact List.mem_cons_of_mem _ (List.mem_cons_of_mem _ hmem)

theorem lowest_spec {versions : List StableVersion} (h : lowest versions = some version) :
    version ∈ versions ∧ ∀ other ∈ versions, version.triple ≤ other.triple := by
  cases versions with
  | nil => cases h
  | cons first versions =>
      obtain rfl := Option.some.inj h
      exact foldl_lowest

theorem lowest_eq_none {versions : List StableVersion} : lowest versions = none ↔ versions = [] := by
  cases versions <;> simp [lowest]

/-- A protocol's own floor is reached with any of its anchors. -/
theorem protocolFloor_admits {anchors : List Anchor} {asked : Text} :
    (protocolFloor anchors asked clientVersion).reasonCode = none ↔
      ∃ order, versionOrder clientVersion = some order ∧
        ∃ anchor ∈ anchors, anchor.protocolContract = asked ∧ anchor.version.triple ≤ order := by
  have hown : ∀ version, version ∈ (anchors.filter fun item =>
      item.protocolContract = asked && item.version.text ≠ []).map Anchor.version ↔
        ∃ anchor ∈ anchors, anchor.protocolContract = asked ∧ anchor.version = version := by
    intro version
    simp [StableVersion.text_ne_nil, and_assoc]
  simp only [protocolFloor]
  cases hlowest : lowest ((anchors.filter fun item =>
      item.protocolContract = asked && item.version.text ≠ []).map Anchor.version) with
  | none =>
      refine iff_of_false nofun ?_
      rintro ⟨order, -, anchor, hanchor, hasked, -⟩
      have hmem := (hown anchor.version).mpr ⟨anchor, hanchor, hasked, rfl⟩
      rw [lowest_eq_none.mp hlowest] at hmem
      cases hmem
  | some minimumVersion =>
      obtain ⟨hmem, hle⟩ := lowest_spec hlowest
      obtain ⟨anchor, hanchor, hasked, rfl⟩ := (hown _).mp hmem
      dsimp only
      cases hfloor : judgeFloor anchor.version.text clientVersion with
      | error reason =>
          refine iff_of_false nofun ?_
          rintro ⟨order, horder, other, hother, hasked', hle'⟩
          have hlow := hle _ ((hown other.version).mpr ⟨other, hother, hasked', rfl⟩)
          rw [judgeFloor_eq_ok.mpr ⟨horder, hlow.trans hle'⟩] at hfloor
          cases hfloor
      | ok order =>
          obtain ⟨horder, hreached⟩ := judgeFloor_eq_ok.mp hfloor
          exact iff_of_true rfl ⟨order, horder, anchor, hanchor, hasked, hreached⟩

theorem protocolFloor_protocolContract {anchors : List Anchor} {asked : Text} :
    (protocolFloor anchors asked clientVersion).protocolContract = some asked := by
  simp only [protocolFloor]
  split
  · rfl
  · split <;> rfl

theorem primaryAnchor_mem (h : primaryAnchor adapter.client contract = some base) :
    base ∈ contract.anchors :=
  List.mem_of_find?_eq_some h

theorem Anchor.protocolContract_ne_nil (anchor : Anchor) : anchor.protocolContract ≠ [] := by
  intro hempty
  have hid := anchor.contractId
  rw [hempty] at hid
  cases hid

/-- Judged by the primary product's minimum and denylist. -/
theorem primary_rule (hcontract : adapter.nativeDelivery = some contract)
    (hbase : primaryAnchor adapter.client contract = some base)
    (hasked : protocolContract.getD [] = [] ∨ protocolContract = some base.protocolContract) :
    evaluateVersionContract adapter clientVersion protocolContract =
      evaluateVersionContract adapter clientVersion none := by
  have hnot : ¬(protocolContract.getD [] ≠ [] ∧ protocolContract.getD [] ≠ base.protocolContract) := by
    rintro ⟨hsome, hother⟩
    rcases hasked with h | h
    · exact hsome h
    · exact hother (by rw [h]; rfl)
  simp only [evaluateVersionContract, hcontract, hbase, if_neg hnot]
  simp

theorem primary_rule_admits (hcontract : adapter.nativeDelivery = some contract)
    (hbase : primaryAnchor adapter.client contract = some base) :
    (evaluateVersionContract adapter clientVersion none).reasonCode = none ↔
      ∃ order, versionOrder clientVersion = some order ∧ contract.minimum.triple ≤ order ∧
        ∀ entry ∈ contract.knownBad,
          ¬(entry.first.triple ≤ order ∧ order ≤ entry.last.triple) := by
  simp only [evaluateVersionContract, hcontract, hbase]
  rw [if_neg (by simp)]
  cases hfloor : judgeFloor contract.minimum.text clientVersion with
  | error reason =>
      refine iff_of_false nofun ?_
      rintro ⟨order, horder, hle, -⟩
      rw [judgeFloor_eq_ok.mpr ⟨horder, hle⟩] at hfloor
      cases hfloor
  | ok order =>
      obtain ⟨horder, hle⟩ := judgeFloor_eq_ok.mp hfloor
      dsimp only
      have hhit : knownBadHit contract order = false ↔ ∀ entry ∈ contract.knownBad,
          ¬(entry.first.triple ≤ order ∧ order ≤ entry.last.triple) := by
        simp only [knownBadHit, List.any_eq_false, KnownBad.hits_iff]
      cases hknown : knownBadHit contract order with
      | true =>
          refine iff_of_false nofun ?_
          rintro ⟨order', horder', -, hfree⟩
          obtain rfl := Option.some.inj (horder.symm.trans horder')
          rw [hhit.mpr hfree] at hknown
          cases hknown
      | false => exact iff_of_true rfl ⟨order, horder, hle, hhit.mp hknown⟩

/-- Judged by another protocol's own floor. -/
theorem other_rule {asked : Text} (hcontract : adapter.nativeDelivery = some contract)
    (hbase : primaryAnchor adapter.client contract = some base) (hsome : asked ≠ [])
    (hother : asked ≠ base.protocolContract) :
    evaluateVersionContract adapter clientVersion (some asked) =
      protocolFloor contract.anchors asked clientVersion := by
  simp only [evaluateVersionContract, hcontract, hbase]
  exact if_pos ⟨hsome, hother⟩

/-! ## Probes and handshakes -/

theorem closed_eq_ok {keys optional : List String} {label : String} {fields : Members}
    (h : closed value keys label optional = .ok fields) : value = .object fields := by
  cases value with
  | object members =>
      simp only [closed, bind_eq_ok, pure_eq_ok] at h
      obtain ⟨-, -, -, -, rfl⟩ := h
      rfl
  | _ => cases h

theorem textOrNull_toText {form : Text → Bool} {message : String} {text : Option Text}
    (h : textOrNull form value message = .ok text) : value.toText = text := by
  cases value with
  | null => cases h; rfl
  | text value =>
      simp only [textOrNull, bind_eq_ok, refuse_eq_ok, pure_eq_ok, not_or] at h
      obtain ⟨-, ⟨hempty, -⟩, rfl⟩ := h
      exact if_neg hempty
  | _ => cases h

/-- The version and the protocol that a value reports, whatever its form. -/
def reportedVersion (value : Value) : Option Text := (Members.get value.members "clientVersion").toText

def reportedContract (value : Value) : Option Text :=
  (Members.get value.members "protocolContract").toText

theorem validateNativeProbe_reports {facts : Probe} (h : validateNativeProbe probe = .ok facts) :
    isMissing probe = false ∧ reportedVersion probe = facts.clientVersion ∧
      reportedContract probe = facts.protocolContract := by
  simp only [validateNativeProbe, bind_eq_ok, pure_eq_ok] at h
  obtain ⟨fields, hfields, _, -, version, hversion, contract, hcontract, _, -, _, -, _, -, rfl⟩ := h
  obtain rfl := closed_eq_ok hfields
  exact ⟨rfl, textOrNull_toText hversion, textOrNull_toText hcontract⟩

theorem validateNativeHandshakeShape_reports {facts : Handshake}
    (h : validateNativeHandshakeShape handshake = .ok facts) :
    isMissing handshake = false ∧ reportedVersion handshake = facts.clientVersion ∧
      reportedContract handshake = facts.protocolContract := by
  simp only [validateNativeHandshakeShape, bind_eq_ok, pure_eq_ok] at h
  obtain ⟨fields, hfields, _, -, version, hversion, contract, hcontract, _, -, _, -, _, -, _, -,
    rfl⟩ := h
  obtain rfl := closed_eq_ok hfields
  exact ⟨rfl, textOrNull_toText hversion, textOrNull_toText hcontract⟩

theorem mem_orderedModes {mode : Mode} {modes : List Mode} :
    mode ∈ orderedModes modes ↔ mode ∈ modes := by
  rw [orderedModes, List.mem_filter, decide_eq_true_eq]
  exact ⟨And.right, fun h => ⟨by cases mode <;> decide, h⟩⟩

/-- The rule that a client is judged by when it reports a protocol. -/
def ruleFor (adapter : NativeAdapter) (serving reported : Option Text) : VersionRule :=
  evaluateVersionContract adapter serving
    (reported.filter fun reported => (anchorsOf adapter).any fun item =>
      item.protocolContract = reported)

/-- The facts that a probe and a handshake share admit the client. -/
def Admits (adapter : NativeAdapter) (serving reported : Option Text) (modes : List Mode) : Prop :=
  (ruleFor adapter serving reported).reasonCode = none ∧
    reported = (ruleFor adapter serving reported).protocolContract ∧ .livePush ∈ modes

theorem eligible_iff {facts : Probe} (hfacts : validateNativeProbe probe = .ok facts)
    (hsupported : facts.supported = true) :
    (∃ eligibility, evaluateNativeEligibility adapter clientVersion probe = .ok eligibility ∧
        eligibility.eligible = true) ↔
      Admits adapter (facts.clientVersion.or clientVersion) facts.protocolContract facts.modes := by
  obtain ⟨hpresent, hversion, hcontract⟩ := validateNativeProbe_reports hfacts
  have hrule : evaluateVersionContract adapter (servingVersion probe clientVersion)
      (reportedProtocol adapter (Members.get probe.members "protocolContract")) =
        ruleFor adapter (facts.clientVersion.or clientVersion) facts.protocolContract := by
    rw [← hversion, ← hcontract]
    rfl
  simp only [evaluateNativeEligibility, hrule, Admits]
  generalize ruleFor adapter (facts.clientVersion.or clientVersion) facts.protocolContract = rule
  obtain ⟨reasonCode, minimumVersion, protocol⟩ := rule
  cases reasonCode with
  | some reasonCode => simp
  | none =>
      simp only [hpresent, hfacts, mem_orderedModes]
      by_cases hsame : facts.protocolContract = protocol
      · by_cases hlive : .livePush ∈ facts.modes
        · exact iff_of_true ⟨_, by simp [hsupported, hsame, hlive]; rfl, rfl⟩ ⟨trivial, hsame, hlive⟩
        · simp [hsupported, hsame, hlive, bind, Except.bind, pure, Except.pure]
      · simp [hsupported, hsame, bind, Except.bind, pure, Except.pure]

/-- The handshake is admitted. -/
def Admitted (adapter : NativeAdapter) (clientVersion : Option Text) (handshake : Value)
    (verdict : Verdict) : Prop :=
  validateNativeHandshake adapter clientVersion handshake = .ok verdict ∧ verdict.ok = true

theorem admitted_iff :
    Admitted adapter clientVersion handshake verdict ↔
      ∃ facts, validateNativeHandshakeShape handshake = .ok facts ∧ facts.supported = true ∧
        Admits adapter (facts.clientVersion.or clientVersion) facts.protocolContract facts.modes ∧
        verdict = ⟨true, none, facts.clientVersion.or clientVersion, facts.protocolContract,
          orderedModes facts.modes, facts.opaqueEndpointRef, facts.leaseUntil, none⟩ := by
  cases hfacts : validateNativeHandshakeShape handshake with
  | error e =>
      refine iff_of_false ?_ fun ⟨_, hshape, _⟩ => by cases hshape
      rintro ⟨hverdict, hok⟩
      simp only [validateNativeHandshake, hfacts] at hverdict
      split at hverdict
      · cases hverdict
        cases hok
      · split at hverdict
        · cases hverdict
          cases hok
        · cases hverdict
  | ok facts =>
      obtain ⟨hpresent, hversion, hcontract⟩ := validateNativeHandshakeShape_reports hfacts
      have hserving : servingVersion handshake clientVersion = facts.clientVersion.or clientVersion := by
        rw [← hversion]
        rfl
      have hrule : evaluateVersionContract adapter (facts.clientVersion.or clientVersion)
          (reportedProtocol adapter (Members.get handshake.members "protocolContract")) =
            ruleFor adapter (facts.clientVersion.or clientVersion) facts.protocolContract := by
        rw [← hcontract]
        rfl
      simp only [Admitted, validateNativeHandshake, hserving, hrule, Admits]
      generalize hfor : ruleFor adapter (facts.clientVersion.or clientVersion)
        facts.protocolContract = rule
      obtain ⟨reasonCode, minimumVersion, protocol⟩ := rule
      constructor
      · rintro ⟨hverdict, hok⟩
        refine ⟨facts, rfl, ?_⟩
        rw [hfor]
        cases reasonCode with
        | some reasonCode =>
            cases hverdict
            cases hok
        | none =>
            simp only [hpresent, hfacts, mem_orderedModes] at hverdict
            cases hsupported : facts.supported with
            | false =>
                simp [hsupported] at hverdict
                cases hverdict
                cases hok
            | true =>
                by_cases hsame : facts.protocolContract = protocol
                · by_cases hlive : .livePush ∈ facts.modes
                  · simp [hsupported, hsame, hlive] at hverdict
                    cases hverdict
                    exact ⟨rfl, ⟨rfl, hsame, hlive⟩, by rw [hsame]⟩
                  · simp [hsupported, hsame, hlive] at hverdict
                    cases hverdict
                    cases hok
                · simp [hsupported, hsame] at hverdict
                  cases hverdict
                  cases hok
      · rintro ⟨facts', hsame, hsupported, ⟨hreason, hprotocol, hlive⟩, rfl⟩
        obtain rfl := Except.ok.inj hsame
        rw [hfor] at hreason hprotocol
        dsimp only at hreason hprotocol
        subst hreason
        refine ⟨?_, rfl⟩
        simp [hpresent, hfacts, mem_orderedModes, hsupported, hprotocol, hlive]

/-! ## The agreement -/

/-- Every other protocol starts where the primary product's rule has nothing left to refuse. -/
def SeparateLines (client : Option Client) (contract : Contract) : Prop :=
  ∀ base, primaryAnchor client contract = some base →
    ∀ anchor ∈ contract.anchors, anchor.protocolContract ≠ base.protocolContract →
      contract.minimum.triple ≤ anchor.version.triple ∧
        ∀ entry ∈ contract.knownBad, entry.last.triple < anchor.version.triple

/-- A handshake of a session that a version serves over a protocol. -/
def handshakeOf (version protocolContract : Text) : Value :=
  .object [("supported", .bool true), ("clientVersion", .text version),
    ("protocolContract", .text protocolContract), ("modes", .array [.text "livePush".toList]),
    ("opaqueEndpointRef", .text "endpoint".toList),
    ("leaseUntil", .text "2026-10-04T12:01:00.000Z".toList), ("reasonCode", .null)]

theorem validateNativeHandshakeShape_handshakeOf (version : StableVersion) (anchor : Anchor) :
    validateNativeHandshakeShape (handshakeOf version.text anchor.protocolContract) =
      .ok ⟨true, some version.text, some anchor.protocolContract, [.livePush],
        some "endpoint".toList, some "2026-10-04T12:01:00.000Z".toList, none, none⟩ := by
  have hclosed : closed (handshakeOf version.text anchor.protocolContract)
      ["supported", "clientVersion", "protocolContract", "modes", "opaqueEndpointRef", "leaseUntil",
        "reasonCode"] "native handshake" ["launchOption"] =
      .ok (handshakeOf version.text anchor.protocolContract).members := rfl
  have hversion : textOrNull (fun _ => true)
      (Members.get (handshakeOf version.text anchor.protocolContract).members "clientVersion")
      "native handshake clientVersion must be a string or null" = .ok (some version.text) := by
    have hget : Members.get (handshakeOf version.text anchor.protocolContract).members
        "clientVersion" = .text version.text := rfl
    rw [hget, textOrNull]
    simp [refuse, version.text_ne_nil, bind, Except.bind, pure, Except.pure]
  have hcontract : textOrNull isContractId
      (Members.get (handshakeOf version.text anchor.protocolContract).members "protocolContract")
      "native handshake protocolContract must be a closed identifier or null" =
        .ok (some anchor.protocolContract) := by
    have hget : Members.get (handshakeOf version.text anchor.protocolContract).members
        "protocolContract" = .text anchor.protocolContract := rfl
    rw [hget, textOrNull]
    simp [refuse, anchor.protocolContract_ne_nil, anchor.contractId, bind, Except.bind, pure,
      Except.pure]
  have hmodes : assertModes
      (Members.get (handshakeOf version.text anchor.protocolContract).members "modes")
      "native handshake" = .ok [.livePush] := rfl
  have hendpoint : endpointOf true (handshakeOf version.text anchor.protocolContract).members =
      .ok (some "endpoint".toList, some "2026-10-04T12:01:00.000Z".toList) := by
    rfl
  simp only [validateNativeHandshakeShape, bind_eq_ok]
  exact ⟨_, hclosed, true, rfl, _, hversion, _, hcontract, _, hmodes, none, rfl, _, hendpoint, none,
    rfl, rfl⟩

theorem contract_of_admitted (hrule : (ruleFor adapter clientVersion protocolContract).reasonCode = none) :
    ∃ contract base, adapter.nativeDelivery = some contract ∧
      primaryAnchor adapter.client contract = some base := by
  simp only [ruleFor, evaluateVersionContract] at hrule
  cases hcontract : adapter.nativeDelivery with
  | none =>
      rw [hcontract] at hrule
      cases hrule
  | some contract =>
      simp only [hcontract] at hrule
      cases hbase : primaryAnchor adapter.client contract with
      | none =>
          rw [hbase] at hrule
          cases hrule
      | some base => exact ⟨contract, base, rfl, hbase⟩

/-- Where the lines are separate, a version that any protocol's own rule passes is passed by the
primary one. -/
theorem primary_rule_of_ruleFor
    (hlines : ∀ contract, adapter.nativeDelivery = some contract →
      SeparateLines adapter.client contract)
    (hrule : (ruleFor adapter clientVersion protocolContract).reasonCode = none) :
    (evaluateVersionContract adapter clientVersion none).reasonCode = none := by
  obtain ⟨contract, base, hcontract, hbase⟩ := contract_of_admitted hrule
  rw [ruleFor] at hrule
  generalize (protocolContract.filter _) = asked at hrule
  by_cases hprimary : asked.getD [] = [] ∨ asked = some base.protocolContract
  · rwa [primary_rule hcontract hbase hprimary] at hrule
  · obtain ⟨hsome, hother⟩ := not_or.mp hprimary
    cases asked with
    | none => exact absurd rfl hsome
    | some asked =>
        have hnonempty : asked ≠ [] := hsome
        rw [other_rule hcontract hbase hnonempty (fun h => hother (congrArg some h)),
          protocolFloor_admits] at hrule
        obtain ⟨order, horder, anchor, hanchor, rfl, hle⟩ := hrule
        obtain ⟨hminimum, hpast⟩ := hlines contract hcontract base hbase anchor hanchor
          (fun h => hother (congrArg some h))
        refine (primary_rule_admits hcontract hbase).mpr
          ⟨order, horder, hminimum.trans hle, fun entry hentry hhit => ?_⟩
        exact ((hpast entry hentry).trans_le hle).not_ge hhit.2

theorem admitted_handshakeOf (hcontract : adapter.nativeDelivery = some contract)
    (hbase : primaryAnchor adapter.client contract = some base) (hanchor : anchor ∈ contract.anchors)
    (hother : anchor.protocolContract ≠ base.protocolContract)
    (hle : anchor.version.triple ≤ version.triple) :
    ∃ verdict, Admitted adapter clientVersion (handshakeOf version.text anchor.protocolContract)
      verdict ∧ verdict.clientVersion = some version.text := by
  have hasked : ruleFor adapter (some version.text) (some anchor.protocolContract) =
      protocolFloor contract.anchors anchor.protocolContract (some version.text) := by
    have hnamed : (some anchor.protocolContract).filter (fun reported =>
        (anchorsOf adapter).any fun item => item.protocolContract = reported) =
          some anchor.protocolContract := by
      refine Option.filter_eq_some_iff.mpr ⟨rfl, List.any_eq_true.mpr ⟨anchor, ?_, by simp⟩⟩
      rw [anchorsOf, hcontract]
      exact hanchor
    rw [ruleFor, hnamed, other_rule hcontract hbase anchor.protocolContract_ne_nil hother]
  refine ⟨_, admitted_iff.mpr ⟨_, validateNativeHandshakeShape_handshakeOf version anchor, rfl,
    ⟨?_, ?_, List.mem_singleton.mpr rfl⟩, rfl⟩, rfl⟩
  · rw [Option.some_or, hasked, protocolFloor_admits]
    exact ⟨version.triple, version.versionOrder_text, anchor, hanchor, rfl, hle⟩
  · rw [Option.some_or, hasked, protocolFloor_protocolContract]

theorem separateLines_of_agreement (hcontract : adapter.nativeDelivery = some contract)
    (hagree : ∀ clientVersion handshake verdict, Admitted adapter clientVersion handshake verdict →
      (evaluateVersionContract adapter verdict.clientVersion none).reasonCode = none) :
    SeparateLines adapter.client contract := by
  intro base hbase anchor hanchor hother
  have hpasses : ∀ version : StableVersion, anchor.version.triple ≤ version.triple →
      contract.minimum.triple ≤ version.triple ∧ ∀ entry ∈ contract.knownBad,
        ¬(entry.first.triple ≤ version.triple ∧ version.triple ≤ entry.last.triple) := by
    intro version hle
    obtain ⟨verdict, hadmitted, hversion⟩ :=
      @admitted_handshakeOf _ _ _ _ none version hcontract hbase hanchor hother hle
    have hrule := hagree _ _ _ hadmitted
    rw [hversion, primary_rule_admits hcontract hbase] at hrule
    obtain ⟨order, horder, hfree⟩ := hrule
    obtain rfl := Option.some.inj (version.versionOrder_text.symm.trans horder)
    exact hfree
  refine ⟨(hpasses anchor.version le_rfl).1, fun entry hentry => ?_⟩
  by_contra hreached
  -- The first version that both the protocol's floor and the entry let through.
  rcases le_total entry.first.triple anchor.version.triple with hfirst | hfirst
  · exact (hpasses anchor.version le_rfl).2 entry hentry ⟨hfirst, not_lt.mp hreached⟩
  · exact (hpasses entry.first hfirst).2 entry hentry ⟨le_rfl, entry.first_le_last⟩

theorem acceptedFailure_eq_none : acceptedFailure adapter clientVersion = none ↔
    (evaluateVersionContract adapter clientVersion none).reasonCode = none := by
  simp [acceptedFailure]

/-- An offer that was accepted is never recorded as unsupported, and probes agree with
handshakes, exactly when the lines are separate. -/
theorem native_agreement (adapter : NativeAdapter) :
    ((∀ clientVersion handshake verdict,
        validateNativeHandshake adapter clientVersion handshake = .ok verdict → verdict.ok = true →
          acceptedFailure adapter verdict.clientVersion = none) ∧
      ∀ clientVersion clientVersion' probe handshake facts facts',
        validateNativeProbe probe = .ok facts → facts.supported = true →
        validateNativeHandshakeShape handshake = .ok facts' → facts'.supported = true →
        facts.clientVersion.or clientVersion = facts'.clientVersion.or clientVersion' →
        facts.protocolContract = facts'.protocolContract → facts.modes.Perm facts'.modes →
          ((∃ eligibility, evaluateNativeEligibility adapter clientVersion probe = .ok eligibility ∧
              eligibility.eligible = true) ↔
            ∃ verdict, validateNativeHandshake adapter clientVersion' handshake = .ok verdict ∧
              verdict.ok = true)) ↔
      ∀ contract, adapter.nativeDelivery = some contract →
        SeparateLines adapter.client contract := by
  constructor
  · rintro ⟨hoffer, -⟩ contract hcontract
    exact separateLines_of_agreement hcontract fun clientVersion handshake verdict hadmitted =>
      acceptedFailure_eq_none.mp (hoffer clientVersion handshake verdict hadmitted.1 hadmitted.2)
  · intro hlines
    refine ⟨?offer, ?probe⟩
    case offer =>
      intro clientVersion handshake verdict hverdict hok
      obtain ⟨facts, -, -, hadmits, rfl⟩ := admitted_iff.mp ⟨hverdict, hok⟩
      exact acceptedFailure_eq_none.mpr (primary_rule_of_ruleFor hlines hadmits.1)
    case probe =>
      intro clientVersion clientVersion' probe handshake facts facts' hfacts hsupported hfacts'
        hsupported' hversion hcontract hmodes
      rw [eligible_iff hfacts hsupported, hversion, hcontract]
      have hlive : .livePush ∈ facts.modes ↔ .livePush ∈ facts'.modes := hmodes.mem_iff
      constructor
      · rintro ⟨hrule, hprotocol, hmode⟩
        exact ⟨_, admitted_iff.mpr ⟨facts', hfacts', hsupported', ⟨hrule, hprotocol, hlive.mp hmode⟩,
          rfl⟩⟩
      · rintro ⟨verdict, hadmitted⟩
        obtain ⟨facts'', hsame, -, ⟨hrule, hprotocol, hmode⟩, -⟩ := admitted_iff.mp hadmitted
        obtain rfl := Except.ok.inj (hfacts'.symm.trans hsame)
        exact ⟨hrule, hprotocol, hlive.mpr hmode⟩

/-! ## Two products -/

/-- A relay of the one product and a desktop of the other, whose first captured version is a
denied one of the relay's. -/
def twoProducts : Adapter where
  capabilities := [("delivery".toList, "livePush".toList)]
  client := some ⟨some "fixture-cli".toList, some "fixture".toList, [some "fixture-desktop".toList]⟩
  evidence :=
    [⟨"fixture-cli".toList, "1.2.7".toList, "darwin-arm64".toList, "delivery.livePush".toList, .pass⟩,
      ⟨"fixture-desktop".toList, "2.19.1".toList, "darwin-arm64".toList,
        "delivery.livePush".toList, .pass⟩]

def twoProtocols : Value :=
  .object [("minimum", .text "1.2.7".toList),
    ("anchors", .array [
      .object [("version", .text "1.2.7".toList), ("protocolContract", .text "fixture-relay-v1".toList)],
      .object [("version", .text "2.19.1".toList),
        ("protocolContract", .text "fixture-desktop-v1".toList),
        ("client", .text "fixture-desktop".toList)]]),
    ("knownBad", .array [
      .object [("version", .text "2.19.1".toList), ("reasonCode", .text "known_bad_version".toList)]]),
    ("activationKinds", .array [.text "native-config".toList])]

theorem defineAdapter_twoProducts :
    (defineAdapter twoProducts (some twoProtocols)).toOption.isSome = true := by
  decide +kernel

/-- The desktop is admitted at a version that is then recorded as unsupported. -/
theorem admitted_unsupported :
    ∃ adapter verdict, defineAdapter twoProducts (some twoProtocols) = .ok adapter ∧
      validateNativeHandshake adapter none
        (handshakeOf "2.19.1".toList "fixture-desktop-v1".toList) = .ok verdict ∧
      verdict.ok = true ∧
      acceptedFailure adapter verdict.clientVersion = some "unsupported_client_version" := by
  have hrun : validateNativeHandshake ((defineAdapter twoProducts (some twoProtocols)).toOption.get
      defineAdapter_twoProducts) none
      (handshakeOf "2.19.1".toList "fixture-desktop-v1".toList) =
        .ok ⟨true, none, some "2.19.1".toList, some "fixture-desktop-v1".toList, [.livePush],
          some "endpoint".toList, some "2026-10-04T12:01:00.000Z".toList, none⟩ ∧
      acceptedFailure ((defineAdapter twoProducts (some twoProtocols)).toOption.get
        defineAdapter_twoProducts) (some "2.19.1".toList) = some "unsupported_client_version" := by
    decide +kernel
  exact ⟨_, _, eq_ok_get defineAdapter_twoProducts, hrun.1, rfl, hrun.2⟩

end Acc.AdapterSdk.NativeDelivery
