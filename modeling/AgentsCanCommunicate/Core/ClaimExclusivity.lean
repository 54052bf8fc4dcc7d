import AgentsCanCommunicate.Core.Claims
import AgentsCanCommunicate.Core.Conversations
import AgentsCanCommunicate.Library.Leases

/-!
# Claims are exclusive

A claim is a lease on its resource.  `leases` reads the claims of a workspace as
a lease table, and every store transaction of a claim call is a step of that
table: acquiring grants, renewing extends, releasing and finishing drop.  So the
live claims of different sessions on overlapping resources are shared, at every
moment of every run.

That a session has one record for a resource says nothing about time, and is an
invariant of the records themselves.

A call locates its session, and materialises the workspace if it must, before
its transaction.  Others may write in between, so a step is one transaction, with
whatever session record the call located, and the rest of what happens is
`elsewhere`: anything that leaves the claims alone.
-/

namespace Acc.Core

open Library (Table Keyed Lease Run)

section

variable [LinearOrder ReceiptId]

/-! ## Claims as leases -/

/-- Two resources overlap. -/
def Overlap (left right : String) : Prop := overlaps left right = true

/-- A claim as a lease. -/
def lease (claim : Claim) : Lease Id String Timestamp :=
  ⟨claim.ownerSessionId, claim.resource, claim.mode = .shared, claim.expiresAt⟩

/-- The claims of a workspace as a lease table. -/
def leases (w : Workspace) : Set (Lease Id String Timestamp) := {a | ∃ c ∈ w.claims, lease c = a}

/-- A session has one record for a resource. -/
def OneRecord (w : Workspace) : Prop :=
  ∀ c ∈ w.claims, ∀ d ∈ w.claims,
    c.ownerSessionId = d.ownerSessionId → c.resource = d.resource → c = d

/-- What claims are for, at an instant. -/
structure Exclusive (w : Workspace) (now : Timestamp) : Prop where
  /-- Live claims of different sessions on overlapping resources are shared. -/
  shared : ∀ c ∈ w.claims, ∀ d ∈ w.claims, isLive c now = true → isLive d now = true →
    c.ownerSessionId ≠ d.ownerSessionId → overlaps c.resource d.resource = true →
    c.mode = .shared ∧ d.mode = .shared
  /-- A session has one record for a resource. -/
  one : OneRecord w

omit [LinearOrder ReceiptId] in
theorem overlap_comm (x y : String) (h : Overlap x y) : Overlap y x := by
  rw [Overlap, overlaps_comm]
  exact h

omit [LinearOrder ReceiptId] in
theorem live_lease {c : Claim} {now : Timestamp} : (lease c).Live now ↔ isLive c now = true := by
  simp [Lease.Live, lease, isLive]

theorem leases_subset {w w' : Workspace} (h : ∀ c ∈ w'.claims, c ∈ w.claims) :
    leases w' ⊆ leases w := by
  intro a ⟨c, hc, hca⟩
  exact ⟨c, h c hc, hca⟩

theorem OneRecord.subset {w w' : Workspace} (h : ∀ c ∈ w'.claims, c ∈ w.claims)
    (hone : OneRecord w) : OneRecord w' := by
  intro c hc d hd howner hresource
  exact hone c (h c hc) d (h d hd) howner hresource

/-! ## Runs -/

/-- A workspace and the last reading of the clock. -/
structure Moment where
  workspace : Workspace
  clock : Timestamp

inductive ClaimCall where
  | acquire | renew | remove | finish | elsewhere
deriving DecidableEq

/-- One store transaction of a claim call, under a clock that never goes back. -/
inductive ClaimStep : Moment → ClaimCall → Moment → Prop where
  | acquire {m : Moment} {w' : Workspace} {ports : Ports} {session : Session}
      {input : AcquireInput} {requested resources : List String} {batch : Bool}
      {records : List Claim} :
      m.clock ≤ ports.now → claimResources requested = .ok resources →
      acquireTransaction m.workspace ports session input resources batch = .ok (w', records) →
      ClaimStep m .acquire ⟨w', ports.now⟩
  | renew {m : Moment} {w' : Workspace} {ports : Ports} {session : Session}
      {input : RenewInput} {record : Claim} :
      m.clock ≤ ports.now →
      renewTransaction m.workspace ports session input = .ok (w', record) →
      ClaimStep m .renew ⟨w', ports.now⟩
  | remove {m : Moment} {w' : Workspace} {ports : Ports} {session : Session}
      {input : ReleaseInput} {selectors : Selectors} {authority reason : Option String}
      {selected : List Claim} :
      m.clock ≤ ports.now →
      removeTransaction m.workspace ports session input selectors authority reason =
        .ok (w', selected) →
      ClaimStep m .remove ⟨w', ports.now⟩
  | finish {m : Moment} {w' : Workspace} {ports : Ports} {session : Session}
      {input : FinishInput} {outcome : FinishOutcome} :
      m.clock ≤ ports.now →
      finishTransaction m.workspace ports session input = .ok (w', outcome) →
      ClaimStep m .finish ⟨w', ports.now⟩
  | elsewhere {m : Moment} {w' : Workspace} {now : Timestamp} :
      m.clock ≤ now → w'.claims = m.workspace.claims →
      ClaimStep m .elsewhere ⟨w', now⟩

/-! ## What each transaction does to the claims -/

theorem claims_foldl_fileClaim {now : Timestamp} {items : List (Bool × Claim)} :
    ∀ {w : Workspace},
      (items.foldl (fileClaim now) w).claims = w.claims.putAll (items.map Prod.snd) := by
  induction items with
  | nil =>
      intro w
      rfl
  | cons item items ih =>
      intro w
      rw [List.foldl_cons, ih]
      rfl

theorem claims_foldl_releaseOne {now : Timestamp} {sessionId : Id}
    {authority reason : Option String} {selected : List Claim} :
    ∀ {w : Workspace}, (selected.foldl (releaseOne now sessionId authority reason) w).claims =
      w.claims.removeAll (selected.map Claim.claimId) := by
  induction selected with
  | nil =>
      intro w
      rfl
  | cons c selected ih =>
      intro w
      rw [List.foldl_cons, ih]
      rfl

theorem claims_foldl_releaseFinished {now : Timestamp} {session : Session}
    {selected : List Claim} :
    ∀ {w : Workspace}, (selected.foldl (releaseFinished now session) w).claims =
      w.claims.removeAll (selected.map Claim.claimId) := by
  induction selected with
  | nil =>
      intro w
      rfl
  | cons c selected ih =>
      intro w
      rw [List.foldl_cons, ih]
      rfl

theorem recordMessage_claims {w w' : Workspace} {session : Session} {raw : MessageInput}
    {now : Timestamp} {messageId : Id} {action : String} {done : Recorded}
    (h : recordMessageInTransaction w session raw now messageId action = .ok (w', done)) :
    w'.claims = w.claims := by
  obtain ⟨_, _, _, hcases⟩ := recordMessage_eq_ok h
  rcases hcases with ⟨_, _, rfl, _⟩ | ⟨_, _, _, _, _, _, rfl, _⟩
  · rfl
  · rfl

/-- Finishing takes the session's claims away, or a retry leaves every claim. -/
theorem finishTransaction_claims {w w' : Workspace} {ports : Ports} {session : Session}
    {input : FinishInput} {outcome : FinishOutcome}
    (h : finishTransaction w ports session input = .ok (w', outcome)) :
    ∀ c ∈ w'.claims, c ∈ w.claims := by
  have h := Workspace.transaction_eq_ok h
  dsimp only at h
  split at h
  · cases h
  · simp only [bind_eq_ok] at h
    obtain ⟨_, _, existing, _, h⟩ := h
    cases existing with
    | some existing =>
        simp only [bind_eq_ok, pure_eq_ok, Prod.mk.injEq] at h
        obtain ⟨_, _, rfl, _⟩ := h
        intro c hc
        exact hc
    | none =>
        simp only [bind_eq_ok, pure_eq_ok, Prod.mk.injEq] at h
        obtain ⟨_, _, ⟨w₁, recorded⟩, hrecorded, rfl, _⟩ := h
        intro c hc
        rw [closeFinished, Workspace.append_claims, Workspace.putSession_claims,
          claims_foldl_releaseFinished, Keyed.mem_removeAll, recordMessage_claims hrecorded] at hc
        exact hc.1

/-- What is known of a record that acquiring files. -/
structure Acquired (w : Workspace) (ports : Ports) (session : Session) (input : AcquireInput)
    (resources : List String) (record : Claim) : Prop where
  owner : record.ownerSessionId = session.sessionId
  mode : record.mode = input.mode.getD .exclusive
  resource : record.resource ∈ resources
  /-- The session's own claim on the resource is filed again. -/
  again : ∀ mine, ownClaim w session.sessionId record.resource = some mine →
    record.claimId = mine.claimId

theorem acquireRecord_eq_ok {w : Workspace} {ports : Ports} {session : Session}
    {input : AcquireInput} {expiresAt : Timestamp} {resource : String} {i : Nat}
    {item : Bool × Claim}
    (h : acquireRecord w ports session input expiresAt resource i = .ok item) :
    item.2.ownerSessionId = session.sessionId ∧ item.2.mode = input.mode.getD .exclusive ∧
      item.2.resource = resource ∧
      ∀ mine, ownClaim w session.sessionId resource = some mine →
        item.2.claimId = mine.claimId := by
  simp only [acquireRecord, bind_eq_ok, pure_eq_ok] at h
  obtain ⟨_, _, rfl⟩ := h
  refine ⟨rfl, rfl, rfl, ?_⟩
  intro mine hmine
  simp [hmine]

/-- What acquiring wrote, and what it checked first. -/
theorem acquireTransaction_eq_ok {w w' : Workspace} {ports : Ports} {session : Session}
    {input : AcquireInput} {resources : List String} {batch : Bool} {records : List Claim}
    (h : acquireTransaction w ports session input resources batch = .ok (w', records))
    (hnodup : resources.Nodup) :
    conflictsOf w ports.now session.sessionId (input.mode.getD .exclusive) resources = [] ∧
      w'.claims = w.claims.putAll records ∧
      (∀ r ∈ records, Acquired w ports session input resources r) ∧
      ∀ r ∈ records, ∀ r' ∈ records, r.resource = r'.resource → r = r' := by
  have h := Workspace.transaction_eq_ok h
  simp only [bind_eq_ok, refuse_eq_ok, pure_eq_ok, Prod.mk.injEq, ne_eq, not_not] at h
  obtain ⟨_, _, expiresAt, _, _, hconflicts, items, hitems, rfl, rfl⟩ := h
  have hitem : ∀ r ∈ items.map Prod.snd, ∃ item ∈ resources.zipIdx, ∃ new,
      acquireRecord w ports session input expiresAt item.1 item.2 = .ok (new, r) := by
    intro r hr
    obtain ⟨item, hitem, rfl⟩ := List.mem_map.mp hr
    obtain ⟨source, hsource, hok⟩ := mem_of_mapM_eq_ok hitems item hitem
    exact ⟨source, hsource, item.1, hok⟩
  refine ⟨hconflicts, claims_foldl_fileClaim, ?_, ?_⟩
  · intro r hr
    obtain ⟨⟨resource, i⟩, hsource, new, hok⟩ := hitem r hr
    obtain ⟨howner, hmode, hresource, hagain⟩ := acquireRecord_eq_ok hok
    dsimp only at howner hmode hresource hagain
    refine ⟨howner, hmode, ?_, ?_⟩
    · rw [hresource]
      exact List.mem_of_getElem? (List.mem_zipIdx_iff_getElem?.mp hsource)
    · rw [hresource]
      exact hagain
  · -- Two records for one resource come from one place of the request.
    intro r hr r' hr' heq
    obtain ⟨⟨resource, i⟩, hsource, new, hok⟩ := hitem r hr
    obtain ⟨⟨resource', i'⟩, hsource', new', hok'⟩ := hitem r' hr'
    have hresource := (acquireRecord_eq_ok hok).2.2.1
    have hresource' := (acquireRecord_eq_ok hok').2.2.1
    dsimp only at hresource hresource' hok hok'
    have hsame : resource = resource' := by rw [← hresource, heq, hresource']
    have hi := List.mem_zipIdx_iff_getElem?.mp hsource
    have hi' := List.mem_zipIdx_iff_getElem?.mp hsource'
    dsimp only at hi hi'
    have hlt : i < resources.length := (List.getElem?_eq_some_iff.mp hi).1
    have hii : i = i' := (List.getElem?_inj hlt hnodup).mp (by rw [hi, hi', hsame])
    rw [hsame, hii, hok'] at hok
    cases hok
    rfl

omit [LinearOrder ReceiptId] in
/-- A resource list that was accepted names no resource twice. -/
theorem claimResources_nodup {requested resources : List String}
    (h : claimResources requested = .ok resources) : resources.Nodup := by
  simp only [claimResources, uniqueList, bind_eq_ok, refuse_eq_ok, pure_eq_ok, not_not] at h
  obtain ⟨_, _, result, _, _, hnodup, rfl⟩ := h
  exact hnodup

/-- A renewed claim was live, and keeps its owner, resource and mode. -/
theorem renewTransaction_eq_ok {w w' : Workspace} {ports : Ports} {session : Session}
    {input : RenewInput} {record : Claim}
    (h : renewTransaction w ports session input = .ok (w', record)) :
    ∃ existing ∈ w.claims, isLive existing ports.now = true ∧ ∃ expiresAt generation,
      w'.claims = w.claims.put { existing with expiresAt, generation } := by
  have h := Workspace.transaction_eq_ok h
  simp only [bind_eq_ok] at h
  obtain ⟨_, _, h⟩ := h
  split at h
  · cases h
  next existing hexisting =>
    simp only [bind_eq_ok, refuse_eq_ok, pure_eq_ok, Prod.mk.injEq, Bool.not_eq_false] at h
    obtain ⟨_, hlive, expiresAt, _, rfl, _⟩ := h
    have hget := (Option.filter_eq_some_iff.mp hexisting).1
    exact ⟨existing, Keyed.mem_of_get? hget, hlive, expiresAt, _, rfl⟩

theorem removeTransaction_claims {w w' : Workspace} {ports : Ports} {session : Session}
    {input : ReleaseInput} {selectors : Selectors} {authority reason : Option String}
    {selected : List Claim}
    (h : removeTransaction w ports session input selectors authority reason =
      .ok (w', selected)) : ∀ c ∈ w'.claims, c ∈ w.claims := by
  have h := Workspace.transaction_eq_ok h
  simp only [bind_eq_ok, pure_eq_ok, Prod.mk.injEq] at h
  obtain ⟨_, _, chosen, _, _, _, rfl, rfl⟩ := h
  intro c hc
  rw [claims_foldl_releaseOne, Keyed.mem_removeAll] at hc
  exact hc.1

/-! ## A step keeps claims exclusive -/

/-- A record that was filed is none of those a live claim of another session
conflicts with. -/
theorem no_conflict {w : Workspace} {now : Timestamp} {sessionId : Id} {mode : ClaimMode}
    {resources : List String} (h : conflictsOf w now sessionId mode resources = []) {c : Claim}
    (hc : c ∈ w.claims) (hlive : isLive c now = true) (howner : c.ownerSessionId ≠ sessionId)
    {resource : String} (hr : resource ∈ resources) (hoverlap : overlaps c.resource resource = true) :
    c.mode = .shared ∧ mode = .shared := by
  have hmem : ∀ p ∈ conflictsOf w now sessionId mode resources, False := by simp [h]
  have hnot : ¬(c.mode = .exclusive ∨ mode = .exclusive) := by
    intro hmode
    refine hmem (resource, c) (List.mem_flatMap.mpr ⟨resource, hr, ?_⟩)
    simp [hc, hlive, howner, hoverlap, hmode]
  cases hm : c.mode <;> cases hm' : mode <;> simp_all

theorem Acquired.lease_compatible {w : Workspace} {ports : Ports} {session : Session}
    {input : AcquireInput} {resources : List String} {record c : Claim}
    (h : Acquired w ports session input resources record)
    (hconflicts :
      conflictsOf w ports.now session.sessionId (input.mode.getD .exclusive) resources = [])
    (hc : c ∈ w.claims) (hlive : isLive c ports.now = true) :
    Lease.Compatible Overlap (lease c) (lease record) := by
  intro howner hoverlap
  have hne : c.ownerSessionId ≠ session.sessionId := by
    rw [← h.owner]
    exact howner
  obtain ⟨hshared, hmode⟩ := no_conflict hconflicts hc hlive hne h.resource hoverlap
  exact ⟨hshared, h.mode.trans hmode⟩

/-- Every transaction is a step of the lease table. -/
theorem ClaimStep.leases {m m' : Moment} {call : ClaimCall} (h : ClaimStep m call m') :
    Lease.Step Overlap (leases m.workspace, m.clock) () (leases m'.workspace, m'.clock) := by
  cases h with
  | @acquire w' ports session input requested resources batch records hle hresources htx =>
      obtain ⟨hconflicts, hclaims, hacquired, _⟩ :=
        acquireTransaction_eq_ok htx (claimResources_nodup hresources)
      have howner : ∀ a ∈ {a | ∃ r ∈ records, lease r = a}, a.owner = session.sessionId := by
        intro a ⟨r, hr, hra⟩
        rw [← hra]
        exact (hacquired r hr).owner
      refine .grant hle howner ?_ ?_
      · intro a ⟨r, hr, hra⟩ b ⟨c, hc, hcb⟩ hlive
        rw [← hra, ← hcb]
        rw [← hcb, live_lease] at hlive
        exact (hacquired r hr).lease_compatible hconflicts hc hlive
      · intro a ⟨c, hc, hca⟩
        rw [hclaims] at hc
        rcases Keyed.mem_putAll hc with hc | ⟨hc, _⟩
        · exact Or.inr ⟨c, hc, hca⟩
        · exact Or.inl ⟨c, hc, hca⟩
  | renew hle htx =>
      obtain ⟨existing, hexisting, hlive, expiresAt, generation, hclaims⟩ :=
        renewTransaction_eq_ok htx
      refine @Lease.Step.extend _ _ _ _ _ _ _ _ _ expiresAt _ hle ⟨existing, hexisting, rfl⟩ (live_lease.mpr hlive) ?_
      intro a ⟨c, hc, hca⟩
      rw [hclaims, Keyed.mem_put] at hc
      rcases hc with rfl | ⟨hc, _⟩
      · exact Or.inr hca.symm
      · exact Or.inl ⟨c, hc, hca⟩
  | remove hle htx => exact .drop (leases_subset (removeTransaction_claims htx)) hle
  | finish hle htx => exact .drop (leases_subset (finishTransaction_claims htx)) hle
  | elsewhere hle hclaims =>
      refine .drop (leases_subset ?_) hle
      intro c hc
      rwa [hclaims] at hc

/-- Filing a session's own claim again leaves it one record for the resource. -/
theorem OneRecord.putAll {w w' : Workspace} {ports : Ports} {session : Session}
    {input : AcquireInput} {resources : List String} {records : List Claim}
    (hone : OneRecord w) (hclaims : w'.claims = w.claims.putAll records)
    (hacquired : ∀ r ∈ records, Acquired w ports session input resources r)
    (hdistinct : ∀ r ∈ records, ∀ r' ∈ records, r.resource = r'.resource → r = r') :
    OneRecord w' := by
  -- A claim that stood before on an acquired resource would stand at the key the
  -- acquired record was filed under.
  have hold : ∀ c ∈ w.claims, c.claimId ∉ records.map Claim.claimId → ∀ r ∈ records,
      c.ownerSessionId = r.ownerSessionId → c.resource ≠ r.resource := by
    intro c hc hkey r hr howner hresource
    have hr' := hacquired r hr
    have hfound : ∃ mine, ownClaim w session.sessionId r.resource = some mine := by
      rw [ownClaim, ← Option.isSome_iff_exists, List.find?_isSome]
      exact ⟨c, Keyed.mem_list.mpr hc, by simp [howner, hr'.owner, hresource]⟩
    obtain ⟨mine, hmine⟩ := hfound
    have hprops := List.find?_some hmine
    simp only [decide_eq_true_eq] at hprops
    have hmem : mine ∈ w.claims := Keyed.mem_list.mp (List.mem_of_find?_eq_some hmine)
    have hsame : c = mine :=
      hone c hc mine hmem (by rw [howner, hr'.owner, hprops.1]) (by rw [hresource, hprops.2])
    exact hkey (List.mem_map.mpr ⟨r, hr, by rw [hr'.again mine hmine, hsame]⟩)
  intro c hc d hd howner hresource
  rw [hclaims] at hc hd
  rcases Keyed.mem_putAll hc with hc | ⟨hc, hck⟩ <;> rcases Keyed.mem_putAll hd with hd | ⟨hd, hdk⟩
  · exact hdistinct c hc d hd hresource
  · exact absurd hresource.symm (hold d hd hdk c hc howner.symm)
  · exact absurd hresource (hold c hc hck d hd howner)
  · exact hone c hc d hd howner hresource

theorem OneRecord.put {w w' : Workspace} {existing : Claim} {expiresAt : Timestamp}
    {generation : Id} (hone : OneRecord w) (hexisting : existing ∈ w.claims)
    (hclaims : w'.claims = w.claims.put { existing with expiresAt, generation }) :
    OneRecord w' := by
  intro c hc d hd howner hresource
  rw [hclaims, Keyed.mem_put] at hc hd
  rcases hc with rfl | ⟨hc, hck⟩ <;> rcases hd with rfl | ⟨hd, hdk⟩
  · rfl
  · have heq := hone existing hexisting d hd howner hresource
    exact absurd (congrArg Claim.claimId heq).symm hdk
  · have heq := hone c hc existing hexisting howner hresource
    exact absurd (congrArg Claim.claimId heq) hck
  · exact hone c hc d hd howner hresource

theorem ClaimStep.oneRecord {m m' : Moment} {call : ClaimCall} (h : ClaimStep m call m')
    (hone : OneRecord m.workspace) : OneRecord m'.workspace := by
  cases h with
  | acquire hle hresources htx =>
      obtain ⟨_, hclaims, hacquired, hdistinct⟩ :=
        acquireTransaction_eq_ok htx (claimResources_nodup hresources)
      exact hone.putAll hclaims hacquired hdistinct
  | renew hle htx =>
      obtain ⟨existing, hexisting, _, expiresAt, generation, hclaims⟩ :=
        renewTransaction_eq_ok htx
      exact hone.put hexisting hclaims
  | remove hle htx => exact hone.subset (removeTransaction_claims htx)
  | finish hle htx => exact hone.subset (finishTransaction_claims htx)
  | elsewhere hle hclaims =>
      refine hone.subset ?_
      intro c hc
      rwa [hclaims] at hc

/-- The invariant of a run. -/
structure Moment.Inv (m : Moment) : Prop where
  leases : Lease.Exclusive Overlap (leases m.workspace) m.clock
  one : OneRecord m.workspace

theorem Moment.Inv.initial (workspaceId : Id) (clock : Timestamp) :
    Moment.Inv ⟨Workspace.initial workspaceId, clock⟩ where
  leases := by
    intro a ⟨c, hc, _⟩
    exact absurd hc Keyed.mem_empty
  one := by
    intro c hc
    exact absurd hc Keyed.mem_empty

theorem Moment.Inv.step {m m' : Moment} {call : ClaimCall} (h : m.Inv)
    (hstep : ClaimStep m call m') : m'.Inv where
  leases := Lease.Exclusive.step overlap_comm hstep.leases h.leases
  one := hstep.oneRecord h.one

theorem Moment.Inv.exclusive {m : Moment} (h : m.Inv) {now : Timestamp} (hle : m.clock ≤ now) :
    Exclusive m.workspace now where
  shared := by
    intro c hc d hd hlc hld howner hoverlap
    exact h.leases.subset subset_rfl hle (lease c) ⟨c, hc, rfl⟩ (lease d) ⟨d, hd, rfl⟩
      (live_lease.mpr hlc) (live_lease.mpr hld) howner hoverlap
  one := h.one

/-! ## Calls -/

/-- The calls that touch claims. -/
inductive ClaimRequest where
  | acquireClaim (input : AcquireInput) (resource : String)
  | acquireClaims (input : AcquireInput) (resources : List String)
  | renewClaim (input : RenewInput)
  | releaseClaims (input : ReleaseInput) (selectors : Selectors)
  | releaseClaim (input : ReleaseInput) (claimId : Id)
  | forceReleaseClaim (input : ReleaseInput) (claimId : Id) (authority reason : Option String)
  | finishSession (input : FinishInput)

/-- A call from its first look to its last write. -/
def ClaimRequest.exec (w : Workspace) (ports : Ports) : ClaimRequest → Result Workspace
  | .acquireClaim input resource => Prod.fst <$> Core.acquireClaim w ports input resource
  | .acquireClaims input resources => Prod.fst <$> Core.acquireClaims w ports input resources
  | .renewClaim input => Prod.fst <$> Core.renewClaim w ports input
  | .releaseClaims input selectors => Prod.fst <$> Core.releaseClaims w ports input selectors
  | .releaseClaim input claimId => Prod.fst <$> Core.releaseClaim w ports input claimId
  | .forceReleaseClaim input claimId authority reason =>
      Prod.fst <$> Core.forceReleaseClaim w ports input claimId authority reason
  | .finishSession input => Prod.fst <$> Core.finishSession w ports input

/-- A call is its transaction, after what it does elsewhere. -/
theorem ClaimRequest.run {w w' : Workspace} {ports : Ports} {clock : Timestamp}
    (request : ClaimRequest) (hle : clock ≤ ports.now) (h : request.exec w ports = .ok w') :
    ∃ calls, Run ClaimStep ⟨w, clock⟩ calls ⟨w', ports.now⟩ := by
  have hacquire : ∀ {input : AcquireInput} {resources : List String} {batch : Bool}
      {records : List Claim}, acquire w ports input resources batch = .ok (w', records) →
      ∃ calls, Run ClaimStep ⟨w, clock⟩ calls ⟨w', ports.now⟩ := by
    intro input resources batch records h
    simp only [acquire, bind_eq_ok] at h
    obtain ⟨session, _, accepted, hresources, w₁, hw₁, htx⟩ := h
    have helsewhere : ClaimStep ⟨w, clock⟩ .elsewhere ⟨w₁, clock⟩ :=
      .elsewhere le_rfl (untouched_claims.ensureMaterialised hw₁)
    exact ⟨_, (Run.single helsewhere).snoc (.acquire hle hresources htx)⟩
  have hremove : ∀ {input : ReleaseInput} {selectors : Selectors} {authority reason : Option String}
      {selected : List Claim},
      removeClaims w ports input selectors authority reason = .ok (w', selected) →
      ∃ calls, Run ClaimStep ⟨w, clock⟩ calls ⟨w', ports.now⟩ := by
    intro input selectors authority reason selected h
    simp only [removeClaims, bind_eq_ok] at h
    obtain ⟨session, _, htx⟩ := h
    exact ⟨_, Run.single (.remove hle htx)⟩
  cases request with
  | acquireClaim input resource =>
      simp only [exec, map_eq_ok] at h
      obtain ⟨⟨_, records⟩, h, rfl⟩ := h
      exact hacquire h
  | acquireClaims input resources =>
      simp only [exec, map_eq_ok] at h
      obtain ⟨⟨_, records⟩, h, rfl⟩ := h
      exact hacquire h
  | renewClaim input =>
      simp only [exec, map_eq_ok, Core.renewClaim, bind_eq_ok] at h
      obtain ⟨⟨_, record⟩, ⟨session, _, htx⟩, rfl⟩ := h
      exact ⟨_, Run.single (.renew hle htx)⟩
  | releaseClaims input selectors =>
      simp only [exec, map_eq_ok, Core.releaseClaims, bind_eq_ok] at h
      obtain ⟨⟨_, selected⟩, ⟨accepted, _, h⟩, rfl⟩ := h
      exact hremove h
  | releaseClaim input claimId =>
      simp only [exec, map_eq_ok] at h
      obtain ⟨⟨_, selected⟩, h, rfl⟩ := h
      exact hremove h
  | forceReleaseClaim input claimId authority reason =>
      simp only [exec, map_eq_ok] at h
      obtain ⟨⟨_, selected⟩, h, rfl⟩ := h
      exact hremove h
  | finishSession input =>
      simp only [exec, map_eq_ok, Core.finishSession, bind_eq_ok] at h
      obtain ⟨⟨_, outcome⟩, ⟨session, _, w₁, hw₁, htx⟩, rfl⟩ := h
      have helsewhere : ClaimStep ⟨w, clock⟩ .elsewhere ⟨w₁, clock⟩ :=
        .elsewhere le_rfl (untouched_claims.ensureMaterialised hw₁)
      exact ⟨_, (Run.single helsewhere).snoc (.finish hle htx)⟩

/-- At every moment of every run, live claims of different sessions on
overlapping resources are shared, and a session has one record for a resource. -/
theorem claims_exclusive {workspaceId : Id} {clock : Timestamp} {calls : List ClaimCall}
    {m : Moment} (hrun : Run ClaimStep ⟨Workspace.initial workspaceId, clock⟩ calls m)
    {now : Timestamp} (hnow : m.clock ≤ now) : Exclusive m.workspace now := by
  have hinv : m.Inv := hrun.invariant (I := Moment.Inv)
    (fun _ _ _ h hstep => h.step hstep) (Moment.Inv.initial workspaceId clock)
  exact hinv.exclusive hnow

end

/-! ## Two sessions -/

/-- A session asks for a resource for a minute, shared. -/
def sampleAcquire (w : Workspace) (now : Timestamp) (sessionId generation claimId : Id)
    (resource : String) : Result (Workspace × List Claim) :=
  acquireTransaction w (samplePorts now claimId)
    ((w.sessions.get? sessionId).getD (sessionRecord (sampleOpen sessionId sessionId "") sessionId
      sessionId now generation))
    ⟨sessionId, none, generation, some .shared, some 60, none, "editing", none⟩ [resource] false

/-- The first session shares a directory. -/
def sampleFirst : Result (Workspace × List Claim) :=
  sampleAcquire sampleWorkspace 100 (sampleId "session_a") (sampleId "generation_a")
    (sampleId "claim_a") "file:src/**"

theorem sampleAcquire_step {m : Moment} {now : Timestamp} {sessionId generation claimId : Id}
    {resource : String} {done : Workspace × List Claim} (hle : m.clock ≤ now)
    (hresource : claimResources [resource] = .ok [resource])
    (h : sampleAcquire m.workspace now sessionId generation claimId resource = .ok done) :
    ClaimStep m .acquire ⟨done.1, now⟩ :=
  @ClaimStep.acquire _ m done.1 (samplePorts now claimId) _ _ [resource] [resource] false done.2
    hle hresource h

/-- One session shares a directory and the other a file in it. -/
theorem claims_exclusive_two_sessions :
    ∃ m : Moment, m.clock = 200 ∧ m.workspace.claims.list.length = 2 ∧
      Exclusive m.workspace 300 := by
  have hstart : ClaimStep ⟨Workspace.initial ⟨"workspace_1", by decide⟩, 0⟩ .elsewhere
      ⟨sampleWorkspace, 10⟩ := .elsewhere (by decide) (by decide)
  have hfirst := eq_ok_get (x := sampleFirst) (by decide +kernel)
  have hsecond := eq_ok_get (x := sampleAcquire (sampleFirst.toOption.get (by decide +kernel)).1
    200 ⟨"session_b", by decide⟩ ⟨"generation_b", by decide⟩ ⟨"claim_b", by decide⟩
    "file:src/a.mjs") (by decide +kernel)
  have hrun := ((Run.single hstart).snoc
    (sampleAcquire_step (by decide) (by decide) hfirst)).snoc
    (sampleAcquire_step (by decide) (by decide) hsecond)
  exact ⟨_, rfl, by decide +kernel, claims_exclusive hrun (by decide)⟩

end Acc.Core
