import AgentsCanCommunicate.AdapterSdk.Versions

/-!
# Certification evidence

A row says that a client of some version was seen to have a capability, or to have lost it.
Rows apply forward from their version, and across platforms until a platform has one of its
own.

Whether a capability is granted is decided by the rows alone and not by their order: some row
is usable, and none of the newest usable ones records a loss (`granted_iff`).
-/

namespace Acc.AdapterSdk.Certification

open Library Library.Text
open Versions

/-! ## The code -/

inductive Outcome where
  | pass
  | fail
deriving DecidableEq

/-- What is read of a row. -/
structure Row where
  client : Text
  version : Text
  platform : Text
  capability : Text
  result : Outcome
deriving DecidableEq

/-- A client and the other products that it serves, each with its certification name. -/
structure Client where
  certificationName : Option Text
  command : Option Text
  variants : List (Option Text)

structure Adapter where
  /-- The capabilities that are declared, each as its group and name. -/
  capabilities : List (Text × Text)
  client : Option Client
  evidence : List Row

structure Facts where
  clientVersion : Option Text
  platform : Option Text
  clientName : Option Text

inductive Reason where
  | undeclared
  | unobserved
  | olderThanEvidence
  | recordedFailure
deriving DecidableEq

structure Verdict where
  granted : Bool
  reason : Option Reason
  version : Option Text
deriving DecidableEq

/-- The first two parts of `capability.split(".")`.  A missing one is the key `undefined`. -/
def splitCapability (capability : Text) : Text × Text :=
  match capability.splitOn '.' with
  | group :: name :: _ => (group, name)
  | [group] => (group, "undefined".toList)
  | [] => ([], "undefined".toList)

/-- The name that a client's rows are recorded under. -/
def primary (client : Option Client) : Option Text :=
  client.bind fun client => client.certificationName.or client.command

def declared (client : Option Client) : List (Option Text) :=
  primary client :: (client.map Client.variants).getD []

/-- `rows.reduce((best, row) => better(row, best) ? row : best)`, where there is a row. -/
def reduce (better : Row → Row → Bool) : List Row → Option Row
  | [] => none
  | row :: rows => some (rows.foldl (fun best row => if better row best then row else best) row)

def compareRows (left right : Row) : Ordering :=
  compareVersionOrder (versionOrder (some left.version)) (versionOrder (some right.version))

def newest (rows : List Row) : Option Row := reduce (compareRows · · = .gt) rows

def earliest (rows : List Row) : Option Row := reduce (compareRows · · = .lt) rows

def namedRows (evidence : List Row) (client : Option Text) (capability : Text) : List Row :=
  evidence.filter fun item => some item.client = client && item.capability = capability

/-- A version that cannot be read is in reach of every row. -/
def reachableRows (named : List Row) : Option Triple → List Row
  | none => named
  | some asked => named.filter fun item =>
      compareVersionOrder (versionOrder (some item.version)) (some asked) ≠ .gt

/-- The platform's own rows, if it has any. -/
def usableRows (reachable : List Row) (platform : Option Text) : List Row :=
  let own := reachable.filter fun item => some item.platform = platform
  if own ≠ [] then own else reachable

def judge (named usable : List Row) : Verdict :=
  match newest usable with
  | none => ⟨false, some .olderThanEvidence, (earliest named).map Row.version⟩
  | some newest =>
      let granted := (usable.filter fun item => compareRows item newest = .eq).all (·.result = .pass)
      ⟨granted, if granted then none else some .recordedFailure, some newest.version⟩

def capabilityEvidence (adapter : Adapter) (facts : Facts) (capability : Text) : Verdict :=
  if splitCapability capability ∉ adapter.capabilities then ⟨false, some .undeclared, none⟩
  else
    let client := facts.clientName.or (primary adapter.client)
    if client ∉ declared adapter.client then ⟨false, some .unobserved, none⟩
    else
      let named := namedRows adapter.evidence client capability
      if named = [] then ⟨false, some .unobserved, none⟩
      else
        let reachable := reachableRows named (versionOrder facts.clientVersion)
        judge named (usableRows reachable facts.platform)

/-! ## The newest rows -/

variable {rows rows' named named' : List Row} {row other failed : Row} {client : Option Text}
  {capability : Text} {adapter : Adapter} {facts : Facts} {asked : Triple}
  {version : Option Triple} {platform : Option Text}

/-- The triple of a row; one without a triple is below all others. -/
def Row.order (row : Row) : WithBot Triple := versionOrder (some row.version)

theorem compareRows_eq_cmp : compareRows row other = cmp row.order other.order :=
  compareVersionOrder_eq_cmp

theorem foldl_argAux {better : Row → Row → Prop} [DecidableRel better] {best : Row} :
    rows.foldl (List.argAux better) (some best) =
      some (rows.foldl (fun best row => if better row best then row else best) best) := by
  induction rows generalizing best with
  | nil => rfl
  | cons row rows ih =>
      rw [List.foldl_cons, List.foldl_cons, ← ih]
      by_cases h : better row best
      · rw [if_pos h, show List.argAux better (some best) row = some row from if_pos h]
      · rw [if_neg h, show List.argAux better (some best) row = some best from if_neg h]

theorem newest_eq_argmax : newest rows = rows.argmax Row.order := by
  cases rows with
  | nil => rfl
  | cons row rows =>
      have hfold := @foldl_argAux rows (fun row best => best.order < row.order) _ row
      rw [newest, reduce]
      refine Eq.trans ?_ hfold.symm
      congr 2
      funext best row
      simp only [compareRows_eq_cmp, decide_eq_true_eq, cmp_eq_gt_iff]

/-- A row that no other one is newer than. -/
def Newest (rows : List Row) (row : Row) : Prop :=
  row ∈ rows ∧ ∀ other ∈ rows, other.order ≤ row.order

theorem newest_spec (h : newest rows = some row) : Newest rows row := by
  rw [newest_eq_argmax] at h
  exact ⟨List.argmax_mem h, fun other hother => List.le_of_mem_argmax hother h⟩

theorem newest_eq_none : newest rows = none ↔ rows = [] := by
  rw [newest_eq_argmax, List.argmax_eq_none]

theorem exists_newest (h : rows ≠ []) : ∃ row, newest rows = some row ∧ Newest rows row := by
  obtain ⟨row, hrow⟩ := Option.ne_none_iff_exists'.mp (mt newest_eq_none.mp h)
  exact ⟨row, hrow, newest_spec hrow⟩

/-- The newest rows are the ones that tie with any one of them. -/
theorem newest_iff_tie (h : Newest rows row) :
    Newest rows other ↔ other ∈ rows ∧ compareRows other row = .eq := by
  rw [compareRows_eq_cmp, cmp_eq_eq_iff]
  constructor
  · rintro ⟨hmem, hmax⟩
    exact ⟨hmem, le_antisymm (h.2 _ hmem) (hmax _ h.1)⟩
  · rintro ⟨hmem, htie⟩
    exact ⟨hmem, fun next hnext => htie ▸ h.2 next hnext⟩

theorem judge_granted :
    (judge named rows).granted = true ↔ rows ≠ [] ∧ ∀ row, Newest rows row → row.result = .pass := by
  by_cases hrows : rows = []
  · simp [hrows, judge, newest, reduce]
  · obtain ⟨best, hbest, htop⟩ := exists_newest hrows
    simp only [judge, hbest, hrows, ne_eq, not_false_eq_true, true_and, List.all_eq_true,
      List.mem_filter, decide_eq_true_eq]
    exact forall_congr' fun row => by rw [newest_iff_tie htop]

theorem judge_reason : (judge named rows).reason =
    if rows = [] then some .olderThanEvidence
    else if (judge named rows).granted then none else some .recordedFailure := by
  by_cases hrows : rows = []
  · simp [hrows, judge, newest, reduce]
  · obtain ⟨best, hbest, -⟩ := exists_newest hrows
    simp only [judge, hbest, if_neg hrows]

theorem judge_of_ne_nil (h : rows ≠ []) : judge named rows = judge named' rows := by
  obtain ⟨best, hbest, -⟩ := exists_newest h
  simp only [judge, hbest]

/-! ## The rows that count -/

theorem mem_namedRows :
    row ∈ namedRows rows client capability ↔
      row ∈ rows ∧ some row.client = client ∧ row.capability = capability := by
  simp [namedRows]

theorem inReach_iff :
    compareVersionOrder (versionOrder (some row.version)) (some asked) ≠ .gt ↔
      row.order ≤ (asked : WithBot Triple) := by
  have hcmp : compareVersionOrder (versionOrder (some row.version)) (some asked) =
      cmp row.order (asked : WithBot Triple) := compareVersionOrder_eq_cmp
  rw [hcmp, ne_eq, cmp_eq_gt_iff, not_lt]

theorem reachableRows_some :
    reachableRows rows (some asked) = rows.filter fun row => row.order ≤ (asked : WithBot Triple) :=
  List.filter_congr fun _ _ => decide_eq_decide.mpr inReach_iff

theorem reachableRows_named :
    reachableRows (namedRows rows client capability) (some asked) =
      namedRows (rows.filter fun row => row.order ≤ (asked : WithBot Triple)) client capability := by
  rw [reachableRows_some, namedRows, namedRows, List.filter_comm]

/-- Whether the version that asks, if it can be read, has reached the row. -/
def InReach (version : Option Triple) (row : Row) : Prop :=
  ∀ asked, version = some asked → row.order ≤ (asked : WithBot Triple)

theorem mem_reachableRows : row ∈ reachableRows rows version ↔ row ∈ rows ∧ InReach version row := by
  cases version with
  | none => simp [reachableRows, InReach]
  | some asked => simp [reachableRows_some, InReach]

theorem mem_usableRows :
    row ∈ usableRows rows platform ↔
      row ∈ rows ∧ ((∃ own ∈ rows, some own.platform = platform) → some row.platform = platform) := by
  have hown : rows.filter (fun item => some item.platform = platform) ≠ [] ↔
      ∃ own ∈ rows, some own.platform = platform := by
    simp [List.filter_eq_nil_iff]
  rw [usableRows]
  by_cases h : ∃ own ∈ rows, some own.platform = platform
  · rw [if_pos (hown.mpr h), List.mem_filter, decide_eq_true_eq]
    simp only [h, true_implies]
  · rw [if_neg (mt hown.mp h)]
    simp only [h, false_implies, and_true]

theorem usableRows_eq_nil : usableRows rows platform = [] ↔ rows = [] := by
  rw [usableRows]
  split
  · next h => exact iff_of_false h fun hrows => h (by rw [hrows, List.filter_nil])
  · exact Iff.rfl

/-! ## The verdict -/

/-- The rows that a question is decided by. -/
def counted (adapter : Adapter) (facts : Facts) (capability : Text) : List Row :=
  usableRows (reachableRows
    (namedRows adapter.evidence (facts.clientName.or (primary adapter.client)) capability)
    (versionOrder facts.clientVersion)) facts.platform

/-- The adapter claims the capability, and the client that asks is one of its own. -/
def Claimed (adapter : Adapter) (facts : Facts) (capability : Text) : Prop :=
  splitCapability capability ∈ adapter.capabilities ∧
    facts.clientName.or (primary adapter.client) ∈ declared adapter.client

/-- A row about this capability of the client that asks, recorded by the version it has. -/
def Speaks (adapter : Adapter) (facts : Facts) (capability : Text) (row : Row) : Prop :=
  some row.client = facts.clientName.or (primary adapter.client) ∧ row.capability = capability ∧
    InReach (versionOrder facts.clientVersion) row

theorem mem_counted :
    row ∈ counted adapter facts capability ↔
      (row ∈ adapter.evidence ∧ Speaks adapter facts capability row) ∧
        ((∃ own ∈ adapter.evidence, Speaks adapter facts capability own ∧
          some own.platform = facts.platform) → some row.platform = facts.platform) := by
  simp only [counted, mem_usableRows, mem_reachableRows, mem_namedRows, Speaks, and_assoc]

theorem counted_eq_nil_of_unnamed
    (h : namedRows adapter.evidence (facts.clientName.or (primary adapter.client)) capability = []) :
    counted adapter facts capability = [] := by
  rw [counted, usableRows_eq_nil, h]
  exact List.eq_nil_iff_forall_not_mem.mpr fun row hrow =>
    List.not_mem_nil (mem_reachableRows.mp hrow).1

theorem capabilityEvidence_of_named (hclaimed : Claimed adapter facts capability)
    (hnamed : namedRows adapter.evidence (facts.clientName.or (primary adapter.client)) capability
      ≠ []) :
    capabilityEvidence adapter facts capability =
      judge (namedRows adapter.evidence (facts.clientName.or (primary adapter.client)) capability)
        (counted adapter facts capability) := by
  simp only [capabilityEvidence, hclaimed.1, hclaimed.2, hnamed, not_true_eq_false, if_false, counted]

theorem capabilityEvidence_of_unclaimed (h : ¬Claimed adapter facts capability) :
    capabilityEvidence adapter facts capability =
      ⟨false, some (if splitCapability capability ∈ adapter.capabilities then .unobserved
        else .undeclared), none⟩ := by
  rw [capabilityEvidence]
  by_cases hcapability : splitCapability capability ∈ adapter.capabilities
  · have hclient : facts.clientName.or (primary adapter.client) ∉ declared adapter.client :=
      fun hclient => h ⟨hcapability, hclient⟩
    simp only [hcapability, not_true_eq_false, if_false, hclient, not_false_eq_true, if_true]
  · simp only [hcapability, not_false_eq_true, if_true, if_false]

theorem granted_iff :
    (capabilityEvidence adapter facts capability).granted = true ↔
      Claimed adapter facts capability ∧ counted adapter facts capability ≠ [] ∧
        ∀ row, Newest (counted adapter facts capability) row → row.result = .pass := by
  by_cases hclaimed : Claimed adapter facts capability
  · by_cases hnamed : namedRows adapter.evidence (facts.clientName.or (primary adapter.client))
        capability = []
    · simp [capabilityEvidence, hclaimed.1, hclaimed.2, hnamed, counted_eq_nil_of_unnamed hnamed]
    · rw [capabilityEvidence_of_named hclaimed hnamed, judge_granted]
      simp only [hclaimed, true_and]
  · refine iff_of_false ?_ fun h => hclaimed h.1
    rw [capabilityEvidence_of_unclaimed hclaimed]
    simp

theorem reason_of_claimed (h : Claimed adapter facts capability) :
    (capabilityEvidence adapter facts capability).reason =
      if namedRows adapter.evidence (facts.clientName.or (primary adapter.client)) capability = [] then
        some .unobserved
      else if counted adapter facts capability = [] then some .olderThanEvidence
      else if (capabilityEvidence adapter facts capability).granted then none
      else some .recordedFailure := by
  split
  · next hnamed => simp [capabilityEvidence, h.1, h.2, hnamed]
  · next hnamed => rw [capabilityEvidence_of_named h hnamed, judge_reason]

/-- The client that asks does not depend on the rows. -/
def Adapter.withEvidence (adapter : Adapter) (rows : List Row) : Adapter :=
  { adapter with evidence := rows }

/-- The rows count as a set. -/
theorem capabilityEvidence_congr (h : ∀ row, row ∈ rows ↔ row ∈ rows') :
    (capabilityEvidence (adapter.withEvidence rows) facts capability).granted =
        (capabilityEvidence (adapter.withEvidence rows') facts capability).granted ∧
      (capabilityEvidence (adapter.withEvidence rows) facts capability).reason =
        (capabilityEvidence (adapter.withEvidence rows') facts capability).reason := by
  have hcounted : ∀ row, row ∈ counted (adapter.withEvidence rows) facts capability ↔
      row ∈ counted (adapter.withEvidence rows') facts capability := by
    intro row
    rw [mem_counted, mem_counted]
    simp only [Adapter.withEvidence, Speaks, h]
  have hempty : counted (adapter.withEvidence rows) facts capability = [] ↔
      counted (adapter.withEvidence rows') facts capability = [] := by
    simp only [List.eq_nil_iff_forall_not_mem, hcounted]
  have hclaimed : Claimed (adapter.withEvidence rows) facts capability ↔
      Claimed (adapter.withEvidence rows') facts capability := Iff.rfl
  have hgranted : (capabilityEvidence (adapter.withEvidence rows) facts capability).granted =
      (capabilityEvidence (adapter.withEvidence rows') facts capability).granted := by
    rw [Bool.eq_iff_iff, granted_iff, granted_iff]
    simp only [hclaimed, ne_eq, hempty, Newest, hcounted]
  refine ⟨hgranted, ?_⟩
  by_cases hasks : Claimed (adapter.withEvidence rows) facts capability
  · have hnamed :
        namedRows rows (facts.clientName.or (primary adapter.client)) capability = [] ↔
          namedRows rows' (facts.clientName.or (primary adapter.client)) capability = [] := by
      simp only [List.eq_nil_iff_forall_not_mem, mem_namedRows, h]
    rw [reason_of_claimed hasks, reason_of_claimed (hclaimed.mp hasks), hgranted]
    simp only [hempty]
    exact if_congr hnamed rfl rfl
  · rw [capabilityEvidence_of_unclaimed hasks, capabilityEvidence_of_unclaimed (mt hclaimed.mpr hasks)]
    rfl

/-- Only the rows in reach are read, once there is one. -/
theorem capabilityEvidence_reach (hversion : versionOrder facts.clientVersion = some asked)
    (hsame : rows.filter (fun row => row.order ≤ (asked : WithBot Triple)) =
      rows'.filter fun row => row.order ≤ (asked : WithBot Triple))
    (hreach : ∃ row ∈ rows, Speaks adapter facts capability row) :
    capabilityEvidence (adapter.withEvidence rows) facts capability =
      capabilityEvidence (adapter.withEvidence rows') facts capability := by
  have hcounted : counted (adapter.withEvidence rows) facts capability =
      counted (adapter.withEvidence rows') facts capability := by
    simp only [counted, Adapter.withEvidence, hversion, reachableRows_named, hsame]
  by_cases hclaimed : Claimed adapter facts capability
  · obtain ⟨row, hrow, hspeaks⟩ := hreach
    have hrow' : row ∈ rows' := by
      have hkept : row ∈ rows.filter fun row => row.order ≤ (asked : WithBot Triple) :=
        List.mem_filter.mpr ⟨hrow, decide_eq_true (hspeaks.2.2 asked hversion)⟩
      rw [hsame] at hkept
      exact (List.mem_filter.mp hkept).1
    have hnamed : ∀ {rows}, row ∈ rows →
        namedRows rows (facts.clientName.or (primary adapter.client)) capability ≠ [] :=
      fun hmem => List.ne_nil_of_mem (mem_namedRows.mpr ⟨hmem, hspeaks.1, hspeaks.2.1⟩)
    have hfound : counted (adapter.withEvidence rows) facts capability ≠ [] := by
      rw [counted, ne_eq, usableRows_eq_nil]
      exact List.ne_nil_of_mem
        (mem_reachableRows.mpr ⟨mem_namedRows.mpr ⟨hrow, hspeaks.1, hspeaks.2.1⟩, hspeaks.2.2⟩)
    have hjudge := @capabilityEvidence_of_named capability (adapter.withEvidence rows) facts hclaimed
      (hnamed hrow)
    have hjudge' := @capabilityEvidence_of_named capability (adapter.withEvidence rows') facts hclaimed
      (hnamed hrow')
    rw [hjudge, hjudge', ← hcounted]
    exact judge_of_ne_nil hfound
  · have hrefuse := @capabilityEvidence_of_unclaimed capability (adapter.withEvidence rows) facts hclaimed
    exact hrefuse.trans
      (@capabilityEvidence_of_unclaimed capability (adapter.withEvidence rows') facts hclaimed).symm

/-- Two versions that have reached the same rows. -/
theorem capabilityEvidence_between {version version' : Option Text} {asked asked' : Triple}
    (hversion : versionOrder version = some asked) (hversion' : versionOrder version' = some asked')
    (hsame : ∀ row ∈ namedRows adapter.evidence (facts.clientName.or (primary adapter.client))
      capability, row.order ≤ (asked : WithBot Triple) ↔ row.order ≤ (asked' : WithBot Triple)) :
    capabilityEvidence adapter { facts with clientVersion := version } capability =
      capabilityEvidence adapter { facts with clientVersion := version' } capability := by
  have hreach : reachableRows (namedRows adapter.evidence
      (facts.clientName.or (primary adapter.client)) capability) (some asked) =
      reachableRows (namedRows adapter.evidence
        (facts.clientName.or (primary adapter.client)) capability) (some asked') := by
    rw [reachableRows_some, reachableRows_some]
    exact List.filter_congr fun row hrow => decide_eq_decide.mpr (hsame row hrow)
  simp only [capabilityEvidence, hversion, hversion', hreach]

/-- A failure that is added grants nothing. -/
theorem granted_of_failed {before after : List Row} (hfailed : failed.result = .fail)
    (h : (capabilityEvidence (adapter.withEvidence (before ++ failed :: after)) facts
      capability).granted = true) :
    (capabilityEvidence (adapter.withEvidence (before ++ after)) facts capability).granted = true := by
  obtain ⟨hclaimed, hfound, hpass⟩ := granted_iff.mp h
  obtain ⟨best, -, hbest⟩ := exists_newest hfound
  have hmem : ∀ {row}, row ∈ before ++ failed :: after ↔ row = failed ∨ row ∈ before ++ after := by
    simp [or_left_comm]
  have hold : ∀ {row}, row ∈ counted (adapter.withEvidence (before ++ failed :: after)) facts
      capability → row ≠ failed →
      row ∈ counted (adapter.withEvidence (before ++ after)) facts capability := by
    intro row hrow hne
    obtain ⟨⟨hrow, hspeaks⟩, hown⟩ := mem_counted.mp hrow
    refine mem_counted.mpr ⟨⟨(hmem.mp hrow).resolve_left hne, hspeaks⟩, ?_⟩
    rintro ⟨own, hown', hplatform⟩
    exact hown ⟨own, hmem.mpr (.inr hown'), hplatform⟩
  -- A failure that is the newest would have refused.
  have hbestNe : best ≠ failed := by
    rintro rfl
    exact Outcome.noConfusion (hfailed.symm.trans (hpass _ hbest))
  have hbestOld := hold hbest.1 hbestNe
  refine granted_iff.mpr ⟨hclaimed, List.ne_nil_of_mem hbestOld, fun row hrow => hpass row ⟨?_, ?_⟩⟩
  · obtain ⟨⟨hmemRow, hspeaks⟩, hown⟩ := mem_counted.mp hrow.1
    refine mem_counted.mpr ⟨⟨hmem.mpr (.inr hmemRow), hspeaks⟩, fun hnew => ?_⟩
    -- Where the failure is the only row of the platform, it is the only one that counts.
    have hbestOwn := (mem_counted.mp hbest.1).2 hnew
    exact hown ⟨best, (mem_counted.mp hbestOld).1.1, (mem_counted.mp hbestOld).1.2, hbestOwn⟩
  · intro other hother
    exact (hbest.2 other hother).trans (hrow.2 best hbestOld)

/-- Whatever the rows: their order is not read, those above a version that can be read and has
one in reach change nothing, every version from one named triple to the next gets one verdict,
and no failure that is added grants. -/
theorem capabilityEvidence_forward (adapter : Adapter) (facts : Facts) (capability : Text) :
    (∀ rows, rows.Perm adapter.evidence →
      (capabilityEvidence (adapter.withEvidence rows) facts capability).granted =
          (capabilityEvidence adapter facts capability).granted ∧
        (capabilityEvidence (adapter.withEvidence rows) facts capability).reason =
          (capabilityEvidence adapter facts capability).reason) ∧
    (∀ asked rows, versionOrder facts.clientVersion = some asked →
      (∃ row ∈ adapter.evidence, Speaks adapter facts capability row) →
      (adapter.evidence.filter fun row => row.order ≤ (asked : WithBot Triple)) =
        (rows.filter fun row => row.order ≤ (asked : WithBot Triple)) →
      capabilityEvidence (adapter.withEvidence rows) facts capability =
        capabilityEvidence adapter facts capability) ∧
    (∀ version version' asked asked' (triple : Triple), versionOrder version = some asked →
      versionOrder version' = some asked' → triple ≤ asked → triple ≤ asked' →
      (∀ row ∈ namedRows adapter.evidence (facts.clientName.or (primary adapter.client)) capability,
        triple < row.order → asked < row.order ∧ asked' < row.order) →
      capabilityEvidence adapter { facts with clientVersion := version } capability =
        capabilityEvidence adapter { facts with clientVersion := version' } capability) ∧
    ∀ before failed after, adapter.evidence = before ++ after → failed.result = .fail →
      (capabilityEvidence adapter facts capability).granted = false →
      (capabilityEvidence (adapter.withEvidence (before ++ failed :: after)) facts
        capability).granted = false := by
  refine ⟨?perm, ?above, ?between, ?failure⟩
  case perm =>
    intro rows hperm
    exact @capabilityEvidence_congr rows adapter.evidence _ adapter facts fun row => hperm.mem_iff
  case above =>
    intro asked rows hversion hreach hsame
    exact (@capabilityEvidence_reach adapter.evidence rows _ adapter _ _ hversion hsame hreach).symm
  case between =>
    intro version version' asked asked' triple hversion hversion' hle hle' hnext
    refine capabilityEvidence_between hversion hversion' fun row hrow => ?_
    rcases le_or_gt row.order (triple : WithBot Triple) with h | h
    · exact iff_of_true (h.trans (WithBot.coe_le_coe.mpr hle)) (h.trans (WithBot.coe_le_coe.mpr hle'))
    · exact iff_of_false (hnext row hrow h).1.not_ge (hnext row hrow h).2.not_ge
  case failure =>
    intro before failed after hevidence hfailed hrefused
    rw [← Bool.not_eq_true] at hrefused ⊢
    intro hgranted
    have hold := granted_of_failed hfailed hgranted
    rw [← hevidence] at hold
    exact hrefused hold

end Acc.AdapterSdk.Certification
