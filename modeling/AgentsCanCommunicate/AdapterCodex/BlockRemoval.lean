import AgentsCanCommunicate.AdapterCodex.ConfigBlock

/-!
# What is left without ACC's block

The text that `inspect` returns is scanned to the declarations outside of ACC's tables, each
with its text and its whole path (`inspect_kept`).

The table that a declaration stands in is the one of the last header, so leaving out a table
of ACC's moves nothing: what follows it in the kept text begins with a header.
-/

namespace Acc.AdapterCodex.ConfigBlock

open Library Library.Text
open AdapterSdk.TomlBlock (BEGIN END)
open AdapterSdk.TomlScan

/-! ## ACC's tables -/

/-- A header of a table of ACC's stands between the markers, and the sandbox has the root that
its comment names. -/
def opensOwned (inside : Bool) (header : Entry) (body : List Entry) : Bool :=
  inside && (OWNED.lookup header.keys).isSome &&
    (header.keys ≠ sandboxKeys || ownsSandbox (body.map Entry.toStatement))

/-- The declarations outside of ACC's tables.  A table goes on to the next header. -/
def foreignFrom (inside owned : Bool) : List Entry → List Entry
  | [] => []
  | entry :: rest =>
      let inside' :=
        if isBegin entry.toStatement then true
        else if isEndMarker entry.toStatement then false
        else inside
      let owned' :=
        if entry.header then opensOwned inside entry (rest.takeWhile (!·.header)) else owned
      if hasCode entry.toStatement && !owned' then entry :: foreignFrom inside' owned' rest
      else foreignFrom inside' owned' rest

def foreign (entries : List Entry) : List Entry := foreignFrom false false entries

def declared (entries : List Entry) : List Entry :=
  entries.filter fun entry => hasCode entry.toStatement

/-- The text of a declaration and the path that it declares. -/
def Entry.place (entry : Entry) : Text × List Text := (entry.raw, entry.keys)

/-- What is kept of a text: no table of ACC's, and each declaration outside of them in its
place. -/
structure Kept (source kept : Text) : Prop where
  exists_scan : ∃ before after, scanConfig source = .ok before ∧ scanConfig kept = .ok after ∧
    foreign after = declared after ∧ (declared after).map Entry.place = (foreign before).map Entry.place

/-! ## One statement -/

variable {s s' s'' : State} {item : Statement} {items qs rest body : List Statement}
  {entry : Declaration} {n m : Nat} {table table' : List Text} {entries after : List Entry}

def isMarker (item : Statement) : Bool := isBegin item || isEndMarker item

theorem hasCode_of_isBegin (h : isBegin item = true) : hasCode item = false := by
  rw [isBegin, Bool.and_eq_true] at h
  rw [hasCode, h.1]
  rfl

theorem hasCode_of_isEndMarker (h : isEndMarker item = true) : hasCode item = false := by
  rw [isEndMarker, Bool.and_eq_true] at h
  rw [hasCode, h.1]
  rfl

theorem isMarker_of_hasCode (h : hasCode item = true) : isMarker item = false := by
  rw [isMarker, Bool.or_eq_false_iff]
  constructor
  · exact Bool.eq_false_iff.mpr fun hbegin => by rw [hasCode_of_isBegin hbegin] at h; cases h
  · exact Bool.eq_false_iff.mpr fun hend => by rw [hasCode_of_isEndMarker hend] at h; cases h

/-- The marker of the end is not the one of the beginning. -/
theorem isBegin_of_isEndMarker (h : isEndMarker item = true) : isBegin item = false := by
  have hne : END ≠ BEGIN := by decide
  rw [isEndMarker, Bool.and_eq_true, decide_eq_true_eq] at h
  rw [isBegin, h.2, decide_eq_false hne, Bool.and_false]

theorem code_eq_nil (h : hasCode item = false) : item.code = [] := by
  rw [hasCode, Bool.not_eq_false'] at h
  exact List.isEmpty_iff.mp h

theorem code_ne_nil (h : hasCode item = true) : item.code ≠ [] := by
  intro hnil
  rw [hasCode, hnil] at h
  cases h

/-- What a comment is scanned to. -/
def commentEntry (n : Nat) (table : List Text) (item : Statement) : Entry :=
  ⟨item, n, n + item.raw.length, table, [], false, false, none⟩

/-- What a declaration is scanned to. -/
def declaredEntry (n : Nat) (table : List Text) (item : Statement) (entry : Declaration) : Entry :=
  ⟨item, n, n + item.raw.length, if entry.header then entry.keys else table,
    if entry.header then entry.keys else table ++ entry.keys, entry.header, entry.array, entry.value⟩

theorem scanFrom_cons_comment (h : hasCode item = false) : scanFrom n table (item :: rest) =
    (scanFrom (n + item.raw.length) table rest).map (commentEntry n table item :: ·) := by
  rw [scanFrom, if_pos (code_eq_nil h)]
  cases scanFrom (n + item.raw.length) table rest <;> rfl

theorem scanFrom_cons (h : hasCode item = true) (hentry : declaration item.code = .ok entry) :
    scanFrom n table (item :: rest) =
      (scanFrom (n + item.raw.length) (if entry.header then entry.keys else table) rest).map
        (declaredEntry n table item entry :: ·) := by
  rw [scanFrom, if_neg (code_ne_nil h), hentry]
  cases hrest : scanFrom (n + item.raw.length) (if entry.header then entry.keys else table) rest with
  | error e => simp [Bind.bind, Except.bind, hrest, Except.map]
  | ok others => simp [Bind.bind, Except.bind, hrest, Except.map, pure, Except.pure, declaredEntry]

/-- The body of a table, as the scan has it. -/
theorem tableBody_of_scan (h : scanFrom n table items = .ok entries) :
    tableBody items = .ok ((entries.takeWhile (!·.header)).map Entry.toStatement) := by
  induction items generalizing n table entries with
  | nil =>
      cases h
      rfl
  | cons item rest ih =>
      rw [tableBody]
      cases hcode : hasCode item with
      | false =>
          rw [scanFrom_cons_comment hcode] at h
          obtain ⟨others, hothers, rfl⟩ := map_eq_ok.mp h
          rw [if_neg Bool.false_ne_true, ih hothers]
          rfl
      | true =>
          cases hentry : declaration item.code with
          | error e =>
              rw [scanFrom, if_neg (code_ne_nil hcode), hentry] at h
              cases h
          | ok entry =>
              rw [scanFrom_cons hcode hentry] at h
              obtain ⟨others, hothers, rfl⟩ := map_eq_ok.mp h
              rw [if_pos rfl]
              cases hheader : entry.header with
              | true => simp [declaredEntry, hheader]
              | false =>
                  simp [ih hothers, declaredEntry, hheader, Except.map]

/-! ## One step -/

/-- What a statement does to the state. -/
inductive Inspected (s : State) (item : Statement) (rest : List Statement) : State → Prop
  | opened : isBegin item = true → s.inside = false →
      Inspected s item rest { s with inside := true }
  | closed : isEndMarker item = true → s.inside = true →
      Inspected s item rest { s with inside := false }
  | comment : hasCode item = false → isMarker item = false →
      Inspected s item rest (if keepsComment s item then s.keep item else s)
  | ownedHeader (entry : Declaration) (keys : List Text) : hasCode item = true →
      declaration item.code = .ok entry → entry.header = true →
      ownedBy s.inside entry.keys rest = .ok (some keys) →
      Inspected s item rest { s with table := entry.keys, owned := some keys }
  | header (entry : Declaration) : hasCode item = true → declaration item.code = .ok entry →
      entry.header = true → ownedBy s.inside entry.keys rest = .ok none →
      Inspected s item rest
        (({ s with table := entry.keys, owned := none } : State).declare item entry.keys true)
  | ownedAssignment (entry : Declaration) : hasCode item = true →
      declaration item.code = .ok entry → entry.header = false → s.owned.isSome = true →
      s.inside = true → Inspected s item rest s
  | assignment (entry : Declaration) : hasCode item = true → declaration item.code = .ok entry →
      entry.header = false → s.owned = none →
      Inspected s item rest (s.declare item (s.table ++ entry.keys) false)

theorem inspectHeader_inspected (hcode : hasCode item = true)
    (hentry : declaration item.code = .ok entry) (hheader : entry.header = true)
    (h : inspectHeader s item entry rest = .ok s') : Inspected s item rest s' := by
  rw [inspectHeader] at h
  cases howned : ownedBy s.inside entry.keys rest with
  | error e =>
      rw [howned] at h
      cases h
  | ok owned =>
      rw [howned] at h
      cases owned with
      | none =>
          cases h
          exact .header entry hcode hentry hheader howned
      | some keys =>
          have hs : s' = { s with table := entry.keys, owned := some keys } := by
            simp only [Bind.bind, Except.bind] at h
            split at h
            next => cases h
            next =>
              split at h
              next =>
                split at h
                next => cases h
                next =>
                  split at h
                  next => cases h
                  next => exact (Except.ok.inj h).symm
              next => exact (Except.ok.inj h).symm
          rw [hs]
          exact .ownedHeader entry keys hcode hentry hheader howned

theorem inspectAssignment_inspected (hcode : hasCode item = true)
    (hentry : declaration item.code = .ok entry) (hheader : entry.header = false)
    (h : inspectAssignment s item entry = .ok s') : Inspected s item rest s' := by
  rw [inspectAssignment] at h
  split at h
  next howned =>
    cases h
    exact .assignment entry hcode hentry hheader howned
  next keys howned =>
    split at h
    next => cases h
    next hinside =>
      split at h
      next => cases h
      next =>
        cases h
        exact .ownedAssignment entry hcode hentry hheader (by rw [howned]; rfl)
          (Bool.eq_true_of_not_eq_false hinside)

theorem inspectItem_inspected (h : inspectItem s item rest = .ok s') :
    Inspected s item rest s' := by
  rw [inspectItem] at h
  split at h
  next hbegin =>
    split at h
    next => cases h
    next hinside =>
      cases h
      exact .opened hbegin (Bool.eq_false_of_not_eq_true hinside)
  next hbegin =>
    split at h
    next hend =>
      split at h
      next hinside =>
        cases h
        exact .closed hend hinside
      next => cases h
    next hend =>
      have hmarker : isMarker item = false := by simp [isMarker, hbegin, hend]
      split at h
      next hcode =>
        cases h
        exact .comment hcode hmarker
      next hcode =>
        have hcode : hasCode item = true := Bool.eq_true_of_not_eq_false hcode
        split at h
        next => cases h
        next entry hentry =>
          split at h
          next hheader => exact inspectHeader_inspected hcode hentry hheader h
          next hheader =>
            exact inspectAssignment_inspected hcode hentry (Bool.eq_false_of_not_eq_true hheader) h

/-! ## Declarations outside of ACC's tables -/

variable {inside owned : Bool} {keys : List Text}

theorem foreignFrom_begin (h : isBegin item = true) :
    foreignFrom inside owned (commentEntry n table item :: entries) =
      foreignFrom true owned entries := by
  simp [foreignFrom, commentEntry, h, hasCode_of_isBegin h]

theorem foreignFrom_end (h : isEndMarker item = true) :
    foreignFrom inside owned (commentEntry n table item :: entries) =
      foreignFrom false owned entries := by
  simp [foreignFrom, commentEntry, h, isBegin_of_isEndMarker h, hasCode_of_isEndMarker h]

theorem foreignFrom_comment (hcode : hasCode item = false) (hmarker : isMarker item = false) :
    foreignFrom inside owned (commentEntry n table item :: entries) =
      foreignFrom inside owned entries := by
  rw [isMarker, Bool.or_eq_false_iff] at hmarker
  simp [foreignFrom, commentEntry, hcode, hmarker.1, hmarker.2]

theorem foreignFrom_assignment (hcode : hasCode item = true) (hheader : entry.header = false) :
    foreignFrom inside owned (declaredEntry n table item entry :: entries) =
      if owned then foreignFrom inside true entries
      else declaredEntry n table item entry :: foreignFrom inside false entries := by
  have hmarker := isMarker_of_hasCode hcode
  rw [isMarker, Bool.or_eq_false_iff] at hmarker
  cases owned <;> simp [foreignFrom, declaredEntry, hcode, hmarker.1, hmarker.2, hheader]

theorem foreignFrom_header (hcode : hasCode item = true) (hheader : entry.header = true) :
    foreignFrom inside owned (declaredEntry n table item entry :: entries) =
      if opensOwned inside (declaredEntry n table item entry) (entries.takeWhile (!·.header)) then
        foreignFrom inside true entries
      else declaredEntry n table item entry :: foreignFrom inside false entries := by
  have hmarker := isMarker_of_hasCode hcode
  rw [isMarker, Bool.or_eq_false_iff] at hmarker
  have hto : (declaredEntry n table item entry).toStatement = item := rfl
  have hopen : (declaredEntry n table item entry).header = true := hheader
  rw [foreignFrom, hto, hopen, hcode, hmarker.1, hmarker.2]
  cases opensOwned inside (declaredEntry n table item entry) (entries.takeWhile (!·.header)) <;> rfl

theorem opensOwned_eq (hscan : scanFrom m table' rest = .ok entries) (hheader : entry.header = true)
    {found : Option (List Text)} (h : ownedBy inside entry.keys rest = .ok found) :
    opensOwned inside (declaredEntry n table item entry) (entries.takeWhile (!·.header)) =
      found.isSome := by
  have hkeys : (declaredEntry n table item entry).keys = entry.keys := if_pos hheader
  rw [opensOwned, hkeys]
  rw [ownedBy, tableBody_of_scan hscan] at h
  cases inside with
  | false =>
      cases h
      rfl
  | true =>
      simp only [if_true] at h
      cases hlookup : OWNED.lookup entry.keys with
      | none =>
          rw [hlookup] at h
          cases h
          rfl
      | some keys =>
          rw [hlookup] at h
          simp only at h
          split at h
          next hsandbox =>
            obtain ⟨body, hbody, rfl⟩ := map_eq_ok.mp h
            cases hbody
            cases howns : ownsSandbox ((entries.takeWhile (!·.header)).map Entry.toStatement) <;>
              simp [hsandbox, howns]
          next hsandbox =>
            cases h
            simp [hsandbox]

/-- Without markers every declaration is outside of ACC's tables. -/
theorem foreign_eq_declared (h : ∀ entry ∈ entries, isBegin entry.toStatement = false) :
    foreign entries = declared entries := by
  rw [foreign, declared]
  induction entries with
  | nil => rfl
  | cons entry rest ih =>
      obtain ⟨hentry, hrest⟩ := List.forall_mem_cons.mp h
      rw [foreignFrom, hentry]
      have hinside : (if isEndMarker entry.toStatement then false else false) = false := by
        split <;> rfl
      have howned : (if entry.header then opensOwned false entry (rest.takeWhile (!·.header)) else
          false) = false := by
        split <;> rfl
      simp only [Bool.false_eq_true, if_false, hinside, howned, Bool.not_false, Bool.and_true, ih hrest]
      rw [List.filter_cons]

/-! ## The run -/

/-- What is kept of some statements has the declarations outside of ACC's tables in their
places, wherever it is put: where a table of ACC's is open, the next declaration is a header. -/
def Follows (s : State) (items qs : List Statement) : Prop :=
  ∀ n m table', (s.owned = none → table' = s.table) → ∃ entries after,
    scanFrom n s.table items = .ok entries ∧ scanFrom m table' qs = .ok after ∧
      (declared after).map Entry.place =
        (foreignFrom s.inside s.owned.isSome entries).map Entry.place

theorem declared_comment (h : hasCode item = false) :
    declared (commentEntry n table item :: entries) = declared entries := by
  simp [declared, commentEntry, h]

theorem declared_declaredEntry (h : hasCode item = true) :
    declared (declaredEntry n table item entry :: entries) =
      declaredEntry n table item entry :: declared entries := by
  simp [declared, declaredEntry, h]

theorem follows_nil : Follows s [] [] := fun _ _ _ _ => ⟨[], [], rfl, rfl, rfl⟩

/-- A comment that goes, and a marker, which may change the side. -/
theorem follows_dropped (s' : State) (hcode : hasCode item = false) (htable : s'.table = s.table)
    (howned : s'.owned = s.owned)
    (hforeign : ∀ n entries, foreignFrom s.inside s.owned.isSome (commentEntry n s.table item :: entries) =
      foreignFrom s'.inside s'.owned.isSome entries)
    (h : Follows s' items qs) : Follows s (item :: items) qs := by
  intro n m table' htable'
  obtain ⟨entries, after, hscan, hafter, hplace⟩ := h (n + item.raw.length) m table' fun hnone => by
    rw [htable, htable' (howned ▸ hnone)]
  refine ⟨commentEntry n s.table item :: entries, after, ?_, hafter, ?_⟩
  · rw [scanFrom_cons_comment hcode, ← htable, hscan]
    rfl
  · rw [hforeign, hplace]

theorem follows_kept (hcode : hasCode item = false) (hmarker : isMarker item = false)
    (h : Follows (s.keep item) items qs) : Follows s (item :: items) (item :: qs) := by
  intro n m table' htable'
  obtain ⟨entries, after, hscan, hafter, hplace⟩ :=
    h (n + item.raw.length) (m + item.raw.length) table' htable'
  refine ⟨commentEntry n s.table item :: entries, commentEntry m table' item :: after, ?_, ?_, ?_⟩
  · rw [scanFrom_cons_comment hcode]
    exact map_eq_ok.mpr ⟨entries, hscan, rfl⟩
  · rw [scanFrom_cons_comment hcode]
    exact map_eq_ok.mpr ⟨after, hafter, rfl⟩
  · rw [declared_comment hcode, foreignFrom_comment hcode hmarker]
    exact hplace

theorem follows_ownedHeader (hcode : hasCode item = true) (hentry : declaration item.code = .ok entry)
    (hheader : entry.header = true) (howned : ownedBy s.inside entry.keys items = .ok (some keys))
    (h : Follows { s with table := entry.keys, owned := some keys } items qs) :
    Follows s (item :: items) qs := by
  intro n m table' _
  obtain ⟨entries, after, hscan, hafter, hplace⟩ :=
    h (n + item.raw.length) m table' (fun hnone => nomatch hnone)
  refine ⟨declaredEntry n s.table item entry :: entries, after, ?_, hafter, ?_⟩
  · rw [scanFrom_cons hcode hentry, if_pos hheader]
    exact map_eq_ok.mpr ⟨entries, hscan, rfl⟩
  · rw [foreignFrom_header hcode hheader, opensOwned_eq hscan hheader howned]
    exact hplace

theorem follows_header (hcode : hasCode item = true) (hentry : declaration item.code = .ok entry)
    (hheader : entry.header = true) (howned : ownedBy s.inside entry.keys items = .ok none)
    (h : Follows (({ s with table := entry.keys, owned := none } : State).declare item entry.keys true)
      items qs) : Follows s (item :: items) (item :: qs) := by
  intro n m table' _
  obtain ⟨entries, after, hscan, hafter, hplace⟩ :=
    h (n + item.raw.length) (m + item.raw.length) entry.keys fun _ => rfl
  refine ⟨declaredEntry n s.table item entry :: entries, declaredEntry m table' item entry :: after,
    ?_, ?_, ?_⟩
  · rw [scanFrom_cons hcode hentry, if_pos hheader]
    exact map_eq_ok.mpr ⟨entries, hscan, rfl⟩
  · rw [scanFrom_cons hcode hentry, if_pos hheader]
    exact map_eq_ok.mpr ⟨after, hafter, rfl⟩
  · rw [declared_declaredEntry hcode, foreignFrom_header hcode hheader,
      opensOwned_eq hscan hheader howned]
    have hplaces : Entry.place (declaredEntry m table' item entry) =
        Entry.place (declaredEntry n s.table item entry) := by
      simp [Entry.place, declaredEntry, hheader]
    exact congrArg₂ List.cons hplaces hplace

theorem follows_ownedAssignment (hcode : hasCode item = true)
    (hentry : declaration item.code = .ok entry) (hheader : entry.header = false)
    (howned : s.owned.isSome = true) (h : Follows s items qs) : Follows s (item :: items) qs := by
  intro n m table' htable'
  obtain ⟨entries, after, hscan, hafter, hplace⟩ := h (n + item.raw.length) m table' htable'
  refine ⟨declaredEntry n s.table item entry :: entries, after, ?_, hafter, ?_⟩
  · rw [scanFrom_cons hcode hentry, hheader]
    exact map_eq_ok.mpr ⟨entries, hscan, rfl⟩
  · rw [foreignFrom_assignment hcode hheader, if_pos howned]
    rwa [howned] at hplace

theorem follows_assignment (hcode : hasCode item = true) (hentry : declaration item.code = .ok entry)
    (hheader : entry.header = false) (howned : s.owned = none)
    (h : Follows (s.declare item (s.table ++ entry.keys) false) items qs) :
    Follows s (item :: items) (item :: qs) := by
  intro n m table' htable'
  obtain rfl := htable' howned
  obtain ⟨entries, after, hscan, hafter, hplace⟩ :=
    h (n + item.raw.length) (m + item.raw.length) s.table fun _ => rfl
  refine ⟨declaredEntry n s.table item entry :: entries,
    declaredEntry m s.table item entry :: after, ?_, ?_, ?_⟩
  · rw [scanFrom_cons hcode hentry, hheader]
    exact map_eq_ok.mpr ⟨entries, hscan, rfl⟩
  · rw [scanFrom_cons hcode hentry, hheader]
    exact map_eq_ok.mpr ⟨after, hafter, rfl⟩
  · rw [declared_declaredEntry hcode, foreignFrom_assignment hcode hheader, howned]
    have hinside : (s.declare item (s.table ++ entry.keys) false).owned = none := howned
    rw [hinside] at hplace
    exact congrArg₂ List.cons rfl hplace

/-- What is kept of some statements are some of them, none of which is a marker. -/
structure Keeps (s s' : State) (items qs : List Statement) : Prop where
  sublist : qs.Sublist items
  kept : s'.kept = s.kept ++ qs.map Statement.raw
  not_marker : ∀ item ∈ qs, isMarker item = false
  follows : Follows s items qs

/-- A statement is kept with its text, or it is left out. -/
theorem keeps_step (h : Inspected s item rest s') (hrest : Keeps s' s'' rest qs) :
    ∃ qs', Keeps s s'' (item :: rest) qs' := by
  obtain ⟨hsub, hkept, hmarkers, hfollows⟩ := hrest
  cases h with
  | opened hbegin hinside =>
      refine ⟨qs, hsub.cons item, hkept, hmarkers,
        follows_dropped { s with inside := true } (hasCode_of_isBegin hbegin) rfl rfl
          (fun n entries => ?_) hfollows⟩
      exact foreignFrom_begin hbegin
  | closed hend hinside =>
      refine ⟨qs, hsub.cons item, hkept, hmarkers,
        follows_dropped { s with inside := false } (hasCode_of_isEndMarker hend) rfl rfl
          (fun n entries => ?_) hfollows⟩
      exact foreignFrom_end hend
  | comment hcode hmarker =>
      cases hkeeps : keepsComment s item with
      | true =>
          rw [hkeeps] at hkept hfollows
          refine ⟨item :: qs, hsub.cons_cons item, ?_, List.forall_mem_cons.mpr ⟨hmarker, hmarkers⟩,
            follows_kept hcode hmarker hfollows⟩
          rw [hkept, List.map_cons, List.append_cons]
          rfl
      | false =>
          rw [hkeeps] at hkept hfollows
          exact ⟨qs, hsub.cons item, hkept, hmarkers,
            follows_dropped _ hcode rfl rfl (fun n entries => foreignFrom_comment hcode hmarker) hfollows⟩
  | ownedHeader entry keys hcode hentry hheader howned =>
      exact ⟨qs, hsub.cons item, hkept, hmarkers,
        follows_ownedHeader hcode hentry hheader howned hfollows⟩
  | header entry hcode hentry hheader howned =>
      refine ⟨item :: qs, hsub.cons_cons item, ?_,
        List.forall_mem_cons.mpr ⟨isMarker_of_hasCode hcode, hmarkers⟩,
        follows_header hcode hentry hheader howned hfollows⟩
      rw [hkept, List.map_cons, List.append_cons]
      rfl
  | ownedAssignment entry hcode hentry hheader howned hinside =>
      exact ⟨qs, hsub.cons item, hkept, hmarkers,
        follows_ownedAssignment hcode hentry hheader howned hfollows⟩
  | assignment entry hcode hentry hheader howned =>
      refine ⟨item :: qs, hsub.cons_cons item, ?_,
        List.forall_mem_cons.mpr ⟨isMarker_of_hasCode hcode, hmarkers⟩,
        follows_assignment hcode hentry hheader howned hfollows⟩
      rw [hkept, List.map_cons, List.append_cons]
      rfl

theorem inspectFrom_keeps (h : inspectFrom s items = .ok s') : ∃ qs, Keeps s s' items qs := by
  induction items generalizing s with
  | nil =>
      cases h
      exact ⟨[], .slnil, (List.append_nil _).symm, by simp, follows_nil⟩
  | cons item rest ih =>
      rw [inspectFrom] at h
      split at h
      next => cases h
      next s₁ hitem =>
        obtain ⟨qs, hkeeps⟩ := ih h
        exact keeps_step (inspectItem_inspected hitem) hkeeps

/-! ## The whole text -/

variable {source : Text} {result : Inspection}

theorem inspect_eq_ok (h : inspect source = .ok result) : ∃ items s, statements source = .ok items ∧
    inspectFrom .initial items = .ok s ∧ s.inside = false ∧ result.source = s.kept.flatten := by
  rw [inspect] at h
  cases hitems : statements source with
  | error e =>
      rw [hitems] at h
      cases h
  | ok items =>
      cases hs : inspectFrom .initial items with
      | error e =>
          rw [hitems] at h
          simp only [Bind.bind, Except.bind, hs] at h
          cases h
      | ok s =>
          rw [hitems] at h
          simp only [Bind.bind, Except.bind, hs] at h
          split at h
          next => cases h
          next hinside =>
            cases h
            exact ⟨items, s, rfl, hs, Bool.eq_false_of_not_eq_true hinside, rfl⟩

theorem inspect_of_inspectFrom (hitems : statements source = .ok items)
    (hs : inspectFrom .initial items = .ok s) (hinside : s.inside = false) :
    ∃ result, inspect source = .ok result ∧ result.source = s.kept.flatten := by
  apply Exists.intro
  apply And.intro
  · rw [inspect, hitems]
    simp only [Bind.bind, Except.bind, hs, hinside, Bool.false_eq_true, if_false]
    rfl
  · rfl

theorem scanFrom_toStatement (h : scanFrom n table items = .ok entries) :
    entries.map Entry.toStatement = items := by
  induction items generalizing n table entries with
  | nil =>
      cases h
      rfl
  | cons item rest ih =>
      cases hcode : hasCode item with
      | false =>
          rw [scanFrom_cons_comment hcode] at h
          obtain ⟨others, hothers, rfl⟩ := map_eq_ok.mp h
          rw [List.map_cons, ih hothers]
          rfl
      | true =>
          cases hentry : declaration item.code with
          | error e =>
              rw [scanFrom, if_neg (code_ne_nil hcode), hentry] at h
              cases h
          | ok entry =>
              rw [scanFrom_cons hcode hentry] at h
              obtain ⟨others, hothers, rfl⟩ := map_eq_ok.mp h
              rw [List.map_cons, ih hothers]
              rfl

/-- Every declaration outside of ACC's tables is kept in its place, and no table of ACC's is
kept. -/
theorem inspect_kept (h : inspect source = .ok result) : Kept source result.source := by
  obtain ⟨items, s, hitems, hs, -, hsource⟩ := inspect_eq_ok h
  obtain ⟨qs, hsub, hkept, hmarkers, hfollows⟩ := inspectFrom_keeps hs
  obtain ⟨before, after, hbefore, hafter, hplace⟩ := hfollows 0 0 [] fun _ => rfl
  have hqs : statements result.source = .ok qs := by
    rw [hsource, hkept]
    exact statements_sublist hitems hsub
  refine ⟨⟨before, after, ?_, ?_, foreign_eq_declared fun entry hentry => ?_, hplace⟩⟩
  · rw [scanConfig, hitems]
    exact hbefore
  · rw [scanConfig, hqs]
    exact hafter
  · have hmem : entry.toStatement ∈ qs := by
      rw [← scanFrom_toStatement hafter]
      exact List.mem_map_of_mem hentry
    have hmarker := hmarkers _ hmem
    rw [isMarker, Bool.or_eq_false_iff] at hmarker
    exact hmarker.1

end Acc.AdapterCodex.ConfigBlock
