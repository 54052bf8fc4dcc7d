import AgentsCanCommunicate.AdapterCodex.BlockLines
import AgentsCanCommunicate.AdapterCodex.BlockRemoval

/-!
# Writing ACC's block again

The block is written behind what is kept, and inspected once more it is taken out again.  What
is kept is then the same when it ended with a newline, for otherwise one is added before the
block, and when the strings in the block can be read back (`inspect_rewritten`).
-/

namespace Acc.AdapterCodex.ConfigBlock

open Library Library.Text
open AdapterSdk.TomlBlock (BEGIN END renderBlock separator)
open AdapterSdk.TomlScan

variable {s s' : State} {items qs rest : List Statement} {marketplaceRoot source : Text}
  {stateRoot : Option Text} {theirs : Bool}

/-! ## The statements of the block -/

def registrationItems (marketplaceRoot : Text) : List Statement :=
  [line "[marketplaces.acc-local]".toList, line "source_type = \"local\"".toList,
    line ("source = ".toList ++ tomlString marketplaceRoot), comment [],
    line pluginsHeader, line "enabled = true".toList]

/-- The root of the sandbox that is written, if one is. -/
def writtenRoot (stateRoot : Option Text) (theirs : Bool) : Option Text :=
  stateRoot.filter fun root => root ≠ [] && !theirs

def sandboxItems : Option Text → List Statement
  | none => []
  | some root =>
      [comment [], line "[sandbox_workspace_write]".toList, comment (sandboxOwnership root),
        line (rootsLine root)]

def blockItems (marketplaceRoot : Text) (sandbox : Option Text) : List Statement :=
  comment BEGIN :: (registrationItems marketplaceRoot ++ sandboxItems sandbox ++ [comment END])

theorem unlines_concat {ls : List Text} (hls : ls ≠ []) :
    unlines ls ++ ['\n'] = (ls.map (· ++ ['\n'])).flatten := by
  induction ls with
  | nil => exact absurd rfl hls
  | cons l rest ih =>
      cases rest with
      | nil => simp [unlines]
      | cons m rest =>
          rw [List.map_cons, List.flatten_cons, ← ih (List.cons_ne_nil _ _)]
          simp [unlines, List.intercalate_cons_cons]

theorem body_raws (marketplaceRoot : Text) (stateRoot : Option Text) (theirs : Bool) :
    ((BEGIN :: (installedBody marketplaceRoot stateRoot theirs ++ [END])).map (· ++ ['\n'])) =
      (blockItems marketplaceRoot (writtenRoot stateRoot theirs)).map Statement.raw := by
  cases stateRoot with
  | none => rfl
  | some root =>
      by_cases hleft : root = [] ∨ theirs = true
      · have hnone : writtenRoot (some root) theirs = none := by
          rcases hleft with rfl | rfl <;> simp [writtenRoot]
        rw [installedBody, sandboxTable, if_pos hleft, hnone]
        rfl
      · have hsome : writtenRoot (some root) theirs = some root := by
          simp only [not_or] at hleft
          simp [writtenRoot, hleft]
        rw [installedBody, sandboxTable, if_neg hleft, hsome]
        rfl

/-- The block is its statements. -/
theorem renderBlock_eq (marketplaceRoot : Text) (stateRoot : Option Text) (theirs : Bool) :
    renderBlock (installedBody marketplaceRoot stateRoot theirs) ++ ['\n'] =
      rawText (blockItems marketplaceRoot (writtenRoot stateRoot theirs)) := by
  rw [renderBlock, unlines_concat (List.cons_ne_nil _ _), body_raws, rawText]

theorem rawText_cons (item : Statement) (items : List Statement) :
    rawText (item :: items) = item.raw ++ rawText items := rfl

theorem rawText_nil : rawText [] = [] := rfl

theorem ownership_single (root : Text) : Single (comment (sandboxOwnership root)) := by
  refine comment_single (s := ROOT.tail ++ JsonSyntax.quote root) fun hmem => ?_
  rcases List.mem_append.mp hmem with hroot | hquote
  · exact absurd hroot (by decide +kernel)
  · exact absurd (List.all_eq_true.mp (JsonSyntax.quote_plain root) _ hquote) (by decide)

/-- Whether the strings of the block are of one line. -/
def inLines (marketplaceRoot : Text) (sandbox : Option Text) : Bool :=
  marketplaceRoot.all isInLine && sandbox.all (·.all isInLine)

theorem statements_sandboxItems (sandbox : Option Text) :
    statements (rawText (sandboxItems sandbox ++ [comment END])) =
      if sandbox.all (·.all isInLine) then .ok (sandboxItems sandbox ++ [comment END])
      else refuse "newline in single-line string" := by
  have hlast : statements ((comment END).raw ++ rawText []) = .ok [comment END] := by
    rw [rawText_nil, List.append_nil]
    exact fixed_single.2.2.2.2.2.2.2
  cases sandbox with
  | none =>
      rw [if_pos Option.all_none]
      exact hlast
  | some root =>
      obtain ⟨-, -, -, hblank, -, -, hsandbox, -⟩ := fixed_single
      simp only [sandboxItems, List.cons_append, List.nil_append, rawText_cons]
      rw [statements_single hblank comment_ended, statements_single hsandbox line_ended,
        statements_single (ownership_single root) comment_ended, statements_rootsLine, hlast,
        Option.all_some]
      cases root.all isInLine with
      | true => rfl
      | false => rfl

theorem statements_blockItems (marketplaceRoot : Text) (sandbox : Option Text) :
    statements (rawText (blockItems marketplaceRoot sandbox)) =
      if inLines marketplaceRoot sandbox then .ok (blockItems marketplaceRoot sandbox)
      else refuse "newline in single-line string" := by
  obtain ⟨hbegin, hmarketplaces, htype, hblank, hplugins, henabled, -, -⟩ := fixed_single
  simp only [blockItems, registrationItems, List.cons_append, List.nil_append, rawText_cons]
  rw [statements_single hbegin comment_ended, statements_single hmarketplaces line_ended,
    statements_single htype line_ended, statements_source, statements_single hblank comment_ended,
    statements_single hplugins line_ended, statements_single henabled line_ended,
    statements_sandboxItems, inLines]
  cases marketplaceRoot.all isInLine <;> cases sandbox.all (·.all isInLine) <;> rfl

/-! ## Behind the client's statements -/

/-- Statements outside of the markers are kept one and all. -/
theorem inspectFrom_outside (hinside : s.inside = false) (howned : s.owned = none)
    (hmarker : ∀ item ∈ qs, isMarker item = false) {n : Nat} {entries : List Entry}
    (hscan : scanFrom n s.table qs = .ok entries) :
    ∃ s', s'.kept = s.kept ++ qs.map Statement.raw ∧ s'.inside = false ∧ s'.owned = none ∧
      inspectFrom s (qs ++ rest) = inspectFrom s' rest := by
  induction qs generalizing s n entries with
  | nil => exact ⟨s, (List.append_nil _).symm, hinside, howned, rfl⟩
  | cons item qs ih =>
      obtain ⟨hitem, hqs⟩ := List.forall_mem_cons.mp hmarker
      have hbegin : isBegin item = false := (Bool.or_eq_false_iff.mp hitem).1
      have hend : isEndMarker item = false := (Bool.or_eq_false_iff.mp hitem).2
      cases hcode : hasCode item with
      | false =>
          rw [scanFrom_cons_comment hcode] at hscan
          obtain ⟨others, hothers, -⟩ := map_eq_ok.mp hscan
          have hstep : inspectItem s item (qs ++ rest) = .ok (s.keep item) := by
            simp [inspectItem, hbegin, hend, hcode, keepsComment, hinside]
          obtain ⟨s', hkept, hinside', howned', hrun⟩ := ih (s := s.keep item) hinside howned hqs hothers
          refine ⟨s', ?_, hinside', howned', ?_⟩
          · rw [hkept, List.map_cons, List.append_cons]
            rfl
          · rw [List.cons_append, inspectFrom, hstep]
            exact hrun
      | true =>
          cases hentry : declaration item.code with
          | error e =>
              rw [scanFrom, if_neg (code_ne_nil hcode), hentry] at hscan
              cases hscan
          | ok entry =>
              rw [scanFrom_cons hcode hentry] at hscan
              obtain ⟨others, hothers, -⟩ := map_eq_ok.mp hscan
              cases hheader : entry.header with
              | true =>
                  have hstep : inspectItem s item (qs ++ rest) = .ok
                      (({ s with table := entry.keys, owned := none } : State).declare item
                        entry.keys true) := by
                    simp [inspectItem, hbegin, hend, hcode, hentry, hheader, inspectHeader, ownedBy,
                      hinside]
                    rfl
                  rw [hheader] at hothers
                  obtain ⟨s', hkept, hinside', howned', hrun⟩ :=
                    ih (s := ({ s with table := entry.keys, owned := none } : State).declare item
                      entry.keys true) hinside rfl hqs hothers
                  refine ⟨s', ?_, hinside', howned', ?_⟩
                  · rw [hkept, List.map_cons, List.append_cons]
                    rfl
                  · rw [List.cons_append, inspectFrom, hstep]
                    exact hrun
              | false =>
                  have hstep : inspectItem s item (qs ++ rest) = .ok
                      (s.declare item (s.table ++ entry.keys) false) := by
                    simp [inspectItem, hbegin, hend, hcode, hentry, hheader, inspectAssignment, howned]
                  rw [hheader] at hothers
                  obtain ⟨s', hkept, hinside', howned', hrun⟩ :=
                    ih (s := s.declare item (s.table ++ entry.keys) false) hinside howned hqs hothers
                  refine ⟨s', ?_, hinside', howned', ?_⟩
                  · rw [hkept, List.map_cons, List.append_cons]
                    rfl
                  · rw [List.cons_append, inspectFrom, hstep]
                    exact hrun

/-! ## The registration -/

variable {body : List Statement} {entry : Declaration} {keys names : List Text} {key code : Text}

theorem hasCode_line (h : declaration code = .ok entry) : hasCode (line code) = true := by
  have hnil : declaration [] = refuse "unrecognized TOML key" := fixed_declarations.2.2.2.2.2
  have hne : code ≠ [] := by
    rintro rfl
    rw [hnil] at h
    cases h
  rw [hasCode, line, Bool.not_eq_true', List.isEmpty_eq_false_iff]
  exact hne

theorem inspectItem_line (h : declaration code = .ok entry) : inspectItem s (line code) rest =
    if entry.header then inspectHeader s (line code) entry rest
    else inspectAssignment s (line code) entry := by
  have hcode := hasCode_line h
  have hmarker := isMarker_of_hasCode hcode
  rw [isMarker, Bool.or_eq_false_iff] at hmarker
  have hline : declaration (line code).code = .ok entry := h
  simp [inspectItem, hmarker.1, hmarker.2, hcode, hline]

/-- The header of a table that is registered as ACC writes it. -/
theorem inspectItem_registered (h : declaration code = .ok ⟨keys, true, false, none⟩)
    (hinside : s.inside = true) (hlookup : OWNED.lookup keys = some names)
    (hne : keys.head? ≠ sandboxKeys.head?) (hbody : tableBody rest = .ok body)
    (hassert : assertRegistration body names = .ok ()) :
    inspectItem s (line code) rest = .ok { s with table := keys, owned := some names } := by
  have hkeys : keys ≠ sandboxKeys := fun h => hne (by rw [h])
  have howned : ownedBy s.inside keys rest = .ok (some names) := by
    rw [ownedBy, hinside, if_pos rfl, hlookup]
    exact if_neg hkeys
  rw [inspectItem_line h, if_pos rfl, inspectHeader, howned]
  simp [Bind.bind, Except.bind, hne, hbody, hassert, pure, Except.pure]

/-- A key that ACC writes in its table. -/
theorem inspectItem_ownedKey {value : Option Text}
    (h : declaration code = .ok ⟨[key], false, false, value⟩) (hinside : s.inside = true)
    (howned : s.owned = some names) (hkey : key ∈ names) :
    inspectItem s (line code) rest = .ok s := by
  rw [inspectItem_line h]
  simp [inspectAssignment, howned, hinside, hkey]

theorem inspectItem_blank (hinside : s.inside = true) (howned : s.owned = some names) :
    inspectItem s (comment []) rest = .ok s := by
  obtain ⟨-, -, -, hbegin, hend, htrim⟩ := fixed_comments
  have hcode : hasCode (comment []) = false := rfl
  simp [inspectItem, hbegin, hend, hcode, keepsComment, hinside, howned, htrim]

theorem trim_tomlString (value : Text) : trim (tomlString value) = tomlString value := by
  refine trim_eq_self rfl ?_
  rw [tomlString, List.getLast?_concat]
  rfl

theorem declaration_source (value : Text) :
    declaration ("source = ".toList ++ tomlString value) =
      .ok ⟨["source".toList], false, false, some (tomlString value)⟩ := by
  have hbare := @declaration_bare "source".toList (by decide +kernel) (by decide +kernel)
    (tomlString value)
  rw [trim_tomlString] at hbare
  exact hbare

theorem declaration_rootsLine (root : Text) : declaration (rootsLine root) =
    .ok ⟨["writable_roots".toList], false, false, some ('[' :: (tomlString root ++ [']']))⟩ := by
  have hbare := @declaration_bare "writable_roots".toList (by decide +kernel)
    (by decide +kernel) ('[' :: (tomlString root ++ [']']))
  have htrim : trim ('[' :: (tomlString root ++ [']'])) = '[' :: (tomlString root ++ [']']) := by
    refine trim_eq_self rfl ?_
    rw [← List.cons_append, List.getLast?_concat]
    rfl
  rw [htrim] at hbare
  exact hbare

theorem endsBasic_tomlEscape (value : Text) :
    endsBasic (value.flatMap tomlEscape ++ ['"']) = true := by
  induction value with
  | nil => rfl
  | cons c value ih =>
      rw [List.flatMap_cons, List.append_assoc, tomlEscape]
      split
      next => exact (endsBasic.eq_2 '\\' _).trans ih
      next hslash =>
        split
        next => exact (endsBasic.eq_2 '"' _).trans ih
        next hmark =>
          rw [List.cons_append, List.nil_append, endsBasic.eq_3 c _ (fun h _ => hmark h)
            (fun _ _ h _ => hslash h), ih]
          simp [hmark, hslash]

theorem isString_tomlString (value : Text) : isString (tomlString value) = true :=
  endsBasic_tomlEscape value

/-- The marketplace that ACC writes is registered as it expects. -/
theorem assertRegistration_marketplaces (value : Text) :
    assertRegistration [line "source_type = \"local\"".toList,
      line ("source = ".toList ++ tomlString value), comment []]
      ["source_type".toList, "source".toList] = .ok () := by
  obtain ⟨-, -, -, -, -, hlocal, -, hne⟩ := fixed_keys
  obtain ⟨-, -, -, htype, -, -⟩ := fixed_declarations
  have hsource : isValid "source".toList (tomlString value) = true := isString_tomlString value
  have hfilter : [line "source_type = \"local\"".toList,
      line ("source = ".toList ++ tomlString value), comment []].filter hasCode =
      [line "source_type = \"local\"".toList, line ("source = ".toList ++ tomlString value)] := rfl
  have hmap : ([line "source_type = \"local\"".toList,
      line ("source = ".toList ++ tomlString value)].mapM fun item => declaration item.code) =
      .ok [⟨["source_type".toList], false, false, some "\"local\"".toList⟩,
        ⟨["source".toList], false, false, some (tomlString value)⟩] := by
    rw [List.mapM_cons, List.mapM_cons, List.mapM_nil, line, line, htype, declaration_source]
    rfl
  rw [assertRegistration, hfilter, hmap]
  generalize "source_type".toList = sourceType at *
  generalize "source".toList = source at *
  generalize "\"local\"".toList = localType at *
  simp [Bind.bind, Except.bind, hlocal, hsource, hne, Ne.symm hne]

theorem assertRegistration_plugins (hbody : body.filter hasCode = []) :
    assertRegistration (line "enabled = true".toList :: body) ["enabled".toList] = .ok () := by
  obtain ⟨-, -, -, -, -, -, htrue, -⟩ := fixed_keys
  obtain ⟨-, -, -, -, henabled, -⟩ := fixed_declarations
  have hfilter : (line "enabled = true".toList :: body).filter hasCode =
      [line "enabled = true".toList] := by
    rw [List.filter_cons_of_pos (hasCode_line henabled), hbody]
  have hmap : ([line "enabled = true".toList].mapM fun item => declaration item.code) =
      .ok [⟨["enabled".toList], false, false, some "true".toList⟩] := by
    rw [List.mapM_cons, List.mapM_nil, line, henabled]
    rfl
  rw [assertRegistration, hfilter, hmap]
  generalize "enabled".toList = enabled at *
  generalize "true".toList = isTrue at *
  simp [Bind.bind, Except.bind, htrue]

theorem tableBody_header (h : declaration code = .ok entry) (hheader : entry.header = true) :
    tableBody (line code :: rest) = .ok [] := by
  have hline : declaration (line code).code = .ok entry := h
  rw [tableBody, if_pos (hasCode_line h), hline]
  exact if_pos hheader

theorem tableBody_assignment (h : declaration code = .ok entry) (hheader : entry.header = false) :
    tableBody (line code :: rest) = (tableBody rest).map (line code :: ·) := by
  have hline : declaration (line code).code = .ok entry := h
  rw [tableBody, if_pos (hasCode_line h), hline]
  exact if_neg (Bool.eq_false_iff.mp hheader)

theorem tableBody_comment (text : Text) :
    tableBody (comment text :: rest) = (tableBody rest).map (comment text :: ·) := by
  rw [tableBody, if_neg (by exact Bool.false_ne_true)]

theorem inspectFrom_cons {item : Statement} (h : inspectItem s item rest = .ok s') :
    inspectFrom s (item :: rest) = inspectFrom s' rest := by
  rw [inspectFrom, h]

theorem inspectItem_begin (hinside : s.inside = false) :
    inspectItem s (comment BEGIN) rest = .ok { s with inside := true } := by
  simp [inspectItem, fixed_comments.1, hinside]

theorem inspectItem_end (hinside : s.inside = true) :
    inspectItem s (comment END) rest = .ok { s with inside := false } := by
  have hend : isEndMarker (comment END) = true := fixed_comments.2.1
  simp [inspectItem, isBegin_of_isEndMarker hend, hend, hinside]

/-- Both tables of the registration go. -/
theorem inspectFrom_registration (hinside : s.inside = false) (hbody : tableBody rest = .ok body)
    (hnone : body.filter hasCode = []) (marketplaceRoot : Text) :
    inspectFrom s (comment BEGIN :: (registrationItems marketplaceRoot ++ rest)) =
      inspectFrom { s with inside := true, table := pluginKeys, owned := some ["enabled".toList] }
        rest := by
  obtain ⟨hmarketplace, hplugin, -, hhead₁, hhead₂, -⟩ := fixed_keys
  obtain ⟨hmarketplaces, hplugins, -, htype, henabled, -⟩ := fixed_declarations
  have hsource := declaration_source marketplaceRoot
  have hbody₁ : tableBody (line "source_type = \"local\"".toList ::
      line ("source = ".toList ++ tomlString marketplaceRoot) :: comment [] ::
      line pluginsHeader :: line "enabled = true".toList :: rest) =
        .ok [line "source_type = \"local\"".toList,
          line ("source = ".toList ++ tomlString marketplaceRoot), comment []] := by
    rw [tableBody_assignment htype rfl, tableBody_assignment hsource rfl, tableBody_comment,
      tableBody_header hplugins rfl]
    rfl
  have hbody₂ : tableBody (line "enabled = true".toList :: rest) =
      .ok (line "enabled = true".toList :: body) := by
    rw [tableBody_assignment henabled rfl, hbody]
    rfl
  simp only [registrationItems, List.cons_append, List.nil_append]
  rw [inspectFrom_cons (inspectItem_begin hinside),
    inspectFrom_cons (inspectItem_registered hmarketplaces rfl hmarketplace hhead₁ hbody₁
      (assertRegistration_marketplaces marketplaceRoot)),
    inspectFrom_cons (inspectItem_ownedKey htype rfl rfl List.mem_cons_self),
    inspectFrom_cons (inspectItem_ownedKey hsource rfl rfl
      (List.mem_cons_of_mem _ List.mem_cons_self)),
    inspectFrom_cons (inspectItem_blank rfl rfl),
    inspectFrom_cons (inspectItem_registered hplugins rfl hplugin hhead₂ hbody₂
      (assertRegistration_plugins hnone)),
    inspectFrom_cons (inspectItem_ownedKey henabled rfl rfl List.mem_cons_self)]

/-! ## The sandbox -/

variable {root : Text} {sandbox : Option Text}

theorem tableBody_sandbox (root : Text) :
    tableBody [comment (sandboxOwnership root), line (rootsLine root), comment END] =
      .ok [comment (sandboxOwnership root), line (rootsLine root), comment END] := by
  rw [tableBody_comment, tableBody_assignment (declaration_rootsLine root) rfl, tableBody_comment]
  rfl

/-- The table of the sandbox is ACC's when its root can be read back. -/
theorem ownedBy_sandbox (root : Text) : ownedBy true sandboxKeys
    [comment (sandboxOwnership root), line (rootsLine root), comment END] =
      .ok (if root.all isJsonPlain then some ["writable_roots".toList] else none) := by
  obtain ⟨-, -, hsandbox, -⟩ := fixed_keys
  rw [ownedBy, if_pos rfl, hsandbox]
  simp only [if_true, tableBody_sandbox, Except.map, ownsSandbox_written]

theorem isMarker_of_isMetadata {item : Statement} (h : isMetadata item = true) :
    isMarker item = false := by
  have hbegin : ROOT.isPrefixOf BEGIN = false ∧ ROOT.isPrefixOf END = false := by decide +kernel
  rw [isMetadata, Bool.and_eq_true] at h
  rw [isMarker, isBegin, isEndMarker, h.1, Bool.true_and, Bool.true_and, Bool.or_eq_false_iff,
    decide_eq_false_iff_not, decide_eq_false_iff_not]
  constructor
  · intro heq
    rw [heq, hbegin.1] at h
    cases h.2
  · intro heq
    rw [heq, hbegin.2] at h
    cases h.2

theorem inspectItem_ownership (hinside : s.inside = true) (howned : s.owned = some names)
    (htable : s.table = sandboxKeys) :
    inspectItem s (comment (sandboxOwnership root)) rest = .ok s := by
  obtain ⟨htrim, hmetadata⟩ := isMetadata_ownership root
  have hmarker := isMarker_of_isMetadata hmetadata
  rw [isMarker, Bool.or_eq_false_iff] at hmarker
  have hcode : hasCode (comment (sandboxOwnership root)) = false := rfl
  have hpre : ROOT.isPrefixOf (ROOT ++ JsonSyntax.quote root) = true :=
    List.isPrefixOf_iff_prefix.mpr (List.prefix_append _ _)
  simp [inspectItem, hmarker.1, hmarker.2, hcode, keepsComment, hinside, howned, htable, htrim, hpre]

/-- A sandbox that can be read back goes. -/
theorem inspectFrom_owned (hinside : s.inside = true) (howned : s.owned = some names)
    (hroot : root.all isJsonPlain = true) :
    inspectFrom s (sandboxItems (some root) ++ [comment END]) = .ok { s with
      inside := false, table := sandboxKeys, owned := some ["writable_roots".toList] } := by
  obtain ⟨-, -, hsandbox, -⟩ := fixed_declarations
  have hheader : inspectItem s (line "[sandbox_workspace_write]".toList)
      [comment (sandboxOwnership root), line (rootsLine root), comment END] =
        .ok { s with table := sandboxKeys, owned := some ["writable_roots".toList] } := by
    rw [inspectItem_line hsandbox, if_pos rfl, inspectHeader, hinside, ownedBy_sandbox, if_pos hroot]
    simp [Bind.bind, Except.bind, pure, Except.pure]
  have hopen : ({ s with table := sandboxKeys, owned := some ["writable_roots".toList] } :
      State).inside = true := hinside
  simp only [sandboxItems, List.cons_append, List.nil_append]
  rw [inspectFrom_cons (inspectItem_blank hinside howned), inspectFrom_cons hheader,
    inspectFrom_cons (inspectItem_ownership hopen rfl rfl),
    inspectFrom_cons (inspectItem_ownedKey (declaration_rootsLine root) hopen rfl
      List.mem_cons_self),
    inspectFrom_cons (inspectItem_end hopen), inspectFrom]

/-- One that cannot stays. -/
theorem inspectFrom_left (hinside : s.inside = true) (howned : s.owned = some names)
    (hroot : root.all isJsonPlain = false)
    (h : inspectFrom s (sandboxItems (some root) ++ [comment END]) = .ok s') :
    ∃ more, s'.kept = s.kept ++ (line "[sandbox_workspace_write]".toList).raw :: more := by
  obtain ⟨-, -, hsandbox, -⟩ := fixed_declarations
  have hheader : inspectItem s (line "[sandbox_workspace_write]".toList)
      [comment (sandboxOwnership root), line (rootsLine root), comment END] =
        .ok (({ s with table := sandboxKeys, owned := none } : State).declare
          (line "[sandbox_workspace_write]".toList) sandboxKeys true) := by
    rw [inspectItem_line hsandbox, if_pos rfl, inspectHeader, hinside, ownedBy_sandbox,
      if_neg (Bool.eq_false_iff.mp hroot)]
    simp [Bind.bind, Except.bind, pure, Except.pure]
  simp only [sandboxItems, List.cons_append, List.nil_append] at h
  rw [inspectFrom_cons (inspectItem_blank hinside howned), inspectFrom_cons hheader] at h
  obtain ⟨qs, -, hkept, -, -⟩ := inspectFrom_keeps h
  refine ⟨qs.map Statement.raw, ?_⟩
  rw [hkept]
  exact List.append_assoc s.kept [_] _

/-! ## Writing and inspecting -/

/-- The strings of the block, as the program writes them, can be read back. -/
structure Readable (marketplaceRoot : Text) (sandbox : Option Text) : Prop where
  marketplace : marketplaceRoot.all isInLine = true
  sandbox : ∀ root, sandbox = some root → root.all isJsonPlain = true

theorem isInLine_of_isJsonPlain {c : Char} (h : isJsonPlain c = true) : isInLine c = true := by
  simp only [isJsonPlain, isLineTerminator, Bool.and_eq_true, Bool.not_eq_true',
    Bool.or_eq_false_iff, decide_eq_false_iff_not] at h
  simp [isInLine, h]

theorem tableBody_sandboxItems (sandbox : Option Text) : ∃ body,
    tableBody (sandboxItems sandbox ++ [comment END]) = .ok body ∧ body.filter hasCode = [] := by
  cases sandbox with
  | none => exact ⟨[comment END], by rw [sandboxItems, List.nil_append, tableBody_comment]; rfl, rfl⟩
  | some root =>
      obtain ⟨-, -, hsandbox, -⟩ := fixed_declarations
      refine ⟨[comment []], ?_, rfl⟩
      simp only [sandboxItems, List.cons_append, List.nil_append]
      rw [tableBody_comment, tableBody_header hsandbox rfl]
      rfl

/-- The block goes, and what stood before it stays. -/
theorem inspectFrom_blockItems (hinside : s.inside = false) (marketplaceRoot : Text)
    (hsandbox : ∀ root, sandbox = some root → root.all isJsonPlain = true) :
    ∃ s', inspectFrom s (blockItems marketplaceRoot sandbox) = .ok s' ∧ s'.kept = s.kept ∧
      s'.inside = false := by
  obtain ⟨body, hbody, hnone⟩ := tableBody_sandboxItems sandbox
  rw [blockItems, List.append_assoc, inspectFrom_registration hinside hbody hnone]
  cases sandbox with
  | none =>
      rw [sandboxItems, List.nil_append, inspectFrom_cons (inspectItem_end rfl)]
      exact ⟨_, rfl, rfl, rfl⟩
  | some root =>
      rw [inspectFrom_owned rfl rfl (hsandbox root rfl)]
      exact ⟨_, rfl, rfl, rfl⟩

/-- A block whose sandbox cannot be read back leaves more than stood before it. -/
theorem kept_of_not_readable (hinside : s.inside = false) (hroot : root.all isJsonPlain = false)
    (h : inspectFrom s (blockItems marketplaceRoot (some root)) = .ok s') :
    s'.kept.flatten ≠ s.kept.flatten := by
  obtain ⟨body, hbody, hnone⟩ := tableBody_sandboxItems (some root)
  rw [blockItems, List.append_assoc, inspectFrom_registration hinside hbody hnone] at h
  obtain ⟨more, hkept⟩ := inspectFrom_left rfl rfl hroot h
  intro heq
  have hlength := congrArg List.length heq
  rw [hkept, List.flatten_append, List.flatten_cons, List.length_append, List.length_append, line,
    List.length_append] at hlength
  simp only [List.length_cons, List.length_nil] at hlength
  omega

/-! ## What is kept ends with a newline -/

variable {result : Inspection}

theorem inspect_statements (h : inspect source = .ok result) : ∃ items qs entries,
    statements source = .ok items ∧ qs.Sublist items ∧ result.source = rawText qs ∧
      (∀ item ∈ qs, isMarker item = false) ∧ statements result.source = .ok qs ∧
        scanFrom 0 [] qs = .ok entries := by
  obtain ⟨items, s, hitems, hs, -, hsource⟩ := inspect_eq_ok h
  obtain ⟨qs, hsub, hkept, hmarkers, hfollows⟩ := inspectFrom_keeps hs
  obtain ⟨-, after, -, hafter, -⟩ := hfollows 0 0 [] fun _ => rfl
  have hraw : result.source = rawText qs := by
    rw [hsource, hkept]
    rfl
  exact ⟨items, qs, after, hitems, hsub, hraw, hmarkers, hraw ▸ statements_sublist hitems hsub, hafter⟩

theorem rawText_ended (h : ∀ item ∈ qs, Ended item) :
    rawText qs = [] ∨ (rawText qs).getLast? = some '\n' := by
  induction qs with
  | nil => exact .inl rfl
  | cons item qs ih =>
      obtain ⟨hitem, hqs⟩ := List.forall_mem_cons.mp h
      rw [rawText_cons]
      rcases ih hqs with hnil | hlast
      · rw [hnil, List.append_nil]
        exact .inr hitem
      · have hne : rawText qs ≠ [] := by
          intro hnil
          rw [hnil] at hlast
          cases hlast
        exact .inr (by rw [List.getLast?_append_of_ne_nil _ hne, hlast])

/-- The last statement ends with a newline, or it is the marker of the end. -/
def EndsClean (source : Text) : Prop :=
  ∀ items, statements source = .ok items →
    ∀ item, items.getLast? = some item → Ended item ∨ isEndMarker item = true

/-- The last statement outside of the markers is kept last. -/
theorem inspectFrom_last {last : Statement} (h : inspectFrom s (items ++ [last]) = .ok s')
    (hinside : s'.inside = false) : isEndMarker last = true ∨ ∃ before, s'.kept = before ++ [last.raw] := by
  induction items generalizing s with
  | nil =>
      rw [List.nil_append, inspectFrom] at h
      split at h
      next => cases h
      next s₁ hitem =>
        cases h
        have hstep := inspectItem_inspected hitem
        cases hstep with
        | opened => cases hinside
        | closed hend => exact .inl hend
        | comment hcode hmarker =>
            cases hkeeps : keepsComment s last with
            | true => exact .inr ⟨s.kept, rfl⟩
            | false =>
                rw [hkeeps] at hinside
                have hin : s.inside = false := hinside
                simp [keepsComment, hin] at hkeeps
        | ownedHeader entry keys hcode hentry hheader howned =>
            have hin : s.inside = false := hinside
            rw [ownedBy, hin] at howned
            cases howned
        | header => exact .inr ⟨s.kept, rfl⟩
        | ownedAssignment entry hcode hentry hheader howned hin =>
            rw [hin] at hinside
            cases hinside
        | assignment => exact .inr ⟨s.kept, rfl⟩
  | cons item items ih =>
      rw [List.cons_append, inspectFrom] at h
      split at h
      next => cases h
      next s₁ hitem => exact ih h

theorem raw_ne_nil {item : Statement} (h : Single item) : item.raw ≠ [] := by
  intro hnil
  rw [Single, hnil, statements_nil] at h
  cases h

theorem kept_ended_iff (h : inspect source = .ok result) :
    (result.source = [] ∨ result.source.getLast? = some '\n') ↔ EndsClean source := by
  obtain ⟨items, s, hitems, hs, hinside, hsource⟩ := inspect_eq_ok h
  obtain ⟨hraw, hsingle, hended⟩ := statements_eq_ok.mp hitems
  constructor
  · intro hclean items' hitems' last hlast
    cases hitems.symm.trans hitems'
    have hsplit : items = items.dropLast ++ [last] := (List.dropLast_append_getLast? last hlast).symm
    rw [hsplit] at hs
    refine (inspectFrom_last hs hinside).symm.imp ?_ id
    rintro ⟨before, hkept⟩
    have hne := raw_ne_nil (hsingle last (List.mem_of_getLast? hlast))
    rw [hsource, hkept, List.flatten_append] at hclean
    rcases hclean with hnil | hnewline
    · simp [hne] at hnil
    · rw [List.flatten_singleton, List.getLast?_append_of_ne_nil _ hne] at hnewline
      exact hnewline
  · intro hclean
    obtain ⟨items', qs, -, hitems', hsub, hqs, hmarkers, -⟩ := inspect_statements h
    cases hitems.symm.trans hitems'
    rw [hqs]
    refine rawText_ended fun item hitem => ?_
    have hmem := hsub.subset hitem
    cases hlast : items.getLast? with
    | none =>
        rw [List.getLast?_eq_none_iff] at hlast
        rw [hlast] at hmem
        cases hmem
    | some last =>
        rw [← List.dropLast_append_getLast? last hlast, List.mem_append, List.mem_singleton] at hmem
        rcases hmem with hmem | rfl
        · exact hended item hmem
        · refine (hclean items hitems item hlast).resolve_right fun hend => ?_
          have hmarker := hmarkers item hitem
          rw [isMarker, hend, Bool.or_true] at hmarker
          cases hmarker

/-! ## Once more -/

/-- Writing the block behind what was kept and inspecting the text gives it back. -/
def Rewritten (kept : Text) (body : List Text) : Prop :=
  ∃ again, inspect (writeTomlBlock kept body) = .ok again ∧ again.source = kept

/-- A newline that was added stays. -/
theorem ended_of_rewritten {kept : Text} {body : List Text} (h : Rewritten kept body) :
    kept = [] ∨ kept.getLast? = some '\n' := by
  obtain ⟨again, hagain, hsource⟩ := h
  obtain ⟨items, qs, -, hitems, hsub, hqs, -⟩ := inspect_statements hagain
  obtain ⟨hraw, hsingle, hended⟩ := statements_eq_ok.mp hitems
  have hall : ∀ item ∈ items, Ended item := by
    intro item hitem
    have hne : items ≠ [] := List.ne_nil_of_mem hitem
    rw [← List.dropLast_append_getLast hne, List.mem_append, List.mem_singleton] at hitem
    rcases hitem with hitem | rfl
    · exact hended item hitem
    · have hlast : (rawText items).getLast? = (items.getLast hne).raw.getLast? := by
        rw [← List.getLast?_append_of_ne_nil (rawText items.dropLast)
          (raw_ne_nil (hsingle _ (List.getLast_mem hne)))]
        conv_lhs => rw [← List.dropLast_append_getLast hne]
        rw [rawText, List.map_append, List.flatten_append]
        simp [rawText]
      rw [Ended, ← hlast, ← hraw, writeTomlBlock, List.getLast?_concat]
  rw [← hsource, hqs]
  exact rawText_ended fun item hitem => hall item (hsub.subset hitem)

theorem writeTomlBlock_eq {kept : Text} (hend : kept = [] ∨ kept.getLast? = some '\n') :
    writeTomlBlock kept (installedBody marketplaceRoot stateRoot theirs) =
      kept ++ rawText (blockItems marketplaceRoot (writtenRoot stateRoot theirs)) := by
  rw [writeTomlBlock, separator, if_pos hend, List.append_nil, List.append_assoc, renderBlock_eq]

/-- Behind a newline the block is taken out again exactly when its strings can be read. -/
theorem rewritten_iff {kept : Text} {entries : List Entry} (hqs : statements kept = .ok qs)
    (hmarkers : ∀ item ∈ qs, isMarker item = false) (hscan : scanFrom 0 [] qs = .ok entries)
    (hend : kept = [] ∨ kept.getLast? = some '\n') :
    Rewritten kept (installedBody marketplaceRoot stateRoot theirs) ↔
      Readable marketplaceRoot (writtenRoot stateRoot theirs) := by
  obtain ⟨s, hkept, hinside, -, hrun⟩ := @inspectFrom_outside .initial qs
    (blockItems marketplaceRoot (writtenRoot stateRoot theirs)) rfl rfl hmarkers _ _ hscan
  have hflat : s.kept.flatten = kept := by
    rw [hkept, (statements_eq_ok.mp hqs).1]
    rfl
  rw [Rewritten, writeTomlBlock_eq hend]
  generalize writtenRoot stateRoot theirs = sandbox at hrun ⊢
  have hstatements := statements_behind hqs hend (rawText (blockItems marketplaceRoot sandbox))
  rw [statements_blockItems] at hstatements
  constructor
  · rintro ⟨again, hagain, hsource⟩
    obtain ⟨items, s', hitems, hs', -, hsource'⟩ := inspect_eq_ok hagain
    rw [hstatements] at hitems
    cases hlines : inLines marketplaceRoot sandbox with
    | false =>
        rw [hlines] at hitems
        cases hitems
    | true =>
        rw [hlines] at hitems
        cases hitems
        rw [hrun] at hs'
        rw [inLines, Bool.and_eq_true] at hlines
        refine ⟨hlines.1, ?_⟩
        rintro root rfl
        refine Bool.eq_true_of_not_eq_false fun hroot => ?_
        exact kept_of_not_readable hinside hroot hs' (by rw [← hsource', hsource, hflat])
  · rintro ⟨hmarketplace, hsandbox⟩
    have hlines : inLines marketplaceRoot sandbox = true := by
      rw [inLines, hmarketplace, Bool.true_and]
      cases sandbox with
      | none => rfl
      | some root =>
          rw [Option.all_some]
          exact List.all_eq_true.mpr fun c hc =>
            isInLine_of_isJsonPlain (List.all_eq_true.mp (hsandbox root rfl) c hc)
    obtain ⟨s', hs', hkept', hinside'⟩ := inspectFrom_blockItems hinside marketplaceRoot hsandbox
    rw [hlines] at hstatements
    obtain ⟨again, hagain, hsource⟩ :=
      inspect_of_inspectFrom hstatements (hrun.trans hs') hinside'
    exact ⟨again, hagain, by rw [hsource, hkept', hflat]⟩

theorem inspectConfig_eq_ok {file : String} :
    inspectConfig source file = .ok result ↔ inspect source = .ok result := by
  rw [inspectConfig]
  cases inspect source with
  | error e => simp [Except.mapError]
  | ok found => simp [Except.mapError]

/-- What is kept has every declaration outside of ACC's tables in its place.  Written and
inspected once more it is the same exactly when it ends with a newline and the strings of the
block can be read back. -/
theorem inspectConfig_rewritten {file : String} (h : inspectConfig source file = .ok result)
    (marketplaceRoot : Text) (stateRoot : Option Text) (theirs : Bool) :
    (Kept source result.source ∧
        Rewritten result.source (installedBody marketplaceRoot stateRoot theirs)) ↔
      EndsClean source ∧ Readable marketplaceRoot (writtenRoot stateRoot theirs) := by
  rw [inspectConfig_eq_ok] at h
  obtain ⟨-, qs, entries, -, -, -, hmarkers, hqs, hscan⟩ := inspect_statements h
  rw [and_iff_right (inspect_kept h), ← kept_ended_iff h]
  constructor
  · intro hagain
    have hend := ended_of_rewritten hagain
    exact ⟨hend, (rewritten_iff hqs hmarkers hscan hend).mp hagain⟩
  · rintro ⟨hend, hreadable⟩
    exact (rewritten_iff hqs hmarkers hscan hend).mpr hreadable

/-- A table of the client between ACC's, and the sandbox. -/
def sampleSource : Text :=
  "a = 1\n".toList ++ BEGIN ++ ("\n[marketplaces.acc-local]\nsource_type = \"local\"\n" ++
    "source = \"/r\"\n[projects.'/p']\ntrust = \"t\"\n[sandbox_workspace_write]\n" ++
    "# ACC sandbox writable_roots created with: \"/s\"\nwritable_roots = [\"/s\"]\n").toList ++ END

def sampleKept : Text := "a = 1\n[projects.'/p']\ntrust = \"t\"\n".toList

theorem inspectConfig_rewritten_sample : Kept sampleSource sampleKept ∧
    Rewritten sampleKept (installedBody "/r".toList (some "/s".toList) false) := by
  have h : inspectConfig sampleSource "config.toml" = .ok ⟨sampleKept, false, false⟩ := by
    decide +kernel
  have hclean : EndsClean sampleSource :=
    (kept_ended_iff (inspectConfig_eq_ok.mp h)).mp (.inr (by decide +kernel))
  refine (inspectConfig_rewritten h "/r".toList (some "/s".toList) false).mpr
    ⟨hclean, by decide +kernel, ?_⟩
  rintro root hroot
  cases hroot
  decide +kernel

/-- The newline that was added before the block is not taken out again. -/
theorem added_newline_kept : ∃ result, inspectConfig "a = 1".toList "config.toml" = .ok result ∧
    ¬Rewritten result.source (installedBody "/r".toList none false) := by
  refine ⟨⟨"a = 1".toList, false, false⟩, by decide +kernel, fun h => ?_⟩
  exact (ended_of_rewritten h).elim (by decide +kernel) (by decide +kernel)

end Acc.AdapterCodex.ConfigBlock
