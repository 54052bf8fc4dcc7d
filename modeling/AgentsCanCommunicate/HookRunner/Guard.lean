import AgentsCanCommunicate.Core.Claims
import AgentsCanCommunicate.Protocol.Paths

/-!
# The write guard

Before an agent writes a file, the guard names the file by its path from the
workspace root and looks for a claim that covers that name.  The core compares
two resources by `overlaps`.

A claim is stored in one spelling.  What the stored text is, read by segments,
decides what the guard and the core find: the names of the target, with the
marker behind them where there is one.
-/

namespace Acc.HookRunner

open Library (Climb climb)

/-! ## Naming a file -/

/-- The segments of `path.relative`. -/
def relativeNames : List (List Char) → List (List Char) → List (List Char)
  | a :: root, b :: target =>
      if a = b then relativeNames root target
      else List.replicate (root.length + 1) ['.', '.'] ++ b :: target
  | root, target => List.replicate root.length ['.', '.'] ++ target

/-- The resource that a claim on the file is written against. -/
def resourceFor (root : List (List Char)) (target : List Char) : Option String :=
  let relative := joinNames (relativeNames root (posixResolve root target))
  if relative = [] ∨ ['.', '.'].isPrefixOf relative = true ∨ relative.head? = some '/' then none
  else some (String.ofList ("file:".toList ++ joinNames (segments relative)))

/-- `covers`. -/
def covers (resource target : String) : Bool :=
  resource == target
    || (endsWith resource.toList glob
      && (target.toList == dropGlob resource.toList
        || (dropGlob resource.toList ++ ['/']).isPrefixOf target.toList))

/-- A stored claim stops a write to the file. -/
def guards (root : List (List Char)) (claim : String) (target : List Char) : Bool :=
  (resourceFor root target).any fun wanted => covers claim wanted

/-! ## What a claim names -/

/-- The path of a resource, after its scheme. -/
def restOf (resource : String) : List Char := slashes (resource.toList.drop 5)

def IsGlob (resource : String) : Prop := endsWith (restOf resource) glob = true

instance (resource : String) : Decidable (IsGlob resource) := inferInstanceAs (Decidable (_ = true))

/-- The path without its marker. -/
def bodyOf (resource : String) : List Char :=
  if IsGlob resource then dropGlob (restOf resource) else restOf resource

/-- The normal form of the path. -/
def pathOf (resource : String) : Climb (List Char) := climb (posixMoves (bodyOf resource))

/-- The path has a leading slash. -/
def IsAbsolute (resource : String) : Prop := (bodyOf resource).head? = some '/'

/-- The path starts at the workspace root and stays below it. -/
def Direct (resource : String) : Prop := ¬IsAbsolute resource ∧ (pathOf resource).ups = 0

/-- The text says the root, and no marker. -/
def SaysRoot (resource : String) : Prop := pathOf resource = Climb.here ∧ ¬IsGlob resource

instance (resource : String) : Decidable (IsAbsolute resource) :=
  inferInstanceAs (Decidable (_ = _))

instance (resource : String) : Decidable (Direct resource) := inferInstanceAs (Decidable (_ ∧ _))

instance (resource : String) : Decidable (SaysRoot resource) := inferInstanceAs (Decidable (_ ∧ _))

/-- Two texts spell one path from one start. -/
structure Alike (first second : String) : Prop where
  absolute : IsAbsolute first ↔ IsAbsolute second
  path : pathOf first = pathOf second
  glob : IsGlob first ↔ IsGlob second

/-- A `file:` resource that is accepted, stored under the given text, and names
a path inside the workspace. -/
structure Names (root : List (List Char)) (resource stored : String) (target : List (List Char)) :
    Prop where
  file : "file:".toList.isPrefixOf resource.toList = true
  accepted : Core.claimResource resource = .ok stored
  inside : posixResolve root (bodyOf resource) = root ++ target

/-- The path of a file below the workspace root. -/
structure IsFile (file : List (List Char)) : Prop where
  ne_nil : file ≠ []
  names : ∀ name ∈ file, IsName name

/-- The file is what the resource names, or lies below it. -/
def Covered (resource : String) (target file : List (List Char)) : Prop :=
  if IsGlob resource then target <+: file else file = target

/-- The first name begins with two dots. -/
def Dotted (file : List (List Char)) : Prop := ['.', '.'] <+: file.headD []

instance (file : List (List Char)) : Decidable (Dotted file) :=
  inferInstanceAs (Decidable (_ <+: _))

/-- The file is called `**`, in a directory on the way. -/
def Starred (file way : List (List Char)) : Prop :=
  ∃ directory, directory ≠ [] ∧ file = directory ++ [['*', '*']] ∧ directory <+: way

/-! ## Two texts -/

theorem endsWith_iff {value suffix : List Char} : endsWith value suffix = true ↔ suffix <:+ value :=
  List.isSuffixOf_iff_suffix

theorem dropGlob_append (value : List Char) : dropGlob (value ++ glob) = value := by
  rw [dropGlob, List.length_append, Nat.add_sub_cancel, List.take_left']
  rfl

theorem segments_append_glob (value : List Char) :
    segments (value ++ glob) = segments value ++ [['*', '*']] := by
  rw [show glob = '/' :: ['*', '*'] from rfl, segments_append]
  rfl

/-- A text with the marker covers its directory and what lies in it. -/
theorem covers_iff {directory plain : List Char} :
    Acc.covers directory plain = true ↔
      ∃ names, names ≠ [] ∧ segments directory = names ++ [['*', '*']]
        ∧ names <+: segments plain := by
  simp only [Acc.covers, Bool.and_eq_true, Bool.or_eq_true, beq_iff_eq, List.isPrefixOf_iff_prefix,
    endsWith_iff]
  constructor
  · rintro ⟨⟨before, rfl⟩, hunder⟩
    rw [dropGlob_append] at hunder
    exact ⟨segments before, segments_ne_nil before, segments_append_glob before,
      under_iff.mp hunder⟩
  · rintro ⟨names, hnames, hsegments, hbelow⟩
    have hslash : ∀ name ∈ names, '/' ∉ name := fun name hname =>
      slash_notMem_segments (hsegments ▸ List.mem_append_left _ hname)
    have hjoin := segments_joinNames hnames hslash
    have hdirectory : directory = joinNames names ++ glob :=
      segments_inj (by rw [hsegments, segments_append_glob, hjoin])
    rw [hdirectory, dropGlob_append, under_iff, hjoin]
    exact ⟨List.suffix_append _ _, hbelow⟩

/-- The marker is not found across the end of the scheme. -/
theorem glob_suffix_file {rest : List Char} (h : glob <:+ "file:".toList ++ rest) :
    glob <:+ rest := by
  by_cases hlen : glob.length ≤ rest.length
  · exact List.suffix_of_suffix_length_le h (List.suffix_append _ _) hlen
  · have hdrop := List.suffix_iff_eq_drop.mp h
    match rest with
    | [] => cases hdrop
    | [_] => cases hdrop
    | [_, _] => cases hdrop
    | _ :: _ :: _ :: _ => exact absurd (Nat.le_add_left 3 _) hlen

theorem file_prefix_iff {first second : List Char} :
    "file:".toList ++ first <+: "file:".toList ++ second ↔ first <+: second :=
  List.prefix_append_right_inj _

theorem file_isPrefixOf (rest : List Char) :
    "file:".toList.isPrefixOf ("file:".toList ++ rest) = true :=
  List.isPrefixOf_iff_prefix.mpr (List.prefix_append _ _)

theorem toList_file (rest : List Char) :
    (String.ofList ("file:".toList ++ rest)).toList = "file:".toList ++ rest :=
  String.toList_ofList

theorem drop_file (rest : List Char) : ("file:".toList ++ rest).drop 5 = rest := rfl

/-- Of two texts with the scheme in front, the guard compares what follows it. -/
theorem covers_file (claim file : List Char) :
    covers (String.ofList ("file:".toList ++ claim)) (String.ofList ("file:".toList ++ file)) = true
      ↔ claim = file ∨ Acc.covers claim file = true := by
  have hends : endsWith ("file:".toList ++ claim) glob = endsWith claim glob := by
    rw [Bool.eq_iff_iff, endsWith_iff, endsWith_iff]
    exact ⟨glob_suffix_file, fun h => h.trans (List.suffix_append _ _)⟩
  simp only [covers, String.toList_ofList, Bool.or_eq_true, beq_iff_eq, String.ofList_inj,
    List.append_cancel_left_eq, hends, Acc.covers, Bool.and_eq_true, List.isPrefixOf_iff_prefix,
    endsWith_iff]
  refine or_congr Iff.rfl (and_congr_right ?_)
  rintro ⟨before, rfl⟩
  rw [← List.append_assoc, dropGlob_append, dropGlob_append, List.append_assoc, file_prefix_iff,
    List.append_cancel_left_eq]

theorem splitScheme_file (rest : List Char) :
    splitScheme (String.ofList ("file:".toList ++ rest)) = ("file".toList, rest) := by
  rw [splitScheme, String.toList_ofList, if_pos (by simp)]
  rfl

theorem overlaps_file (claim file : List Char) :
    overlaps (String.ofList ("file:".toList ++ claim)) (String.ofList ("file:".toList ++ file))
        = true
      ↔ claim = file ∨ Acc.covers claim file = true ∨ Acc.covers file claim = true := by
  simp only [overlaps, splitScheme_file, Bool.or_eq_true, Bool.and_eq_true, beq_iff_eq,
    String.ofList_inj, List.append_cancel_left_eq, true_and]

/-! ## The name of a file -/

variable {root target file : List (List Char)} {resource stored : String} {written : List Char}

theorem relativeNames_append (root file : List (List Char)) :
    relativeNames root (root ++ file) = file := by
  induction root with
  | nil => cases file <;> rfl
  | cons name root ih => rw [List.cons_append, relativeNames, if_pos rfl, ih]

theorem IsFile.split (h : IsFile file) : segments (joinNames file) = file :=
  segments_joinNames h.ne_nil fun name hname => (h.names name hname).2

theorem IsFile.joinNames_head (h : IsFile file) : (joinNames file).head? ≠ some '/' := by
  intro hhead
  obtain ⟨rest, hrest⟩ := List.head?_eq_some_iff.mp hhead
  have hsegments := h.split
  rw [hrest, ← List.nil_append ('/' :: rest), segments_append] at hsegments
  have hnil : ([] : List Char) ∈ file := by
    rw [← hsegments]
    exact List.mem_append_left _ (List.mem_singleton_self _)
  exact (h.names _ hnil).ne_nil rfl

/-- The text of a path begins with two dots when its first name does. -/
theorem IsFile.dotted_iff (h : IsFile file) : ['.', '.'] <+: joinNames file ↔ Dotted file := by
  obtain ⟨first, others, rfl⟩ := List.exists_cons_of_ne_nil h.ne_nil
  rw [Dotted, List.headD_cons]
  by_cases hothers : others = []
  · rw [hothers]
    rw [joinNames_singleton]
  · rw [joinNames_cons hothers]
    have hfirst := h.names first (List.mem_cons_self ..)
    match first, hfirst with
    | [], hfirst => exact absurd rfl hfirst.ne_nil
    | [c], hfirst =>
        simp
    | c :: d :: first, hfirst => simp

/-- What a write to a file of the workspace is looked up under. -/
theorem resourceFor_eq (hfile : IsFile file) (hwritten : posixResolve root written = root ++ file) :
    resourceFor root written
      = if Dotted file then none else some (String.ofList ("file:".toList ++ joinNames file)) := by
  have hne : joinNames file ≠ [] := by
    intro hnil
    have hsegments := hfile.split
    rw [hnil] at hsegments
    have hmem : ([] : List Char) ∈ file := by
      rw [← hsegments]
      exact List.mem_singleton_self _
    exact (hfile.names _ hmem).ne_nil rfl
  rw [resourceFor, hwritten, relativeNames_append]
  simp only [hne, hfile.joinNames_head, or_false, false_or, List.isPrefixOf_iff_prefix,
    hfile.dotted_iff, joinNames_segments]

/-! ## The stored text -/

/-- What is stored after the scheme. -/
def storedRest (resource : String) : List Char :=
  if SaysRoot resource then resource.toList.drop 5
  else (if IsAbsolute resource then ['/'] else []) ++ normalisePath (bodyOf resource)
    ++ (if IsGlob resource then glob else [])

/-- The segments of a spelling of the root, and else the names of the path. -/
def way (resource : String) : List (List Char) :=
  if SaysRoot resource then segments (resource.toList.drop 5)
  else if Direct resource then (pathOf resource).downs else []

theorem filePath_eq (h : "file:".toList.isPrefixOf resource.toList = true) :
    filePath resource.toList = some (restOf resource) := by
  rw [filePath, if_pos h]
  rfl

theorem text_eq (h : "file:".toList.isPrefixOf resource.toList = true) :
    resource = String.ofList ("file:".toList ++ resource.toList.drop 5) := by
  obtain ⟨rest, hrest⟩ := List.isPrefixOf_iff_prefix.mp h
  rw [← String.toList_inj, String.toList_ofList, ← hrest]
  rfl

theorem normaliseResource_file (h : "file:".toList.isPrefixOf resource.toList = true) :
    normaliseResource resource = String.ofList ("file:".toList ++ storedRest resource) := by
  have hmeans : (normalisePath (bodyOf resource) = [] ∧ endsWith (restOf resource) glob = false) ↔
      SaysRoot resource := by
    rw [SaysRoot, pathOf, normalisePath_eq_nil, IsGlob, Bool.not_eq_true]
  simp only [normaliseResource, filePath_eq h]
  change (if normalisePath (bodyOf resource) = [] ∧ endsWith (restOf resource) glob = false then
    resource else _) = _
  rw [storedRest]
  by_cases hroot : SaysRoot resource
  · rw [if_pos (hmeans.mpr hroot), if_pos hroot]
    exact text_eq h
  · rw [if_neg (fun hs => hroot (hmeans.mp hs)), if_neg hroot]
    simp only [List.append_assoc, bodyOf, IsGlob, IsAbsolute]
    congr

theorem claimResource_eq_ok (h : Core.claimResource resource = .ok stored) :
    assertMatchableResource resource = .ok () ∧ stored = normaliseResource resource := by
  simp only [Core.claimResource, bind_eq_ok] at h
  obtain ⟨-, -, u, hmatch, h⟩ := h
  refine ⟨hmatch, ?_⟩
  split at h
  · cases h
    rfl
  · cases h

theorem Names.stored_eq (h : Names root resource stored target) :
    stored = String.ofList ("file:".toList ++ storedRest resource) := by
  rw [(claimResource_eq_ok h.accepted).2, normaliseResource_file h.file]

/-- There is no star but in the marker. -/
theorem Names.star_notMem (h : Names root resource stored target) : '*' ∉ bodyOf resource := by
  have hmatch := (claimResource_eq_ok h.accepted).1
  simp only [assertMatchableResource, filePath_eq h.file, bind_eq_ok, refuse_eq_ok] at hmatch
  obtain ⟨-, -, hstar⟩ := hmatch
  exact hstar

/-- A path that starts at the root and stays below it names what it goes down
to. -/
theorem Names.downs (h : Names root resource stored target) (hdirect : Direct resource) :
    (pathOf resource).downs = target := by
  have hinside := h.inside
  rw [posixResolve, if_neg (show ¬(bodyOf resource).head? = some '/' from hdirect.1),
    Library.walk_eq_climb, Climb.walk] at hinside
  change root.take (root.length - (pathOf resource).ups) ++ (pathOf resource).downs = _ at hinside
  rw [hdirect.2, Nat.sub_zero, List.take_length] at hinside
  exact List.append_cancel_left hinside

/-- A spelling of the root names the root. -/
theorem Names.of_saysRoot (h : Names root resource stored target) (hroot : SaysRoot resource) :
    target = [] := by
  have hinside := h.inside
  rw [posixResolve, Library.walk_eq_climb] at hinside
  change (pathOf resource).walk _ = _ at hinside
  rw [hroot.1] at hinside
  simp only [Climb.walk, Climb.here, Nat.sub_zero, List.take_length, List.append_nil] at hinside
  have hlength := congrArg List.length hinside
  rw [List.length_append] at hlength
  split at hlength
  · exact List.length_eq_zero_iff.mp (by simp at hlength; omega)
  · exact List.length_eq_zero_iff.mp (by omega)

theorem plain_pathOf (resource : String) : Plain (pathOf resource) := plain_climb _

/-- The first segment of what is stored is no name, unless the path starts at
the root and goes down from it. -/
theorem segments_storedRest (hroot : ¬SaysRoot resource) :
    (Direct resource ∧ (pathOf resource).downs ≠ [] ∧ segments (storedRest resource)
        = (pathOf resource).downs ++ if IsGlob resource then [['*', '*']] else [])
      ∨ ((Direct resource → (pathOf resource).downs = [] ∧ IsGlob resource)
        ∧ ∃ first, (segments (storedRest resource)).head? = some first ∧ ¬IsName first) := by
  rw [storedRest, if_neg hroot]
  by_cases habsolute : IsAbsolute resource
  · refine .inr ⟨fun hdirect => absurd habsolute hdirect.1, [], ?_, fun h => h.ne_nil rfl⟩
    rw [if_pos habsolute, List.append_assoc, List.singleton_append, ← List.nil_append ('/' :: _),
      segments_append]
    rfl
  rw [if_neg habsolute, List.nil_append]
  by_cases hhere : pathOf resource = Climb.here
  · have hglob : IsGlob resource := by
      by_contra hglob
      exact hroot ⟨hhere, hglob⟩
    refine .inr ⟨fun _ => ⟨by rw [hhere]; rfl, hglob⟩, [], ?_, fun h => h.ne_nil rfl⟩
    rw [normalisePath_eq_nil.mpr hhere, if_pos hglob]
    decide
  have hsegments : segments (normalisePath (bodyOf resource)
      ++ if IsGlob resource then glob else [])
      = renderClimb (pathOf resource) ++ if IsGlob resource then [['*', '*']] else [] := by
    by_cases hglob : IsGlob resource
    · rw [if_pos hglob, if_pos hglob, segments_append_glob, segments_normalisePath hhere]
      rfl
    · rw [if_neg hglob, if_neg hglob, List.append_nil, List.append_nil,
        segments_normalisePath hhere]
      rfl
  rw [hsegments, renderClimb]
  by_cases hups : (pathOf resource).ups = 0
  · refine .inl ⟨⟨habsolute, hups⟩, fun hdowns => hhere ?_, by rw [hups]; rfl⟩
    exact renderClimb_eq_nil.mp (by rw [renderClimb, hups, hdowns]; rfl)
  · obtain ⟨n, hn⟩ := Nat.exists_eq_succ_of_ne_zero hups
    refine .inr ⟨fun hdirect => absurd hdirect.2 hups, ['.', '.'], ?_, fun h => h.ne_up rfl⟩
    rw [hn, List.replicate_succ]
    rfl

/-! ## One spelling -/

theorem backslash_notMem_bodyOf (resource : String) : '\\' ∉ bodyOf resource := by
  have hrest : '\\' ∉ restOf resource := by
    intro hmem
    obtain ⟨c, -, hc⟩ := List.mem_map.mp hmem
    split at hc
    · cases hc
    next hne => exact hne hc
  rw [bodyOf]
  split
  · exact fun hmem => hrest (List.mem_of_mem_take hmem)
  · exact hrest

theorem slashes_eq_self {value : List Char} (h : '\\' ∉ value) : slashes value = value := by
  have hsame : ∀ c ∈ value, (if c = '\\' then '/' else c) = c := fun c hc =>
    if_neg fun (heq : c = '\\') => h (heq ▸ hc)
  rw [slashes, List.map_congr_left hsame, List.map_id']

/-- What is stored of a path, without its marker. -/
def storedBody (resource : String) : List Char :=
  (if IsAbsolute resource then ['/'] else []) ++ normalisePath (bodyOf resource)

theorem mem_storedBody {c : Char} (h : c ∈ storedBody resource) :
    c = '/' ∨ c ∈ bodyOf resource := by
  rcases List.mem_append.mp h with h | h
  · split at h
    · exact .inl (List.mem_singleton.mp h)
    · cases h
  · exact mem_normalisePath h

theorem head?_storedBody : (storedBody resource).head? = some '/' ↔ IsAbsolute resource := by
  rw [storedBody]
  by_cases habsolute : IsAbsolute resource
  · rw [if_pos habsolute]
    exact iff_of_true rfl habsolute
  · rw [if_neg habsolute]
    exact iff_of_false (head?_normalisePath _) habsolute

theorem climb_storedBody : climb (posixMoves (storedBody resource)) = pathOf resource := by
  rw [storedBody]
  by_cases habsolute : IsAbsolute resource
  · rw [if_pos habsolute, List.singleton_append, climb_slash, climb_normalisePath, pathOf]
  · rw [if_neg habsolute, List.nil_append, climb_normalisePath, pathOf]

theorem Names.normalise (h : Names root resource stored target) :
    normaliseResource resource = stored :=
  (claimResource_eq_ok h.accepted).2.symm

/-- What is stored is read back as it was meant. -/
theorem Names.alike (h : Names root resource stored target) (hroot : ¬SaysRoot resource) :
    Alike stored resource := by
  have hback : '\\' ∉ storedRest resource := by
    rw [storedRest, if_neg hroot]
    intro hmem
    rcases List.mem_append.mp hmem with hmem | hmem
    · rcases mem_storedBody hmem with hslash | hbody
      · cases hslash
      · exact backslash_notMem_bodyOf resource hbody
    · split at hmem
      · revert hmem
        decide
      · cases hmem
  have hrest : restOf stored = storedRest resource := by
    rw [restOf, h.stored_eq, toList_file, drop_file, slashes_eq_self hback]
  have hstored : storedRest resource
      = storedBody resource ++ if IsGlob resource then glob else [] := by
    rw [storedRest, if_neg hroot, storedBody]
  have hglob : IsGlob stored ↔ IsGlob resource := by
    rw [IsGlob, hrest, hstored, endsWith_iff]
    by_cases hglob : IsGlob resource
    · rw [if_pos hglob]
      exact iff_of_true (List.suffix_append _ _) hglob
    · rw [if_neg hglob, List.append_nil]
      refine iff_of_false (fun hsuffix => ?_) hglob
      rcases mem_storedBody (hsuffix.subset (a := '*') (by decide)) with hslash | hbody
      · cases hslash
      · exact h.star_notMem hbody
  have hbody : bodyOf stored = storedBody resource := by
    rw [bodyOf, hrest, hstored]
    by_cases hmark : IsGlob resource
    · rw [if_pos (hglob.mpr hmark), if_pos hmark, dropGlob_append]
    · rw [if_neg (fun hs => hmark (hglob.mp hs)), if_neg hmark, List.append_nil]
  refine ⟨?_, ?_, hglob⟩
  · rw [IsAbsolute, hbody, head?_storedBody]
  · rw [pathOf, hbody, climb_storedBody]

theorem Alike.saysRoot {first second : String} (h : Alike first second) :
    SaysRoot first ↔ SaysRoot second := by
  rw [SaysRoot, SaysRoot, h.path, h.glob]

/-- What is stored of a path that says more than the root is told by the path. -/
theorem Alike.storedRest_eq {first second : String} (h : Alike first second)
    (hroot : ¬SaysRoot first) : storedRest first = storedRest second := by
  have habsolute : (if IsAbsolute first then ['/'] else [])
      = if IsAbsolute second then ['/'] else [] :=
    if_congr h.absolute rfl rfl
  have hglob : (if IsGlob first then Acc.glob else []) = if IsGlob second then Acc.glob else [] :=
    if_congr h.glob rfl rfl
  rw [storedRest, storedRest, if_neg hroot, if_neg (fun hs => hroot (h.saysRoot.mpr hs)),
    normalisePath_inj.mpr h.path, habsolute, hglob]

theorem Names.stored_of_saysRoot (h : Names root resource stored target)
    (hroot : SaysRoot resource) : stored = resource := by
  rw [h.stored_eq, storedRest, if_pos hroot, ← text_eq h.file]

theorem Names.stored_file (h : Names root resource stored target) :
    "file:".toList.isPrefixOf stored.toList = true := by
  rw [h.stored_eq, toList_file, file_isPrefixOf]

theorem Names.idem (h : Names root resource stored target) : normaliseResource stored = stored := by
  by_cases hroot : SaysRoot resource
  · rw [h.stored_of_saysRoot hroot, h.normalise, h.stored_of_saysRoot hroot]
  · have halike := h.alike hroot
    rw [normaliseResource_file h.stored_file,
      halike.storedRest_eq (fun hs => hroot (halike.saysRoot.mp hs)), ← h.stored_eq]

theorem Alike.symm {first second : String} (h : Alike first second) : Alike second first :=
  ⟨h.absolute.symm, h.path.symm, h.glob.symm⟩

theorem Alike.trans {first second third : String} (h : Alike first second)
    (h' : Alike second third) : Alike first third :=
  ⟨h.absolute.trans h'.absolute, h.path.trans h'.path, h.glob.trans h'.glob⟩

/-- Two spellings are stored as one text when they are one text, or spell one
path that says more than the root. -/
theorem Names.stored_eq_iff {other stored' : String} {target' : List (List Char)}
    (h : Names root resource stored target) (h' : Names root other stored' target') :
    stored = stored' ↔ resource = other ∨ (¬SaysRoot resource ∧ Alike resource other) := by
  constructor
  · rintro rfl
    by_cases hroot : SaysRoot resource
    · by_cases hroot' : SaysRoot other
      · exact .inl ((h.stored_of_saysRoot hroot).symm.trans (h'.stored_of_saysRoot hroot'))
      · have halike := h'.alike hroot'
        rw [h.stored_of_saysRoot hroot] at halike
        exact absurd (halike.saysRoot.mp hroot) hroot'
    · by_cases hroot' : SaysRoot other
      · have halike := h.alike hroot
        rw [h'.stored_of_saysRoot hroot'] at halike
        exact absurd (halike.saysRoot.mp hroot') hroot
      · exact .inr ⟨hroot, (h.alike hroot).symm.trans (h'.alike hroot')⟩
  · rintro (rfl | ⟨hroot, halike⟩)
    · rw [← h.normalise, h'.normalise]
    · rw [h.stored_eq, h'.stored_eq, halike.storedRest_eq hroot]

/-! ## Files -/

/-- What the guard and the core find for the file is what the resource names. -/
def Agrees (root : List (List Char)) (resource stored : String) (target file : List (List Char))
    (written : List Char) : Prop :=
  (guards root stored written = true ↔ Covered resource target file)
    ∧ overlaps stored (String.ofList ("file:".toList ++ joinNames file))
      = guards root stored written

/-- When they do. -/
def Sound (resource : String) (target file : List (List Char)) : Prop :=
  (Covered resource target file → Direct resource ∧ target ≠ [] ∧ ¬Dotted file)
    ∧ (¬Covered resource target file → file ≠ way resource ∧ ¬Starred file (way resource))

/-- The stored claim and the file, compared by segments. -/
def Matches (segs file : List (List Char)) : Prop :=
  segs = file ∨ ∃ names, names ≠ [] ∧ segs = names ++ [['*', '*']] ∧ names <+: file

theorem IsFile.matches_iff (h : IsFile file) (rest : List Char) :
    (rest = joinNames file ∨ Acc.covers rest (joinNames file) = true)
      ↔ Matches (segments rest) file := by
  rw [covers_iff, h.split, Matches]
  refine or_congr_left ⟨fun heq => by rw [heq, h.split], fun heq => ?_⟩
  rw [← heq, joinNames_segments]

theorem IsFile.starred_iff (h : IsFile file) (rest : List Char) :
    Acc.covers (joinNames file) rest = true ↔ Starred file (segments rest) := by
  rw [covers_iff, h.split, Starred]

theorem Names.guards_iff (h : Names root resource stored target) (hfile : IsFile file)
    (hwritten : posixResolve root written = root ++ file) :
    guards root stored written = true
      ↔ ¬Dotted file ∧ Matches (segments (storedRest resource)) file := by
  rw [guards, resourceFor_eq hfile hwritten, ← hfile.matches_iff, h.stored_eq]
  by_cases hdotted : Dotted file
  · rw [if_pos hdotted]
    simp [hdotted]
  · rw [if_neg hdotted, Option.any_some, covers_file]
    exact (and_iff_right hdotted).symm

theorem Names.overlaps_iff (h : Names root resource stored target) (hfile : IsFile file) :
    overlaps stored (String.ofList ("file:".toList ++ joinNames file)) = true
      ↔ Matches (segments (storedRest resource)) file
        ∨ Starred file (segments (storedRest resource)) := by
  rw [h.stored_eq, overlaps_file, ← or_assoc, hfile.matches_iff, hfile.starred_iff]

/-- A first segment that is no name matches no file. -/
theorem IsFile.not_matches (h : IsFile file) {segs : List (List Char)} {first : List Char}
    (hfirst : segs.head? = some first) (hname : ¬IsName first) :
    ¬Matches segs file ∧ ¬Starred file segs := by
  obtain ⟨others, rfl⟩ := List.head?_eq_some_iff.mp hfirst
  have hmem : ∀ names, names ≠ [] → (∃ rest, first :: others = names ++ rest) →
      first ∈ names := by
    rintro names hnames ⟨rest, heq⟩
    obtain ⟨name, names, rfl⟩ := List.exists_cons_of_ne_nil hnames
    rw [(List.cons.inj heq).1]
    exact List.mem_cons_self ..
  constructor
  · rintro (heq | ⟨names, hnames, heq, hbelow⟩)
    · exact hname (h.names first (heq ▸ List.mem_cons_self ..))
    · exact hname (h.names first (hbelow.subset (hmem names hnames ⟨_, heq⟩)))
  · rintro ⟨names, hnames, heq, rest, hbelow⟩
    have hfirst := hmem names hnames ⟨rest, hbelow.symm⟩
    exact hname (h.names first (heq ▸ List.mem_append_left _ hfirst))

/-- No name on the way is the marker's. -/
theorem Names.star_notMem_downs (h : Names root resource stored target) :
    ['*', '*'] ∉ (pathOf resource).downs := by
  intro hmem
  have hjoin : '*' ∈ joinNames (renderClimb (pathOf resource)) :=
    mem_joinNames_of_mem (List.mem_append_right _ hmem) (List.mem_cons_self ..)
  rw [pathOf, ← normalisePath_eq] at hjoin
  rcases mem_normalisePath hjoin with hslash | hbody
  · cases hslash
  · exact h.star_notMem hbody

/-- A spelling of the root has no star. -/
theorem Names.star_notMem_root (h : Names root resource stored target)
    (hroot : SaysRoot resource) : ['*', '*'] ∉ segments (resource.toList.drop 5) := by
  intro hmem
  have hstar : '*' ∈ resource.toList.drop 5 := by
    rw [← joinNames_segments (resource.toList.drop 5)]
    exact mem_joinNames_of_mem hmem (List.mem_cons_self ..)
  have hbody := h.star_notMem
  rw [bodyOf, if_neg hroot.2] at hbody
  exact hbody (List.mem_map.mpr ⟨'*', hstar, rfl⟩)

theorem matches_of_star_notMem {segs : List (List Char)} (h : ['*', '*'] ∉ segs) :
    Matches segs file ↔ segs = file := by
  refine ⟨?_, .inl⟩
  rintro (heq | ⟨names, -, heq, -⟩)
  · exact heq
  · exact absurd (heq ▸ List.mem_append_right _ (List.mem_singleton_self _)) h

/-- What is stored of a path below the root matches what the path covers. -/
theorem matches_iff_covered (htarget : target ≠ []) (hstar : ['*', '*'] ∉ target) :
    Matches (target ++ if IsGlob resource then [['*', '*']] else []) file
      ↔ Covered resource target file := by
  by_cases hglob : IsGlob resource
  · rw [if_pos hglob, Covered, if_pos hglob]
    constructor
    · rintro (rfl | ⟨names, -, heq, hbelow⟩)
      · exact List.prefix_append _ _
      · rwa [List.append_cancel_right heq]
    · exact fun hbelow => .inr ⟨target, htarget, rfl, hbelow⟩
  · rw [if_neg hglob, List.append_nil, matches_of_star_notMem hstar, Covered, if_neg hglob]
    exact eq_comm

/-- The marker puts only covered files on the way. -/
theorem starred_iff :
    Starred file (target ++ if IsGlob resource then [['*', '*']] else [])
        ∨ Covered resource target file
      ↔ Starred file target ∨ Covered resource target file := by
  by_cases hglob : IsGlob resource
  · rw [if_pos hglob, Covered, if_pos hglob]
    refine ⟨?_, Or.imp_left fun ⟨names, hnames, heq, hbelow⟩ =>
      ⟨names, hnames, heq, hbelow.trans (List.prefix_append _ _)⟩⟩
    rintro (⟨names, hnames, heq, hbelow⟩ | hcovered)
    · rcases List.prefix_concat_iff.mp hbelow with rfl | hbelow
      · exact .inr (heq ▸ (List.prefix_append _ _).trans (List.prefix_append _ _))
      · exact .inl ⟨names, hnames, heq, hbelow⟩
    · exact .inr hcovered
  · rw [if_neg hglob, List.append_nil]

theorem Starred.way_ne_nil {way : List (List Char)} (h : Starred file way) : way ≠ [] := by
  rintro rfl
  obtain ⟨names, hnames, -, hbelow⟩ := h
  exact hnames (List.prefix_nil.mp hbelow)

/-- The guard and the core find what a resource names exactly when the file and
the resource are sound for each other. -/
theorem Names.agrees_iff (h : Names root resource stored target) (hfile : IsFile file)
    (hwritten : posixResolve root written = root ++ file) :
    Agrees root resource stored target file written ↔ Sound resource target file := by
  rw [Agrees, Bool.eq_iff_iff (a := overlaps _ _), h.guards_iff hfile hwritten,
    h.overlaps_iff hfile, Sound]
  by_cases hroot : SaysRoot resource
  · have htarget := h.of_saysRoot hroot
    have hcovered : ¬Covered resource target file := by
      rw [Covered, if_neg hroot.2, htarget]
      exact hfile.ne_nil
    have hmatches : Matches (segments (resource.toList.drop 5)) file ↔
        segments (resource.toList.drop 5) = file :=
      matches_of_star_notMem (h.star_notMem_root hroot)
    rw [way, if_pos hroot, storedRest, if_pos hroot, hmatches]
    constructor
    · rintro ⟨hguards, hoverlaps⟩
      refine ⟨fun hc => absurd hc hcovered, fun _ => ⟨fun heq => ?_, fun hstarred => ?_⟩⟩
      · exact hcovered (hguards.mp (hoverlaps.mp (.inl heq.symm)))
      · exact hcovered (hguards.mp (hoverlaps.mp (.inr hstarred)))
    · rintro ⟨-, hsound⟩
      obtain ⟨hne, hstarred⟩ := hsound hcovered
      have heq : ¬segments (resource.toList.drop 5) = file := fun heq => hne heq.symm
      exact ⟨iff_of_false (fun hm => heq hm.2) hcovered,
        iff_of_false (fun hor => hor.elim heq hstarred) fun hm => heq hm.2⟩
  rcases segments_storedRest hroot with
    ⟨hdirect, hdowns, hsegments⟩ | ⟨hdirect, first, hfirst, hname⟩
  · have hway := h.downs hdirect
    have hmatches : Matches ((pathOf resource).downs
        ++ if IsGlob resource then [['*', '*']] else []) file
        ↔ Covered resource (pathOf resource).downs file :=
      matches_iff_covered hdowns h.star_notMem_downs
    have hstarred := @starred_iff (pathOf resource).downs file resource
    have hcovered : file = (pathOf resource).downs →
        Covered resource (pathOf resource).downs file := by
      rintro rfl
      rw [Covered]
      split
      · exact List.prefix_rfl
      · rfl
    rw [way, if_neg hroot, if_pos hdirect, hsegments, hmatches, ← hway]
    constructor
    · rintro ⟨hguards, hoverlaps⟩
      refine ⟨fun hc => ⟨hdirect, hdowns, (hguards.mpr hc).1⟩, fun hnc =>
        ⟨fun heq => hnc (hcovered heq), fun hs => ?_⟩⟩
      rcases hstarred.mpr (.inl hs) with hs | hc
      · exact hnc (hoverlaps.mp (.inr hs)).2
      · exact hnc hc
    · rintro ⟨hin, hout⟩
      refine ⟨⟨And.right, fun hc => ⟨(hin hc).2.2, hc⟩⟩, ⟨fun hor => ?_, fun hm => .inl hm.2⟩⟩
      have hc : Covered resource (pathOf resource).downs file := by
        by_contra hnc
        rcases hor with hc | hs
        · exact hnc hc
        · exact (hstarred.mp (.inl hs)).elim (hout hnc).2 hnc
      exact ⟨(hin hc).2.2, hc⟩
  · obtain ⟨hmatches, hstarred⟩ := hfile.not_matches hfirst hname
    have hway : way resource = [] := by
      rw [way, if_neg hroot]
      split
      next hd => exact (hdirect hd).1
      next => rfl
    rw [hway]
    constructor
    · rintro ⟨hguards, -⟩
      exact ⟨fun hc => absurd (hguards.mpr hc).2 hmatches,
        fun _ => ⟨hfile.ne_nil, fun hs => hs.way_ne_nil rfl⟩⟩
    · rintro ⟨hin, -⟩
      have hnc : ¬Covered resource target file := by
        intro hc
        obtain ⟨hd, htarget, -⟩ := hin hc
        exact htarget ((h.downs hd).symm.trans (hdirect hd).1)
      exact ⟨iff_of_false (fun hm => hmatches hm.2) hnc,
        iff_of_false (fun hor => hor.elim hmatches hstarred) fun hm => hmatches hm.2⟩

/-- What is stored of a resource is stored again unchanged.  Two spellings of one
target are stored as one text when they say the same from the same start, and
more than the root.  For every file the guard and the core find what the resource
names, except that files with two dots in front, the root with a marker and paths
that leave the root are not found, and that a file called `**` is taken for the
directory it lies in. -/
theorem claimResource_covers (h : Names root resource stored target) :
    normaliseResource stored = stored
      ∧ (∀ other stored', Names root other stored' target → (IsGlob other ↔ IsGlob resource) →
        (stored = stored' ↔ resource = other ∨ (¬SaysRoot resource ∧ Alike resource other)))
      ∧ ∀ file written, IsFile file → posixResolve root written = root ++ file →
        (Agrees root resource stored target file written ↔ Sound resource target file) :=
  ⟨h.idem, fun _ _ h' _ => h.stored_eq_iff h', fun _ _ hfile hwritten =>
    h.agrees_iff hfile hwritten⟩

/-! ## Samples -/

def sampleRoot : List (List Char) := ["w".toList]

theorem sampleNames :
    Names sampleRoot "file:src\\.//x/../**" "file:src/**" ["src".toList] where
  file := by decide
  accepted := by decide
  inside := by decide

theorem sampleRootNames : Names sampleRoot "file:./**" "file:/**" [] where
  file := by decide
  accepted := by decide
  inside := by decide

theorem claimResource_covers_sample :
    Agrees sampleRoot "file:src\\.//x/../**" "file:src/**" ["src".toList]
      ["src".toList, "a.mjs".toList] "/w/src/a.mjs".toList := by
  have hfile : IsFile ["src".toList, "a.mjs".toList] := ⟨by decide, by unfold IsName; decide⟩
  have hcovered : Covered "file:src\\.//x/../**" ["src".toList] ["src".toList, "a.mjs".toList] := by
    unfold Covered
    decide
  have hsound : Sound "file:src\\.//x/../**" ["src".toList] ["src".toList, "a.mjs".toList] :=
    ⟨fun _ => ⟨by decide, by decide, by decide⟩, fun hnc => absurd hcovered hnc⟩
  exact ((claimResource_covers sampleNames).2.2 _ _ hfile (by decide)).mpr hsound

/-- A claim on everything in the workspace finds no file. -/
theorem claimResource_missed :
    ¬∀ root resource stored target, Names root resource stored target →
      ∀ file written, IsFile file → posixResolve root written = root ++ file →
        Agrees root resource stored target file written := by
  intro h
  have hfile : IsFile ["a".toList] := ⟨by decide, by unfold IsName; decide⟩
  have hcovered : Covered "file:./**" [] ["a".toList] := by
    unfold Covered
    decide
  have hagrees := h _ _ _ _ sampleRootNames ["a".toList] "/w/a".toList hfile (by decide)
  have hguards : guards sampleRoot "file:/**" "/w/a".toList = false := by decide
  exact Bool.false_ne_true (hguards.symm.trans (hagrees.1.mpr hcovered))

end Acc.HookRunner
