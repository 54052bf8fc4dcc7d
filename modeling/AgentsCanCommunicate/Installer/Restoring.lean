import AgentsCanCommunicate.Installer.Directories

/-!
# An uninstall gives the directories back

Every directory that is neither the user's nor on the way to something of the
user's is some adapter's: recorded as created by it, or in a tree it plans.  An
install keeps this when each directory it makes is noted, and an uninstall when
each directory it leaves is another adapter's too.
-/

namespace Acc.Installer

open Library (Path FileTree Run Where)
open Library.FileTree (way Left)

variable {ι β : Type}
variable {roots : List Path} {plans : ι → Plan β} {s t : Machine ι β} {k : ι} {d p q root : Path}
  {a b : Artifact β} {plan : Plan β} {tree tree' tree'' : FileTree (Content ι β)}
  {done : List (Op β)} {op : Op β}

/-! ## What is whose -/

namespace Machine

def created (s : Machine ι β) (k : ι) : List Path := (s.installs k).elim [] (·.createdDirectories)

/-- The directory is the user's, or on the way to something of the user's. -/
def Keeps (s : Machine ι β) (d : Path) : Prop := ∃ q ∈ s.mine, d <:+ q

/-- The directory is the adapter's. -/
def Theirs (plans : ι → Plan β) (s : Machine ι β) (k : ι) (d : Path) : Prop :=
  d ∈ s.created k ∨ (s.touched k = true ∧ (plans k).holds d = true)

end Machine

/-- The directory is above an artifact, and inside the root the artifact is in. -/
def Plan.Owns (roots : List Path) (plan : Plan β) (d : Path) : Prop :=
  ∃ a ∈ plan.artifacts, d <:+ a.parent ∧
    ((rootFor roots a.parent).any fun root => inside root d) = true

/-- A directory that an install makes is in a tree that some adapter planned, or
inside the owned root of an artifact and the install succeeds. -/
def Op.Accounted (roots : List Path) (plans : ι → Plan β) (s : Machine ι β) (k : ι)
    (succeeds : Bool) : Op β → Prop
  | .mkdir d => d ∈ s.tree.dirs ∨
      (∃ k', (k' = k ∨ s.touched k' = true) ∧ (plans k').holds d = true) ∨
      (succeeds = true ∧ (plans k).Owns roots d)
  | .write .. | .merge _ => True

/-- Every directory that is made is accounted for. -/
def Accounts (roots : List Path) (plans : ι → Plan β) (s : Machine ι β) : Deed ι β → Prop
  | .install k done succeeds => ∀ op ∈ done, op.Accounted roots plans s k succeeds
  | .addDirectory _ | .addFile .. => True

section

variable [DecidableEq ι] [DecidableEq β]

/-- The artifact is as it was recorded, if it was. -/
def Unmodified (s : Machine ι β) (k : ι) (a : Artifact β) : Prop :=
  ∀ record ∈ s.installs k, (a, fingerprintFor s.tree a) ∈ record.artifacts

/-- The artifact is at the path, and an uninstall may take it from there. -/
def Artifact.Goes (s : Machine ι β) (k : ι) (a : Artifact β) (q : Path) : Prop :=
  match a.kind with
  | .file _ => q = a.path ∧ q ∈ s.tree.files ∧ Unmodified s k a
  | .tree _ => a.path <:+ q ∧ Unmodified s k a
  | .merge => q = a.path ∧ q ∈ s.tree.files ∧ (s.tree.content q).base = none ∧
      (s.tree.content q).entries ⊆ {k}

/-- An uninstall leaves none of the adapter's directories to nobody: what it has in
a directory that is neither kept nor another adapter's is all that is there. -/
def Clears (plans : ι → Plan β) (s : Machine ι β) (k : ι) : Prop :=
  ∀ d ∈ s.tree.dirs, ¬s.Keeps d → s.Theirs plans k d →
    (∃ k', k' ≠ k ∧ s.Theirs plans k' d) ∨
    ∀ q ∈ s.tree.dirs ∪ s.tree.files, d <:+ q → q ∈ s.created k ∨
      ∃ a ∈ (plans k).artifacts, a.Goes s k q

structure Law (roots : List Path) (plans : ι → Plan β) (s : Machine ι β) : Prop where
  closed : s.tree.Closed
  mine : ∀ q ∈ s.mine, q ∈ s.tree.dirs ∨ (q ∈ s.tree.files ∧ (s.tree.content q).base ≠ none)
  other : ∀ q ∈ s.mine, Other plans q
  created : ∀ k, ∀ d ∈ s.created k,
    d ≠ [] ∧ d ∉ s.tree.files ∧ d ∉ s.mine ∧ (rootFor roots d).isSome
  artifacts : ∀ k record, s.installs k = some record →
    record.artifacts.map (·.1) = (plans k).artifacts
  covered : ∀ d ∈ s.tree.dirs, s.Keeps d ∨ ∃ k, s.Theirs plans k d

end

/-! ## Installing -/

/-- A missing directory on the way to another one is noted, when it is inside the
root. -/
theorem mem_missingFrom (h : tree.Closed) (hmissing : ¬tree.Has d) (hsuffix : d <:+ p)
    (hinside : inside root d = true) : d ∈ missingFrom root tree p := by
  induction p with
  | nil =>
      rw [List.suffix_nil.mp hsuffix] at hmissing
      exact absurd (Or.inl h.root) hmissing
  | cons name parent ih =>
      simp only [inside, Bool.and_eq_true, decide_eq_true_eq] at hinside
      have hroot : root <:+ name :: parent := List.IsSuffix.trans (by simpa using hinside.1) hsuffix
      have hbelow : name :: parent ≠ root := by
        intro heq
        have hd : d = root := (heq ▸ hsuffix).eq_of_length_le (by simpa using hinside.1.length_le)
        exact absurd hd (by simpa using hinside.2)
      have hfree : ¬tree.Has (name :: parent) := by
        intro hhas
        by_cases hd : d = name :: parent
        · exact hmissing (hd ▸ hhas)
        · exact hmissing (Or.inl (h.above hhas hsuffix hd))
      have hlisted : (inside root (name :: parent) && !decide (tree.Has (name :: parent))) = true := by
        simp [inside, hroot, hbelow, hfree]
      rw [missingFrom, if_pos hlisted]
      rcases List.suffix_cons_iff.mp hsuffix with heq | hsuffix
      · exact heq ▸ List.mem_cons_self
      · exact List.mem_cons_of_mem _ (ih hsuffix)

/-- What is noted is missing, on the way, and inside the root. -/
theorem of_mem_missingFrom (h : d ∈ missingFrom root tree p) :
    ¬tree.Has d ∧ d <:+ p ∧ inside root d = true ∧ d ≠ [] := by
  induction p with
  | nil => cases h
  | cons name parent ih =>
      rw [missingFrom] at h
      split at h
      next hlisted =>
        rcases List.mem_cons.mp h with rfl | h
        · simp only [Bool.and_eq_true, Bool.not_eq_true', decide_eq_false_iff_not] at hlisted
          exact ⟨hlisted.2, List.suffix_refl _, hlisted.1, List.cons_ne_nil _ _⟩
        · obtain ⟨hmissing, hsuffix, hinside, hne⟩ := ih h
          exact ⟨hmissing, hsuffix.trans (List.suffix_cons _ _), hinside, hne⟩
      next => cases h

theorem rootFor_isSome (hroot : rootFor roots p = some root) (hinside : inside root d = true) :
    (rootFor roots d).isSome = true := by
  rw [rootFor, List.find?_isSome]
  exact ⟨root, List.mem_of_find?_eq_some hroot, hinside⟩

theorem mem_missingArtifactParents (h : tree.Closed) (hmissing : ¬tree.Has d)
    (howns : plan.Owns roots d) : d ∈ missingArtifactParents roots tree plan.artifacts := by
  obtain ⟨a, ha, hsuffix, hroot⟩ := howns
  obtain ⟨root, hroot, hinside⟩ := (Option.any_eq_true _ _).mp hroot
  rw [missingArtifactParents, List.mem_dedup, List.mem_flatMap]
  refine ⟨a, ha, ?_⟩
  rw [missingParents, hroot]
  exact mem_missingFrom h hmissing hsuffix hinside

theorem of_mem_missingArtifactParents
    (h : d ∈ missingArtifactParents roots tree plan.artifacts) :
    ¬tree.Has d ∧ d ≠ [] ∧ (rootFor roots d).isSome = true ∧
      ∃ a ∈ plan.artifacts, d <:+ a.parent := by
  rw [missingArtifactParents, List.mem_dedup, List.mem_flatMap] at h
  obtain ⟨a, ha, h⟩ := h
  unfold missingParents at h
  split at h
  next root hroot =>
    obtain ⟨hmissing, hsuffix, hinside, hne⟩ := of_mem_missingFrom h
    exact ⟨hmissing, hne, rootFor_isSome hroot hinside, a, ha, hsuffix⟩
  next => cases h

theorem mem_mkdirs {op : Op β} : op ∈ mkdirs p ↔ ∃ d, d <:+ p ∧ op = .mkdir d := by
  simp only [mkdirs, List.mem_map, Library.FileTree.mem_way]
  exact exists_congr fun d => and_congr_right fun _ => eq_comm

/-- An artifact's install makes all its parents. -/
theorem mkdir_mem_steps (hsuffix : d <:+ a.parent) : .mkdir d ∈ a.steps := by
  have hparent : .mkdir d ∈ (mkdirs a.parent : List (Op β)) := mem_mkdirs.mpr ⟨d, hsuffix, rfl⟩
  have hpath : .mkdir d ∈ (mkdirs a.path : List (Op β)) :=
    mem_mkdirs.mpr ⟨d, hsuffix.trans (List.suffix_cons _ _), rfl⟩
  unfold Artifact.steps
  split
  next => exact List.mem_append_left _ hparent
  next => exact List.mem_append_left _ hpath
  next => exact List.mem_append_left _ hparent

/-- What an artifact's install writes is the artifact's own. -/
theorem covers_of_write {bytes : β} (h : .write q bytes ∈ a.steps) : a.covers q = true := by
  have hnone : ∀ p, .write q bytes ∉ (mkdirs p : List (Op β)) := by
    intro p hmem
    obtain ⟨d, -, heq⟩ := mem_mkdirs.mp hmem
    cases heq
  unfold Artifact.steps at h
  unfold Artifact.covers
  split at h
  next =>
    rcases List.mem_append.mp h with hmem | hmem
    · exact absurd hmem (hnone _)
    · simp at hmem
      simp [hmem]
  next bundle =>
    rcases List.mem_append.mp h with hmem | hmem
    · exact absurd hmem (hnone _)
    · obtain ⟨entry, -, hmem⟩ := List.mem_flatMap.mp hmem
      rcases List.mem_append.mp hmem with hmem | hmem
      · exact absurd hmem (hnone _)
      · simp at hmem
        simp [hmem]
  next =>
    rcases List.mem_append.mp h with hmem | hmem
    · exact absurd hmem (hnone _)
    · simp at hmem

/-- What is recorded as created is there, as long as nothing is uninstalled. -/
def Present (s : Machine ι β) : Prop := ∀ k, ∀ d ∈ s.created k, d ∈ s.tree.dirs

/-- What an install run or the user leaves of the machine. -/
structure Extends (s t : Machine ι β) : Prop where
  grows : s.tree.Grows t.tree
  mine : s.mine ⊆ t.mine
  touched : ∀ k, s.touched k = true → t.touched k = true
  created : ∀ k, ∀ d ∈ s.created k, d ∈ t.created k

theorem Extends.refl (s : Machine ι β) : Extends s s :=
  ⟨.refl _, Finset.Subset.refl _, fun _ h => h, fun _ _ h => h⟩

theorem Extends.trans {u : Machine ι β} (h : Extends s t) (h' : Extends t u) : Extends s u :=
  ⟨h.grows.trans h'.grows, h.mine.trans h'.mine, fun k ht => h'.touched k (h.touched k ht),
    fun k d hd => h'.created k d (h.created k d hd)⟩

theorem Extends.keeps (h : Extends s t) (hd : s.Keeps d) : t.Keeps d :=
  hd.imp fun _ hq => ⟨h.mine hq.1, hq.2⟩

theorem Extends.theirs (h : Extends s t) (hd : s.Theirs plans k d) : t.Theirs plans k d :=
  hd.imp (h.created k d) (And.imp_left (h.touched k))

theorem mkdir_mem_plan (ha : a ∈ plan.artifacts) (hsuffix : d <:+ a.parent) :
    .mkdir d ∈ plan.steps :=
  List.mem_flatMap.mpr ⟨a, ha, mkdir_mem_steps hsuffix⟩

variable [DecidableEq ι]

/-- What one step of an install adds. -/
theorem perform_spec (h : tree.Closed) (hop : op.perform k tree = some tree') :
    tree'.Closed ∧ tree.Grows tree' ∧
      (∀ d ∈ tree'.dirs, d ∈ tree.dirs ∨ op = .mkdir d) ∧ (∀ d, op = .mkdir d → d ∈ tree'.dirs) ∧
      ∀ q ∈ tree.files, (tree.content q).base ≠ none → (∀ bytes, op ≠ .write q bytes) →
        (tree'.content q).base ≠ none := by
  cases op with
  | mkdir p =>
      have hdirs := Library.FileTree.mkdir_dirs h hop
      obtain ⟨hfiles, hcontent⟩ := Library.FileTree.mkdir_files hop
      refine ⟨h.mkdir hop, ⟨?_, hfiles.symm.subset⟩, ?_, ?_, ?_⟩
      · exact hdirs ▸ Finset.subset_insert _ _
      · intro d hd
        rw [hdirs] at hd
        rcases Finset.mem_insert.mp hd with rfl | hd
        · exact Or.inr rfl
        · exact Or.inl hd
      · intro d heq
        cases heq
        exact hdirs ▸ Finset.mem_insert_self _ _
      · intro q _ hbase _
        rwa [hcontent]
  | write p bytes =>
      obtain ⟨hdirs, hfiles, hcontent⟩ := Library.FileTree.write_eq_some hop
      refine ⟨h.write hop, ⟨hdirs.symm.subset, hfiles ▸ Finset.subset_insert _ _⟩, ?_, nofun, ?_⟩
      · exact fun d hd => Or.inl (hdirs ▸ hd)
      · intro q _ hbase hwrite
        have hne : q ≠ p := by
          rintro rfl
          exact hwrite bytes rfl
        rwa [hcontent, Function.update_of_ne hne]
  | merge p =>
      simp only [Op.perform] at hop
      split at hop
      next hfile =>
        obtain ⟨hdirs, hfiles, hcontent⟩ := Library.FileTree.write_eq_some hop
        refine ⟨h.write hop, ⟨hdirs.symm.subset, hfiles ▸ Finset.subset_insert _ _⟩, ?_, nofun, ?_⟩
        · exact fun d hd => Or.inl (hdirs ▸ hd)
        · intro q _ hbase _
          by_cases hq : q = p
          · subst hq
            rwa [hcontent, Function.update_self]
          · rwa [hcontent, Function.update_of_ne hq]
      next hfile =>
        obtain ⟨hdirs, hfiles, hcontent⟩ := Library.FileTree.write_eq_some hop
        refine ⟨h.write hop, ⟨hdirs.symm.subset, hfiles ▸ Finset.subset_insert _ _⟩, ?_, nofun, ?_⟩
        · exact fun d hd => Or.inl (hdirs ▸ hd)
        · intro q hq hbase _
          have hne : q ≠ p := by
            rintro rfl
            exact hfile hq
          rwa [hcontent, Function.update_of_ne hne]

/-- What an install that has done some of its steps has added. -/
theorem performs_spec (h : tree.Closed)
    (hdone : done.foldlM (Op.perform k) tree = some tree') :
    tree'.Closed ∧ tree.Grows tree' ∧
      (∀ d ∈ tree'.dirs, d ∈ tree.dirs ∨ .mkdir d ∈ done) ∧ (∀ d, .mkdir d ∈ done → d ∈ tree'.dirs) ∧
      ∀ q ∈ tree.files, (tree.content q).base ≠ none → (∀ bytes, .write q bytes ∉ done) →
        (tree'.content q).base ≠ none := by
  induction done generalizing tree with
  | nil =>
      cases hdone
      exact ⟨h, .refl _, fun d hd => Or.inl hd, nofun, fun q _ hbase _ => hbase⟩
  | cons op done ih =>
      obtain ⟨between, hop, hrest⟩ := Option.bind_eq_some_iff.mp hdone
      obtain ⟨hclosed, hgrows, hnew, hmade, hkept⟩ := perform_spec h hop
      obtain ⟨hclosed', hgrows', hnew', hmade', hkept'⟩ := ih hclosed hrest
      refine ⟨hclosed', hgrows.trans hgrows', ?_, ?_, ?_⟩
      · intro d hd
        rcases hnew' d hd with hd | hd
        · rcases hnew d hd with hd | rfl
          · exact Or.inl hd
          · exact Or.inr List.mem_cons_self
        · exact Or.inr (List.mem_cons_of_mem _ hd)
      · intro d hd
        rcases List.mem_cons.mp hd with heq | hd
        · exact hgrows'.dirs (hmade d heq.symm)
        · exact hmade' d hd
      · intro q hq hbase hwrite
        refine hkept' q (hgrows.files hq) ?_ fun bytes hmem => hwrite bytes (List.mem_cons_of_mem _ hmem)
        exact hkept q hq hbase fun bytes heq => hwrite bytes (heq ▸ List.mem_cons_self)

variable [DecidableEq β]

/-- What an install that was tried leaves. -/
structure Tried (roots : List Path) (plans : ι → Plan β) (s : Machine ι β) (k : ι)
    (done : List (Op β)) (succeeds : Bool) (t : Machine ι β) : Prop where
  steps : ∀ op ∈ done, op ∈ (plans k).steps
  whole : succeeds = true → ∀ op ∈ (plans k).steps, op ∈ done
  tree : done.foldlM (Op.perform k) s.tree = some t.tree
  mine : t.mine = s.mine
  touched : t.touched = Function.update s.touched k true
  installs : t.installs = if succeeds then
      Function.update s.installs k (some (recordInstall (s.installs k) t.tree (plans k).artifacts
        (missingArtifactParents roots s.tree (plans k).artifacts)))
    else s.installs

theorem install_cases {succeeds : Bool} (h : install roots plans s k done succeeds = some t) :
    t = s ∨ Tried roots plans s k done succeeds t := by
  unfold install at h
  split at h
  next =>
    split at h
    next =>
      cases h
      exact Or.inl rfl
    next => cases h
  next =>
    split at h
    next hsteps =>
      obtain ⟨tree, hdone, rfl⟩ := Option.map_eq_some_iff.mp h
      exact Or.inr ⟨hsteps.1, hsteps.2, hdone, rfl, rfl, rfl⟩
    next => cases h

namespace Tried

variable {k' : ι} {succeeds : Bool} (h : Tried roots plans s k done succeeds t)

include h

/-- What is recorded as created was, or was noted before the install. -/
theorem created (hd : d ∈ t.created k') : d ∈ s.created k' ∨ (k' = k ∧ succeeds = true ∧
    d ∈ missingArtifactParents roots s.tree (plans k).artifacts) := by
  rw [Machine.created, h.installs] at hd
  cases succeeds with
  | false => exact Or.inl hd
  | true =>
      by_cases hk : k' = k
      · subst hk
        rw [if_pos rfl, Function.update_self] at hd
        have hd : d ∈ (recordInstall (s.installs k') t.tree (plans k').artifacts
          (missingArtifactParents roots s.tree (plans k').artifacts)).createdDirectories := hd
        rw [recordInstall, List.mem_dedup] at hd
        rcases List.mem_append.mp hd with hd | hd
        · exact Or.inl hd
        · exact Or.inr ⟨rfl, rfl, hd⟩
      · rw [if_pos rfl, Function.update_of_ne hk] at hd
        exact Or.inl hd

theorem created_of_created (hd : d ∈ s.created k') : d ∈ t.created k' := by
  rw [Machine.created, h.installs]
  cases succeeds with
  | false => exact hd
  | true =>
      by_cases hk : k' = k
      · subst hk
        rw [if_pos rfl, Function.update_self]
        exact List.mem_dedup.mpr (List.mem_append_left _ hd)
      · rw [if_pos rfl, Function.update_of_ne hk]
        exact hd

theorem created_of_noted (hsucceeds : succeeds = true)
    (hd : d ∈ missingArtifactParents roots s.tree (plans k).artifacts) : d ∈ t.created k := by
  rw [Machine.created, h.installs, if_pos hsucceeds, Function.update_self]
  exact List.mem_dedup.mpr (List.mem_append_right _ hd)

theorem artifacts {record : Install ι β} (hrecord : t.installs k' = some record) :
    s.installs k' = some record ∨ record.artifacts.map (·.1) = (plans k').artifacts := by
  rw [h.installs] at hrecord
  cases succeeds with
  | false => exact Or.inl hrecord
  | true =>
      by_cases hk : k' = k
      · subst hk
        rw [if_pos rfl, Function.update_self] at hrecord
        cases hrecord
        refine Or.inr ?_
        simp [recordInstall, Function.comp_def]
      · rw [if_pos rfl, Function.update_of_ne hk] at hrecord
        exact Or.inl hrecord

theorem made (hclosed : s.tree.Closed) (hsucceeds : succeeds = true)
    (hd : d ∈ missingArtifactParents roots s.tree (plans k).artifacts) : d ∈ t.tree.dirs := by
  obtain ⟨-, -, -, a, ha, hsuffix⟩ := of_mem_missingArtifactParents hd
  exact (performs_spec hclosed h.tree).2.2.2.1 d (h.whole hsucceeds _ (mkdir_mem_plan ha hsuffix))

theorem extending (hclosed : s.tree.Closed) : Extends s t := by
  refine ⟨(performs_spec hclosed h.tree).2.1, h.mine.symm.subset, ?_, ?_⟩
  · intro k' htouched
    rw [h.touched]
    by_cases hk : k' = k
    · rw [hk, Function.update_self]
    · rwa [Function.update_of_ne hk]
  · exact fun k' d hd => h.created_of_created hd

/-- Every directory stays accounted for. -/
theorem covered (hlaw : Law roots plans s)
    (haccounts : Accounts roots plans s (.install k done succeeds)) :
    ∀ d ∈ t.tree.dirs, t.Keeps d ∨ ∃ k', t.Theirs plans k' d := by
  intro d hd
  have hextends := h.extending hlaw.closed
  have htouched : t.touched k = true := by rw [h.touched, Function.update_self]
  have hold : d ∈ s.tree.dirs → t.Keeps d ∨ ∃ k', t.Theirs plans k' d := by
    intro hd
    rcases hlaw.covered d hd with hkeeps | ⟨k', htheirs⟩
    · exact Or.inl (hextends.keeps hkeeps)
    · exact Or.inr ⟨k', hextends.theirs htheirs⟩
  rcases (performs_spec hlaw.closed h.tree).2.2.1 d hd with hd | hmade
  · exact hold hd
  · rcases haccounts _ hmade with hd | ⟨k', hk, hholds⟩ | ⟨hsucceeds, howns⟩
    · exact hold hd
    · refine Or.inr ⟨k', Or.inr ⟨?_, hholds⟩⟩
      rcases hk with rfl | hk
      · exact htouched
      · exact hextends.touched k' hk
    · by_cases hhas : s.tree.Has d
      · exact hold (hhas.resolve_right fun hfile =>
          (performs_spec hlaw.closed h.tree).1.apart d hd (hextends.grows.files hfile))
      · have hnoted := mem_missingArtifactParents hlaw.closed hhas howns
        exact Or.inr ⟨k, Or.inl (h.created_of_noted hsucceeds hnoted)⟩

end Tried

theorem install_law (h : Law roots plans s) (hpresent : Present s) {succeeds : Bool}
    (haccounts : Accounts roots plans s (.install k done succeeds))
    (hinstall : install roots plans s k done succeeds = some t) :
    Law roots plans t ∧ Present t ∧ Extends s t := by
  rcases install_cases hinstall with rfl | htried
  · exact ⟨h, hpresent, .refl _⟩
  · obtain ⟨hclosed, hgrows, -, -, hkept⟩ := performs_spec h.closed htried.tree
    have hextends := htried.extending h.closed
    have hpresent' : Present t := by
      intro k' d hd
      rcases htried.created hd with hd | ⟨-, hsucceeds, hd⟩
      · exact hgrows.dirs (hpresent k' d hd)
      · exact htried.made h.closed hsucceeds hd
    refine ⟨⟨hclosed, ?_, ?_, ?_, ?_, htried.covered h haccounts⟩, hpresent', hextends⟩
    · intro q hq
      rw [htried.mine] at hq
      rcases h.mine q hq with hdir | ⟨hfile, hbase⟩
      · exact Or.inl (hgrows.dirs hdir)
      · refine Or.inr ⟨hgrows.files hfile, hkept q hfile hbase fun bytes hwrite => ?_⟩
        obtain ⟨a, ha, hstep⟩ := List.mem_flatMap.mp (htried.steps _ hwrite)
        have hother := h.other q hq k a ha
        rw [covers_of_write hstep] at hother
        cases hother
    · exact fun q hq => h.other q (htried.mine ▸ hq)
    · intro k' d hd
      have hnofile : d ∉ t.tree.files := hclosed.apart d (hpresent' k' d hd)
      rw [htried.mine]
      rcases htried.created hd with hd | ⟨-, -, hd⟩
      · obtain ⟨hne, -, hmine, hroot⟩ := h.created k' d hd
        exact ⟨hne, hnofile, hmine, hroot⟩
      · obtain ⟨hmissing, hne, hroot, -⟩ := of_mem_missingArtifactParents hd
        refine ⟨hne, hnofile, fun hmine => hmissing ?_, hroot⟩
        exact (h.mine d hmine).imp id And.left
    · intro k' record hrecord
      rcases htried.artifacts hrecord with hrecord | heq
      · exact h.artifacts k' record hrecord
      · exact heq

omit [DecidableEq ι] [DecidableEq β] in
/-- What the user adds where nothing was, of a tree that grows by it. -/
theorem add_law (h : Law roots plans s) (hpresent : Present s) (hfree : ¬s.tree.Has p)
    (hother : Other plans p) (hclosed : tree.Closed) (hgrows : s.tree.Grows tree)
    (hdirs : ∀ d ∈ tree.dirs, d ∈ s.tree.dirs ∨ d = p)
    (hcontent : ∀ q ∈ s.tree.files, tree.content q = s.tree.content q)
    (hthere : p ∈ tree.dirs ∨ (p ∈ tree.files ∧ (tree.content p).base ≠ none)) :
    let t := { s with tree, mine := insert p s.mine }
    Law roots plans t ∧ Present t ∧ Extends s t := by
  have hextends : Extends s { s with tree, mine := insert p s.mine } :=
    ⟨hgrows, Finset.subset_insert _ _, fun _ h => h, fun _ _ h => h⟩
  have hpresent' : Present { s with tree, mine := insert p s.mine } := fun k d hd =>
    hgrows.dirs (hpresent k d hd)
  refine ⟨⟨hclosed, ?_, ?_, ?_, h.artifacts, ?_⟩, hpresent', hextends⟩
  · intro q hq
    rcases Finset.mem_insert.mp hq with rfl | hq
    · exact hthere
    · rcases h.mine q hq with hdir | ⟨hfile, hbase⟩
      · exact Or.inl (hgrows.dirs hdir)
      · exact Or.inr ⟨hgrows.files hfile, by rwa [hcontent q hfile]⟩
  · intro q hq
    rcases Finset.mem_insert.mp hq with rfl | hq
    · exact hother
    · exact h.other q hq
  · intro k d hd
    obtain ⟨hne, -, hmine, hroot⟩ := h.created k d hd
    refine ⟨hne, hclosed.apart d (hpresent' k d hd), fun hmem => ?_, hroot⟩
    rcases Finset.mem_insert.mp hmem with rfl | hmem
    · exact hfree (Or.inl (hpresent k d hd))
    · exact hmine hmem
  · intro d hd
    rcases hdirs d hd with hd | rfl
    · rcases h.covered d hd with hkeeps | ⟨k, htheirs⟩
      · exact Or.inl (hextends.keeps hkeeps)
      · exact Or.inr ⟨k, hextends.theirs htheirs⟩
    · exact Or.inl ⟨d, Finset.mem_insert_self _ _, List.suffix_refl d⟩

theorem act_law {deed : Deed ι β} (h : Law roots plans s) (hpresent : Present s)
    (haccounts : Accounts roots plans s deed) (hstep : Step roots plans s deed t) :
    Law roots plans t ∧ Present t ∧ Extends s t := by
  obtain ⟨hact, hother⟩ := hstep
  cases deed with
  | install k done succeeds => exact install_law h hpresent haccounts hact
  | addDirectory p =>
      simp only [act] at hact
      split at hact
      next => cases hact
      next hfree =>
        obtain ⟨tree, hmake, rfl⟩ := Option.map_eq_some_iff.mp hact
        have hdirs := Library.FileTree.mkdir_dirs h.closed hmake
        obtain ⟨hfiles, hcontent⟩ := Library.FileTree.mkdir_files hmake
        refine add_law h hpresent hfree hother (h.closed.mkdir hmake)
          ⟨hdirs ▸ Finset.subset_insert _ _, hfiles.symm.subset⟩ ?_ ?_ ?_
        · intro d hd
          rw [hdirs] at hd
          exact (Finset.mem_insert.mp hd).symm
        · exact fun q _ => congrFun hcontent q
        · exact Or.inl (hdirs ▸ Finset.mem_insert_self _ _)
  | addFile p bytes =>
      simp only [act] at hact
      split at hact
      next => cases hact
      next hfree =>
        obtain ⟨tree, hwrite, rfl⟩ := Option.map_eq_some_iff.mp hact
        obtain ⟨hdirs, hfiles, hcontent⟩ := Library.FileTree.write_eq_some hwrite
        refine add_law h hpresent hfree hother (h.closed.write hwrite)
          ⟨hdirs.symm.subset, hfiles ▸ Finset.subset_insert _ _⟩ ?_ ?_ ?_
        · exact fun d hd => Or.inl (hdirs ▸ hd)
        · intro q hq
          have hne : q ≠ p := by
            rintro rfl
            exact hfree (Or.inr hq)
          rw [hcontent, Function.update_of_ne hne]
        · refine Or.inr ⟨hfiles ▸ Finset.mem_insert_self _ _, ?_⟩
          rw [hcontent, Function.update_self]
          nofun

/-! ## Uninstalling -/

/-- What taking artifacts and entries away leaves of the files: what is lost is an
artifact, or a file that was made for entries alone. -/
structure Reduces (plan : Plan β) (tree tree' : FileTree (Content ι β)) : Prop
    extends Left tree tree' where
  base : ∀ q, (tree'.content q).base = (tree.content q).base
  entries : ∀ q, (tree'.content q).entries ⊆ (tree.content q).entries
  dirs_lost : ∀ q ∈ tree.dirs, q ∈ tree'.dirs ∨ ∃ a ∈ plan.artifacts, a.covers q = true
  files_lost : ∀ q ∈ tree.files, q ∈ tree'.files ∨ (∃ a ∈ plan.artifacts, a.covers q = true) ∨
    (tree.content q).base = none

omit [DecidableEq ι] [DecidableEq β] in
theorem Reduces.refl (h : tree.Closed) : Reduces plan tree tree :=
  ⟨.refl h, fun _ => rfl, fun _ => Finset.Subset.refl _, fun _ h => Or.inl h, fun _ h => Or.inl h⟩

omit [DecidableEq ι] [DecidableEq β] in
theorem Reduces.trans (h : Reduces plan tree tree') (h' : Reduces plan tree' tree'') :
    Reduces plan tree tree'' := by
  refine ⟨h.toLeft.trans h'.toLeft, fun q => (h'.base q).trans (h.base q),
    fun q => (h'.entries q).trans (h.entries q), fun q hq => ?_, fun q hq => ?_⟩
  · rcases h.dirs_lost q hq with hq | hlost
    · exact h'.dirs_lost q hq
    · exact Or.inr hlost
  · rcases h.files_lost q hq with hq | hlost
    · rcases h'.files_lost q hq with hq | hlost | hbase
      · exact Or.inl hq
      · exact Or.inr (Or.inl hlost)
      · exact Or.inr (Or.inr (h.base q ▸ hbase))
    · exact Or.inr hlost

omit [DecidableEq ι] [DecidableEq β] in
theorem remove_reduces (h : tree.Closed) (ha : a ∈ plan.artifacts) :
    Reduces plan tree (a.remove tree) := by
  unfold Artifact.remove
  split
  next hkind =>
    refine ⟨Library.FileTree.left_unlink h, fun _ => rfl, fun _ => Finset.Subset.refl _,
      fun _ h => Or.inl h, fun q hq => ?_⟩
    by_cases hq' : q = a.path
    · exact Or.inr (Or.inl ⟨a, ha, by simp [Artifact.covers, hkind, hq']⟩)
    · exact Or.inl (Finset.mem_erase.mpr ⟨hq', hq⟩)
  next hkind =>
    have hcovers : ∀ q, a.path <:+ q → a.covers q = true := by
      intro q hq
      simp [Artifact.covers, hkind, hq]
    refine ⟨Library.FileTree.left_removeTree h nofun, fun _ => rfl, fun _ => Finset.Subset.refl _,
      fun q hq => ?_, fun q hq => ?_⟩
    · by_cases hbelow : a.path <:+ q
      · exact Or.inr ⟨a, ha, hcovers q hbelow⟩
      · exact Or.inl (Finset.mem_filter.mpr ⟨hq, hbelow⟩)
    · by_cases hbelow : a.path <:+ q
      · exact Or.inr (Or.inl ⟨a, ha, hcovers q hbelow⟩)
      · exact Or.inl (Finset.mem_filter.mpr ⟨hq, hbelow⟩)
  next => exact .refl h

omit [DecidableEq β] in
theorem withdrawEntries_reduces (h : tree.Closed) :
    Reduces plan tree (withdrawEntries k tree p) := by
  unfold withdrawEntries
  dsimp only
  split
  next =>
    split
    next hlast =>
      refine ⟨Library.FileTree.left_unlink h, fun _ => rfl, fun _ => Finset.Subset.refl _,
        fun _ h => Or.inl h, fun q hq => ?_⟩
      by_cases hq' : q = p
      · exact Or.inr (Or.inr (hq' ▸ hlast.1))
      · exact Or.inl (Finset.mem_erase.mpr ⟨hq', hq⟩)
    next =>
      refine ⟨⟨⟨h.root, h.apart, h.parent⟩, Finset.Subset.refl _, Finset.Subset.refl _⟩,
        fun q => ?_, fun q => ?_, fun _ h => Or.inl h, fun _ h => Or.inl h⟩
      · by_cases hq : q = p
        · subst hq
          simp
        · simp [Function.update_of_ne hq]
      · by_cases hq : q = p
        · subst hq
          simpa using Finset.erase_subset _ _
        · simp [Function.update_of_ne hq]
  next => exact .refl h

omit [DecidableEq β] in
theorem uninstallLayout_reduces {keep : List Path} (h : tree.Closed) (ha : a ∈ plan.artifacts) :
    Reduces plan tree (uninstallLayout k keep tree a) := by
  unfold uninstallLayout
  split
  next => exact withdrawEntries_reduces h
  next =>
    split
    next => exact .refl h
    next => exact remove_reduces h ha

theorem removeOwnedArtifacts_reduces {owned : List (Artifact β × Option (Fingerprint ι β))}
    (h : tree.Closed) (howned : ∀ entry ∈ owned, entry.1 ∈ plan.artifacts) :
    Reduces plan tree (removeOwnedArtifacts tree owned).1 := by
  induction owned generalizing tree with
  | nil => exact .refl h
  | cons entry rest ih =>
      obtain ⟨a, sha256⟩ := entry
      have ha : a ∈ plan.artifacts := howned _ List.mem_cons_self
      have hrest : ∀ entry ∈ rest, entry.1 ∈ plan.artifacts := fun entry hentry =>
        howned entry (List.mem_cons_of_mem _ hentry)
      rw [removeOwnedArtifacts]
      split
      next => exact ih h hrest
      next =>
        split
        next =>
          have hremove := remove_reduces h ha
          exact hremove.trans (ih hremove.closed hrest)
        next => exact ih h hrest

omit [DecidableEq β] in
theorem foldl_uninstallLayout_reduces {keep : List Path} {artifacts : List (Artifact β)}
    (h : tree.Closed) (hsub : artifacts ⊆ plan.artifacts) :
    Reduces plan tree (artifacts.foldl (uninstallLayout k keep) tree) := by
  induction artifacts generalizing tree with
  | nil => exact .refl h
  | cons a rest ih =>
      have hone : Reduces plan tree (uninstallLayout k keep tree a) :=
        uninstallLayout_reduces h (hsub List.mem_cons_self)
      exact hone.trans (ih hone.closed fun b hb => hsub (List.mem_cons_of_mem _ hb))

/-! ### Artifacts that are gone -/

/-- Nothing of the artifact is left. -/
def Gone (tree : FileTree (Content ι β)) (a : Artifact β) : Prop :=
  match a.kind with
  | .file _ => a.path ∉ tree.files
  | .tree _ => ∀ q, a.path <:+ q → ¬tree.Has q
  | .merge => True

omit [DecidableEq ι] [DecidableEq β] in
theorem Gone.left (h : Gone tree a) (hleft : Left tree tree') : Gone tree' a := by
  unfold Gone at h ⊢
  split
  next hkind =>
    rw [hkind] at h
    exact fun hfile => h (hleft.files hfile)
  next hkind =>
    rw [hkind] at h
    exact fun q hq hhas => h q hq (hleft.has hhas)
  next => trivial

/-- Below a path that is taken away nothing is left, also of other artifacts. -/
theorem gone_remove (h : tree.Closed) (hthere : fingerprintFor tree b ≠ none)
    (habove : b.path <:+ a.path) : Gone (b.remove tree) a := by
  have hnothing : ∀ q, b.path <:+ q → ¬(b.remove tree).Has q := by
    intro q hq
    unfold fingerprintFor at hthere
    unfold Artifact.remove
    split
    next hkind =>
      rw [hkind] at hthere
      have hfile : b.path ∈ tree.files := by
        by_contra hno
        exact hthere (if_neg hno)
      by_cases hq' : b.path = q
      · subst hq'
        rintro (hdir | hleft)
        · exact h.apart _ hdir hfile
        · exact absurd rfl (Finset.mem_erase.mp hleft).1
      · intro hhas
        exact h.apart _ (h.above ((Library.FileTree.left_unlink h).has hhas) hq hq') hfile
    next => simpa using fun _ => hq
    next hkind =>
      rw [hkind] at hthere
      exact absurd rfl hthere
  unfold Gone
  split
  next => exact fun hfile => hnothing _ habove (Or.inr hfile)
  next => exact fun q hq => hnothing q (habove.trans hq)
  next => trivial

/-- An artifact that is removed leaves those alone that are not below it. -/
theorem fingerprintFor_remove
    (hnot : ¬b.path <:+ a.path) (hsorted : a.path <:+ b.path → a.path = b.path) :
    fingerprintFor (b.remove tree) a = fingerprintFor tree a := by
  have hapart : ¬a.path <:+ b.path := fun hbelow => hnot (hsorted hbelow ▸ List.suffix_refl _)
  have hcontent : (b.remove tree).content = tree.content := by
    unfold Artifact.remove
    split <;> rfl
  have hsame : ∀ q, a.path <:+ q →
      ((q ∈ (b.remove tree).dirs ↔ q ∈ tree.dirs) ∧ (q ∈ (b.remove tree).files ↔ q ∈ tree.files)) := by
    intro q hq
    unfold Artifact.remove
    split
    next =>
      have hne : q ≠ b.path := by
        rintro rfl
        exact hapart hq
      exact ⟨Iff.rfl, by simp [Library.FileTree.unlink, hne]⟩
    next =>
      have hout : ¬b.path <:+ q := by
        intro hbelow
        rcases List.suffix_or_suffix_of_suffix hbelow hq with habove | habove
        · exact hnot habove
        · exact hapart habove
      simp [Library.FileTree.removeTree, hout]
    next => exact ⟨Iff.rfl, Iff.rfl⟩
  have hself := hsame a.path (List.suffix_refl _)
  have hfile : fingerprint (b.remove tree) a.path = fingerprint tree a.path := by
    simp only [fingerprint, hself.2, hcontent]
  unfold fingerprintFor
  split
  next =>
    have hfiles : ((b.remove tree).files.filter fun q => a.path <:+ q ∧ counted q = true) =
        tree.files.filter fun q => a.path <:+ q ∧ counted q = true := by
      ext q
      simp only [Finset.mem_filter]
      exact ⟨fun h => ⟨((hsame q h.2.1).2).mp h.1, h.2⟩, fun h => ⟨((hsame q h.2.1).2).mpr h.1, h.2⟩⟩
    simp only [treeFingerprint, hself.1, hfiles, hcontent, hfile]
  next => exact hfile
  next => rfl

/-- What is as it was recorded is removed. -/
theorem removeOwnedArtifacts_gone {owned : List (Artifact β × Option (Fingerprint ι β))}
    (h : tree.Closed) (hsub : ∀ entry ∈ owned, entry.1 ∈ plan.artifacts)
    (hsorted : owned.Pairwise fun x y => y.1.path <:+ x.1.path → y.1.path = x.1.path)
    (hmem : (a, fingerprintFor tree a) ∈ owned) (hthere : fingerprintFor tree a ≠ none) :
    Gone (removeOwnedArtifacts tree owned).1 a := by
  induction owned generalizing tree with
  | nil => cases hmem
  | cons entry rest ih =>
      obtain ⟨b, sha256⟩ := entry
      obtain ⟨hfirst, hsorted⟩ := List.pairwise_cons.mp hsorted
      have hrest : ∀ entry ∈ rest, entry.1 ∈ plan.artifacts := fun entry hentry =>
        hsub entry (List.mem_cons_of_mem _ hentry)
      rw [removeOwnedArtifacts]
      rcases List.mem_cons.mp hmem with heq | hmem
      · cases heq
        split
        next hnone => exact absurd hnone hthere
        next current hcurrent =>
          rw [if_pos hcurrent.symm]
          have hclosed : (a.remove tree).Closed :=
            (remove_reduces h (hsub _ List.mem_cons_self)).closed
          exact (gone_remove h hthere (List.suffix_refl _)).left
            (removeOwnedArtifacts_reduces hclosed hrest).toLeft
      · split
        next => exact ih h hrest hsorted hmem hthere
        next current hcurrent =>
          have hb : fingerprintFor tree b ≠ none := by simp [hcurrent]
          split
          next =>
            have hclosed : (b.remove tree).Closed :=
              (remove_reduces h (hsub _ List.mem_cons_self)).closed
            by_cases habove : b.path <:+ a.path
            · exact (gone_remove h hb habove).left
                (removeOwnedArtifacts_reduces hclosed hrest).toLeft
            · have hsame : fingerprintFor (b.remove tree) a = fingerprintFor tree a :=
                fingerprintFor_remove habove (hfirst _ hmem)
              rw [← hsame] at hmem hthere
              exact ih hclosed hrest hsorted hmem hthere
          next => exact ih h hrest hsorted hmem hthere

omit [DecidableEq ι] [DecidableEq β] in
theorem gone_of_remove : Gone (a.remove tree) a := by
  obtain ⟨name, parent, kind⟩ := a
  cases kind with
  | file => exact fun hfile => absurd rfl (Finset.mem_erase.mp hfile).1
  | tree => exact fun q hq hhas => (Library.FileTree.has_removeTree.mp hhas).2 hq
  | merge => trivial

omit [DecidableEq β] in
theorem uninstallLayout_gone {artifacts : List (Artifact β)} (h : tree.Closed)
    (hsub : artifacts ⊆ plan.artifacts) (ha : a ∈ artifacts) :
    Gone (artifacts.foldl (uninstallLayout k []) tree) a := by
  induction artifacts generalizing tree with
  | nil => cases ha
  | cons b rest ih =>
      have hrest : rest ⊆ plan.artifacts := fun c hc => hsub (List.mem_cons_of_mem _ hc)
      have hone : Reduces plan tree (uninstallLayout k [] tree b) :=
        uninstallLayout_reduces h (hsub List.mem_cons_self)
      rcases List.mem_cons.mp ha with rfl | ha
      · refine Gone.left ?_ (foldl_uninstallLayout_reduces hone.closed hrest).toLeft
        unfold uninstallLayout
        split
        next hkind => simp [Gone, hkind]
        next hkind => exact gone_of_remove
      · exact ih hone.closed hrest ha

/-- A file that was made for the adapter's entries alone, if it is there. -/
def Mere (k : ι) (p : Path) (tree : FileTree (Content ι β)) : Prop :=
  p ∈ tree.files → (tree.content p).base = none ∧ (tree.content p).entries ⊆ {k}

omit [DecidableEq ι] [DecidableEq β] in
theorem Mere.reduces (h : Mere k p tree) (hreduces : Reduces plan tree tree') :
    Mere k p tree' := by
  intro hfile
  obtain ⟨hbase, hentries⟩ := h (hreduces.files hfile)
  exact ⟨(hreduces.base p).trans hbase, (hreduces.entries p).trans hentries⟩

omit [DecidableEq β] in
theorem uninstallLayout_mere {keep : List Path} {artifacts : List (Artifact β)} (h : tree.Closed)
    (hsub : artifacts ⊆ plan.artifacts) (ha : a ∈ artifacts) (hkind : a.kind = .merge)
    (hmere : Mere k a.path tree) :
    a.path ∉ (artifacts.foldl (uninstallLayout k keep) tree).files := by
  induction artifacts generalizing tree with
  | nil => cases ha
  | cons b rest ih =>
      have hrest : rest ⊆ plan.artifacts := fun c hc => hsub (List.mem_cons_of_mem _ hc)
      have hone : Reduces plan tree (uninstallLayout k keep tree b) :=
        uninstallLayout_reduces h (hsub List.mem_cons_self)
      rcases List.mem_cons.mp ha with rfl | ha
      · intro hfile
        have hfold : Reduces plan (uninstallLayout k keep tree a)
            (rest.foldl (uninstallLayout k keep) (uninstallLayout k keep tree a)) :=
          foldl_uninstallLayout_reduces hone.closed hrest
        have hleft := hfold.files hfile
        simp only [uninstallLayout, hkind] at hleft
        unfold withdrawEntries at hleft
        dsimp only at hleft
        split at hleft
        next hthere =>
          obtain ⟨hbase, hentries⟩ := hmere hthere
          have hempty : (tree.content a.path).entries.erase k = ∅ := by
            rw [Finset.erase_eq_empty_iff]
            exact Finset.subset_singleton_iff.mp hentries
          rw [if_pos ⟨hbase, hempty⟩] at hleft
          exact absurd rfl (Finset.mem_erase.mp hleft).1
        next hno => exact hno hleft
      · exact ih hone.closed hrest ha (hmere.reduces hone)

/-! ### The machine -/

/-- The files after the artifacts and the entries of an adapter are taken away. -/
def withoutArtifacts (plans : ι → Plan β) (s : Machine ι β) (k : ι) : FileTree (Content ι β) :=
  let owned := removeOwnedArtifacts s.tree ((s.installs k).elim [] (·.artifacts))
  (plans k).artifacts.foldl (uninstallLayout k owned.2) owned.1

/-- The directories that an uninstall tries, the deepest first. -/
def tried (roots : List Path) (s : Machine ι β) (k : ι) : List Path :=
  (deepestFirst (s.created k)).filter fun d => (rootFor roots d).isSome

omit [DecidableEq ι] [DecidableEq β] in
theorem mem_tried (h : Law roots plans s) : d ∈ tried roots s k ↔ d ∈ s.created k := by
  rw [tried, List.mem_filter, deepestFirst, List.mem_insertionSort]
  exact and_iff_left_of_imp fun hd => (h.created k d hd).2.2.2

omit [DecidableEq ι] [DecidableEq β] in
theorem tried_sorted : (tried roots s k).Pairwise fun p q => q.length ≤ p.length := by
  have : Std.Total fun p q : Path => q.length ≤ p.length := ⟨fun p q => Nat.le_total _ _⟩
  have : IsTrans Path fun p q => q.length ≤ p.length := ⟨fun p q r hpq hqr => hqr.trans hpq⟩
  have hsorted : (deepestFirst (s.created k)).Pairwise fun p q => q.length ≤ p.length :=
    List.pairwise_insertionSort _ _
  exact hsorted.sublist List.filter_sublist

theorem uninstall_tree :
    (uninstall roots plans s k).tree = (tried roots s k).foldl FileTree.rmdir
      (withoutArtifacts plans s k) := rfl

omit [DecidableEq ι] [DecidableEq β] in
theorem recorded_sub (h : Law roots plans s) :
    ∀ entry ∈ (s.installs k).elim [] (·.artifacts), entry.1 ∈ (plans k).artifacts := by
  intro entry hentry
  cases hrecord : s.installs k with
  | none =>
      rw [hrecord] at hentry
      cases hentry
  | some record =>
      rw [hrecord] at hentry
      rw [← h.artifacts k record hrecord]
      exact List.mem_map_of_mem hentry

theorem withoutArtifacts_reduces (h : Law roots plans s) :
    Reduces (plans k) s.tree (withoutArtifacts plans s k) := by
  have howned := removeOwnedArtifacts_reduces h.closed (recorded_sub (k := k) h)
  exact howned.trans (foldl_uninstallLayout_reduces howned.closed (List.Subset.refl _))

/-- What may be taken from a path is not there afterwards. -/
theorem not_has_withoutArtifacts (h : Law roots plans s) (ha : a ∈ (plans k).artifacts)
    (hgoes : a.Goes s k q) : ¬(withoutArtifacts plans s k).Has q := by
  have howned := removeOwnedArtifacts_reduces h.closed (recorded_sub (k := k) h)
  have hlayout := (withoutArtifacts_reduces (k := k) h).toLeft
  have hgone : Unmodified s k a → fingerprintFor s.tree a ≠ none →
      Gone (withoutArtifacts plans s k) a := by
    intro hunmodified hthere
    cases hrecord : s.installs k with
    | none =>
        have hall := uninstallLayout_gone (k := k) h.closed (List.Subset.refl _) ha
        simpa [withoutArtifacts, hrecord, removeOwnedArtifacts] using hall
    | some record =>
        have hartifacts := h.artifacts k record hrecord
        have hsorted : record.artifacts.Pairwise fun x y =>
            y.1.path <:+ x.1.path → y.1.path = x.1.path := by
          have := (plans k).sorted
          rw [← hartifacts] at this
          exact List.pairwise_map.mp this
        have hsub : ∀ entry ∈ record.artifacts, entry.1 ∈ (plans k).artifacts := fun entry hentry =>
          hartifacts ▸ List.mem_map_of_mem hentry
        have hremoved := removeOwnedArtifacts_gone h.closed hsub hsorted
          (hunmodified record hrecord) hthere
        have hclosed := (removeOwnedArtifacts_reduces h.closed hsub).closed
        have hfold : Reduces (plans k) (removeOwnedArtifacts s.tree record.artifacts).1
            (withoutArtifacts plans s k) := by
          simpa [withoutArtifacts, hrecord] using
            foldl_uninstallLayout_reduces hclosed (List.Subset.refl _)
        exact hremoved.left hfold.toLeft
  have hnodir : q ∈ s.tree.files → q ∉ (withoutArtifacts plans s k).dirs := fun hfile hdir =>
    h.closed.apart q (hlayout.dirs hdir) hfile
  unfold Artifact.Goes at hgoes
  split at hgoes
  next hkind =>
    obtain ⟨rfl, hfile, hunmodified⟩ := hgoes
    have hleft := hgone hunmodified (by simp [fingerprintFor, hkind, fingerprint, hfile])
    simp only [Gone, hkind] at hleft
    exact not_or.mpr ⟨hnodir hfile, hleft⟩
  next hkind =>
    obtain ⟨hbelow, hunmodified⟩ := hgoes
    intro hhas
    have hthere : fingerprintFor s.tree a ≠ none := by
      have hroot : s.tree.Has a.path := by
        by_cases heq : a.path = q
        · exact heq ▸ hlayout.has hhas
        · exact Or.inl (h.closed.above (hlayout.has hhas) hbelow heq)
      simp only [fingerprintFor, hkind, treeFingerprint]
      rcases hroot with hdir | hfile
      · simp [hdir]
      · split
        next => simp
        next => simp [fingerprint, hfile]
    have hleft := hgone hunmodified hthere
    simp only [Gone, hkind] at hleft
    exact hleft q hbelow hhas
  next hkind =>
    obtain ⟨rfl, hfile, hbase, hentries⟩ := hgoes
    have hmere : Mere k a.path s.tree := fun _ => ⟨hbase, hentries⟩
    have hleft : a.path ∉ (withoutArtifacts plans s k).files :=
      uninstallLayout_mere howned.closed (List.Subset.refl _) ha hkind (hmere.reduces howned)
    exact not_or.mpr ⟨hnodir hfile, hleft⟩

/-- What is the user's stays. -/
theorem mine_withoutArtifacts (h : Law roots plans s) :
    ∀ q ∈ s.mine, q ∈ (withoutArtifacts plans s k).dirs ∨
      (q ∈ (withoutArtifacts plans s k).files ∧
        ((withoutArtifacts plans s k).content q).base ≠ none) := by
  intro q hq
  have hreduces := withoutArtifacts_reduces (k := k) h
  have hother : ¬∃ a ∈ (plans k).artifacts, a.covers q = true := by
    rintro ⟨a, ha, hcovers⟩
    have hnot := h.other q hq k a ha
    rw [hcovers] at hnot
    cases hnot
  rcases h.mine q hq with hdir | ⟨hfile, hbase⟩
  · exact Or.inl ((hreduces.dirs_lost q hdir).resolve_right hother)
  · rcases hreduces.files_lost q hfile with hfile | hlost | hnone
    · exact Or.inr ⟨hfile, by rwa [hreduces.base q]⟩
    · exact absurd hlost hother
    · exact absurd hnone hbase

/-- An uninstall leaves nothing of what is the adapter's alone and nobody keeps. -/
theorem cleared (h : Law roots plans s) (hdir : d ∈ s.tree.dirs) (htheirs : s.Theirs plans k d)
    (hall : ∀ q, s.tree.Has q → d <:+ q → q ∈ s.created k ∨
      ∃ a ∈ (plans k).artifacts, a.Goes s k q) : ¬(uninstall roots plans s k).tree.Has d := by
  have hne : d ≠ [] := by
    rintro rfl
    rcases htheirs with hcreated | ⟨-, hholds⟩
    · exact (h.created k _ hcreated).1 rfl
    · simp only [Plan.holds, List.any_eq_true] at hholds
      obtain ⟨a, -, hholds⟩ := hholds
      split at hholds
      next => simp [Artifact.path] at hholds
      next => cases hholds
  have hleft := (withoutArtifacts_reduces (k := k) h).toLeft
  rw [uninstall_tree]
  refine Library.FileTree.foldl_rmdir_gone tried_sorted (fun q hq hbelow => ?_) hne
  rcases hall q (hleft.has hq) hbelow with hcreated | ⟨a, ha, hgoes⟩
  · exact ⟨(mem_tried h).mpr hcreated, fun hfile => (h.created k q hcreated).2.1 (hleft.files hfile)⟩
  · exact absurd hq (not_has_withoutArtifacts h ha hgoes)

theorem uninstall_law (h : Law roots plans s) (hclears : Clears plans s k) :
    Law roots plans (uninstall roots plans s k) ∧
      ∀ d ∈ s.tree.dirs, s.Keeps d → d ∈ (uninstall roots plans s k).tree.dirs := by
  have hreduces := withoutArtifacts_reduces (k := k) h
  have hrest := Library.FileTree.left_foldl_rmdir (l := tried roots s k) hreduces.closed
  have hleft := hreduces.toLeft.trans hrest
  rw [← uninstall_tree] at hrest hleft
  have hmine : ∀ q ∈ s.mine, q ∈ (uninstall roots plans s k).tree.dirs ∨
      (q ∈ (uninstall roots plans s k).tree.files ∧
        ((uninstall roots plans s k).tree.content q).base ≠ none) := by
    intro q hq
    have hnot : q ∉ tried roots s k := fun hmem =>
      (h.created k q ((mem_tried h).mp hmem)).2.2.1 hq
    have hcontent : (uninstall roots plans s k).tree.content = (withoutArtifacts plans s k).content :=
      Library.FileTree.foldl_rmdir_content
    rw [hcontent]
    rcases mine_withoutArtifacts h q hq with hdir | ⟨hfile, hbase⟩
    · have hhas := Library.FileTree.has_foldl_rmdir (Or.inl hdir) hnot
      rw [← uninstall_tree] at hhas
      exact Or.inl (hrest.dir hreduces.closed hdir hhas)
    · have hhas := Library.FileTree.has_foldl_rmdir (Or.inr hfile) hnot
      rw [← uninstall_tree] at hhas
      exact hhas.imp id fun hfile => ⟨hfile, hbase⟩
  have hcreated : ∀ k', ∀ d ∈ (uninstall roots plans s k).created k', d ∈ s.created k' := by
    intro k' d hd
    by_cases hk : k' = k
    · subst hk
      simp [Machine.created, uninstall] at hd
    · simpa [Machine.created, uninstall, Function.update_of_ne hk] using hd
  refine ⟨⟨hleft.closed, hmine, h.other, ?_, ?_, ?_⟩, ?_⟩
  · intro k' d hd
    obtain ⟨hne, hnofile, hnotmine, hroot⟩ := h.created k' d (hcreated k' d hd)
    exact ⟨hne, fun hfile => hnofile (hleft.files hfile), hnotmine, hroot⟩
  · intro k' record hrecord
    by_cases hk : k' = k
    · subst hk
      simp [uninstall] at hrecord
    · simp only [uninstall, Function.update_of_ne hk] at hrecord
      exact h.artifacts k' record hrecord
  · intro d hd
    have hbefore := hleft.dirs hd
    have hothers : ∀ k', k' ≠ k → s.Theirs plans k' d →
        (uninstall roots plans s k).Theirs plans k' d := by
      intro k' hk htheirs
      simpa [Machine.Theirs, Machine.created, uninstall, Function.update_of_ne hk] using htheirs
    by_cases hkeeps : s.Keeps d
    · exact Or.inl hkeeps
    · obtain ⟨k', htheirs⟩ := (h.covered d hbefore).resolve_left hkeeps
      by_cases hk : k' = k
      · subst hk
        rcases hclears d hbefore hkeeps htheirs with ⟨k'', hne, hother⟩ | hall
        · exact Or.inr ⟨k'', hothers k'' hne hother⟩
        · exact absurd (Or.inl hd) (cleared h hbefore htheirs fun q hq =>
            hall q (Finset.mem_union.mpr hq))
      · exact Or.inr ⟨k', hothers k' hk htheirs⟩
  · rintro d hd ⟨q, hq, hbelow⟩
    have hhas : (uninstall roots plans s k).tree.Has q := (hmine q hq).imp id And.left
    by_cases heq : d = q
    · subst heq
      exact hleft.dir h.closed hd hhas
    · exact hleft.closed.above hhas hbelow heq

/-! ## Over every run -/

/-- An uninstall of an adapter, as a step. -/
def Uninstalls (roots : List Path) (plans : ι → Plan β) (s : Machine ι β) (k : ι)
    (t : Machine ι β) : Prop :=
  t = uninstall roots plans s k

variable {s₀ s₁ s₂ : Machine ι β} {deeds : List (Deed ι β)} {names : List ι}

omit [DecidableEq ι] [DecidableEq β] in
theorem Untouched.law (h : Untouched plans s₀) : Law roots plans s₀ ∧ Present s₀ := by
  have hnothing : ∀ k, s₀.created k = [] := by
    intro k
    simp [Machine.created, h.installs k]
  refine ⟨⟨h.closed, ?_, h.other, ?_, ?_, ?_⟩, ?_⟩
  · intro q hq
    exact ((h.mine q).mp hq).imp id fun hfile => ⟨hfile, h.bytes q hfile⟩
  · intro k d hd
    rw [hnothing] at hd
    cases hd
  · intro k record hrecord
    rw [h.installs] at hrecord
    cases hrecord
  · exact fun d hd => Or.inl ⟨d, (h.mine d).mpr (Or.inl hd), List.suffix_refl d⟩
  · intro k d hd
    rw [hnothing] at hd
    cases hd

theorem installs_law (h : Law roots plans s₀ ∧ Present s₀)
    (hrun : Run (Where (Step roots plans) (Accounts roots plans)) s₀ deeds s₁) :
    Law roots plans s₁ ∧ Present s₁ ∧ Extends s₀ s₁ :=
  hrun.invariant (I := fun s => Law roots plans s ∧ Present s ∧ Extends s₀ s)
    (fun _ _ _ hinv hstep =>
      have hnext := act_law hinv.1 hinv.2.1 hstep.1 hstep.2
      ⟨hnext.1, hnext.2.1, hinv.2.2.trans hnext.2.2⟩)
    ⟨h.1, h.2, .refl s₀⟩

/-- What uninstalls leave: the user's things, and no touch of the adapters named. -/
theorem uninstalls_law (h : Law roots plans s₁)
    (hrun : Run (Where (Uninstalls roots plans) (Clears plans)) s₁ names s₂) :
    Law roots plans s₂ ∧ s₂.mine = s₁.mine ∧
      (∀ d ∈ s₁.tree.dirs, s₁.Keeps d → d ∈ s₂.tree.dirs) ∧
      (∀ k d, s₂.Theirs plans k d → s₁.Theirs plans k d ∧ k ∉ names) := by
  induction hrun with
  | nil => exact ⟨h, rfl, fun d hd _ => hd, fun k d htheirs => ⟨htheirs, List.not_mem_nil⟩⟩
  | @snoc s t names k _ hstep ih =>
      obtain ⟨hclears, rfl⟩ := hstep
      obtain ⟨hlaw, hmine, hkept, htheirs⟩ := ih
      obtain ⟨hlaw', hkept'⟩ := uninstall_law hlaw hclears
      refine ⟨hlaw', hmine, ?_, ?_⟩
      · intro d hd hkeeps
        refine hkept' d (hkept d hd hkeeps) ?_
        obtain ⟨q, hq, hbelow⟩ := hkeeps
        exact ⟨q, hmine ▸ hq, hbelow⟩
      · intro k' d hd
        by_cases hk : k' = k
        · subst hk
          simp [Machine.Theirs, Machine.created, uninstall] at hd
        · have hbefore : s.Theirs plans k' d := by
            simpa [Machine.Theirs, Machine.created, uninstall, Function.update_of_ne hk] using hd
          obtain ⟨hfirst, hnot⟩ := htheirs k' d hbefore
          exact ⟨hfirst, by simpa [hk] using hnot⟩

/-- After every adapter that was touched is uninstalled, the directories that stand
are those that stood before the first install and those that are on the way to
something of the user's. -/
theorem uninstall_restores (hstart : Untouched plans s₀)
    (hinstalls : Run (Where (Step roots plans) (Accounts roots plans)) s₀ deeds s₁)
    (huninstalls : Run (Where (Uninstalls roots plans) (Clears plans)) s₁ names s₂)
    (hall : ∀ k, s₁.touched k = true ∨ s₁.installs k ≠ none → k ∈ names) :
    (∀ d ∈ s₀.tree.dirs, d ∈ s₂.tree.dirs) ∧
      (∀ d ∈ s₁.tree.dirs, s₁.Keeps d → d ∈ s₂.tree.dirs) ∧
      ∀ d ∈ s₂.tree.dirs, s₁.Keeps d := by
  obtain ⟨hlaw, -, hextends⟩ := installs_law hstart.law hinstalls
  obtain ⟨hlaw', hmine, hkept, htheirs⟩ := uninstalls_law hlaw huninstalls
  refine ⟨?_, hkept, ?_⟩
  · intro d hd
    have hbefore : d ∈ s₀.mine := (hstart.mine d).mpr (Or.inl hd)
    exact hkept d (hextends.grows.dirs hd) ⟨d, hextends.mine hbefore, List.suffix_refl d⟩
  · intro d hd
    rcases hlaw'.covered d hd with ⟨q, hq, hbelow⟩ | ⟨k, hk⟩
    · exact ⟨q, hmine ▸ hq, hbelow⟩
    · obtain ⟨hfirst, hnot⟩ := htheirs k d hk
      refine absurd (hall k ?_) hnot
      rcases hfirst with hcreated | ⟨htouched, -⟩
      · refine Or.inr fun hnone => ?_
        simp [Machine.created, hnone] at hcreated
      · exact Or.inl htouched

/-! ## Two adapters with a common parent -/

section Sample

/-- The first adapter has a tree and the second one a file, in one directory. -/
def neighbours : Fin 2 → Plan Nat
  | 0 => ⟨[⟨"acc", ["shared", "home"], .tree [(["plugin"], 1)]⟩], List.pairwise_singleton _ _⟩
  | 1 => ⟨[⟨"rules", ["shared", "home"], .file 2⟩], List.pairwise_singleton _ _⟩

/-- Nothing but a home. -/
def bare : Machine (Fin 2) Nat :=
  ⟨⟨{[], ["home"]}, ∅, fun _ => ⟨none, ∅⟩⟩, fun _ => none, fun _ => false, {[], ["home"]}⟩

def home : List Path := [["home"]]

theorem bare_untouched : Untouched neighbours bare := by
  refine ⟨⟨?_, ?_, ?_⟩, fun _ => rfl, fun _ => rfl, ?_, ?_, ?_⟩
  · exact Finset.mem_insert_self _ _
  · exact fun _ _ => Finset.notMem_empty _
  · intro name p hp
    have hhome : name :: p = ["home"] := by simpa [bare, FileTree.Has] using hp
    cases hhome
    exact Finset.mem_insert_self _ _
  · simp [bare, FileTree.Has]
  · intro p hp k a ha
    have hshort : p.length < a.path.length := by
      have hp : p = [] ∨ p = ["home"] := by simpa [bare] using hp
      fin_cases k <;> simp [neighbours] at ha <;> subst ha <;>
        rcases hp with rfl | rfl <;> simp [Artifact.path]
    unfold Artifact.covers
    split
    next =>
      refine decide_eq_false fun heq => ?_
      rw [heq] at hshort
      exact lt_irrefl _ hshort
    next => exact decide_eq_false fun hbelow => absurd hbelow.length_le (not_le.mpr hshort)
    next => rfl
  · simp [bare]

instance {plan : Plan Nat} {d : Path} : Decidable (plan.Owns home d) :=
  inferInstanceAs (Decidable (∃ a ∈ plan.artifacts, _))

instance {s : Machine (Fin 2) Nat} {k : Fin 2} {succeeds : Bool} {op : Op Nat} :
    Decidable (op.Accounted home neighbours s k succeeds) :=
  match op with
  | .mkdir _ => inferInstanceAs (Decidable (_ ∨ (∃ _, _) ∨ (_ ∧ _)))
  | .write .. | .merge _ => .isTrue trivial

instance {s : Machine (Fin 2) Nat} {d : Deed (Fin 2) Nat} :
    Decidable (Accounts home neighbours s d) :=
  match d with
  | .install .. => inferInstanceAs (Decidable (∀ op ∈ _, _))
  | .addDirectory _ | .addFile .. => .isTrue trivial

instance {p : Path} : Decidable (Other neighbours p) :=
  inferInstanceAs (Decidable (∀ k, ∀ a ∈ (neighbours k).artifacts, a.covers p = false))

instance {s : Machine (Fin 2) Nat} {d : Path} : Decidable (s.Keeps d) :=
  inferInstanceAs (Decidable (∃ q ∈ s.mine, d <:+ q))

instance {s : Machine (Fin 2) Nat} {k : Fin 2} {d : Path} : Decidable (s.Theirs neighbours k d) :=
  inferInstanceAs (Decidable (_ ∨ (_ ∧ _)))

instance {s : Machine (Fin 2) Nat} {k : Fin 2} {a : Artifact Nat} : Decidable (Unmodified s k a) :=
  inferInstanceAs (Decidable (∀ record ∈ s.installs k, _))

instance {s : Machine (Fin 2) Nat} {k : Fin 2} {a : Artifact Nat} {q : Path} :
    Decidable (a.Goes s k q) :=
  match a with
  | ⟨_, _, .file _⟩ | ⟨_, _, .tree _⟩ | ⟨_, _, .merge⟩ => inferInstanceAs (Decidable (_ ∧ _))

instance {s : Machine (Fin 2) Nat} {k : Fin 2} : Decidable (Clears neighbours s k) :=
  inferInstanceAs (Decidable (∀ d ∈ s.tree.dirs, ¬s.Keeps d → s.Theirs neighbours k d →
    (∃ _, _) ∨ ∀ q ∈ s.tree.dirs ∪ s.tree.files, _))

/-- A deed, the user's only where nothing is an adapter's. -/
def permitted (s : Machine (Fin 2) Nat) (d : Deed (Fin 2) Nat) : Option (Machine (Fin 2) Nat) :=
  if others d = true then act home neighbours s d else none
where
  others : Deed (Fin 2) Nat → Bool
    | .install .. => true
    | .addDirectory p | .addFile p _ => decide (Other neighbours p)

theorem step_of_permitted {s t : Machine (Fin 2) Nat} {d : Deed (Fin 2) Nat}
    (h : permitted s d = some t) : Step home neighbours s d t := by
  unfold permitted at h
  split at h
  next hothers =>
    refine ⟨h, ?_⟩
    cases d with
    | install => trivial
    | addDirectory p => exact of_decide_eq_true hothers
    | addFile p bytes => exact of_decide_eq_true hothers
  next => cases h

def accounted (s : Machine (Fin 2) Nat) (d : Deed (Fin 2) Nat) : Option (Machine (Fin 2) Nat) :=
  if Accounts home neighbours s d then permitted s d else none

theorem step_of_accounted {s t : Machine (Fin 2) Nat} {d : Deed (Fin 2) Nat}
    (h : accounted s d = some t) : Where (Step home neighbours) (Accounts home neighbours) s d t := by
  unfold accounted at h
  split at h
  next haccounts => exact ⟨haccounts, step_of_permitted h⟩
  next => cases h

def whenCleared (s : Machine (Fin 2) Nat) (k : Fin 2) : Option (Machine (Fin 2) Nat) :=
  if Clears neighbours s k then some (uninstall home neighbours s k) else none

theorem step_of_cleared {s t : Machine (Fin 2) Nat} {k : Fin 2} (h : whenCleared s k = some t) :
    Where (Uninstalls home neighbours) (Clears neighbours) s k t := by
  unfold whenCleared at h
  split at h
  next hclears =>
    cases h
    exact ⟨hclears, rfl⟩
  next => cases h

def wholly (k : Fin 2) : Deed (Fin 2) Nat := .install k (neighbours k).steps true

/-- The first adapter makes the common parent, the user adds a directory, and the
second adapter is uninstalled first. -/
theorem uninstall_restores_neighbours : ∃ s₁ s₂ : Machine (Fin 2) Nat,
    Run (Where (Step home neighbours) (Accounts home neighbours)) bare
      [wholly 0, wholly 1, .addDirectory ["notes", "home"], wholly 0] s₁ ∧
    Run (Where (Uninstalls home neighbours) (Clears neighbours)) s₁ [1, 0] s₂ ∧
    ["shared", "home"] ∈ s₁.tree.dirs ∧ s₂.tree.dirs = {[], ["home"], ["notes", "home"]} ∧
    ∀ d ∈ s₂.tree.dirs, s₁.Keeps d := by
  have hdone : (Library.follow accounted bare
      [wholly 0, wholly 1, .addDirectory ["notes", "home"], wholly 0]).any (fun s₁ =>
        decide (["shared", "home"] ∈ s₁.tree.dirs) && (Library.follow whenCleared s₁ [1, 0]).any fun s₂ =>
          decide (s₂.tree.dirs = {[], ["home"], ["notes", "home"]})) = true := by
    decide +kernel
  obtain ⟨s₁, hs₁, hrest⟩ := (Option.any_eq_true _ _).mp hdone
  obtain ⟨hshared, hrest⟩ := Bool.and_eq_true_iff.mp hrest
  obtain ⟨s₂, hs₂, hdirs⟩ := (Option.any_eq_true _ _).mp hrest
  have hinstalls := (Library.run_of_follow hs₁).imp fun _ _ _ => step_of_accounted
  have huninstalls := (Library.run_of_follow hs₂).imp fun _ _ _ => step_of_cleared
  have hall : ∀ k, s₁.touched k = true ∨ s₁.installs k ≠ none → k ∈ [(1 : Fin 2), 0] := by
    intro k _
    fin_cases k <;> simp
  have hrestores := uninstall_restores bare_untouched hinstalls huninstalls hall
  exact ⟨s₁, s₂, hinstalls, huninstalls, of_decide_eq_true hshared, of_decide_eq_true hdirs,
    hrestores.2.2⟩

/-- Both are uninstalled, and the common parent is still there, which is nobody's. -/
def leavesParent (deeds : List (Deed (Fin 2) Nat)) (names : List (Fin 2)) : Bool :=
  (Library.follow permitted bare deeds).any fun s₁ =>
    decide (¬s₁.Keeps ["shared", "home"]) &&
      (Library.follow (fun s k => some (uninstall home neighbours s k)) s₁ names).any fun s₂ =>
        decide (["shared", "home"] ∈ s₂.tree.dirs)

theorem runs_of_leavesParent {deeds : List (Deed (Fin 2) Nat)} {names : List (Fin 2)}
    (h : leavesParent deeds names = true) : ∃ s₁ s₂ : Machine (Fin 2) Nat,
      Run (Step home neighbours) bare deeds s₁ ∧ Run (Uninstalls home neighbours) s₁ names s₂ ∧
        ["shared", "home"] ∈ s₂.tree.dirs ∧ ¬s₁.Keeps ["shared", "home"] := by
  obtain ⟨s₁, hs₁, hrest⟩ := (Option.any_eq_true _ _).mp h
  obtain ⟨hkeeps, hrest⟩ := Bool.and_eq_true_iff.mp hrest
  obtain ⟨s₂, hs₂, hparent⟩ := (Option.any_eq_true _ _).mp hrest
  refine ⟨s₁, s₂, (Library.run_of_follow hs₁).imp fun _ _ _ => step_of_permitted,
    (Library.run_of_follow hs₂).imp fun s k t ht => ?_, of_decide_eq_true hparent,
    of_decide_eq_true hkeeps⟩
  exact (Option.some.inj ht).symm

/-- The adapter that made the common parent is uninstalled first, and then nobody
takes the parent away; nor does anybody take a parent away that was made by an
install that failed. -/
theorem uninstall_leaves_parent :
    (∃ s₁ s₂ : Machine (Fin 2) Nat,
      Run (Step home neighbours) bare [wholly 0, wholly 1] s₁ ∧
        Run (Uninstalls home neighbours) s₁ [0, 1] s₂ ∧
        ["shared", "home"] ∈ s₂.tree.dirs ∧ ¬s₁.Keeps ["shared", "home"]) ∧
    ∃ s₁ s₂ : Machine (Fin 2) Nat,
      Run (Step home neighbours) bare
        [.install 1 (mkdirs ["shared", "home"]) false, wholly 1] s₁ ∧
        Run (Uninstalls home neighbours) s₁ [1] s₂ ∧
        ["shared", "home"] ∈ s₂.tree.dirs ∧ ¬s₁.Keeps ["shared", "home"] :=
  ⟨runs_of_leavesParent (by decide +kernel), runs_of_leavesParent (by decide +kernel)⟩

end Sample

end Acc.Installer
