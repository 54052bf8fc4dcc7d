import Mathlib

/-!
# Trees of directories and files

A path lists the names from the innermost to the outermost, so what is above a
path is its suffixes.  A tree has directories and files, and each of them stands
in a directory.

Directories are made one by one, each in one that is there, and an empty one can
be taken away; a whole subtree can be taken away at once.
-/

namespace Library

universe u v

abbrev Path := List String

structure FileTree (γ : Type u) where
  dirs : Finset Path
  files : Finset Path
  content : Path → γ

namespace FileTree

variable {γ : Type u} {t t' : FileTree γ} {p q d : Path} {c : γ}

/-- Something stands at the path. -/
def Has (t : FileTree γ) (p : Path) : Prop := p ∈ t.dirs ∨ p ∈ t.files

instance (t : FileTree γ) (p : Path) : Decidable (t.Has p) := inferInstanceAs (Decidable (_ ∨ _))

structure Closed (t : FileTree γ) : Prop where
  root : [] ∈ t.dirs
  apart : ∀ p ∈ t.dirs, p ∉ t.files
  parent : ∀ name p, t.Has (name :: p) → p ∈ t.dirs

/-- What stands above something is a directory. -/
theorem Closed.above (h : t.Closed) (hq : t.Has q) (hsuffix : d <:+ q) (hne : d ≠ q) :
    d ∈ t.dirs := by
  induction q with
  | nil => exact absurd (List.suffix_nil.mp hsuffix) hne
  | cons name q ih =>
      have hparent := h.parent name q hq
      rcases List.suffix_cons_iff.mp hsuffix with heq | habove
      · exact absurd heq hne
      · by_cases hd : d = q
        · rwa [hd]
        · exact ih (Or.inl hparent) habove hd

/-! ## Changes -/

def mkdir (t : FileTree γ) : Path → Option (FileTree γ)
  | [] => some t
  | name :: parent =>
      if name :: parent ∈ t.dirs then some t
      else if name :: parent ∈ t.files ∨ parent ∉ t.dirs then none
      else some { t with dirs := insert (name :: parent) t.dirs }

def write (t : FileTree γ) (c : γ) : Path → Option (FileTree γ)
  | [] => none
  | name :: parent =>
      if name :: parent ∈ t.dirs ∨ parent ∉ t.dirs then none
      else some { t with
        files := insert (name :: parent) t.files
        content := Function.update t.content (name :: parent) c }

/-- Take a file away. -/
def unlink (t : FileTree γ) (p : Path) : FileTree γ := { t with files := t.files.erase p }

/-- Take away what stands at the path and below it. -/
def removeTree (t : FileTree γ) (p : Path) : FileTree γ :=
  { t with dirs := t.dirs.filter fun q => ¬p <:+ q, files := t.files.filter fun q => ¬p <:+ q }

/-- Nothing stands below the path. -/
def Empty (t : FileTree γ) (p : Path) : Prop := ∀ q ∈ t.dirs ∪ t.files, p <:+ q → q = p

instance (t : FileTree γ) (p : Path) : Decidable (t.Empty p) :=
  inferInstanceAs (Decidable (∀ q ∈ _, _))

/-- Take an empty directory away. -/
def rmdir (t : FileTree γ) (p : Path) : FileTree γ :=
  if p ≠ [] ∧ t.Empty p then { t with dirs := t.dirs.erase p } else t

/-- The directories on the way to a path and the path itself, the outermost first. -/
def way (p : Path) : List Path := p.tails.reverse

theorem mem_way : d ∈ way p ↔ d <:+ p := by simp [way]

/-- What stands in the first tree stands in the second one. -/
structure Grows (t t' : FileTree γ) : Prop where
  dirs : t.dirs ⊆ t'.dirs
  files : t.files ⊆ t'.files

theorem Grows.refl (t : FileTree γ) : Grows t t := ⟨Finset.Subset.refl _, Finset.Subset.refl _⟩

theorem Grows.trans {t'' : FileTree γ} (h : Grows t t') (h' : Grows t' t'') : Grows t t'' :=
  ⟨h.dirs.trans h'.dirs, h.files.trans h'.files⟩

theorem Grows.has (h : Grows t t') (hp : t.Has p) : t'.Has p := hp.imp (@h.dirs p) (@h.files p)

theorem mkdir_dirs (h : t.Closed) (hmake : t.mkdir p = some t') : t'.dirs = insert p t.dirs := by
  unfold mkdir at hmake
  split at hmake
  next =>
    cases hmake
    exact (Finset.insert_eq_self.mpr h.root).symm
  next name parent =>
    split at hmake
    next hthere =>
      cases hmake
      exact (Finset.insert_eq_self.mpr hthere).symm
    next =>
      split at hmake
      next => cases hmake
      next =>
        cases hmake
        rfl

theorem mkdir_files (hmake : t.mkdir p = some t') :
    t'.files = t.files ∧ t'.content = t.content := by
  unfold mkdir at hmake
  split at hmake
  next =>
    cases hmake
    exact ⟨rfl, rfl⟩
  next name parent =>
    split at hmake
    next =>
      cases hmake
      exact ⟨rfl, rfl⟩
    next =>
      split at hmake
      next => cases hmake
      next =>
        cases hmake
        exact ⟨rfl, rfl⟩

theorem Closed.mkdir (h : t.Closed) (hmake : t.mkdir p = some t') : t'.Closed := by
  unfold FileTree.mkdir at hmake
  split at hmake
  next =>
    cases hmake
    exact h
  next name parent =>
    split at hmake
    next =>
      cases hmake
      exact h
    next hfree =>
      split at hmake
      next => cases hmake
      next hroom =>
        cases hmake
        obtain ⟨hnofile, hparent⟩ := not_or.mp hroom
        have hparent : parent ∈ t.dirs := not_not.mp hparent
        refine ⟨Finset.mem_insert_of_mem h.root, ?_, ?_⟩
        · intro q hq
          rcases Finset.mem_insert.mp hq with rfl | hq
          · exact hnofile
          · exact h.apart q hq
        · rintro name' q (hq | hq)
          · rcases Finset.mem_insert.mp hq with heq | hq
            · cases heq
              exact Finset.mem_insert_of_mem hparent
            · exact Finset.mem_insert_of_mem (h.parent name' q (Or.inl hq))
          · exact Finset.mem_insert_of_mem (h.parent name' q (Or.inr hq))

theorem write_eq_some (hwrite : t.write c p = some t') :
    t'.dirs = t.dirs ∧ t'.files = insert p t.files ∧
      t'.content = Function.update t.content p c := by
  unfold write at hwrite
  split at hwrite
  next => cases hwrite
  next =>
    split at hwrite
    next => cases hwrite
    next =>
      cases hwrite
      exact ⟨rfl, rfl, rfl⟩

theorem Closed.write (h : t.Closed) (hwrite : t.write c p = some t') : t'.Closed := by
  unfold FileTree.write at hwrite
  split at hwrite
  next => cases hwrite
  next name parent =>
    split at hwrite
    next => cases hwrite
    next hroom =>
      cases hwrite
      obtain ⟨hnodir, hparent⟩ := not_or.mp hroom
      refine ⟨h.root, ?_, ?_⟩
      · intro q hq hfile
        rcases Finset.mem_insert.mp hfile with rfl | hfile
        · exact hnodir hq
        · exact h.apart q hq hfile
      · rintro name' q (hq | hq)
        · exact h.parent name' q (Or.inl hq)
        · rcases Finset.mem_insert.mp hq with heq | hq
          · cases heq
            exact not_not.mp hparent
          · exact h.parent name' q (Or.inr hq)

/-! ## Taking away -/

/-- The second tree is left of the first one. -/
structure Left (t t' : FileTree γ) : Prop where
  closed : t'.Closed
  dirs : t'.dirs ⊆ t.dirs
  files : t'.files ⊆ t.files

theorem Left.refl (h : t.Closed) : Left t t := ⟨h, Finset.Subset.refl _, Finset.Subset.refl _⟩

theorem Left.trans {t'' : FileTree γ} (h : Left t t') (h' : Left t' t'') : Left t t'' :=
  ⟨h'.closed, h'.dirs.trans h.dirs, h'.files.trans h.files⟩

theorem Left.has (h : Left t t') (hp : t'.Has p) : t.Has p := hp.imp (@h.dirs p) (@h.files p)

/-- What was no file is none. -/
theorem Left.dir (h : Left t t') (hclosed : t.Closed) (hd : d ∈ t.dirs) (hp : t'.Has d) :
    d ∈ t'.dirs :=
  hp.resolve_right fun hfile => hclosed.apart d hd (h.files hfile)

theorem left_unlink (h : t.Closed) : Left t (t.unlink p) := by
  refine ⟨⟨h.root, ?_, ?_⟩, Finset.Subset.refl _, Finset.erase_subset _ _⟩
  · exact fun q hq hfile => h.apart q hq (Finset.mem_of_mem_erase hfile)
  · rintro name q (hq | hq)
    · exact h.parent name q (Or.inl hq)
    · exact h.parent name q (Or.inr (Finset.mem_of_mem_erase hq))

@[simp] theorem has_removeTree : (t.removeTree p).Has q ↔ t.Has q ∧ ¬p <:+ q := by
  simp [Has, removeTree, or_and_right]

theorem left_removeTree (h : t.Closed) (hp : p ≠ []) : Left t (t.removeTree p) := by
  refine ⟨⟨?_, ?_, ?_⟩, Finset.filter_subset _ _, Finset.filter_subset _ _⟩
  · simpa [removeTree, hp] using h.root
  · exact fun q hq hfile => h.apart q (Finset.mem_of_mem_filter q hq)
      (Finset.mem_of_mem_filter q hfile)
  · intro name q hq
    obtain ⟨hq, houtside⟩ := has_removeTree.mp hq
    have hparent := h.parent name q hq
    have hout : ¬p <:+ q := fun hbelow => houtside (hbelow.trans (List.suffix_cons name q))
    exact Finset.mem_filter.mpr ⟨hparent, hout⟩

theorem left_rmdir (h : t.Closed) : Left t (t.rmdir p) := by
  unfold rmdir
  split
  next hempty =>
    refine ⟨⟨?_, ?_, ?_⟩, Finset.erase_subset _ _, Finset.Subset.refl _⟩
    · exact Finset.mem_erase.mpr ⟨hempty.1.symm, h.root⟩
    · exact fun q hq => h.apart q (Finset.mem_of_mem_erase hq)
    · intro name q hq
      have hbefore : t.Has (name :: q) := hq.imp Finset.mem_of_mem_erase id
      refine Finset.mem_erase.mpr ⟨?_, h.parent name q hbefore⟩
      rintro rfl
      have heq := hempty.2 (name :: q) (Finset.mem_union.mpr hbefore) (List.suffix_cons name q)
      simp at heq
  next => exact Left.refl h

theorem has_rmdir_of_ne (hq : t.Has q) (hne : q ≠ p) : (t.rmdir p).Has q := by
  unfold rmdir
  split
  next => exact hq.imp (fun h => Finset.mem_erase.mpr ⟨hne, h⟩) id
  next => exact hq

theorem rmdir_content : (t.rmdir p).content = t.content := by
  unfold rmdir
  split <;> rfl

theorem left_foldl_rmdir {l : List Path} (h : t.Closed) : Left t (l.foldl rmdir t) := by
  induction l generalizing t with
  | nil => exact Left.refl h
  | cons p l ih => exact (left_rmdir h).trans (ih (left_rmdir h).closed)

theorem has_foldl_rmdir {l : List Path} (hq : t.Has q) (hnot : q ∉ l) :
    (l.foldl rmdir t).Has q := by
  induction l generalizing t with
  | nil => exact hq
  | cons p l ih =>
      obtain ⟨hne, hnot⟩ := List.ne_and_not_mem_of_not_mem_cons hnot
      exact ih (has_rmdir_of_ne hq hne) hnot

theorem foldl_rmdir_content {l : List Path} : (l.foldl rmdir t).content = t.content := by
  induction l generalizing t with
  | nil => rfl
  | cons p l ih => exact ih.trans rmdir_content

/-- Directories are taken away from the deepest on, so those that have nothing else
below them all go. -/
theorem foldl_rmdir_gone {l : List Path} (hsorted : l.Pairwise fun p q => q.length ≤ p.length)
    (hdirs : ∀ q, t.Has q → d <:+ q → q ∈ l ∧ q ∉ t.files) (hd : d ≠ []) :
    ¬(l.foldl rmdir t).Has d := by
  induction l generalizing t with
  | nil => exact fun h => List.not_mem_nil (hdirs d h (List.suffix_refl d)).1
  | cons p l ih =>
      obtain ⟨hdeepest, hsorted⟩ := List.pairwise_cons.mp hsorted
      refine ih hsorted fun q hq hbelow => ?_
      have hbefore : t.Has q := by
        unfold rmdir at hq
        split at hq
        next => exact hq.imp Finset.mem_of_mem_erase id
        next => exact hq
      obtain ⟨hmem, hnofile⟩ := hdirs q hbefore hbelow
      have hfiles : (t.rmdir p).files = t.files := by
        unfold rmdir
        split <;> rfl
      refine ⟨?_, hfiles ▸ hnofile⟩
      rcases List.mem_cons.mp hmem with rfl | hmem
      · exfalso
        have hempty : t.Empty q := by
          intro q' hq' hbelow'
          obtain ⟨hmem', -⟩ := hdirs q' (Finset.mem_union.mp hq') (hbelow.trans hbelow')
          rcases List.mem_cons.mp hmem' with heq | hmem'
          · exact heq
          · exact (hbelow'.eq_of_length_le (hdeepest q' hmem')).symm
        have hne : q ≠ [] := by
          rintro rfl
          exact hd (List.suffix_nil.mp hbelow)
        rw [rmdir, if_pos ⟨hne, hempty⟩] at hq
        rcases hq with hq | hq
        · exact absurd rfl (Finset.mem_erase.mp hq).1
        · exact hnofile hq
      · exact hmem

end FileTree

end Library
