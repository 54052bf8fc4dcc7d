import AgentsCanCommunicate.Library.Marking
import AgentsCanCommunicate.Library.Table
import AgentsCanCommunicate.Storage.DoomedDirectory
import AgentsCanCommunicate.Storage.IndexPages

/-!
# Reclaiming index pages

A pass marks what the roots reach, then goes through the page directory in name
order and takes away what is not marked.  It has a budget.  What it did not get to
is kept in a checkpoint, and the next pass goes on from there.

A pass reads the checkpoint, looks at one page, condemns it, discards it and writes
the checkpoint.  That is a budget of five.  With five or more, every pass that does
not finish marks a page, or passes one in the directory by or takes it away
(`Cache.Advances`), so passes over an unchanging cache finish
(`reclaimIndexPages_finishes`).  `reclaimIndexPages` also accepts a budget of four,
and then it never takes a page away.
-/

namespace Acc.Storage

open Library (Table Live Marking Marked mark)

variable {η τ ι : Type}

/-! ## The cache -/

/-- What is found under the name of a page. -/
inductive CacheFile (η τ ι : Type) where
  /-- A page whose bytes have the digest it is named by. -/
  | page (p : IndexPage η τ ι)
  /-- A file that does not decode. -/
  | damaged
  /-- A directory. -/
  | folder
deriving DecidableEq

/-- The checkpoint of an unfinished cycle. -/
structure Progress (η : Type) where
  /-- The stack of pages to mark, its top first. -/
  pending : List η
  visited : List η
  /-- The last name the sweep passed. -/
  cursor : Option η
  done : Bool
deriving DecidableEq

/-- The page directory and the checkpoint file. -/
structure Cache (η τ ι : Type) [LinearOrder η] where
  pages : Table η (CacheFile η τ ι)
  progress : Option (Progress η)
deriving DecidableEq

/-! ## The checkpoint -/

namespace Progress

def fresh : Progress η := ⟨[], [], none, false⟩

/-- A finished cycle has nothing to mark. -/
def valid (p : Progress η) : Bool := !p.done || p.pending.isEmpty

/-- The length of a list of digests as JSON. -/
def listLength (n : Nat) : Nat := "[]".length + 66 * n + (n - 1)

def cursorLength : Option η → Nat
  | none => "null".length
  | some _ => "\"\"".length + 64 + ".json".length

/-- The number of bytes of the checkpoint file. -/
def encodedLength (p : Progress η) : Nat :=
  "\x7b\"state\":\x7b\"version\":1,\"pending\":".length + listLength p.pending.length +
    (",\"visited\":".length + listLength p.visited.length) +
    (",\"cursor\":".length + cursorLength p.cursor) +
    (",\"done\":".length + (if p.done then "true".length else "false".length)) +
    ("\x7d,\"sha256\":\"\"\x7d\n".length + 64)

end Progress

def reclaimProgressLimit : Nat := 64 * 1024 * 1024

/-- A checkpoint that is missing, too large, invalid or finished starts a new
cycle. -/
def readReclaimProgress (stored : Option (Progress η)) : Progress η :=
  match stored with
  | none => .fresh
  | some p =>
      if reclaimProgressLimit < p.encodedLength then .fresh
      else if p.valid = false then .fresh
      else if p.done then .fresh
      else p

/-! ## A pass -/

/-- What `reclaimIndexPages` answers. -/
structure ReclaimReport where
  reclaimed : Nat
  remaining : Bool
  spent : Nat
  deferred : Bool
deriving DecidableEq

/-- How far the sweep has come. -/
structure Sweep (η : Type) where
  spent : Nat
  /-- What discarding the condemned pages will take. -/
  reserved : Nat
  cursor : Option η
  condemned : List η
  remaining : Bool
deriving DecidableEq

section Pass

variable [LinearOrder η]

local instance lawful_digests : LawfulBEq η := inferInstance

/-- The references of the page under a name. -/
def Cache.readPage (c : Cache η τ ι) (hash : η) : Option (List η) :=
  match c.pages.get? hash with
  | some (.page p) => some p.references
  | _ => none

/-- The checkpoint a pass starts from. -/
def Cache.resumed (c : Cache η τ ι) : Progress η := readReclaimProgress c.progress

/-- The pages without the condemned ones. -/
def Cache.without (c : Cache η τ ι) (condemned : List η) : Table η (CacheFile η τ ι) :=
  c.pages.filter fun e => decide (e.1 ∉ condemned)

/-- The roots that are neither marked nor waiting are pushed. -/
def pushRoots (visited : List η) : List η → List η → List η
  | pending, [] => pending
  | pending, hash :: hashes =>
      if hash ∈ visited ∨ hash ∈ pending then pushRoots visited pending hashes
      else pushRoots visited (hash :: pending) hashes

/-- The sweep passed this name. -/
def passed (cursor : Option η) (name : η) : Bool :=
  match cursor with
  | none => false
  | some c => decide (name ≤ c)

/-- Go through the directory in name order. -/
def sweep [DecidableEq τ] [DecidableEq ι] (budget : Nat) (reachable : List η) :
    List (η × CacheFile η τ ι) → Sweep η → Sweep η
  | [], s => s
  | (name, file) :: entries, s =>
      if passed s.cursor name then sweep budget reachable entries s
      else if budget ≤ s.spent + s.reserved then { s with remaining := true }
      else if file = .folder ∨ name ∈ reachable then
        sweep budget reachable entries { s with spent := s.spent + 1, cursor := some name }
      else if budget < s.spent + 1 + s.reserved + 2 then
        { s with spent := s.spent + 1, remaining := true }
      else
        sweep budget reachable entries
          { s with
            spent := s.spent + 2
            reserved := s.reserved + 1
            cursor := some name
            condemned := s.condemned ++ [name] }

/-- The part of a pass that follows a completed marking. -/
def sweepPages [DecidableEq τ] [DecidableEq ι] (c : Cache η τ ι) (budget spent : Nat)
    (reachable : List η) (cursor : Option η) : ReclaimReport × Cache η τ ι :=
  let s := sweep budget reachable c.pages.entries ⟨spent, 0, cursor, [], false⟩
  let removed := Doomed.empty (List.replicate s.condemned.length .file) (budget - s.spent)
  let remaining := s.remaining || (!s.condemned.isEmpty && !removed.drained)
  (⟨removed.removed, remaining, s.spent + removed.spent + 1, false⟩,
    { pages := c.without s.condemned
      progress := some ⟨[], reachable, s.cursor, !remaining⟩ })

/-- One pass, without a deadline, over a cache whose directories are in place. -/
def reclaimIndexPages [DecidableEq τ] [DecidableEq ι] (roots : List (Option η)) (limit : Nat)
    (c : Cache η τ ι) : ReclaimReport × Cache η τ ι :=
  if limit < 4 then (⟨0, true, 0, false⟩, c)
  else
    let progress := c.resumed
    let budget := limit - 1
    let pending := pushRoots progress.visited progress.pending roots.reduceOption
    match mark c.readPage (budget - 1) progress.visited pending with
    | .stopped visited pending =>
        (⟨0, true, budget + 1, false⟩,
          { c with progress := some ⟨pending, visited, progress.cursor, false⟩ })
    | .missing room =>
        (⟨0, true, budget - room + 1, true⟩, { c with progress := some ⟨[], [], none, true⟩ })
    | .complete room visited => sweepPages c budget (budget - room) visited progress.cursor

/-- The cache after a number of passes. -/
def reclaimPasses [DecidableEq τ] [DecidableEq ι] (roots : List (Option η)) (limit : Nat)
    (c : Cache η τ ι) : Nat → Cache η τ ι
  | 0 => c
  | n + 1 => (reclaimIndexPages roots limit (reclaimPasses roots limit c n)).2

/-! ## The sweep -/

section Sweep

variable {budget : Nat} {reachable : List η}

/-- What the sweep leaves, from the state `s`. -/
structure Sweep.Spec (budget : Nat) (reachable : List η) (entries : List (η × CacheFile η τ ι))
    (s s' : Sweep η) : Prop where
  within : s'.spent + s'.reserved ≤ budget
  reserved : s'.reserved = s'.condemned.length
  /-- Only files that are not marked are condemned. -/
  condemned : ∀ h ∈ s'.condemned, h ∈ s.condemned ∨
    ∃ f, (h, f) ∈ entries ∧ f ≠ .folder ∧ h ∉ reachable
  kept : s.condemned ⊆ s'.condemned
  forward : ∀ h, passed s.cursor h = true → passed s'.cursor h = true
  /-- A name the cursor passed was dealt with. -/
  dealt : ∀ h f, (h, f) ∈ entries → passed s'.cursor h = true →
    passed s.cursor h = true ∨ h ∈ s'.condemned ∨ f = .folder ∨ h ∈ reachable
  /-- A sweep that leaves nothing passed every name. -/
  finished : s'.remaining = false → ∀ h f, (h, f) ∈ entries →
    passed s.cursor h = true ∨ h ∈ s'.condemned ∨ f = .folder ∨ h ∈ reachable
  /-- A sweep that stops has passed a name, when it could pay for one. -/
  moved : s'.remaining = true → s.spent + s.reserved + 3 ≤ budget →
    ∃ h f, (h, f) ∈ entries ∧ passed s.cursor h = false ∧ passed s'.cursor h = true

theorem passed_self (h : η) : passed (some h) h = true := decide_eq_true le_rfl

/-- Moving the cursor to a name it had not passed loses nothing. -/
theorem passed_advance {cursor : Option η} {name h : η} (hname : passed cursor name = false)
    (h' : passed cursor h = true) : passed (some name) h = true := by
  cases cursor with
  | none => cases h'
  | some c =>
      have hlt : c < name := not_le.mp (of_decide_eq_false hname)
      exact decide_eq_true ((of_decide_eq_true h').trans hlt.le)

/-- The sweep goes on from a name it has dealt with. -/
theorem Sweep.Spec.cons {name : η} {file : CacheFile η τ ι}
    {entries : List (η × CacheFile η τ ι)} {s s₁ s' : Sweep η}
    (h : Sweep.Spec budget reachable entries s₁ s')
    (hname : passed s.cursor name = false) (hcursor : s₁.cursor = some name)
    (hsorted : ∀ e ∈ entries, name < e.1)
    (hcondemned : ∀ h ∈ s₁.condemned, h ∈ s.condemned ∨
      h = name ∧ file ≠ .folder ∧ h ∉ reachable)
    (hkept : s.condemned ⊆ s₁.condemned)
    (hdealt : name ∈ s₁.condemned ∨ file = .folder ∨ name ∈ reachable) :
    Sweep.Spec budget reachable ((name, file) :: entries) s s' := by
  have hlater : ∀ h f, (h, f) ∈ entries → passed s₁.cursor h = true → False := by
    intro h f hmem hpassed
    rw [hcursor] at hpassed
    exact absurd (of_decide_eq_true hpassed) (not_le.mpr (hsorted _ hmem))
  have hhead : name ∈ s'.condemned ∨ file = .folder ∨ name ∈ reachable :=
    hdealt.imp_left fun hmem => h.kept hmem
  have hpast : passed s'.cursor name = true := h.forward name (hcursor ▸ passed_self name)
  refine ⟨h.within, h.reserved, ?_, fun x hx => h.kept (hkept hx), ?_, ?_, ?_, ?_⟩
  · intro x hx
    rcases h.condemned x hx with hx | ⟨f, hmem, hrest⟩
    · rcases hcondemned x hx with hx | ⟨rfl, hrest⟩
      · exact .inl hx
      · exact .inr ⟨file, List.mem_cons_self .., hrest⟩
    · exact .inr ⟨f, List.mem_cons_of_mem _ hmem, hrest⟩
  · exact fun x hx => h.forward x (hcursor ▸ passed_advance hname hx)
  · intro x f hmem hpassed
    rcases List.mem_cons.mp hmem with heq | hmem
    · cases heq
      exact .inr hhead
    · exact .inr ((h.dealt x f hmem hpassed).resolve_left fun hp => hlater x f hmem hp)
  · intro hdone x f hmem
    rcases List.mem_cons.mp hmem with heq | hmem
    · cases heq
      exact .inr hhead
    · exact .inr ((h.finished hdone x f hmem).resolve_left fun hp => hlater x f hmem hp)
  · exact fun _ _ => ⟨name, file, List.mem_cons_self .., hname, hpast⟩

/-- The sweep stops before a name. -/
theorem Sweep.Spec.stop {entries : List (η × CacheFile η τ ι)} {s s' : Sweep η}
    (hcursor : s'.cursor = s.cursor) (hcondemned : s'.condemned = s.condemned)
    (hremaining : s'.remaining = true) (hwithin : s'.spent + s'.reserved ≤ budget)
    (hreserved : s'.reserved = s'.condemned.length)
    (hpoor : ¬s.spent + s.reserved + 3 ≤ budget) :
    Sweep.Spec budget reachable entries s s' where
  within := hwithin
  reserved := hreserved
  condemned h hh := .inl (hcondemned ▸ hh)
  kept := by rw [hcondemned]; exact List.Subset.refl _
  forward h hh := by rw [hcursor]; exact hh
  dealt h f _ hh := .inl (hcursor ▸ hh)
  finished hdone := by rw [hremaining] at hdone; cases hdone
  moved _ hrich := absurd hrich hpoor

theorem sweep_spec [DecidableEq τ] [DecidableEq ι] {entries : List (η × CacheFile η τ ι)}
    (hsorted : (entries.map Prod.fst).Pairwise (· < ·)) {s : Sweep η}
    (hwithin : s.spent + s.reserved ≤ budget) (hreserved : s.reserved = s.condemned.length)
    (hremaining : s.remaining = false) :
    Sweep.Spec budget reachable entries s (sweep budget reachable entries s) := by
  induction entries generalizing s with
  | nil =>
      refine ⟨hwithin, hreserved, fun h hh => .inl hh, List.Subset.refl _, fun h hh => hh, nofun,
        fun _ => nofun, fun hr => ?_⟩
      rw [sweep, hremaining] at hr
      cases hr
  | cons e entries ih =>
      obtain ⟨name, file⟩ := e
      rw [List.map_cons, List.pairwise_cons] at hsorted
      have hlater : ∀ e ∈ entries, name < e.1 :=
        fun e he => hsorted.1 _ (List.mem_map_of_mem (f := Prod.fst) he)
      rw [sweep]
      split
      next hpassed =>
          have hrest := ih hsorted.2 hwithin hreserved hremaining
          refine ⟨hrest.within, hrest.reserved, fun h hh => ?_, hrest.kept, hrest.forward,
            fun h f hmem hh => ?_, fun hdone h f hmem => ?_, fun hr hrich => ?_⟩
          · exact (hrest.condemned h hh).imp_right fun ⟨f, hmem, hx⟩ =>
              ⟨f, List.mem_cons_of_mem _ hmem, hx⟩
          · rcases List.mem_cons.mp hmem with heq | hmem
            · cases heq
              exact .inl hpassed
            · exact hrest.dealt h f hmem hh
          · rcases List.mem_cons.mp hmem with heq | hmem
            · cases heq
              exact .inl hpassed
            · exact hrest.finished hdone h f hmem
          · obtain ⟨h, f, hmem, hx⟩ := hrest.moved hr hrich
            exact ⟨h, f, List.mem_cons_of_mem _ hmem, hx⟩
      next hpassed =>
          rw [Bool.not_eq_true] at hpassed
          split
          next hfull => exact .stop rfl rfl rfl hwithin hreserved (by omega)
          next hroom =>
              split
              next hstays =>
                  have hpaid : s.spent + 1 + s.reserved ≤ budget := by omega
                  have hrest := ih (s := { s with spent := s.spent + 1, cursor := some name })
                    hsorted.2 hpaid hreserved hremaining
                  exact hrest.cons hpassed rfl hlater (fun h hh => .inl hh) (List.Subset.refl _)
                    (.inr hstays)
              next hgoes =>
                  rw [not_or] at hgoes
                  split
                  next hpoor =>
                      refine .stop rfl rfl rfl ?_ hreserved (by omega)
                      show s.spent + 1 + s.reserved ≤ budget
                      omega
                  next hrich =>
                      have hpaid : s.spent + 2 + (s.reserved + 1) ≤ budget := by omega
                      have hcount : s.reserved + 1 = (s.condemned ++ [name]).length := by
                        rw [List.length_append, List.length_singleton, hreserved]
                      have hrest := ih
                        (s := { s with
                          spent := s.spent + 2
                          reserved := s.reserved + 1
                          cursor := some name
                          condemned := s.condemned ++ [name] })
                        hsorted.2 hpaid hcount hremaining
                      refine hrest.cons hpassed rfl hlater (fun h hh => ?_)
                        (List.subset_append_left _ _)
                        (.inl (List.mem_append_right _ (List.mem_singleton_self name)))
                      rcases List.mem_append.mp hh with hh | hh
                      · exact .inl hh
                      · rw [List.mem_singleton] at hh
                        exact .inr ⟨hh, hgoes.1, hh ▸ hgoes.2⟩

end Sweep

/-! ## Between two passes -/

theorem pushRoots_spec {read : η → Option (List η)} {roots visited pending hashes : List η}
    (h : Marking read roots visited pending) (hsub : ∀ r ∈ hashes, r ∈ roots) :
    Marking read roots visited (pushRoots visited pending hashes) ∧
      pending ⊆ pushRoots visited pending hashes ∧
      ∀ r ∈ hashes, r ∈ visited ∨ r ∈ pushRoots visited pending hashes := by
  induction hashes generalizing pending with
  | nil => exact ⟨h, List.Subset.refl _, nofun⟩
  | cons hash hashes ih =>
      have hrest : ∀ r ∈ hashes, r ∈ roots := fun r hr => hsub r (List.mem_cons_of_mem _ hr)
      rw [pushRoots]
      split
      next hknown =>
          obtain ⟨hm, hkept, hcovered⟩ := ih h hrest
          refine ⟨hm, hkept, List.forall_mem_cons.mpr ⟨?_, hcovered⟩⟩
          exact hknown.imp_right fun hmem => hkept hmem
      next =>
          obtain ⟨hm, hkept, hcovered⟩ := ih (h.push (.root (hsub hash (List.mem_cons_self ..)))) hrest
          refine ⟨hm, fun r hr => hkept (List.mem_cons_of_mem _ hr),
            List.forall_mem_cons.mpr ⟨.inr (hkept (List.mem_cons_self ..)), hcovered⟩⟩

/-- The checkpoint can be read back. -/
def Cache.Fits (c : Cache η τ ι) : Prop :=
  ∀ p, c.progress = some p → p.encodedLength ≤ reclaimProgressLimit

/-- The live pages of `c₀` and its directories are still there, and nothing is new. -/
structure Cache.Keeps (c₀ : Cache η τ ι) (roots : List η) (pages : Table η (CacheFile η τ ι)) :
    Prop where
  sub : ∀ h f, pages.get? h = some f → c₀.pages.get? h = some f
  live : ∀ h, Live c₀.readPage roots h → pages.get? h = c₀.pages.get? h
  folders : ∀ h, c₀.pages.get? h = some .folder → pages.get? h = some .folder

instance (c : Cache η τ ι) : Decidable c.Fits :=
  decidable_of_iff (c.progress.all fun p => decide (p.encodedLength ≤ reclaimProgressLimit))
    (by simp [Cache.Fits, Option.all_eq_true])

/-- What holds before each pass over the pages of `c₀`. -/
structure Cache.Sound (c₀ : Cache η τ ι) (roots : List η) (c : Cache η τ ι) : Prop where
  keeps : c₀.Keeps roots c.pages
  marking : Marking c₀.readPage roots c.resumed.visited c.resumed.pending
  /-- What the sweep has passed stays. -/
  swept : ∀ h f, c.pages.get? h = some f → passed c.resumed.cursor h = true →
    Live c₀.readPage roots h ∨ f = .folder

/-- A new cycle begins. -/
theorem Cache.Sound.of_fresh {c₀ c : Cache η τ ι} {roots : List η}
    (hkeeps : c₀.Keeps roots c.pages) (hfresh : c.resumed = .fresh) : c₀.Sound roots c where
  keeps := hkeeps
  marking := by rw [hfresh]; exact .nil
  swept h f _ hpassed := by rw [hfresh] at hpassed; cases hpassed

/-- A checkpoint that fits is read back as it is, or a new cycle begins. -/
theorem Cache.resumed_cases (c : Cache η τ ι) :
    c.resumed = .fresh ∨
      c.progress = some c.resumed ∧ c.resumed.encodedLength ≤ reclaimProgressLimit := by
  unfold Cache.resumed readReclaimProgress
  split
  next => exact .inl rfl
  next p hp =>
      split
      next => exact .inl rfl
      next hle =>
          split
          · exact .inl rfl
          · split
            · exact .inl rfl
            · exact .inr ⟨hp, not_lt.mp hle⟩

/-- A checkpoint that is read back lists no more pages than fit in the file. -/
theorem Cache.resumed_length_le (c : Cache η τ ι) :
    66 * c.resumed.visited.length ≤ reclaimProgressLimit := by
  rcases c.resumed_cases with hfresh | ⟨-, hle⟩
  · rw [hfresh]
    exact Nat.zero_le _
  · simp only [Progress.encodedLength, Progress.listLength] at hle
    omega

theorem Cache.resumed_eq {c : Cache η τ ι} {p : Progress η} (hp : c.progress = some p)
    (hfits : c.Fits) (hdone : p.done = false) : c.resumed = p := by
  have hvalid : p.valid = true := by rw [Progress.valid, hdone]; rfl
  rw [Cache.resumed, hp, readReclaimProgress]
  simp only [if_neg (not_lt.mpr (hfits p hp)), hvalid, hdone]
  rfl

theorem Cache.resumed_of_done {c : Cache η τ ι} {p : Progress η} (hp : c.progress = some p)
    (hdone : p.done = true) : c.resumed = .fresh := by
  rw [Cache.resumed, hp, readReclaimProgress]
  simp only [hdone, if_true]
  split
  · rfl
  · split <;> rfl

/-- The names a pass has still to go through. -/
def Cache.ahead (c : Cache η τ ι) : List (η × CacheFile η τ ι) :=
  c.pages.entries.filter fun e => !passed c.resumed.cursor e.1

/-- What is left once a cycle finished: the live pages, and what is no file. -/
def Cache.Reclaimed (c₀ : Cache η τ ι) (roots : List η) (c : Cache η τ ι) : Prop :=
  ∀ h f, c.pages.get? h = some f ↔
    c₀.pages.get? h = some f ∧ (Live c₀.readPage roots h ∨ f = .folder)

/-- A pass marked a page, or passed a name of the directory by or took it away. -/
def Cache.Advances (c c' : Cache η τ ι) : Prop :=
  (∃ h ∈ c'.resumed.visited, h ∉ c.resumed.visited) ∨
    ∃ h f, c.pages.get? h = some f ∧ passed c.resumed.cursor h = false ∧
      passed c'.resumed.cursor h = true

/-! ## One pass -/

theorem exists_mem_notMem_of_prefix {α : Type} {xs ys : List α} (hys : ys.Nodup) (h : xs <+: ys)
    (hlt : xs.length < ys.length) : ∃ y ∈ ys, y ∉ xs := by
  obtain ⟨more, rfl⟩ := h
  obtain ⟨y, hy⟩ : ∃ y, y ∈ more := by
    refine List.exists_mem_of_length_pos ?_
    rw [List.length_append] at hlt
    omega
  exact ⟨y, List.mem_append_right _ hy,
    fun hmem => List.disjoint_of_nodup_append hys hmem hy⟩

section OnePass

variable {c₀ c : Cache η τ ι} {roots : List η} {budget spent : Nat} {visited : List η}

theorem Cache.get?_without {condemned : List η} {h : η} {f : CacheFile η τ ι} :
    (c.without condemned).get? h = some f ↔ c.pages.get? h = some f ∧ h ∉ condemned := by
  rw [Cache.without, Table.get?_filter_eq_some, decide_eq_true_eq]

theorem Cache.get?_without_of_notMem {condemned : List η} {h : η} (hh : h ∉ condemned) :
    (c.without condemned).get? h = c.pages.get? h := by
  rw [Cache.without, Table.get?_filter]
  cases c.pages.get? h with
  | none => rfl
  | some f => simp [Option.filter, hh]

/-- Taking away files that are not live keeps the rest. -/
theorem Cache.Keeps.without (hc : c₀.Keeps roots c.pages) {condemned : List η}
    (hcondemned : ∀ h ∈ condemned, ¬Live c₀.readPage roots h ∧
      c₀.pages.get? h ≠ some .folder) : c₀.Keeps roots (c.without condemned) where
  sub h f hget := hc.sub h f (Cache.get?_without.mp hget).1
  live h hh :=
    (Cache.get?_without_of_notMem fun hmem => (hcondemned h hmem).1 hh).trans (hc.live h hh)
  folders h hh :=
    (Cache.get?_without_of_notMem fun hmem => (hcondemned h hmem).2 hh).trans (hc.folders h hh)

/-- What is left to do: pages to mark, and names to pass. -/
def Cache.work (c₀ c : Cache η τ ι) : Nat :=
  (c₀.pages.keys.length - c.resumed.visited.length) + c.ahead.length

/-- A pass that does not finish did some of the work. -/
theorem Cache.work_lt {c' : Cache η τ ι} (hsub : c'.pages.entries.Sublist c.pages.entries)
    (hvisited : c'.resumed.visited.length ≤ c₀.pages.keys.length)
    (hgrows : c.resumed.visited <+: c'.resumed.visited)
    (hforward : ∀ h, passed c.resumed.cursor h = true → passed c'.resumed.cursor h = true)
    (hadvances : c.resumed.visited.length < c'.resumed.visited.length ∨
      ∃ h f, c.pages.get? h = some f ∧ passed c.resumed.cursor h = false ∧
        passed c'.resumed.cursor h = true) : Cache.work c₀ c' < Cache.work c₀ c := by
  have hahead : c'.ahead.Sublist c.ahead := by
    refine (hsub.filter _).trans (List.monotone_filter_right c.pages.entries fun e he => ?_)
    rw [Bool.not_eq_true'] at he ⊢
    by_contra hpassed
    rw [hforward e.1 (by simpa using hpassed)] at he
    cases he
  have hlength := hgrows.length_le
  have hle := hahead.length_le
  unfold Cache.work
  rcases hadvances with hmore | ⟨h, f, hget, hbefore, hafter⟩
  · omega
  · have hlt : c'.ahead.length < c.ahead.length := by
      refine lt_of_le_of_ne hle fun heq => ?_
      have hmem : (h, f) ∈ c.ahead :=
        List.mem_filter.mpr ⟨Table.mem_entries.mpr hget, by rw [hbefore]; rfl⟩
      rw [← hahead.eq_of_length heq] at hmem
      have hnot := (List.mem_filter.mp hmem).2
      rw [hafter] at hnot
      cases hnot
    omega

/-- A list of live pages is no longer than the directory. -/
theorem visited_length_le {pending : List η} (h : Marking c₀.readPage roots visited pending)
    (hread : ∀ a, Live c₀.readPage roots a → (c₀.readPage a).isSome = true) :
    visited.length ≤ c₀.pages.keys.length := by
  refine (h.nodup.subperm fun a ha => ?_).length_le
  have hsome := hread a (h.visited_live a ha)
  rw [Cache.readPage] at hsome
  cases hget : c₀.pages.get? a with
  | none => rw [hget] at hsome; cases hsome
  | some f => exact Table.mem_keys.mpr ⟨f, hget⟩

variable [DecidableEq τ] [DecidableEq ι]

/-- The sweep of a pass that has marked everything live. -/
theorem sweepPages_spec {report : ReclaimReport} {c' : Cache η τ ι} (hc : c₀.Sound roots c)
    (hspent : spent ≤ budget) (hmarking : Marking c₀.readPage roots visited [])
    (hvisited : ∀ h, h ∈ visited ↔ Live c₀.readPage roots h)
    (hpass : sweepPages c budget spent visited c.resumed.cursor = (report, c')) :
    c₀.Sound roots c' ∧ (report.remaining = false → c₀.Reclaimed roots c') ∧
      (report.remaining = true → c'.Fits → c'.pages.entries.Sublist c.pages.entries ∧
        c'.resumed.visited = visited ∧
        (∀ h, passed c.resumed.cursor h = true → passed c'.resumed.cursor h = true) ∧
        (spent + 3 ≤ budget → ∃ h f, c.pages.get? h = some f ∧
          passed c.resumed.cursor h = false ∧ passed c'.resumed.cursor h = true)) := by
  have hspec : Sweep.Spec budget visited c.pages.entries ⟨spent, 0, c.resumed.cursor, [], false⟩
      (sweep budget visited c.pages.entries ⟨spent, 0, c.resumed.cursor, [], false⟩) :=
    sweep_spec c.pages.sorted hspent rfl rfl
  unfold sweepPages at hpass
  generalize sweep budget visited c.pages.entries ⟨spent, 0, c.resumed.cursor, [], false⟩ = s
    at hspec hpass
  -- What was condemned was paid for, so all of it is discarded.
  have hempty : Doomed.empty (List.replicate s.condemned.length .file) (budget - s.spent) =
      ⟨s.condemned.length, s.condemned.length, true⟩ := by
    have hwithin := hspec.within
    have hreserved := hspec.reserved
    exact Doomed.empty_replicate (by omega)
  simp only [hempty, Bool.not_true, Bool.and_false, Bool.or_false, Prod.mk.injEq] at hpass
  obtain ⟨rfl, rfl⟩ := hpass
  have hkeeps : c₀.Keeps roots (c.without s.condemned) := by
    refine hc.keeps.without fun h hh => ?_
    obtain ⟨f, hmem, hfolder, hdead⟩ := (hspec.condemned h hh).resolve_left nofun
    have hget := hc.keeps.sub h f (Table.mem_entries.mp hmem)
    exact ⟨fun hlive => hdead ((hvisited h).mpr hlive),
      fun hget' => hfolder (Option.some.inj (hget.symm.trans hget'))⟩
  -- A name that was dealt with and is still there is of a live page or a directory.
  have hdealt : ∀ h f, (c.without s.condemned).get? h = some f →
      passed c.resumed.cursor h = true ∨ h ∈ s.condemned ∨ f = .folder ∨ h ∈ visited →
      Live c₀.readPage roots h ∨ f = .folder := by
    intro h f hget hcases
    obtain ⟨hget', hnot⟩ := Cache.get?_without.mp hget
    rcases hcases with hpassed | hmem | hfolder | hmem
    · exact hc.swept h f hget' hpassed
    · exact absurd hmem hnot
    · exact .inr hfolder
    · exact .inl ((hvisited h).mp hmem)
  refine ⟨?_, fun hdone h f => ⟨fun hget => ?_, fun ⟨hget, hcases⟩ => ?_⟩,
    fun hremaining hfits => ?_⟩
  · rcases Cache.resumed_cases
        ⟨c.without s.condemned, some ⟨[], visited, s.cursor, !s.remaining⟩⟩ with
      hfresh | ⟨hsame, -⟩
    · exact .of_fresh hkeeps hfresh
    · have hresumed := Option.some.inj hsame
      refine ⟨hkeeps, hresumed ▸ hmarking, fun h f hget hpassed => ?_⟩
      rw [← hresumed] at hpassed
      have hmem := Table.mem_entries.mpr (Cache.get?_without.mp hget).1
      exact hdealt h f hget (hspec.dealt h f hmem hpassed)
  · have hmem := Table.mem_entries.mpr (Cache.get?_without.mp hget).1
    exact ⟨hkeeps.sub h f hget, hdealt h f hget (hspec.finished hdone h f hmem)⟩
  · rcases hcases with hh | rfl
    · exact (hkeeps.live h hh).trans hget
    · exact hkeeps.folders h hget
  · have hresumed := Cache.resumed_eq rfl hfits (by simpa using hremaining)
    rw [hresumed]
    refine ⟨List.filter_sublist, rfl, hspec.forward, fun hrich => ?_⟩
    obtain ⟨h, f, hmem, hbefore, hafter⟩ := hspec.moved hremaining hrich
    exact ⟨h, f, Table.mem_entries.mp hmem, hbefore, hafter⟩

/-- One pass keeps what the cache must keep.  When it finishes, the live pages are
left, and they were marked.  When it does not, it advances. -/
theorem reclaimIndexPages_spec {roots : List (Option η)} {limit : Nat} {report : ReclaimReport}
    {c' : Cache η τ ι} (hlimit : 4 ≤ limit)
    (hread : ∀ a, Live c₀.readPage roots.reduceOption a → (c₀.readPage a).isSome = true)
    (hc : c₀.Sound roots.reduceOption c) (hpass : reclaimIndexPages roots limit c = (report, c')) :
    c₀.Sound roots.reduceOption c' ∧
      (report.remaining = false → c₀.Reclaimed roots.reduceOption c' ∧
        ∃ visited : List η, (∀ h, h ∈ visited ↔ Live c₀.readPage roots.reduceOption h) ∧
          visited.length ≤ c.resumed.visited.length + limit) ∧
      (report.remaining = true → c'.Fits → 5 ≤ limit →
        c.Advances c' ∧ Cache.work c₀ c' < Cache.work c₀ c) := by
  -- On live pages the cache reads as it did.
  have hagree : ∀ a, Live c₀.readPage roots.reduceOption a → c.readPage a = c₀.readPage a := by
    intro a ha
    rw [Cache.readPage, Cache.readPage, hc.keeps.live a ha]
  have hagree' : ∀ a, Live c.readPage roots.reduceOption a → c₀.readPage a = c.readPage a :=
    fun a ha => (hagree a ((Live.congr hagree).mp ha)).symm
  have hread' : ∀ a, Live c.readPage roots.reduceOption a → (c.readPage a).isSome = true := by
    intro a ha
    have ha' := (Live.congr hagree).mp ha
    rw [hagree a ha']
    exact hread a ha'
  obtain ⟨hpushed, -, hcovered⟩ := pushRoots_spec hc.marking (List.Subset.refl _)
  have hspec : (mark c.readPage (limit - 1 - 1) c.resumed.visited
      (pushRoots c.resumed.visited c.resumed.pending roots.reduceOption)).Spec c.readPage
      roots.reduceOption c.resumed.visited (limit - 1 - 1) :=
    (hpushed.congr hagree).mark hread' hcovered
  simp only [reclaimIndexPages, if_neg (not_lt.mpr hlimit)] at hpass
  generalize mark c.readPage (limit - 1 - 1) c.resumed.visited
    (pushRoots c.resumed.visited c.resumed.pending roots.reduceOption) = call at hspec hpass
  cases hspec with
  | @complete left visited hgrows hcount hmarking hmarked =>
      have hmarking' := hmarking.congr hagree'
      have hvisited : ∀ h, h ∈ visited ↔ Live c₀.readPage roots.reduceOption h :=
        fun h => hmarking'.mem_iff hmarked
      obtain ⟨hsound, hfinished, hremains⟩ :=
        sweepPages_spec hc (Nat.sub_le _ _) hmarking' hvisited hpass
      refine ⟨hsound, fun hdone => ⟨hfinished hdone, visited, hvisited, by omega⟩,
        fun hremaining hfits hrich => ?_⟩
      obtain ⟨hsub, hresumed, hforward, hmoved⟩ := hremains hremaining hfits
      have hlength := visited_length_le hmarking' hread
      rw [← hresumed] at hgrows hcount hlength
      rcases Nat.lt_or_ge c.resumed.visited.length c'.resumed.visited.length with hmore | hsame
      · refine ⟨.inl ?_, Cache.work_lt hsub hlength hgrows hforward (.inl hmore)⟩
        exact exists_mem_notMem_of_prefix (hresumed ▸ hmarking.nodup) hgrows hmore
      · -- Nothing was marked, so the whole budget was left for the sweep.
        obtain ⟨h, f, hname⟩ := hmoved (by omega)
        exact ⟨.inr ⟨h, f, hname⟩,
          Cache.work_lt hsub hlength hgrows hforward (.inr ⟨h, f, hname⟩)⟩
  | @stopped visited pending hgrows hcount hmarking hmarked =>
      obtain ⟨rfl, rfl⟩ := Prod.mk.inj hpass
      have hmarking' := hmarking.congr hagree'
      refine ⟨?_, nofun, fun _ hfits hrich => ?_⟩
      · rcases Cache.resumed_cases
          { c with progress := some ⟨pending, visited, c.resumed.cursor, false⟩ } with
            hfresh | ⟨hsame, -⟩
        · exact .of_fresh hc.keeps hfresh
        · have hresumed := Option.some.inj hsame
          refine ⟨hc.keeps, hresumed ▸ hmarking', fun h f hget hpassed => ?_⟩
          rw [← hresumed] at hpassed
          exact hc.swept h f hget hpassed
      · have hresumed := Cache.resumed_eq
          (c := { c with progress := some ⟨pending, visited, c.resumed.cursor, false⟩ })
          rfl hfits rfl
        have hmore : c.resumed.visited.length < visited.length := by omega
        refine ⟨.inl ?_, Cache.work_lt (List.Sublist.refl _) ?_ ?_ ?_ (.inl ?_)⟩
        · rw [hresumed]
          exact exists_mem_notMem_of_prefix hmarking.nodup hgrows hmore
        · rw [hresumed]
          exact visited_length_le hmarking' hread
        · rw [hresumed]
          exact hgrows
        · rw [hresumed]
          exact fun h hh => hh
        · rw [hresumed]
          exact hmore

end OnePass

/-! ## Pass after pass -/

section Passes

variable [DecidableEq τ] [DecidableEq ι] {c : Cache η τ ι} {roots : List (Option η)} {limit : Nat}

/-- What the `n`th pass answers, counted from zero. -/
def reclaimReport (roots : List (Option η)) (limit : Nat) (c : Cache η τ ι) (n : Nat) :
    ReclaimReport :=
  (reclaimIndexPages roots limit (reclaimPasses roots limit c n)).1

/-- Passes come to an end with the live pages left, and each one before the last did
something of the kind `P`. -/
def Finishes (P : Cache η τ ι → Cache η τ ι → Prop) (roots : List (Option η)) (limit : Nat)
    (c : Cache η τ ι) : Prop :=
  ∃ n, (reclaimReport roots limit c n).remaining = false ∧
    c.Reclaimed roots.reduceOption (reclaimPasses roots limit c (n + 1)) ∧
    ∀ m < n, (reclaimReport roots limit c m).remaining = true ∧
      P (reclaimPasses roots limit c m) (reclaimPasses roots limit c (m + 1))

/-- Every page the roots reach is there and can be read. -/
def Cache.Whole (c : Cache η τ ι) (roots : List η) : Prop :=
  ∀ h, Live c.readPage roots h → (c.readPage h).isSome = true

/-- What a pass keeps, passes keep. -/
theorem Cache.Sound.passes (hlimit : 4 ≤ limit) (hread : c.Whole roots.reduceOption)
    (hfresh : c.resumed = .fresh) (n : Nat) :
    c.Sound roots.reduceOption (reclaimPasses roots limit c n) := by
  induction n with
  | zero => exact .of_fresh ⟨fun _ _ h => h, fun _ _ => rfl, fun _ h => h⟩ hfresh
  | succ n ih => exact (reclaimIndexPages_spec hlimit hread ih rfl).1

/-- The work left bounds the number of passes. -/
theorem exists_finished (hlimit : 5 ≤ limit) (hread : c.Whole roots.reduceOption)
    (hfresh : c.resumed = .fresh) (hfits : ∀ n, (reclaimPasses roots limit c (n + 1)).Fits) :
    ∃ n, (reclaimReport roots limit c n).remaining = false := by
  by_contra hnever
  rw [not_exists] at hnever
  have hdecreases : ∀ n, Cache.work c (reclaimPasses roots limit c n) + n ≤ Cache.work c c := by
    intro n
    induction n with
    | zero => exact le_rfl
    | succ n ih =>
        have hsound := Cache.Sound.passes (by omega : 4 ≤ limit) hread hfresh n
        have hlt := ((reclaimIndexPages_spec (by omega) hread hsound rfl).2.2
          (Bool.not_eq_false _ ▸ hnever n) (hfits n) hlimit).2
        have hlt' : Cache.work c (reclaimPasses roots limit c (n + 1)) <
            Cache.work c (reclaimPasses roots limit c n) := hlt
        omega
  have hbound := hdecreases (Cache.work c c + 1)
  omega

/-- With a budget of five or more, passes over an unchanging cache finish, as long
as their checkpoints can be read back. -/
theorem reclaimIndexPages_finishes (hlimit : 5 ≤ limit) (hread : c.Whole roots.reduceOption)
    (hfresh : c.resumed = .fresh) (hfits : ∀ n, (reclaimPasses roots limit c (n + 1)).Fits) :
    Finishes Cache.Advances roots limit c := by
  have hexists := exists_finished hlimit hread hfresh hfits
  have hsound := Cache.Sound.passes (by omega : 4 ≤ limit) hread hfresh
  refine ⟨Nat.find hexists, Nat.find_spec hexists, ?_, fun m hm => ?_⟩
  · exact ((reclaimIndexPages_spec (by omega) hread (hsound _) rfl).2.1
      (Nat.find_spec hexists)).1
  · have hremaining : (reclaimReport roots limit c m).remaining = true :=
      Bool.not_eq_false _ ▸ Nat.find_min hexists hm
    exact ⟨hremaining, ((reclaimIndexPages_spec (by omega) hread (hsound m) rfl).2.2 hremaining
      (hfits m) hlimit).1⟩

/-- More live pages than a checkpoint holds are never all marked. -/
theorem remaining_of_many (hlimit : 4 ≤ limit) (hread : c.Whole roots.reduceOption)
    (hfresh : c.resumed = .fresh) {pages : List η} (hnodup : pages.Nodup)
    (hlive : ∀ h ∈ pages, Live c.readPage roots.reduceOption h)
    (hmany : reclaimProgressLimit + 66 * limit < 66 * pages.length) (n : Nat) :
    (reclaimReport roots limit c n).remaining = true := by
  by_contra hdone
  have hsound := Cache.Sound.passes hlimit hread hfresh n
  obtain ⟨-, visited, hvisited, hcount⟩ :=
    (reclaimIndexPages_spec hlimit hread hsound rfl).2.1 (Bool.not_eq_true _ ▸ hdone)
  have hsub : pages ⊆ visited := fun h hh => (hvisited h).mpr (hlive h hh)
  have hlength := (hnodup.subperm hsub).length_le
  have hstored := (reclaimPasses roots limit c n).resumed_length_le
  omega

/-- Once a pass changes nothing, no later one does. -/
theorem reclaimPasses_const {k : Nat}
    (h : reclaimPasses roots limit c (k + 1) = reclaimPasses roots limit c k) {n : Nat}
    (hn : k ≤ n) : reclaimPasses roots limit c n = reclaimPasses roots limit c k := by
  induction n, hn using Nat.le_induction with
  | base => rfl
  | succ n _ ih =>
      rw [reclaimPasses, ih]
      exact h

end Passes

end Pass

/-! ## Small caches -/

/-- A directory with a branch, the page it names, and one nothing names. -/
def sampleCache : Cache Nat Nat Nat where
  pages := ⟨[(1, .page (.branch [(0, 2)])), (2, .page (.group [7] none)),
    (3, .page (.group [8] none))], by decide⟩
  progress := none

theorem sampleCache_whole : sampleCache.Whole [1] := by
  have hlive : ∀ h, Live sampleCache.readPage [1] h → h = 1 ∨ h = 2 := by
    rintro h ⟨r, hr, hrh⟩
    induction hrh with
    | refl => exact .inl (List.mem_singleton.mp hr)
    | tail _ hbc ih =>
        obtain ⟨bs, hread, hc⟩ := hbc
        rcases ih with rfl | rfl
        · cases hread
          exact .inr (List.mem_singleton.mp hc)
        · cases hread
          cases hc
  intro h hh
  rcases hlive h hh with rfl | rfl <;> rfl

theorem reclaimIndexPages_finishes_sample :
    Finishes Cache.Advances [some 1, none] 16 sampleCache := by
  have hconst : reclaimPasses [some 1, none] 16 sampleCache 3 =
      reclaimPasses [some 1, none] 16 sampleCache 2 := by decide
  have hfits : ∀ k ≤ 2, (reclaimPasses [some 1, none] 16 sampleCache k).Fits := by decide
  refine reclaimIndexPages_finishes (by decide) sampleCache_whole rfl fun n => ?_
  rcases Nat.le_total (n + 1) 2 with hle | hle
  · exact hfits _ hle
  · rw [reclaimPasses_const hconst hle]
    exact hfits 2 le_rfl

/-! ## What a budget of four, a sweep of live pages, a page that is gone and a large graph do -/

/-- A pass marked a page or took one away. -/
def Cache.Works {η τ ι : Type} [LinearOrder η] (c c' : Cache η τ ι) : Prop :=
  (∃ h ∈ c'.resumed.visited, h ∉ c.resumed.visited) ∨
    ∃ h, c.pages.get? h ≠ none ∧ c'.pages.get? h = none

/-- One page that nothing names. -/
def strayCache : Cache Nat Nat Nat := ⟨⟨[(1, .page (.group [7] none))], by decide⟩, none⟩

theorem strayCache_whole : strayCache.Whole [] := by
  rintro h ⟨r, hr, -⟩
  cases hr

/-- A budget of four does not pay for taking a page away. -/
theorem strayCache_stalls (n : Nat) : (reclaimReport [] 4 strayCache n).remaining = true := by
  have hconst : reclaimPasses [] 4 strayCache 2 = reclaimPasses [] 4 strayCache 1 := by decide
  have hremaining : ∀ k ≤ 1, (reclaimReport [] 4 strayCache k).remaining = true := by decide
  rcases Nat.le_total n 1 with hle | hle
  · exact hremaining n hle
  · have hsame : reclaimReport [] 4 strayCache n = reclaimReport [] 4 strayCache 1 := by
      rw [reclaimReport, reclaimReport, reclaimPasses_const hconst hle]
    rw [hsame]
    exact hremaining 1 le_rfl

/-- Six roots without references. -/
def flatCache : Cache Nat Nat Nat :=
  ⟨⟨[1, 2, 3, 4, 5, 6].map fun h => (h, .page (.group [h] none)), by decide⟩, none⟩

def flatRoots : List (Option Nat) := [some 1, some 2, some 3, some 4, some 5, some 6]

theorem flatCache_whole : flatCache.Whole flatRoots.reduceOption := by
  have hlive : ∀ h, Live flatCache.readPage flatRoots.reduceOption h →
      h ∈ flatRoots.reduceOption := by
    rintro h ⟨r, hr, hrh⟩
    induction hrh with
    | refl => exact hr
    | tail _ hbc ih =>
        obtain ⟨bs, hread, hc⟩ := hbc
        have hnone : ∀ h ∈ flatRoots.reduceOption, flatCache.readPage h = some [] := by decide
        rw [hnone _ ih] at hread
        cases hread
        cases hc
  have hread : ∀ h ∈ flatRoots.reduceOption, (flatCache.readPage h).isSome = true := by decide
  exact fun h hh => hread h (hlive h hh)

/-- The third pass only passes live pages by. -/
theorem flatCache_idle : ¬Finishes Cache.Works flatRoots 5 flatCache := by
  rintro ⟨n, hdone, -, hearlier⟩
  have hremaining : ∀ k ≤ 2, (reclaimReport flatRoots 5 flatCache k).remaining = true := by decide
  have hn : 2 < n := by
    by_contra hle
    rw [hremaining n (not_lt.mp hle)] at hdone
    cases hdone
  have hsame : (reclaimPasses flatRoots 5 flatCache 3).pages =
        (reclaimPasses flatRoots 5 flatCache 2).pages ∧
      (reclaimPasses flatRoots 5 flatCache 3).resumed.visited =
        (reclaimPasses flatRoots 5 flatCache 2).resumed.visited := by decide
  rcases (hearlier 2 hn).2 with ⟨h, hnew, hold⟩ | ⟨h, hthere, hgone⟩
  · rw [hsame.2] at hnew
    exact hold hnew
  · rw [hsame.1] at hgone
    exact hthere hgone

/-- A root whose page is gone. -/
def missingCache : Cache Nat Nat Nat := ⟨Table.empty, none⟩

theorem missingCache_defers (n : Nat) :
    (reclaimReport [some 1] 512 missingCache n).remaining = true := by
  have hconst : reclaimPasses [some 1] 512 missingCache 2 =
      reclaimPasses [some 1] 512 missingCache 1 := by decide
  have hremaining : ∀ k ≤ 1, (reclaimReport [some 1] 512 missingCache k).remaining = true := by
    decide
  rcases Nat.le_total n 1 with hle | hle
  · exact hremaining n hle
  · have hsame : reclaimReport [some 1] 512 missingCache n =
        reclaimReport [some 1] 512 missingCache 1 := by
      rw [reclaimReport, reclaimReport, reclaimPasses_const hconst hle]
    rw [hsame]
    exact hremaining 1 le_rfl

/-- Pages that each name the next. -/
def chainCache (count : Nat) : Cache Nat Nat Nat where
  pages := ⟨(List.range count).map fun i =>
      (i, .page (.group [] (if i + 1 < count then some (i + 1) else none))), by
    rw [List.map_map]
    exact (List.map_id _).symm ▸ List.pairwise_lt_range⟩
  progress := none

theorem chainCache_readPage {count i : Nat} (h : i < count) :
    (chainCache count).readPage i = some (if i + 1 < count then [i + 1] else []) := by
  have hmem : (i, .page (.group [] (if i + 1 < count then some (i + 1) else none))) ∈
      (chainCache count).pages.entries := List.mem_map_of_mem (List.mem_range.mpr h)
  rw [Cache.readPage, Table.mem_entries.mp hmem]
  show some (IndexPage.references _) = _
  simp only [IndexPage.references]
  split <;> rfl

theorem chainCache_live {count i : Nat} (h : i < count) :
    Live (chainCache count).readPage [0] i := by
  induction i with
  | zero => exact .root (List.mem_singleton_self 0)
  | succ i ih =>
      have hi : i < count := Nat.lt_of_succ_lt h
      refine (ih hi).next (chainCache_readPage hi) ?_
      rw [if_pos h]
      exact List.mem_singleton_self _

theorem chainCache_whole {count : Nat} (hpos : 0 < count) : (chainCache count).Whole [0] := by
  have hlt : ∀ h, Live (chainCache count).readPage [0] h → h < count := by
    rintro h ⟨r, hr, hrh⟩
    induction hrh with
    | refl => exact List.mem_singleton.mp hr ▸ hpos
    | tail _ hbc ih =>
        obtain ⟨bs, hread, hc⟩ := hbc
        rw [chainCache_readPage ih] at hread
        cases hread
        split at hc
        next hnext => exact List.mem_singleton.mp hc ▸ hnext
        next => cases hc
  intro h hh
  rw [chainCache_readPage (hlt h hh)]
  rfl

/-- A million and a hundred thousand live pages outgrow the checkpoint. -/
theorem chainCache_restarts (n : Nat) :
    (reclaimReport [some 0] 512 (chainCache 1100000) n).remaining = true := by
  refine remaining_of_many (by decide) (chainCache_whole (by decide)) rfl List.nodup_range
    (fun h hh => chainCache_live (List.mem_range.mp hh)) ?_ n
  rw [List.length_range]
  decide

/-- Passes that never finish, with a budget of four, with a page that is gone and
with more live pages than a checkpoint holds, and a pass that neither marks a page
nor takes one away. -/
theorem reclaimIndexPages_falls_short :
    (strayCache.Whole [] ∧ ∀ n, (reclaimReport [] 4 strayCache n).remaining = true) ∧
      (flatCache.Whole flatRoots.reduceOption ∧ ¬Finishes Cache.Works flatRoots 5 flatCache) ∧
      (∀ n, (reclaimReport [some 1] 512 missingCache n).remaining = true) ∧
      ((chainCache 1100000).Whole [0] ∧
        ∀ n, (reclaimReport [some 0] 512 (chainCache 1100000) n).remaining = true) :=
  ⟨⟨strayCache_whole, strayCache_stalls⟩, ⟨flatCache_whole, flatCache_idle⟩,
    missingCache_defers, chainCache_whole (by decide), chainCache_restarts⟩

end Acc.Storage
