import AgentsCanCommunicate.Storage.Feed

/-!
# What the event feed shows of an open transaction

`eventsSince` reads the ceiling first and lists the directory later.  A reader
that found a transaction open stops below its first sequence, and that is safe
whatever happens next.  A reader that found none has no ceiling, and a writer
may open a transaction and publish an event of it before the directory is
listed.  The reader then returns an event of a transaction that is not yet
published whole (`visibility_torn`).

`visible_whole` is the other side.  In a run where no reader without a ceiling
lists the directory while the open transaction is published in part, every
event a reader takes belongs to a transaction that is published whole.
-/

namespace Acc.Storage

open Library (Table Run Where)

variable {ρ ε : Type}

/-! ## The property -/

/-- The event was issued by a transaction some of which is not published yet. -/
def Sys.Unfinished (s : Sys ρ ε) (n : Nat) : Prop :=
  ∃ (i : Nat) (entry : JournalEntry ρ ε) (e : ε), s.opened[i]? = some entry ∧
    .event n e ∈ entry.publications ∧ ∃ p ∈ entry.publications, (i, p) ∉ s.published

/-- The event the reader takes into its page when it reads the next file. -/
def Sys.takes (mine : ε → Bool) (s : Sys ρ ε) : Option (Nat × ε) :=
  match s.reader.phase with
  | .listing _ ceiling (n :: _) _ =>
      if n ≤ s.reader.cursor then none
      else if reachesCeiling ceiling n then none
      else
        match s.disk.contents.events.get? n with
        | none => none
        | some e => if mine e then some (n, e) else none
  | _ => none

/-- The reader takes events of whole transactions only. -/
def Sys.Visible (mine : ε → Bool) (s : Sys ρ ε) : Prop :=
  ∀ w, s.takes mine = some w → ¬s.Unfinished w.1

variable (sha256 : ActiveRecord → Digest)

/-- The open transaction has an event file, and is not published whole. -/
def Sys.PartlyPublished (s : Sys ρ ε) : Prop :=
  s.disk.journalState sha256 ≠ some .idle ∧ ∃ entry, s.opened.getLast? = some entry ∧
    (∃ n e, .event n e ∈ entry.publications ∧ n ∈ s.disk.contents.events.keys) ∧
    ∃ p ∈ entry.publications, (s.opened.length - 1, p) ∉ s.published

/-- A reader that read no ceiling does not list a transaction published in part. -/
def ListsWhole (s : Sys ρ ε) (l : Label ρ ε) : Prop :=
  l = .list → (∃ limit, s.reader.phase = .bounded limit none) → ¬s.PartlyPublished sha256

/-! ## What stays finished -/

/-- Everything below a ceiling is of whole transactions, and stays so. -/
structure Ceiling (s : Sys ρ ε) (c : Nat) : Prop where
  whole : ∀ n < c, ¬s.Unfinished n
  reached : c = 1 ∨ ∃ w ∈ issuedOf s.opened, c ≤ w.1 + 1

/-- Between two states only publications and new transactions were added. -/
structure Grows (s t : Sys ρ ε) : Prop where
  opened : s.opened <+: t.opened
  published : ∀ x ∈ s.published, x ∈ t.published

theorem Grows.extends_issued {s t : Sys ρ ε} (h : Grows s t) :
    issuedOf s.opened <+: issuedOf t.opened := by
  obtain ⟨rest, hrest⟩ := h.opened
  rw [← hrest, issuedOf, issuedOf, List.flatMap_append]
  exact List.prefix_append _ _

/-- An event that was issued by a whole transaction stays of a whole one. -/
theorem Grows.whole {s t : Sys ρ ε} (h : Grows s t)
    (ht : ((issuedOf t.opened).map Prod.fst).Pairwise (· < ·)) {n : Nat} {e : ε}
    (hissued : (n, e) ∈ issuedOf s.opened) (hn : ¬s.Unfinished n) : ¬t.Unfinished n := by
  rintro ⟨i, entry, e', hi, hm, p, hp, hnot⟩
  obtain ⟨rest, hrest⟩ := h.opened
  rcases Nat.lt_or_ge i s.opened.length with hlt | hge
  · rw [← hrest, List.getElem?_append_left hlt] at hi
    exact hn ⟨i, entry, e', hi, hm, p, hp, fun hpub => hnot (h.published _ hpub)⟩
  · -- A transaction opened later has later sequences.
    rw [← hrest, issuedOf, List.flatMap_append, List.map_append, List.pairwise_append] at ht
    rw [← hrest, List.getElem?_append_right hge] at hi
    have hlate : (n, e') ∈ rest.flatMap fun entry => eventWrites entry.publications :=
      List.mem_flatMap.mpr ⟨entry, List.mem_of_getElem? hi, mem_eventWrites.mpr hm⟩
    exact absurd (ht.2.2 n (List.mem_map_of_mem (f := Prod.fst) hissued) n
      (List.mem_map_of_mem (f := Prod.fst) hlate)) (lt_irrefl n)

/-- A ceiling stays one. -/
theorem Ceiling.grow {s t : Sys ρ ε} {c : Nat} (h : Ceiling s c) (hg : Grows s t)
    (ht : ((issuedOf t.opened).map Prod.fst).Pairwise (· < ·))
    (hpos : ∀ w ∈ issuedOf t.opened, 1 ≤ w.1) : Ceiling t c := by
  refine ⟨fun n hn hunf => ?_, h.reached.imp_right ?_⟩
  swap
  · rintro ⟨w, hw, hle⟩
    exact ⟨w, hg.extends_issued.subset hw, hle⟩
  obtain ⟨i, entry, e, hi, hm, hrest⟩ := hunf
  have hissued : (n, e) ∈ issuedOf t.opened :=
    mem_issuedOf.mpr ⟨i, entry, hi, mem_eventWrites.mpr hm⟩
  by_cases hold : (n, e) ∈ issuedOf s.opened
  · exact hg.whole ht hold (h.whole n hn) ⟨i, entry, e, hi, hm, hrest⟩
  · -- A new event is at or above the ceiling.
    rcases h.reached with rfl | ⟨w, hw, hle⟩
    · have := hpos _ hissued
      simp only at this
      omega
    · obtain ⟨more, hmore⟩ := hg.extends_issued
      rw [← hmore, List.map_append, List.pairwise_append] at ht
      rw [← hmore, List.mem_append] at hissued
      have := ht.2.2 _ (List.mem_map_of_mem (f := Prod.fst) hw) _
        (List.mem_map_of_mem (f := Prod.fst) (hissued.resolve_left hold))
      simp only at this
      omega

/-- What the reader may still take is of whole transactions. -/
def PhaseWhole (s : Sys ρ ε) : Phase ε → Prop
  | .ready => True
  | .bounded _ none => True
  | .bounded _ (some c) => Ceiling s c
  | .listing _ ceiling names _ =>
      ∀ n ∈ names, reachesCeiling ceiling n = false →
        (∃ e, (n, e) ∈ issuedOf s.opened) ∧ ¬s.Unfinished n

theorem PhaseWhole.grow {s t : Sys ρ ε} {phase : Phase ε} (h : PhaseWhole s phase)
    (hg : Grows s t) (ht : ((issuedOf t.opened).map Prod.fst).Pairwise (· < ·))
    (hpos : ∀ w ∈ issuedOf t.opened, 1 ≤ w.1) : PhaseWhole t phase := by
  match phase with
  | .ready => trivial
  | .bounded _ none => trivial
  | .bounded _ (some c) => exact Ceiling.grow h hg ht hpos
  | .listing _ ceiling names _ =>
      intro n hn hbelow
      obtain ⟨⟨e, he⟩, hwhole⟩ := h n hn hbelow
      exact ⟨⟨e, hg.extends_issued.subset he⟩, hg.whole ht he hwhole⟩

/-- A transaction that is not the open one is published whole. -/
theorem Sys.Inv.whole_of_earlier {s : Sys ρ ε} (h : s.Inv sha256) {n : Nat} {e : ε} {i : Nat}
    {entry : JournalEntry ρ ε} (hi : s.opened[i]? = some entry)
    (hm : .event n e ∈ entry.publications)
    (hearly : s.disk.busy sha256 = true → i + 1 < s.opened.length) : ¬s.Unfinished n := by
  rintro ⟨j, entry', e', hj, hm', p, hp, hnot⟩
  have hij := h.ledger.index_le hi hj (mem_eventWrites.mpr hm) (mem_eventWrites.mpr hm')
    (Nat.le_refl n)
  have hji := h.ledger.index_le hj hi (mem_eventWrites.mpr hm') (mem_eventWrites.mpr hm)
    (Nat.le_refl n)
  cases Nat.le_antisymm hij hji
  cases hi.symm.trans hj
  exact hnot (h.ledger.finished i entry hi hearly p hp)

/-- The first sequence of an open transaction is a ceiling. -/
theorem Sys.Inv.ceiling {s : Sys ρ ε} (h : s.Inv sha256) {tid : Id} {c : Nat}
    (hopen : s.disk.journalState sha256 = some (.opened tid c)) : Ceiling s c := by
  obtain ⟨entry, hlast, -, -, -, ⟨es, hes⟩, hreached⟩ := h.entry tid c hopen
  refine ⟨fun n hn hunf => ?_, hreached⟩
  obtain ⟨i, entry', e, hi, hm, hrest⟩ := hunf
  refine h.whole_of_earlier sha256 hi hm (fun _ => ?_) ⟨i, entry', e, hi, hm, hrest⟩
  by_contra hlate
  have hlt := (List.getElem?_eq_some_iff.mp hi).1
  have hieq : i = s.opened.length - 1 := by omega
  rw [hieq, ← List.getLast?_eq_getElem?, hlast] at hi
  cases hi
  have := (mem_number (hes ▸ mem_eventWrites.mpr hm)).1
  omega

/-- Listing is safe below a ceiling, and without one where no transaction is
published in part. -/
theorem Sys.Inv.listing {s : Sys ρ ε} (h : s.Inv sha256) {limit ceiling : Option Nat}
    (hphase : PhaseWhole s (.bounded limit ceiling))
    (hwhole : ceiling = none → ¬s.PartlyPublished sha256) :
    PhaseWhole s (.listing limit ceiling s.disk.contents.events.keys []) := by
  intro n hn hbelow
  obtain ⟨e, he⟩ := Table.mem_keys.mp hn
  have hissued := (h.ledger.kept n e he).1
  refine ⟨⟨e, hissued⟩, ?_⟩
  cases ceiling with
  | some c => exact Ceiling.whole hphase n (not_le.mp (of_decide_eq_false hbelow))
  | none =>
      obtain ⟨i, entry, hi, hm⟩ := mem_issuedOf.mp hissued
      rw [mem_eventWrites] at hm
      by_cases hearly : s.disk.busy sha256 = true → i + 1 < s.opened.length
      · exact h.whole_of_earlier sha256 hi hm hearly
      · rw [Classical.not_imp] at hearly
        have hlt := (List.getElem?_eq_some_iff.mp hi).1
        have hieq : i = s.opened.length - 1 := by omega
        have hlast : s.opened.getLast? = some entry := by
          rw [List.getLast?_eq_getElem?, ← hieq]
          exact hi
        rintro ⟨j, entry', e', hj, hm', p, hp, hnot⟩
        have hij := h.ledger.index_le hi hj (mem_eventWrites.mpr hm) (mem_eventWrites.mpr hm')
          (Nat.le_refl n)
        have hjlt := (List.getElem?_eq_some_iff.mp hj).1
        have hjeq : j = i := by omega
        subst hjeq
        cases hi.symm.trans hj
        exact hwhole rfl ⟨of_decide_eq_true hearly.1, entry, hlast, ⟨n, e, hm, hn⟩, p, hp,
          hieq ▸ hnot⟩

variable [DecidableEq ρ] [DecidableEq ε]

theorem Sys.stepAct_grows {s t : Sys ρ ε} (h : s.stepAct sha256 = some t) : Grows s t := by
  rw [Sys.stepAct] at h
  split at h
  next => cases h
  next a rest _ =>
    split at h
    next d _ =>
      cases h
      cases a with
      | activate tid first =>
          simp only [Sys.remember]
          cases s.disk.journal.get? tid with
          | none => exact ⟨List.prefix_refl _, fun _ h => h⟩
          | some entry => exact ⟨List.prefix_append _ _, fun _ h => h⟩
      | publish p => exact ⟨List.prefix_refl _, fun _ h => List.mem_append_left _ h⟩
      | _ => exact ⟨List.prefix_refl _, fun _ h => h⟩
    next =>
      cases h
      exact ⟨List.prefix_refl _, fun _ h => h⟩

/-- A step that lists only whole transactions keeps what may be taken whole. -/
theorem PhaseWhole.step {mine : ε → Bool} {s t : Sys ρ ε} {l : Label ρ ε} (hs : s.Inv sha256)
    (h : PhaseWhole s s.reader.phase) (hlists : ListsWhole sha256 s l)
    (hstep : Sys.Step sha256 mine s l t) : PhaseWhole t t.reader.phase := by
  have ht := hs.step sha256 hstep
  have hpos : ∀ w ∈ issuedOf t.opened, 1 ≤ w.1 := fun w hw => (ht.ledger.bounded w hw).1
  have hgrow : ∀ {phase}, PhaseWhole s phase → Grows s t → PhaseWhole t phase :=
    fun hp hg => hp.grow hg ht.ledger.increasing hpos
  cases l with
  | begin op =>
      simp only [Sys.Step, Sys.step] at hstep
      split at hstep
      · cases hstep
        exact hgrow h ⟨List.prefix_refl _, fun _ h => h⟩
      · cases hstep
  | act =>
      rw [(Sys.stepAct_extends sha256 hstep).2]
      exact hgrow h (Sys.stepAct_grows sha256 hstep)
  | crash =>
      cases hstep
      exact hgrow h ⟨List.prefix_refl _, fun _ h => h⟩
  | readCeiling limit =>
      simp only [Sys.Step, Sys.step] at hstep
      split at hstep
      next ceiling _ hread =>
        cases hstep
        cases ceiling with
        | none => trivial
        | some c =>
            show PhaseWhole _ (.bounded limit (some c))
            refine hgrow ?_ ⟨List.prefix_refl _, fun _ h => h⟩
            simp only [readJournalCeiling, bind_eq_ok] at hread
            obtain ⟨record, hrecord, hread⟩ := hread
            split at hread
            next => cases hread
            next tid first hstate =>
              cases hread
              exact hs.ceiling sha256 ((Disk.journalState_eq_some sha256).mpr
                ⟨record, hrecord, hstate⟩)
      next => cases hstep
  | list =>
      simp only [Sys.Step, Sys.step] at hstep
      split at hstep
      next limit ceiling hphase =>
        cases hstep
        rw [hphase] at h
        refine hgrow (hs.listing sha256 h fun hnone => hlists rfl ⟨limit, ?_⟩)
          ⟨List.prefix_refl _, fun _ h => h⟩
        rw [hphase, hnone]
      next => cases hstep
  | readEvent =>
      obtain ⟨limit, ceiling, n, names, events, next, hphase, hnext, rfl⟩ :=
        Sys.stepRead_eq_some hstep
      rw [hphase] at h
      show PhaseWhole _ (.listing limit ceiling next.1 next.2)
      refine hgrow ?_ ⟨List.prefix_refl _, fun _ h => h⟩
      have hsub : next.1 ⊆ n :: names := by
        subst hnext
        unfold readNext
        split
        · exact List.subset_cons_self _ _
        · split
          · exact List.nil_subset _
          · split
            · exact List.subset_cons_self _ _
            · split
              · show (if _ then [] else names) ⊆ _
                split
                · exact List.nil_subset _
                · exact List.subset_cons_self _ _
              · exact List.subset_cons_self _ _
      exact fun m hm => h m (hsub hm)
  | finish =>
      simp only [Sys.Step, Sys.step] at hstep
      split at hstep
      · cases hstep
        trivial
      · cases hstep

/-! ## The theorem -/

/-- In a run where no reader without a ceiling lists a transaction published in
part, a reader takes events of whole transactions only. -/
theorem visible_whole {mine : ε → Bool} {start : Nat} {labels : List (Label ρ ε)} {s : Sys ρ ε}
    (hrun : Run (Where (Sys.Step sha256 mine) (ListsWhole sha256)) (Sys.initial sha256 start)
      labels s) : s.Visible mine := by
  obtain ⟨hi, hphase⟩ : s.Inv sha256 ∧ PhaseWhole s s.reader.phase :=
    hrun.invariant (I := fun s => s.Inv sha256 ∧ PhaseWhole s s.reader.phase)
      (fun _ _ _ h hs => ⟨h.1.step sha256 hs.2, h.2.step sha256 h.1 hs.1 hs.2⟩)
      ⟨Sys.inv_initial sha256 start, trivial⟩
  intro w hw
  rw [Sys.takes] at hw
  split at hw
  next limit ceiling n names events hlisting =>
    rw [hlisting] at hphase
    split at hw
    · cases hw
    · split at hw
      next => cases hw
      next hbelow =>
        have hwhole := (hphase n List.mem_cons_self (Bool.eq_false_iff.mpr hbelow)).2
        split at hw
        · cases hw
        · split at hw
          · cases hw
            exact hwhole
          · cases hw
  next => cases hw

/-! ### At a fresh store -/

/-- Steps among which nothing is listed meet the condition. -/
theorem run_without_list {mine : ε → Bool} :
    ∀ {ls : List (Label ρ ε)} {s t : Sys ρ ε}, s.exec sha256 mine ls = some t → .list ∉ ls →
      Run (Where (Sys.Step sha256 mine) (ListsWhole sha256)) s ls t
  | [], s, t, h, _ => by
      cases h
      exact .nil s
  | l :: ls, s, t, h, hno => by
      obtain ⟨u, hstep, hrest⟩ := Option.bind_eq_some_iff.mp h
      have hne : l ≠ .list := fun heq => hno (heq ▸ List.mem_cons_self)
      exact (Run.single ⟨fun heq => absurd heq hne, hstep⟩).append
        (run_without_list hrest fun hm => hno (List.mem_cons_of_mem l hm))

/-- A transaction is committed, and then a reader asks. -/
def committedLabels : List (Label Nat Nat) :=
  [.begin (.commit samplePrepared), .act, .act, .act, .act, .act, .act, .readCeiling none]

def committedSys : Sys Nat Nat :=
  ((Sys.initial sampleDigest 0).exec sampleDigest (fun _ => true) committedLabels).get (by decide)

/-- The same once the reader has listed the directory. -/
def listedSys : Sys Nat Nat :=
  (committedSys.step sampleDigest (fun _ => true) .list).get (by decide)

theorem visible_whole_committed : listedSys.Visible fun _ => true := by
  have hrun : Run (Where (Sys.Step sampleDigest fun _ => true) (ListsWhole sampleDigest))
      (Sys.initial sampleDigest 0) committedLabels committedSys :=
    run_without_list sampleDigest (Option.some_get _).symm (by decide)
  have hlist : Where (Sys.Step sampleDigest fun _ => true) (ListsWhole sampleDigest)
      committedSys .list listedSys :=
    ⟨fun _ _ hpart => hpart.1 (by decide), (Option.some_get _).symm⟩
  exact visible_whole sampleDigest (hrun.snoc hlist)

/-- The reader finds no transaction open, the writer opens one and publishes the
first of its two events, and the reader lists the directory. -/
def tornLabels : List (Label Nat Nat) :=
  [.readCeiling none, .begin (.commit samplePrepared), .act, .act, .act, .list]

def tornSys : Sys Nat Nat :=
  ((Sys.initial sampleDigest 0).exec sampleDigest (fun _ => true) tornLabels).get (by decide)

/-- The reader takes an event of a transaction that is published in part. -/
theorem visibility_torn :
    ¬∀ (labels : List (Label Nat Nat)) (s : Sys Nat Nat),
      Run (Sys.Step sampleDigest fun _ => true) (Sys.initial sampleDigest 0) labels s →
        s.Visible fun _ => true := by
  intro h
  have hvisible := h tornLabels tornSys (Sys.run_of_exec sampleDigest (Option.some_get _).symm)
  exact hvisible (1, 10) (by decide)
    ⟨0, journalEntry 1 samplePrepared, 10, by decide, by decide, .event 2 11, by decide, by decide⟩

end Acc.Storage
