import AgentsCanCommunicate.Storage.Holder

/-!
# The event feed

A reader follows the cursors its pages return, while writers commit, die, are
recovered and trim the log.

`PageInv` is what a listing knows halfway.  Every event it is past was put into
the page, or is foreign, or is at or below the floor.  An event file that was
listed and is gone when it is read was trimmed, and the floor is raised before
a file is moved, so the floor the reader reads last covers it.

`ReaderInv` is the same over all pages returned so far.  History only grows and
new events get sequences above every one issued (`Extends`), so what a writer
does between two reads never falls behind the reader.
-/

namespace Acc.Storage

open Library (Table Run)

variable {ρ ε : Type}

/-! ## History only grows -/

/-- The history of `t` continues that of `s`. -/
structure Extends (s t : Sys ρ ε) : Prop where
  issued : issuedOf s.opened <+: issuedOf t.opened
  published : ∀ n, PublishedIn s.published n → PublishedIn t.published n
  floor : ∀ n, AtOrBelow s.disk.floor n → AtOrBelow t.disk.floor n

theorem Extends.mem {s t : Sys ρ ε} (h : Extends s t) {w : Nat × ε}
    (hw : w ∈ issuedOf s.opened) : w ∈ issuedOf t.opened := h.issued.subset hw

/-- An event issued later has a sequence above every earlier one. -/
theorem Extends.new {s t : Sys ρ ε} (h : Extends s t)
    (ht : ((issuedOf t.opened).map Prod.fst).Pairwise (· < ·)) {w : Nat × ε}
    (hw : w ∈ issuedOf t.opened) (hnot : w ∉ issuedOf s.opened) :
    ∀ w' ∈ issuedOf s.opened, w'.1 < w.1 := by
  obtain ⟨rest, hrest⟩ := h.issued
  rw [← hrest, List.map_append, List.pairwise_append] at ht
  rw [← hrest, List.mem_append] at hw
  exact fun w' hw' => ht.2.2 _ (List.mem_map_of_mem (f := Prod.fst) hw') _
    (List.mem_map_of_mem (f := Prod.fst) (hw.resolve_left hnot))

theorem PublishedIn.append {published : List (Nat × Publication ρ ε)} {n : Nat}
    (h : PublishedIn published n) (more : List (Nat × Publication ρ ε)) :
    PublishedIn (published ++ more) n := by
  obtain ⟨i, e, hm⟩ := h
  exact ⟨i, e, List.mem_append_left _ hm⟩

theorem remember_issued (s : Sys ρ ε) (a : Action ρ ε) :
    issuedOf s.opened <+: issuedOf (s.remember a).opened := by
  cases a with
  | activate tid first =>
      rw [Sys.remember]
      cases s.disk.journal.get? tid with
      | none => exact List.prefix_refl _
      | some entry => exact issuedOf_append s.opened entry ▸ List.prefix_append _ _
  | _ => exact List.prefix_refl _

theorem remember_published (s : Sys ρ ε) (a : Action ρ ε) {n : Nat}
    (h : PublishedIn s.published n) : PublishedIn (s.remember a).published n := by
  cases a with
  | activate tid first =>
      rw [Sys.remember]
      cases s.disk.journal.get? tid <;> exact h
  | publish p => exact h.append _
  | _ => exact h

variable (sha256 : ActiveRecord → Digest)

/-! ## A listing that is halfway -/

/-- What a listing knows, `names` being the files not read yet. -/
structure PageInv (s : Sys ρ ε) (mine : ε → Bool) (after : Nat) (names : List Nat)
    (events : List (Nat × ε)) : Prop where
  sorted : names.Pairwise (· < ·)
  /-- A file that was listed is of a published event. -/
  listed : ∀ n ∈ names, PublishedIn s.published n
  increasing : (after :: events.map Prod.fst).Pairwise (· < ·)
  below : ∀ w ∈ events, ∀ n ∈ names, w.1 < n
  sound : ∀ w ∈ events, w ∈ issuedOf s.opened ∧ mine w.2 = true
  /-- An event up to here, or up to a file still to read, is accounted for. -/
  complete : ∀ w ∈ issuedOf s.opened, mine w.2 = true → after < w.1 →
    (w.1 ≤ pageCursor after events ∨ ∃ n ∈ names, w.1 ≤ n) →
    w ∈ events ∨ w.1 ∈ names ∨ AtOrBelow s.disk.floor w.1

theorem pageCursor_append {after n : Nat} {events : List (Nat × ε)} {e : ε} :
    pageCursor after (events ++ [(n, e)]) = n := by simp [pageCursor]

theorem mem_of_pageCursor (after : Nat) (events : List (Nat × ε)) :
    pageCursor after events = after ∨ ∃ w ∈ events, pageCursor after events = w.1 := by
  rw [pageCursor]
  cases h : events.getLast? with
  | none => exact Or.inl rfl
  | some w => exact Or.inr ⟨w, List.mem_of_getLast? h, rfl⟩

namespace PageInv

variable {s t : Sys ρ ε} {mine : ε → Bool} {after : Nat} {names : List Nat}
  {events : List (Nat × ε)}

/-- Writers do not disturb a listing. -/
theorem extend (h : PageInv s mine after names events) (hext : Extends s t)
    (hs : s.Inv sha256) (ht : t.Inv sha256) : PageInv t mine after names events := by
  have hpublished : ∀ n, PublishedIn s.published n → ∃ e, (n, e) ∈ issuedOf s.opened := by
    rintro n ⟨i, e, hm⟩
    obtain ⟨entry, hi, hp⟩ := hs.ledger.listed i _ hm
    exact ⟨e, mem_issuedOf.mpr ⟨i, entry, hi, mem_eventWrites.mpr hp⟩⟩
  refine { h with listed := fun n hn => hext.published n (h.listed n hn), sound := fun w hw =>
    ⟨hext.mem (h.sound w hw).1, (h.sound w hw).2⟩, complete := fun w hw hmine hafter hreach => ?_ }
  by_cases hold : w ∈ issuedOf s.opened
  · exact (h.complete w hold hmine hafter hreach).imp_right fun h => h.imp_right (hext.floor _)
  · -- A new event is above the whole listing.
    have hnew := hext.new ht.ledger.increasing hw hold
    rcases hreach with hle | ⟨n, hn, hle⟩
    · rcases mem_of_pageCursor after events with heq | ⟨w', hw', heq⟩
      · omega
      · have := hnew w' (h.sound w' hw').1
        omega
    · obtain ⟨e, he⟩ := hpublished n (h.listed n hn)
      have := hnew _ he
      simp only at this
      omega

/-- A fresh listing of the event directory. -/
theorem start (hs : s.Inv sha256) :
    PageInv s mine after s.disk.contents.events.keys [] where
  sorted := Table.keys_pairwise _
  listed n hn := by
    obtain ⟨e, he⟩ := Table.mem_keys.mp hn
    exact (hs.ledger.kept n e he).2
  increasing := List.pairwise_singleton _ _
  below _ h := by cases h
  sound _ h := by cases h
  complete w hw _ hafter hreach := by
    rcases hreach with hle | ⟨n, hn, hle⟩
    · exact absurd hafter (not_lt.mpr hle)
    · obtain ⟨e, he⟩ := Table.mem_keys.mp hn
      obtain ⟨hissued, hpub⟩ := hs.ledger.kept n e he
      rcases hs.ledger.covered w.1 (hs.ledger.downward w hw _ hissued hle hpub) with
        ⟨e', he'⟩ | hfloor
      · exact Or.inr (Or.inl (Table.mem_keys.mpr ⟨e', he'⟩))
      · exact Or.inr (Or.inr hfloor)

/-- Stopping early leaves the part that was read. -/
theorem stop (h : PageInv s mine after names events) : PageInv s mine after [] events where
  sorted := List.Pairwise.nil
  listed _ h := by cases h
  increasing := h.increasing
  below _ _ _ h := by cases h
  sound := h.sound
  complete w hw hmine hafter hreach := by
    have hle : w.1 ≤ pageCursor after events := by simpa using hreach
    rcases h.complete w hw hmine hafter (Or.inl hle) with hm | hn | hf
    · exact Or.inl hm
    · rcases mem_of_pageCursor after events with heq | ⟨w', hw', heq⟩
      · omega
      · have := h.below w' hw' _ hn
        omega
    · exact Or.inr (Or.inr hf)

/-- Passing a file by that holds no event for this reader. -/
theorem skip {n : Nat} (h : PageInv s mine after (n :: names) events)
    (hnone : ∀ w ∈ issuedOf s.opened, mine w.2 = true → after < w.1 → w.1 = n →
      AtOrBelow s.disk.floor w.1) : PageInv s mine after names events where
  sorted := (List.pairwise_cons.mp h.sorted).2
  listed m hm := h.listed m (List.mem_cons_of_mem n hm)
  increasing := h.increasing
  below w hw m hm := h.below w hw m (List.mem_cons_of_mem n hm)
  sound := h.sound
  complete w hw hmine hafter hreach := by
    have hreach' : w.1 ≤ pageCursor after events ∨ ∃ m ∈ n :: names, w.1 ≤ m := by
      rcases hreach with hle | ⟨m, hm, hle⟩
      · exact Or.inl hle
      · exact Or.inr ⟨m, List.mem_cons_of_mem n hm, hle⟩
    rcases h.complete w hw hmine hafter hreach' with hm | hn | hf
    · exact Or.inl hm
    · rcases List.mem_cons.mp hn with heq | hn
      · exact Or.inr (Or.inr (hnone w hw hmine hafter heq))
      · exact Or.inr (Or.inl hn)
    · exact Or.inr (Or.inr hf)

/-- Taking the event of the next file into the page. -/
theorem take {n : Nat} {e : ε} (h : PageInv s mine after (n :: names) events)
    (hs : s.Inv sha256) (hissued : (n, e) ∈ issuedOf s.opened) (hmine : mine e = true)
    (hafter : after < n) : PageInv s mine after names (events ++ [(n, e)]) where
  sorted := (List.pairwise_cons.mp h.sorted).2
  listed m hm := h.listed m (List.mem_cons_of_mem n hm)
  increasing := by
    rw [List.map_append, ← List.cons_append, List.pairwise_append]
    refine ⟨h.increasing, List.pairwise_singleton _ _, fun m hm m' hm' => ?_⟩
    cases List.mem_singleton.mp hm'
    rcases List.mem_cons.mp hm with rfl | hm
    · exact hafter
    · obtain ⟨w, hw, rfl⟩ := List.mem_map.mp hm
      exact h.below w hw n List.mem_cons_self
  below w hw m hm := by
    rcases List.mem_append.mp hw with hw | hw
    · exact h.below w hw m (List.mem_cons_of_mem n hm)
    · cases List.mem_singleton.mp hw
      exact (List.pairwise_cons.mp h.sorted).1 m hm
  sound w hw := by
    rcases List.mem_append.mp hw with hw | hw
    · exact h.sound w hw
    · cases List.mem_singleton.mp hw
      exact ⟨hissued, hmine⟩
  complete w hw hmine' hafter' hreach := by
    have hreach' : ∃ m ∈ n :: names, w.1 ≤ m := by
      rcases hreach with hle | ⟨m, hm, hle⟩
      · exact ⟨n, List.mem_cons_self, hle.trans (Nat.le_of_eq pageCursor_append)⟩
      · exact ⟨m, List.mem_cons_of_mem n hm, hle⟩
    rcases h.complete w hw hmine' hafter' (Or.inr hreach') with hm | hn | hf
    · exact Or.inl (List.mem_append_left _ hm)
    · rcases List.mem_cons.mp hn with heq | hn
      · have hsame : w = (n, e) := by
          refine Prod.ext heq (hs.ledger.issued_unique (n := n) ?_ hissued)
          rw [← heq]
          exact hw
        exact Or.inl (List.mem_append_right _ (List.mem_singleton.mpr hsame))
      · exact Or.inr (Or.inl hn)
    · exact Or.inr (Or.inr hf)

/-- One turn of the loop. -/
theorem turn {n : Nat} (h : PageInv s mine after (n :: names) events) (hs : s.Inv sha256)
    (limit ceiling : Option Nat) {next : List Nat × List (Nat × ε)}
    (hnext : next = readNext mine after limit ceiling (s.disk.contents.events.get? n) n
      names events) : PageInv s mine after next.1 next.2 := by
  unfold readNext at hnext
  split at hnext
  next hle =>
    subst hnext
    exact h.skip fun w _ _ hafter heq => by omega
  next hgt =>
    split at hnext
    · subst hnext
      exact h.stop
    · split at hnext
      next hget =>
        -- A file that was listed and is gone was trimmed.
        subst hnext
        refine h.skip fun w _ _ _ heq => ?_
        have hpub := h.listed n List.mem_cons_self
        rw [heq]
        rcases hs.ledger.covered n hpub with ⟨e, he⟩ | hfloor
        · cases hget.symm.trans he
        · exact hfloor
      next e hget =>
        have hissued := (hs.ledger.kept n e hget).1
        split at hnext
        next hmine =>
          have htaken := h.take sha256 hs hissued hmine (not_le.mp hgt)
          subst hnext
          simp only
          split
          · exact htaken.stop
          · exact htaken
        next hforeign =>
          subst hnext
          refine h.skip fun w hw hmine _ heq => ?_
          have hsame : w.2 = e := by
            refine hs.ledger.issued_unique (n := n) ?_ hissued
            rw [← heq]
            exact hw
          exact absurd (hsame ▸ hmine) hforeign

end PageInv

/-! ## A reader that follows its cursors -/

/-- Every event the pages returned, in order. -/
def Reader.seen (r : Reader ε) : List (Nat × ε) := r.pages.flatMap Page.events

/-- What a reader that started at a cursor has seen. -/
structure ReaderInv (s : Sys ρ ε) (mine : ε → Bool) (start : Nat) : Prop where
  increasing : (start :: s.reader.seen.map Prod.fst).Pairwise (· < ·)
  /-- The cursor is the last event seen, or where the reader started. -/
  reached : s.reader.cursor = start ∨ ∃ w ∈ s.reader.seen, s.reader.cursor = w.1
  below : start ≤ s.reader.cursor ∧ ∀ w ∈ s.reader.seen, w.1 ≤ s.reader.cursor
  sound : ∀ w ∈ s.reader.seen, w ∈ issuedOf s.opened ∧ mine w.2 = true
  complete : ∀ w ∈ issuedOf s.opened, mine w.2 = true → start < w.1 → w.1 ≤ s.reader.cursor →
    w ∈ s.reader.seen ∨ ∃ page ∈ s.reader.pages, AtOrBelow page.trimmedThrough w.1
  page : ∀ limit ceiling names events, s.reader.phase = .listing limit ceiling names events →
    PageInv s mine s.reader.cursor names events

theorem extends_reader (s : Sys ρ ε) (reader : Reader ε) :
    Extends s { s with reader := reader } :=
  ⟨List.prefix_refl _, fun _ h => h, fun _ h => h⟩

namespace ReaderInv

variable {s t : Sys ρ ε} {mine : ε → Bool} {start : Nat}

theorem initial (start : Nat) :
    ReaderInv (Sys.initial sha256 start : Sys ρ ε) mine start where
  increasing := List.pairwise_singleton _ _
  reached := Or.inl rfl
  below := ⟨Nat.le_refl _, by simp [Sys.initial, Reader.seen]⟩
  sound _ h := by cases h
  complete _ h := by cases h
  page _ _ _ _ h := by cases h

/-- Writers do not disturb a reader. -/
theorem extend (h : ReaderInv s mine start) (hext : Extends s t) (hreader : t.reader = s.reader)
    (hs : s.Inv sha256) (ht : t.Inv sha256) : ReaderInv t mine start := by
  refine ⟨hreader ▸ h.increasing, hreader ▸ h.reached, hreader ▸ h.below, ?_, ?_, ?_⟩
  · rw [hreader]
    exact fun w hw => ⟨hext.mem (h.sound w hw).1, (h.sound w hw).2⟩
  · rw [hreader]
    intro w hw hmine hstart hle
    by_cases hold : w ∈ issuedOf s.opened
    · exact h.complete w hold hmine hstart hle
    · have hnew := hext.new ht.ledger.increasing hw hold
      rcases h.reached with heq | ⟨w', hw', heq⟩
      · omega
      · have := hnew w' (h.sound w' hw').1
        omega
  · rw [hreader]
    exact fun limit ceiling names events hphase =>
      (h.page limit ceiling names events hphase).extend sha256 hext hs ht

/-- The reader moves within a page. -/
theorem within (h : ReaderInv s mine start) {phase : Phase ε}
    (hpage : ∀ limit ceiling names events, phase = .listing limit ceiling names events →
      PageInv s mine s.reader.cursor names events) (hs : s.Inv sha256) :
    ReaderInv { s with reader.phase := phase } mine start where
  increasing := h.increasing
  reached := h.reached
  below := h.below
  sound := h.sound
  complete := h.complete
  page limit ceiling names events hphase :=
    (hpage limit ceiling names events hphase).extend sha256 (extends_reader s _) hs
      ⟨hs.ledger, hs.readable, hs.entry, hs.holding⟩

/-- The reader returns a page. -/
theorem finish (h : ReaderInv s mine start) {events : List (Nat × ε)}
    (hpage : PageInv s mine s.reader.cursor [] events) :
    ReaderInv { s with
      reader := ⟨pageCursor s.reader.cursor events, .ready, s.reader.pages ++
        [⟨pageCursor s.reader.cursor events, events, s.disk.floor⟩]⟩ } mine start := by
  have hseen : (⟨pageCursor s.reader.cursor events, .ready, s.reader.pages ++
      [⟨pageCursor s.reader.cursor events, events, s.disk.floor⟩]⟩ : Reader ε).seen =
      s.reader.seen ++ events := by simp [Reader.seen]
  have hafter : ∀ w ∈ events, s.reader.cursor < w.1 := fun w hw =>
    (List.pairwise_cons.mp hpage.increasing).1 _ (List.mem_map_of_mem (f := Prod.fst) hw)
  have hlast : ∀ w ∈ events, w.1 ≤ pageCursor s.reader.cursor events := by
    intro w hw
    rw [pageCursor]
    cases hl : events.getLast? with
    | none => rw [List.getLast?_eq_none_iff.mp hl] at hw; cases hw
    | some l =>
        obtain ⟨pre, hpre⟩ := List.getLast?_eq_some_iff.mp hl
        have hinc := (List.pairwise_cons.mp hpage.increasing).2
        rw [hpre, List.map_append, List.pairwise_append] at hinc
        rw [hpre, List.mem_append] at hw
        rcases hw with hw | hw
        · exact Nat.le_of_lt (hinc.2.2 _ (List.mem_map_of_mem (f := Prod.fst) hw) l.1 (by simp))
        · cases List.mem_singleton.mp hw
          exact Nat.le_refl _
  have hcursor : s.reader.cursor ≤ pageCursor s.reader.cursor events := by
    rcases mem_of_pageCursor s.reader.cursor events with heq | ⟨w, hw, heq⟩
    · exact Nat.le_of_eq heq.symm
    · exact heq ▸ Nat.le_of_lt (hafter w hw)
  constructor
  case increasing =>
    rw [hseen, List.map_append, ← List.cons_append, List.pairwise_append]
    refine ⟨h.increasing, (List.pairwise_cons.mp hpage.increasing).2, fun m hm m' hm' => ?_⟩
    obtain ⟨w', hw', rfl⟩ := List.mem_map.mp hm'
    refine lt_of_le_of_lt ?_ (hafter w' hw')
    rcases List.mem_cons.mp hm with rfl | hm
    · exact h.below.1
    · obtain ⟨w, hw, rfl⟩ := List.mem_map.mp hm
      exact h.below.2 w hw
  case reached =>
    rw [hseen]
    show pageCursor s.reader.cursor events = start ∨
      ∃ w ∈ s.reader.seen ++ events, pageCursor s.reader.cursor events = w.1
    rcases mem_of_pageCursor s.reader.cursor events with heq | ⟨w, hw, heq⟩
    · rw [heq]
      rcases h.reached with hc | ⟨w, hw, hc⟩
      · exact Or.inl hc
      · exact Or.inr ⟨w, List.mem_append_left _ hw, hc⟩
    · exact Or.inr ⟨w, List.mem_append_right _ hw, heq⟩
  case below =>
    rw [hseen]
    refine ⟨h.below.1.trans hcursor, fun w hw => ?_⟩
    rcases List.mem_append.mp hw with hw | hw
    · exact (h.below.2 w hw).trans hcursor
    · exact hlast w hw
  case sound =>
    rw [hseen]
    exact fun w hw => (List.mem_append.mp hw).elim (h.sound w) (hpage.sound w)
  case complete =>
    rw [hseen]
    intro w hw hmine hstart hle
    rcases Nat.lt_or_ge s.reader.cursor w.1 with hgt | hge
    · rcases hpage.complete w hw hmine hgt (Or.inl hle) with hm | hn | hf
      · exact Or.inl (List.mem_append_right _ hm)
      · cases hn
      · exact Or.inr ⟨_, List.mem_append_right _ (List.mem_singleton.mpr rfl), hf⟩
    · rcases h.complete w hw hmine hstart hge with hm | ⟨page, hpg, hf⟩
      · exact Or.inl (List.mem_append_left _ hm)
      · exact Or.inr ⟨page, List.mem_append_left _ hpg, hf⟩
  case page =>
    intro _ _ _ _ hphase
    cases hphase

end ReaderInv

/-! ## A step extends the history -/

variable [DecidableEq ρ] [DecidableEq ε]

theorem Disk.act_floor {d d' : Disk ρ ε} {a : Action ρ ε} (h : d.act sha256 a = .ok d') {n : Nat}
    (hn : AtOrBelow d.floor n) : AtOrBelow d'.floor n := by
  cases a with
  | writeEntry entry =>
      obtain ⟨rfl, -⟩ := d.act_writeEntry sha256 h
      exact hn
  | activate tid first =>
      obtain ⟨-, -, hd⟩ := d.act_activate sha256 h
      rw [hd]
      exact hn
  | publish p =>
      obtain ⟨-, rfl⟩ := (d.act_publish sha256).mp h
      exact hn
  | idle tid =>
      obtain ⟨-, -, hd⟩ := d.act_idle sha256 h
      rw [hd]
      exact hn
  | replaceRecord key envelope =>
      cases h
      exact hn
  | raiseFloor boundary =>
      cases h
      exact hn.raise boundary
  | condemnEvent sequence =>
      cases h
      exact hn

/-- A step of the holder extends the history and leaves the reader. -/
theorem Sys.stepAct_extends {s t : Sys ρ ε} (h : s.stepAct sha256 = some t) :
    Extends s t ∧ t.reader = s.reader := by
  rw [Sys.stepAct] at h
  split at h
  next => cases h
  next a rest _ =>
    split at h
    next d hact =>
      cases h
      refine ⟨⟨remember_issued s a, fun n hn => remember_published s a hn,
        fun n hn => s.disk.act_floor sha256 hact hn⟩, ?_⟩
      cases a with
      | activate tid first =>
          simp only [Sys.remember]
          cases s.disk.journal.get? tid <;> rfl
      | _ => rfl
    next =>
      cases h
      exact ⟨⟨List.prefix_refl _, fun _ h => h, fun _ h => h⟩, rfl⟩

/-- A step keeps what the reader knows. -/
theorem ReaderInv.step {s t : Sys ρ ε} {mine : ε → Bool} {start : Nat} {l : Label ρ ε}
    (h : ReaderInv s mine start) (hs : s.Inv sha256)
    (hstep : Sys.Step sha256 mine s l t) : ReaderInv t mine start := by
  have ht := hs.step sha256 hstep
  cases l with
  | begin op =>
      simp only [Sys.Step, Sys.step] at hstep
      split at hstep
      · cases hstep
        exact h.extend sha256 ⟨List.prefix_refl _, fun _ h => h, fun _ h => h⟩ rfl hs ht
      · cases hstep
  | act =>
      obtain ⟨hext, hreader⟩ := Sys.stepAct_extends sha256 hstep
      exact h.extend sha256 hext hreader hs ht
  | crash =>
      cases hstep
      exact h.extend sha256 ⟨List.prefix_refl _, fun _ h => h, fun _ h => h⟩ rfl hs ht
  | readCeiling limit =>
      simp only [Sys.Step, Sys.step] at hstep
      split at hstep
      · cases hstep
        exact h.within sha256 (by simp) hs
      · cases hstep
  | list =>
      simp only [Sys.Step, Sys.step] at hstep
      split at hstep
      · cases hstep
        refine h.within sha256 (fun limit ceiling names events hphase => ?_) hs
        cases hphase
        exact PageInv.start sha256 hs
      · cases hstep
  | readEvent =>
      obtain ⟨limit, ceiling, n, names, events, next, hphase, hnext, rfl⟩ :=
        Sys.stepRead_eq_some hstep
      refine h.within sha256 (fun limit' ceiling' names' events' hphase' => ?_) hs
      cases hphase'
      exact (h.page _ _ _ _ hphase).turn sha256 hs limit ceiling hnext
  | finish =>
      simp only [Sys.Step, Sys.step] at hstep
      split at hstep
      next limit ceiling events hphase =>
        cases hstep
        exact h.finish (h.page _ _ _ _ hphase)
      next => cases hstep

/-! ## Catching up -/

/-- A listing below no ceiling is read to its end, or until the page is full. -/
theorem drain (mine : ε → Bool) {limit : Option Nat} :
    ∀ (names : List Nat) (events : List (Nat × ε)) (s : Sys ρ ε),
      s.reader.phase = .listing limit none names events →
      ∃ events' labels, Run (Sys.Step sha256 mine) s labels
          { s with reader.phase := .listing limit none [] events' } ∧
        events ⊆ events' ∧
        ∀ n ∈ names, s.reader.cursor < n → ∀ e, s.disk.contents.events.get? n = some e →
          mine e = true → (n, e) ∈ events' ∨ limit = some events'.length
  | [], events, s, hphase => by
      refine ⟨events, [], ?_, List.Subset.refl _, by simp⟩
      have : { s with reader.phase := .listing limit none [] events } = s := by
        obtain ⟨disk, holder, opened, published, cursor, phase, pages⟩ := s
        cases hphase
        rfl
      rw [this]
      exact .nil s
  | n :: names, events, s, hphase => by
      have hstep : ∀ next, next = readNext mine s.reader.cursor limit none
          (s.disk.contents.events.get? n) n names events →
          Sys.Step sha256 mine s .readEvent
            { s with reader.phase := .listing limit none next.1 next.2 } := by
        rintro next rfl
        simp only [Sys.Step, Sys.step, Sys.stepRead, hphase]
      -- Whether the file is passed by or taken, the rest of the names is left.
      have honward : ∀ events₁, events ⊆ events₁ →
          readNext mine s.reader.cursor limit none (s.disk.contents.events.get? n) n names events =
            (names, events₁) →
          (∀ e, s.disk.contents.events.get? n = some e → s.reader.cursor < n → mine e = true →
            (n, e) ∈ events₁) →
          ∃ events' labels, Run (Sys.Step sha256 mine) s labels
              { s with reader.phase := .listing limit none [] events' } ∧
            events ⊆ events' ∧
            ∀ m ∈ n :: names, s.reader.cursor < m → ∀ e, s.disk.contents.events.get? m = some e →
              mine e = true → (m, e) ∈ events' ∨ limit = some events'.length := by
        intro events₁ hsub hread hself
        obtain ⟨events', labels, hrun, hsub', hall⟩ := drain mine names events₁
          { s with reader.phase := .listing limit none names events₁ } rfl
        refine ⟨events', [.readEvent] ++ labels, (Run.single (hstep _ hread.symm)).append hrun,
          List.Subset.trans hsub hsub', fun m hm hlt e he hmine => ?_⟩
        rcases List.mem_cons.mp hm with rfl | hm
        · exact Or.inl (hsub' (hself e he hlt hmine))
        · exact hall m hm hlt e he hmine
      by_cases hle : n ≤ s.reader.cursor
      · exact honward events (List.Subset.refl _) (by unfold readNext; rw [if_pos hle])
          fun _ _ hlt => absurd hlt (not_lt.mpr hle)
      · cases hget : s.disk.contents.events.get? n with
        | none =>
            exact honward events (List.Subset.refl _)
              (by unfold readNext; rw [if_neg hle, hget]; rfl)
              (by simp [hget])
        | some e =>
            by_cases hmine : mine e = true
            · by_cases hlimit : limit = some (events.length + 1)
              · refine ⟨events ++ [(n, e)], [.readEvent], .single (hstep ([], events ++ [(n, e)]) ?_),
                  List.subset_append_left _ _, fun _ _ _ _ _ _ => Or.inr (by simpa using hlimit)⟩
                unfold readNext
                rw [if_neg hle, hget]
                simp [reachesCeiling, hmine, hlimit]
              · refine honward (events ++ [(n, e)]) (List.subset_append_left _ _) ?_ ?_
                · unfold readNext
                  rw [if_neg hle, hget]
                  simp [reachesCeiling, hmine, hlimit]
                · intro e' he' _ _
                  cases hget.symm.trans he'
                  simp
            · refine honward events (List.Subset.refl _) ?_ ?_
              · unfold readNext
                rw [if_neg hle, hget]
                simp [reachesCeiling, hmine]
              · intro e' he' _ hm
                cases hget.symm.trans he'
                exact absurd hm hmine

/-- On an idle pointer a reader that is left alone catches up: an event after
its cursor is in the page, or at or below the floor the page reports, or the
page is full. -/
theorem catch_up {mine : ε → Bool} {s : Sys ρ ε} (hs : s.Inv sha256)
    (hready : s.reader.phase = .ready) (hidle : s.disk.journalState sha256 = some .idle)
    (limit : Option Nat) :
    ∃ t labels page, Run (Sys.Step sha256 mine) s labels t ∧ t.opened = s.opened ∧
      t.reader.pages = s.reader.pages ++ [page] ∧ t.reader.cursor = page.cursor ∧
      ∀ w ∈ issuedOf s.opened, mine w.2 = true → s.reader.cursor < w.1 →
        w ∈ page.events ∨ AtOrBelow page.trimmedThrough w.1 ∨ limit = some page.events.length := by
  obtain ⟨record, hread, hstate⟩ := (Disk.journalState_eq_some sha256).mp hidle
  have hceiling : readJournalCeiling sha256 s.disk = .ok none := by
    rw [readJournalCeiling, hread]
    simp only [bind, Except.bind, hstate]
    rfl
  have h₁ : Sys.Step sha256 mine s (.readCeiling limit)
      { s with reader.phase := .bounded limit none } := by
    simp only [Sys.Step, Sys.step, hready, hceiling]
  have h₂ : Sys.Step sha256 mine { s with reader.phase := .bounded limit none } .list
      { s with reader.phase := .listing limit none s.disk.contents.events.keys [] } := rfl
  obtain ⟨events, labels, hrun, -, hall⟩ := drain sha256 mine s.disk.contents.events.keys []
    { s with reader.phase := .listing limit none s.disk.contents.events.keys [] } rfl
  have h₃ : Sys.Step sha256 mine
      { s with reader.phase := .listing limit none [] events } .finish
      { s with reader := ⟨pageCursor s.reader.cursor events, .ready, s.reader.pages ++
        [⟨pageCursor s.reader.cursor events, events, s.disk.floor⟩]⟩ } := rfl
  refine ⟨_, _, _, (((Run.single h₁).append (Run.single h₂)).append hrun).append (Run.single h₃),
    rfl, rfl, rfl, fun w hw hmine hlt => ?_⟩
  have hledger := Disk.busy_of_idle sha256 hidle ▸ hs.ledger
  obtain ⟨i, entry, hi, hm⟩ := mem_issuedOf.mp hw
  rcases hledger.covered w.1
    ⟨i, w.2, hledger.finished i entry hi (by simp) _ (mem_eventWrites.mp hm)⟩ with ⟨e, he⟩ | hf
  · cases hledger.issued_unique (hledger.kept w.1 e he).1 hw
    exact (hall w.1 (Table.mem_keys.mpr ⟨_, he⟩) hlt _ he hmine).imp_right Or.inr
  · exact Or.inr (Or.inl hf)

/-! ## The theorem -/

omit [DecidableEq ρ] [DecidableEq ε] in
/-- A transaction that would pass the last sequence is refused. -/
theorem commit_exhausted {s : Sys ρ ε} {p : Prepared ρ ε} (hp : p.events ≠ [])
    (hfull : ∀ first, nextSequence s.disk = .ok first →
      maxSafeInteger < first + p.events.length - 1) {actions : List (Action ρ ε)} :
    (Operation.commit p).actions sha256 s.disk ≠ .ok actions := by
  intro hop
  simp only [Operation.actions, commitActions, bind_eq_ok] at hop
  obtain ⟨_, -, before, -, hop⟩ := hop
  have hempty : p.events.isEmpty = false := by simpa using hp
  have hsole : soleReplacement p = none := by
    rw [soleReplacement]
    split
    next hnil _ => exact absurd hnil hp
    next => rfl
  rw [hempty, Bool.false_and, if_neg Bool.false_ne_true, hsole] at hop
  simp only [journalActions, bind_eq_ok, refuse_eq_ok, not_lt] at hop
  obtain ⟨first, hnext, -, hmax, -⟩ := hop
  exact absurd (hfull first hnext) (not_lt.mpr hmax)

/-- What the feed promises in a state, to a reader that started at a cursor. -/
structure FeedFaithful (mine : ε → Bool) (start : Nat) (s : Sys ρ ε) : Prop where
  /-- Sequences are given in increasing order, so none is given twice. -/
  increasing : ((issuedOf s.opened).map Prod.fst).Pairwise (· < ·)
  bounded : ∀ w ∈ issuedOf s.opened, 1 ≤ w.1 ∧ w.1 ≤ maxSafeInteger
  /-- Every event ever published, and every event file, has the sequence it was given. -/
  published : ∀ i n e, (i, .event n e) ∈ s.published → (n, e) ∈ issuedOf s.opened
  kept : ∀ n e, s.disk.contents.events.get? n = some e → (n, e) ∈ issuedOf s.opened
  /-- A transaction that would pass the last sequence does not begin. -/
  refused : ∀ p t, p.events ≠ [] → (∀ first, nextSequence s.disk = .ok first →
    maxSafeInteger < first + p.events.length - 1) → ¬Sys.Step sha256 mine s (.begin (.commit p)) t
  /-- The reader has seen events after its start, each once, in order. -/
  ordered : (start :: s.reader.seen.map Prod.fst).Pairwise (· < ·)
  sound : ∀ w ∈ s.reader.seen, w ∈ issuedOf s.opened ∧ mine w.2 = true
  /-- Every event up to its cursor was seen, or is covered by a floor it was told. -/
  complete : ∀ w ∈ issuedOf s.opened, mine w.2 = true → start < w.1 → w.1 ≤ s.reader.cursor →
    w ∈ s.reader.seen ∨ ∃ page ∈ s.reader.pages, AtOrBelow page.trimmedThrough w.1
  /-- On an idle pointer its next page reaches the end of the log, or is full. -/
  catchesUp : s.reader.phase = .ready → s.disk.journalState sha256 = some .idle → ∀ limit,
    ∃ t labels page, Run (Sys.Step sha256 mine) s labels t ∧ t.opened = s.opened ∧
      t.reader.pages = s.reader.pages ++ [page] ∧ t.reader.cursor = page.cursor ∧
      ∀ w ∈ issuedOf s.opened, mine w.2 = true → s.reader.cursor < w.1 →
        w ∈ page.events ∨ AtOrBelow page.trimmedThrough w.1 ∨ limit = some page.events.length

/-- Over any run of writers, crashes, recoveries and trims the feed loses and
duplicates nothing. -/
theorem feed_loses_nothing {mine : ε → Bool} {start : Nat} {labels : List (Label ρ ε)}
    {s : Sys ρ ε} (hrun : Run (Sys.Step sha256 mine) (Sys.initial sha256 start) labels s) :
    FeedFaithful sha256 mine start s := by
  obtain ⟨hi, hr⟩ : s.Inv sha256 ∧ ReaderInv s mine start :=
    hrun.invariant (I := fun s => s.Inv sha256 ∧ ReaderInv s mine start)
      (fun _ _ _ h hs => ⟨h.1.step sha256 hs, h.2.step sha256 h.1 hs⟩)
      ⟨Sys.inv_initial sha256 start, ReaderInv.initial sha256 start⟩
  constructor
  case increasing => exact hi.ledger.increasing
  case bounded => exact hi.ledger.bounded
  case published =>
    intro i n e hm
    obtain ⟨entry, hentry, hmem⟩ := hi.ledger.listed i _ hm
    exact mem_issuedOf.mpr ⟨i, entry, hentry, mem_eventWrites.mpr hmem⟩
  case kept => exact fun n e he => (hi.ledger.kept n e he).1
  case refused =>
    intro p t hp hfull hstep
    simp only [Sys.Step, Sys.step] at hstep
    split at hstep
    next actions _ hop => exact commit_exhausted sha256 hp hfull hop
    next => cases hstep
  case ordered => exact hr.increasing
  case sound => exact hr.sound
  case complete => exact hr.complete
  case catchesUp => exact catch_up sha256 hi

/-! ### At a fresh store -/

/-- Two events are committed, the writer of a third dies halfway, the log is
trimmed, and a reader asks for a page of one event. -/
def sampleLabels : List (Label Nat Nat) :=
  [.begin (.commit samplePrepared), .act, .act, .act, .act, .act, .act,
    .readCeiling (some 1), .list, .readEvent, .finish,
    .begin (.commit { samplePrepared with transactionId := ⟨"transaction_2", by decide⟩ }),
    .act, .act, .act, .crash, .begin (.trim 1 8), .act, .act, .begin .recover, .act]

/-- The state those steps lead to. -/
def sampleSys : Sys Nat Nat :=
  ((Sys.initial sampleDigest 0).exec sampleDigest (fun _ => true) sampleLabels).get (by decide)

theorem run_sampleLabels : Run (Sys.Step sampleDigest fun _ => true) (Sys.initial sampleDigest 0)
    sampleLabels sampleSys := Sys.run_of_exec sampleDigest (Option.some_get _).symm

theorem feed_loses_nothing_sample : FeedFaithful sampleDigest (fun _ => true) 0 sampleSys :=
  feed_loses_nothing sampleDigest run_sampleLabels

end Acc.Storage
