import AgentsCanCommunicate.Storage.Journal

/-!
# The ledger of issued events

Every decided transaction issues the events it lists.  `Ledger` says how the
event files, the floor and the history of a store hang together.

* Sequences are issued in increasing order, and none is above the last one.
* Only issued events are published, and always those issued first.
* A published event has its file, or is at or below the floor.
* The floor is no higher than the newest event file, as long as there is a file
  and no transaction with a later event is open.

The last point is what makes the next sequence new.  It is read off the newest
file while there is one, and off the floor only when the log is empty.

Each action of a holder that touches the log keeps the ledger, under what the
holder knows at that point.
-/

namespace Acc.Storage

open Library (Table)

variable {ρ ε : Type}

/-! ## Numbered events -/

/-- A list with increasing keys gives one value to a key. -/
theorem unique_of_increasing {ws : List (Nat × ε)} (h : (ws.map Prod.fst).Pairwise (· < ·))
    {n : Nat} {e e' : ε} (he : (n, e) ∈ ws) (he' : (n, e') ∈ ws) : e = e' := by
  have hp := List.pairwise_map.mp h
  obtain ⟨i, hi, hie⟩ := List.mem_iff_getElem.mp he
  obtain ⟨j, hj, hje⟩ := List.mem_iff_getElem.mp he'
  rw [List.pairwise_iff_getElem] at hp
  rcases Nat.lt_trichotomy i j with hlt | rfl | hlt
  · have := hp i j hi hj hlt
    rw [hie, hje] at this
    exact absurd this (lt_irrefl n)
  · rw [hie] at hje
    cases hje
    rfl
  · have := hp j i hj hi hlt
    rw [hie, hje] at this
    exact absurd this (lt_irrefl n)

theorem mem_number {n first : Nat} {e : ε} {es : List ε} (h : (n, e) ∈ number first es) :
    first ≤ n ∧ n < first + es.length := by
  induction es generalizing first with
  | nil => cases h
  | cons e' es ih =>
      rcases List.mem_cons.mp h with h | h
      · cases h
        exact ⟨Nat.le_refl _, by simp⟩
      · have := ih h
        simp only [List.length_cons]
        omega

theorem number_pairwise :
    ∀ (first : Nat) (es : List ε), ((number first es).map Prod.fst).Pairwise (· < ·)
  | _, [] => List.Pairwise.nil
  | first, e :: es => by
      rw [number, List.map_cons, List.pairwise_cons]
      refine ⟨fun n hn => ?_, number_pairwise (first + 1) es⟩
      obtain ⟨w, hw, rfl⟩ := List.mem_map.mp hn
      exact (mem_number hw).1

theorem number_unique {first n : Nat} {es : List ε} {e e' : ε} (he : (n, e) ∈ number first es)
    (he' : (n, e') ∈ number first es) : e = e' :=
  unique_of_increasing (number_pairwise first es) he he'

theorem eventWrites_events (ws : List (Nat × ε)) :
    eventWrites (ws.map fun w => (.event w.1 w.2 : Publication ρ ε)) = ws := by
  induction ws with
  | nil => rfl
  | cons w ws ih => rw [List.map_cons, eventWrites, ih]

theorem eventWrites_staged (ss : List (Staged ρ)) :
    eventWrites (ss.map fun s => (s.publication : Publication ρ ε)) = [] := by
  induction ss with
  | nil => rfl
  | cons s ss ih =>
      rw [List.map_cons, Staged.publication]
      cases s.record <;> exact ih

/-- The events of a transaction are numbered from its first sequence. -/
theorem eventWrites_publicationsOf (first : Nat) (p : Prepared ρ ε) :
    eventWrites (publicationsOf first p) = number first p.events := by
  rw [publicationsOf, eventWrites_append, eventWrites_events, eventWrites_staged, List.append_nil]

/-! ## Issued and published -/

/-- The events of the decided transactions, in the order they were issued. -/
def issuedOf (opened : List (JournalEntry ρ ε)) : List (Nat × ε) :=
  opened.flatMap fun entry => eventWrites entry.publications

/-- An event was published under this sequence. -/
def PublishedIn (published : List (Nat × Publication ρ ε)) (n : Nat) : Prop :=
  ∃ i e, (i, Publication.event n e) ∈ published

/-- The floor reaches this sequence. -/
def AtOrBelow (floor : Option Nat) (n : Nat) : Prop := ∃ f, floor = some f ∧ n ≤ f

theorem AtOrBelow.mono {floor : Option Nat} {m n : Nat} (h : AtOrBelow floor n) (hle : m ≤ n) :
    AtOrBelow floor m := by
  obtain ⟨f, hf, hn⟩ := h
  exact ⟨f, hf, hle.trans hn⟩

theorem atOrBelow_raiseEventFloor (floor : Option Nat) (boundary : Nat) :
    AtOrBelow (raiseEventFloor floor boundary) boundary := by
  cases floor with
  | none => exact ⟨boundary, rfl, Nat.le_refl _⟩
  | some current =>
      rw [raiseEventFloor]
      split
      next hle => exact ⟨current, rfl, hle⟩
      next => exact ⟨boundary, rfl, Nat.le_refl _⟩

/-- The floor is never lowered. -/
theorem AtOrBelow.raise {floor : Option Nat} {n : Nat} (h : AtOrBelow floor n) (boundary : Nat) :
    AtOrBelow (raiseEventFloor floor boundary) n := by
  obtain ⟨f, rfl, hn⟩ := h
  rw [raiseEventFloor]
  split
  · exact ⟨f, rfl, hn⟩
  · exact ⟨boundary, rfl, by omega⟩

theorem mem_issuedOf {opened : List (JournalEntry ρ ε)} {w : Nat × ε} :
    w ∈ issuedOf opened ↔
      ∃ (i : Nat) (entry : JournalEntry ρ ε), opened[i]? = some entry ∧
        w ∈ eventWrites entry.publications := by
  rw [issuedOf, List.mem_flatMap]
  constructor
  · rintro ⟨entry, hm, hw⟩
    obtain ⟨i, hi⟩ := List.mem_iff_getElem?.mp hm
    exact ⟨i, entry, hi, hw⟩
  · rintro ⟨i, entry, hi, hw⟩
    exact ⟨entry, List.mem_iff_getElem?.mpr ⟨i, hi⟩, hw⟩

theorem issuedOf_append (opened : List (JournalEntry ρ ε)) (entry : JournalEntry ρ ε) :
    issuedOf (opened ++ [entry]) = issuedOf opened ++ eventWrites entry.publications := by
  simp [issuedOf]

/-- How the event files, the floor and the history hang together.  `busy` says
that the last decided transaction is still open. -/
structure Ledger (events : Table Nat ε) (floor : Option Nat) (opened : List (JournalEntry ρ ε))
    (published : List (Nat × Publication ρ ε)) (busy : Bool) : Prop where
  /-- Sequences are issued in increasing order. -/
  increasing : ((issuedOf opened).map Prod.fst).Pairwise (· < ·)
  /-- They start at one and stay where adding one changes a number. -/
  bounded : ∀ w ∈ issuedOf opened, 1 ≤ w.1 ∧ w.1 ≤ maxSafeInteger
  /-- Only what a decided transaction lists is published. -/
  listed : ∀ i p, (i, p) ∈ published → ∃ entry, opened[i]? = some entry ∧ p ∈ entry.publications
  /-- A transaction that is no longer open was published whole. -/
  finished : ∀ (i : Nat) (entry : JournalEntry ρ ε), opened[i]? = some entry →
    (busy = true → i + 1 < opened.length) → ∀ p ∈ entry.publications, (i, p) ∈ published
  /-- The published events are the first ones issued. -/
  downward : ∀ w ∈ issuedOf opened, ∀ w' ∈ issuedOf opened, w.1 ≤ w'.1 →
    PublishedIn published w'.1 → PublishedIn published w.1
  /-- An event file holds an event that was issued and published. -/
  kept : ∀ n e, events.get? n = some e → (n, e) ∈ issuedOf opened ∧ PublishedIn published n
  /-- A published event has its file, or is at or below the floor. -/
  covered : ∀ n, PublishedIn published n → (∃ e, events.get? n = some e) ∨ AtOrBelow floor n
  /-- The floor is at or below a sequence that was issued. -/
  floor_issued : ∀ f, floor = some f → ∃ w ∈ issuedOf opened, f ≤ w.1
  /-- While there is an event file, the newest is at or above the floor, unless
  the open transaction still has such an event to publish. -/
  floor_events : ∀ f n e, floor = some f → events.get? n = some e →
    (∃ m e', events.get? m = some e' ∧ f ≤ m) ∨
      (busy = true ∧ ∃ entry, opened.getLast? = some entry ∧
        ∃ w ∈ eventWrites entry.publications, f ≤ w.1)

namespace Ledger

variable {events : Table Nat ε} {floor : Option Nat} {opened : List (JournalEntry ρ ε)}
  {published : List (Nat × Publication ρ ε)} {busy : Bool}

/-- The log of a fresh store. -/
theorem empty : Ledger (Table.empty : Table Nat ε) none ([] : List (JournalEntry ρ ε)) [] false where
  increasing := List.Pairwise.nil
  bounded _ h := by cases h
  listed _ _ h := by cases h
  finished _ _ h := by cases h
  downward _ h := by cases h
  kept _ _ h := by cases h
  covered n h := by
    obtain ⟨_, _, hmem⟩ := h
    cases hmem
  floor_issued _ h := by cases h
  floor_events _ _ _ h := by cases h

/-- Two issued sequences that are ordered come from transactions that are. -/
theorem index_le (h : Ledger events floor opened published busy) {i j : Nat}
    {entry entry' : JournalEntry ρ ε} {w w' : Nat × ε} (hi : opened[i]? = some entry)
    (hj : opened[j]? = some entry') (hw : w ∈ eventWrites entry.publications)
    (hw' : w' ∈ eventWrites entry'.publications) (hle : w.1 ≤ w'.1) : i ≤ j := by
  by_contra hlt
  have hinc := List.pairwise_map.mp h.increasing
  rw [issuedOf, List.pairwise_flatMap, List.pairwise_iff_getElem] at hinc
  obtain ⟨hil, hie⟩ := List.getElem?_eq_some_iff.mp hi
  obtain ⟨hjl, hje⟩ := List.getElem?_eq_some_iff.mp hj
  have hlt' := hinc.2 j i hjl hil (not_le.mp hlt) w' (hje ▸ hw') w (hie ▸ hw)
  exact absurd hle (not_le.mpr hlt')

/-- One sequence is issued to one event. -/
theorem issued_unique (h : Ledger events floor opened published busy) {n : Nat} {e e' : ε}
    (he : (n, e) ∈ issuedOf opened) (he' : (n, e') ∈ issuedOf opened) : e = e' :=
  unique_of_increasing h.increasing he he'

theorem lt_of_earlier (h : Ledger events floor opened published busy) {i : Nat}
    {entry entry' : JournalEntry ρ ε} {w w' : Nat × ε} (hi : opened[i]? = some entry)
    (hj : opened.getLast? = some entry') (hw : w ∈ eventWrites entry.publications)
    (hw' : w' ∈ eventWrites entry'.publications) (hlt : i + 1 < opened.length) : w.1 < w'.1 := by
  rw [List.getLast?_eq_getElem?] at hj
  by_contra hle
  have := h.index_le hj hi hw' hw (not_lt.mp hle)
  omega

/-! ## What an action leaves -/

/-- A decided transaction issues new sequences. -/
theorem activate (h : Ledger events floor opened published false) {entry : JournalEntry ρ ε}
    {first : Nat} {es : List ε} (hes : eventWrites entry.publications = number first es)
    (hfirst : 1 ≤ first) (hnew : ∀ w ∈ issuedOf opened, w.1 < first)
    (hmax : first + es.length - 1 ≤ maxSafeInteger) :
    Ledger events floor (opened ++ [entry]) published true := by
  have hold : ∀ n, PublishedIn published n → ∃ e, (n, e) ∈ issuedOf opened := by
    rintro n ⟨i, e, hm⟩
    obtain ⟨entry', hi, hp⟩ := h.listed i _ hm
    exact ⟨e, mem_issuedOf.mpr ⟨i, entry', hi, mem_eventWrites.mpr hp⟩⟩
  have hadd : issuedOf (opened ++ [entry]) = issuedOf opened ++ number first es := by
    rw [issuedOf_append, hes]
  have hlater : ∀ w ∈ number first es, first ≤ w.1 ∧ w.1 < first + es.length := fun w hw =>
    mem_number (e := w.2) hw
  constructor
  case increasing =>
    rw [hadd, List.map_append, List.pairwise_append]
    refine ⟨h.increasing, number_pairwise first es, fun n hn m hm => ?_⟩
    obtain ⟨w, hw, rfl⟩ := List.mem_map.mp hn
    obtain ⟨w', hw', rfl⟩ := List.mem_map.mp hm
    exact lt_of_lt_of_le (hnew w hw) (hlater w' hw').1
  case bounded =>
    rw [hadd]
    intro w hw
    rcases List.mem_append.mp hw with hw | hw
    · exact h.bounded w hw
    · have := hlater w hw
      omega
  case listed =>
    intro i p hm
    obtain ⟨entry', hi, hp⟩ := h.listed i p hm
    exact ⟨entry', List.getElem?_append_left (List.getElem?_eq_some_iff.mp hi).1 ▸ hi, hp⟩
  case finished =>
    intro i entry' hi hlt p hp
    have hi' := hlt rfl
    rw [List.length_append, List.length_singleton] at hi'
    rw [List.getElem?_append_left (by omega)] at hi
    exact h.finished i entry' hi (by simp) p hp
  case downward =>
    rw [hadd]
    intro w hw w' _ hle hpub
    obtain ⟨e, he⟩ := hold _ hpub
    have hlt := hnew _ he
    rcases List.mem_append.mp hw with hw | hw
    · exact h.downward w hw _ he hle hpub
    · exact absurd (hlater w hw).1 (by simp only at hlt; omega)
  case kept =>
    intro n e hn
    exact ⟨hadd ▸ List.mem_append_left _ (h.kept n e hn).1, (h.kept n e hn).2⟩
  case covered => exact h.covered
  case floor_issued =>
    intro f hf
    obtain ⟨w, hw, hle⟩ := h.floor_issued f hf
    exact ⟨w, hadd ▸ List.mem_append_left _ hw, hle⟩
  case floor_events =>
    intro f n e hf hn
    exact Or.inl ((h.floor_events f n e hf hn).resolve_right (by simp))

/-- A record or a marker of the open transaction is published. -/
theorem publish_other (h : Ledger events floor opened published busy) {entry : JournalEntry ρ ε}
    {p : Publication ρ ε} (hlast : opened.getLast? = some entry) (hp : p ∈ entry.publications)
    (hno : ∀ n e, p ≠ .event n e) :
    Ledger events floor opened (published ++ [(opened.length - 1, p)]) busy := by
  have hiff : ∀ n, PublishedIn (published ++ [(opened.length - 1, p)]) n ↔ PublishedIn published n := by
    intro n
    constructor
    · rintro ⟨i, e, hm⟩
      rcases List.mem_append.mp hm with hm | hm
      · exact ⟨i, e, hm⟩
      · cases List.mem_singleton.mp hm
        exact absurd rfl (hno n e)
    · rintro ⟨i, e, hm⟩
      exact ⟨i, e, List.mem_append_left _ hm⟩
  refine { h with listed := ?_, finished := ?_, downward := ?_, kept := ?_, covered := ?_ }
  · intro i q hm
    rcases List.mem_append.mp hm with hm | hm
    · exact h.listed i q hm
    · cases List.mem_singleton.mp hm
      exact ⟨entry, by rwa [← List.getLast?_eq_getElem?], hp⟩
  · exact fun i entry' hi hlt q hq => List.mem_append_left _ (h.finished i entry' hi hlt q hq)
  · intro w hw w' hw' hle hpub
    exact (hiff _).mpr (h.downward w hw w' hw' hle ((hiff _).mp hpub))
  · exact fun n e hn => ⟨(h.kept n e hn).1, (hiff n).mpr (h.kept n e hn).2⟩
  · exact fun n hpub => h.covered n ((hiff n).mp hpub)

/-- The next event of the open transaction is published. -/
theorem publish_event (h : Ledger events floor opened published true)
    {entry : JournalEntry ρ ε} {n : Nat} {e : ε} (hlast : opened.getLast? = some entry)
    {done todo : List (Publication ρ ε)}
    (hsplit : entry.publications = done ++ .event n e :: todo)
    (hdone : ∀ q ∈ done, (opened.length - 1, q) ∈ published) :
    Ledger (events.insert n e) floor opened (published ++ [(opened.length - 1, .event n e)])
      true := by
  have hindex : opened[opened.length - 1]? = some entry := by rwa [← List.getLast?_eq_getElem?]
  have hmem : Publication.event n e ∈ entry.publications := by rw [hsplit]; simp
  have hissued : (n, e) ∈ issuedOf opened :=
    mem_issuedOf.mpr ⟨_, entry, hindex, mem_eventWrites.mpr hmem⟩
  have hmono : ∀ m, PublishedIn published m →
      PublishedIn (published ++ [(opened.length - 1, .event n e)]) m := by
    rintro m ⟨i, e', hm⟩
    exact ⟨i, e', List.mem_append_left _ hm⟩
  have hself : PublishedIn (published ++ [(opened.length - 1, .event n e)]) n :=
    ⟨_, e, List.mem_append_right _ (List.mem_singleton.mpr rfl)⟩
  have hcases : ∀ m, PublishedIn (published ++ [(opened.length - 1, .event n e)]) m →
      m = n ∨ PublishedIn published m := by
    rintro m ⟨i, e', hm⟩
    rcases List.mem_append.mp hm with hm | hm
    · exact Or.inr ⟨i, e', hm⟩
    · cases List.mem_singleton.mp hm
      exact Or.inl rfl
  -- The events of one entry are numbered in order, so those up to `n` were
  -- published before `n`.
  have horder : ∀ w ∈ eventWrites entry.publications, w.1 ≤ n →
      PublishedIn (published ++ [(opened.length - 1, .event n e)]) w.1 := by
    intro w hw hle
    have hinc := List.pairwise_map.mp h.increasing
    rw [issuedOf, List.pairwise_flatMap] at hinc
    have hentry := hinc.1 entry (List.mem_of_getLast? hlast)
    rw [hsplit, eventWrites_append, eventWrites, List.pairwise_append, List.pairwise_cons] at hentry
    rw [hsplit, eventWrites_append, eventWrites] at hw
    rcases List.mem_append.mp hw with hw | hw
    · exact hmono _ ⟨_, w.2, hdone _ (mem_eventWrites.mp hw)⟩
    · rcases List.mem_cons.mp hw with rfl | hw
      · exact hself
      · exact absurd hle (not_le.mpr (hentry.2.1.1 w hw))
  constructor
  case increasing => exact h.increasing
  case bounded => exact h.bounded
  case listed =>
    intro i q hm
    rcases List.mem_append.mp hm with hm | hm
    · exact h.listed i q hm
    · cases List.mem_singleton.mp hm
      exact ⟨entry, hindex, hmem⟩
  case finished =>
    exact fun i entry' hi hlt q hq => List.mem_append_left _ (h.finished i entry' hi hlt q hq)
  case downward =>
    intro w hw w' hw' hle hpub
    rcases hcases _ hpub with heq | hpub
    · obtain ⟨i, entry', hi, hw⟩ := mem_issuedOf.mp hw
      have hlt := (List.getElem?_eq_some_iff.mp hi).1
      rcases Nat.lt_or_ge (i + 1) opened.length with hearly | hlate
      · exact hmono _ ⟨i, w.2, h.finished i entry' hi (fun _ => hearly) _ (mem_eventWrites.mp hw)⟩
      · have hieq : i = opened.length - 1 := by omega
        rw [hieq, hindex] at hi
        cases hi
        exact horder w hw (heq ▸ hle)
    · exact hmono _ (h.downward w hw w' hw' hle hpub)
  case kept =>
    intro m e' hm
    rw [Table.get?_insert] at hm
    split at hm
    next heq =>
      cases hm
      exact heq ▸ ⟨hissued, hself⟩
    next => exact ⟨(h.kept m e' hm).1, hmono _ (h.kept m e' hm).2⟩
  case covered =>
    intro m hpub
    by_cases heq : n = m
    · exact Or.inl ⟨e, heq ▸ Table.get?_insert_self events n e⟩
    · rw [Table.get?_insert_ne events e heq]
      exact h.covered m ((hcases m hpub).resolve_left fun hm => heq hm.symm)
  case floor_issued => exact h.floor_issued
  case floor_events =>
    intro f _ _ hf _
    obtain ⟨w, hw, hle⟩ := h.floor_issued f hf
    obtain ⟨i, entry', hi, hw⟩ := mem_issuedOf.mp hw
    rcases Nat.lt_or_ge (i + 1) opened.length with hearly | hlate
    · have hlt := h.lt_of_earlier hi hlast hw (mem_eventWrites.mpr hmem) hearly
      exact Or.inl ⟨n, e, Table.get?_insert_self events n e, hle.trans (Nat.le_of_lt hlt)⟩
    · have := (List.getElem?_eq_some_iff.mp hi).1
      have hieq : i = opened.length - 1 := by omega
      rw [hieq, hindex] at hi
      cases hi
      exact Or.inr ⟨rfl, entry, hlast, w, hw, hle⟩

/-- The open transaction was published whole, and its events have their files. -/
theorem idle (h : Ledger events floor opened published true) {entry : JournalEntry ρ ε}
    (hlast : opened.getLast? = some entry)
    (hall : ∀ p ∈ entry.publications, (opened.length - 1, p) ∈ published)
    (hfiles : ∀ n e, .event n e ∈ entry.publications → events.get? n = some e) :
    Ledger events floor opened published false := by
  refine { h with finished := ?_, floor_events := ?_ }
  · intro i entry' hi _ p hp
    have hlt := (List.getElem?_eq_some_iff.mp hi).1
    rcases Nat.lt_or_ge (i + 1) opened.length with hearly | hlate
    · exact h.finished i entry' hi (fun _ => hearly) p hp
    · have hieq : i = opened.length - 1 := by omega
      rw [hieq, ← List.getLast?_eq_getElem?, hlast] at hi
      cases hi
      exact hieq ▸ hall p hp
  · intro f n e hf hn
    rcases h.floor_events f n e hf hn with hle | ⟨-, entry', hl, w, hw, hle⟩
    · exact Or.inl hle
    · rw [hlast] at hl
      cases hl
      exact Or.inl ⟨w.1, w.2, hfiles _ _ (mem_eventWrites.mp hw), hle⟩

/-- The floor is raised to a boundary the log has reached. -/
theorem raiseFloor (h : Ledger events floor opened published busy) {boundary : Nat}
    (hb : (∃ n e, events.get? n = some e ∧ boundary ≤ n) ∨ AtOrBelow floor boundary) :
    Ledger events (raiseEventFloor floor boundary) opened published busy := by
  have hcases : ∀ f, raiseEventFloor floor boundary = some f →
      floor = some f ∨ (f = boundary ∧ ¬AtOrBelow floor boundary) := by
    intro f hf
    cases hfl : floor with
    | none =>
        rw [hfl] at hf
        cases hf
        exact Or.inr ⟨rfl, by simp [AtOrBelow]⟩
    | some g =>
        rw [hfl] at hf
        simp only [raiseEventFloor] at hf
        split at hf
        next hle =>
          cases hf
          exact Or.inl rfl
        next hgt =>
          cases hf
          refine Or.inr ⟨rfl, ?_⟩
          rintro ⟨_, ⟨⟩, hle⟩
          exact hgt hle
  refine { h with covered := ?_, floor_issued := ?_, floor_events := ?_ }
  · exact fun n hpub => (h.covered n hpub).imp_right fun hn => hn.raise boundary
  · intro f hf
    rcases hcases f hf with hf | ⟨rfl, hnot⟩
    · exact h.floor_issued f hf
    · obtain ⟨n, e, hn, hle⟩ := hb.resolve_right hnot
      exact ⟨(n, e), (h.kept n e hn).1, hle⟩
  · intro f n e hf hn
    rcases hcases f hf with hf | ⟨rfl, hnot⟩
    · exact h.floor_events f n e hf hn
    · exact Or.inl (hb.resolve_right hnot)

/-- The oldest event file leaves, once the floor has reached it. -/
theorem condemn (h : Ledger events floor opened published busy) {n : Nat} {rest : List Nat}
    (hkeys : events.keys = n :: rest) (hfloor : AtOrBelow floor n) :
    Ledger (events.erase n) floor opened published busy := by
  have hget : ∀ m e, (events.erase n).get? m = some e → events.get? m = some e ∧ n < m := by
    intro m e hm
    rw [Table.get?_erase] at hm
    split at hm
    next => cases hm
    next hne =>
      refine ⟨hm, ?_⟩
      have hm' : m ∈ events.keys := Table.mem_keys.mpr ⟨e, hm⟩
      rw [hkeys, List.mem_cons] at hm'
      exact (List.pairwise_cons.mp (hkeys ▸ events.keys_pairwise)).1 m (hm'.resolve_left hne)
  refine { h with kept := ?_, covered := ?_, floor_events := ?_ }
  · exact fun m e hm => h.kept m e (hget m e hm).1
  · intro m hpub
    by_cases heq : m = n
    · exact Or.inr (heq ▸ hfloor)
    · rw [Table.get?_erase_ne events heq]
      exact h.covered m hpub
  · intro f m e hf hm
    obtain ⟨hm', hlt⟩ := hget m e hm
    rcases h.floor_events f m e hf hm' with ⟨k, e', hk, hle⟩ | hopen
    · by_cases heq : k = n
      · exact Or.inl ⟨m, e, hm, hle.trans (heq ▸ Nat.le_of_lt hlt)⟩
      · exact Or.inl ⟨k, e', by rw [Table.get?_erase_ne events heq]; exact hk, hle⟩
    · exact Or.inr hopen

/-- While no transaction is open the next sequence is the first above every one
issued. -/
theorem next {d : Disk ρ ε}
    (h : Ledger d.contents.events d.floor opened published false) {first : Nat}
    (hnext : nextSequence d = .ok first) :
    1 ≤ first ∧ (∀ w ∈ issuedOf opened, w.1 < first) ∧
      (first = 1 ∨ ∃ w ∈ issuedOf opened, first ≤ w.1 + 1) := by
  have hplace : ∀ w ∈ issuedOf opened, (∃ e, d.contents.events.get? w.1 = some e) ∨
      AtOrBelow d.floor w.1 := by
    intro w hw
    obtain ⟨i, entry, hi, hw⟩ := mem_issuedOf.mp hw
    exact h.covered _ ⟨i, w.2, h.finished i entry hi (by simp) _ (mem_eventWrites.mp hw)⟩
  simp only [nextSequence] at hnext
  cases hlast : d.contents.events.last? with
  | some newest =>
      simp only [hlast, bind_eq_ok, refuse_eq_ok, pure_eq_ok, not_lt] at hnext
      obtain ⟨-, -, rfl⟩ := hnext
      obtain ⟨hget, hle⟩ := Table.last?_eq_some hlast
      refine ⟨Nat.le_add_left 1 _, fun w hw => Nat.lt_succ_of_le ?_,
        Or.inr ⟨_, (h.kept _ _ hget).1, Nat.le_refl _⟩⟩
      rcases hplace w hw with ⟨e, he⟩ | ⟨f, hf, hwf⟩
      · exact hle _ _ he
      · obtain ⟨m, e', hm, hfm⟩ := (h.floor_events f _ _ hf hget).resolve_right (by simp)
        exact hwf.trans (hfm.trans (hle _ _ hm))
  | none =>
      have hempty := Table.last?_eq_none hlast
      simp only [hlast] at hnext
      cases hfloor : d.floor with
      | none =>
          simp only [hfloor, Except.ok.injEq] at hnext
          subst hnext
          refine ⟨Nat.le_refl 1, fun w hw => ?_, Or.inl rfl⟩
          rcases hplace w hw with ⟨e, he⟩ | ⟨f, hf, -⟩
          · rw [hempty] at he
            cases he
          · rw [hfloor] at hf
            cases hf
      | some f =>
          simp only [hfloor, bind_eq_ok, refuse_eq_ok, pure_eq_ok, not_lt] at hnext
          obtain ⟨-, -, rfl⟩ := hnext
          obtain ⟨w₀, hw₀, hle₀⟩ := h.floor_issued f hfloor
          refine ⟨Nat.le_add_left 1 _, fun w hw => Nat.lt_succ_of_le ?_,
            Or.inr ⟨w₀, hw₀, Nat.succ_le_succ hle₀⟩⟩
          rcases hplace w hw with ⟨e, he⟩ | ⟨g, hg, hwg⟩
          · rw [hempty] at he
            cases he
          · rw [hfloor] at hg
            cases hg
            exact hwg

end Ledger

end Acc.Storage
