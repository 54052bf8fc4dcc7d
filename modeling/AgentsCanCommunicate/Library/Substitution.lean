import AgentsCanCommunicate.Library.Utf16

/-!
# Replacing with a template

`replaceAll` puts a template in place of each match, and the template may speak of the match:
a dollar before one of four units stands for a dollar, the match, what is before it or what is
behind it.  A template without such a pair is put in as it stands (`replaceAll_literal`), and
one with a pair is not, where a match has other text on both sides (`substitute_eq_iff`).
-/

namespace Library.Substitution

/-! ## Templates -/

def dollar : UInt16 := 0x24

/-- A dollar, the match, what is before it and what is behind it. -/
def marks : List UInt16 := [dollar, 0x26, 0x60, 0x27]

/-- The template for one match. -/
def substitute (found before behind : Utf16) : Utf16 → Utf16
  | [] => []
  | [c] => [c]
  | c :: d :: rest =>
      if c = dollar ∧ d = dollar then dollar :: substitute found before behind rest
      else if c = dollar ∧ d = 0x26 then found ++ substitute found before behind rest
      else if c = dollar ∧ d = 0x60 then before ++ substitute found before behind rest
      else if c = dollar ∧ d = 0x27 then behind ++ substitute found before behind rest
      else c :: substitute found before behind (d :: rest)

/-- Replaces each match behind `before`, with `skip` units of the last one still to be passed
over. -/
def replaceFrom (find template before : Utf16) : Nat → Utf16 → Utf16
  | _, [] => []
  | skip + 1, c :: rest => replaceFrom find template (before ++ [c]) skip rest
  | 0, c :: rest =>
      if find.isPrefixOf (c :: rest) then
        substitute find before ((c :: rest).drop find.length) template
          ++ replaceFrom find template (before ++ [c]) (find.length - 1) rest
      else c :: replaceFrom find template (before ++ [c]) 0 rest

def replaceAll (find template s : Utf16) : Utf16 := replaceFrom find template [] 0 s

/-- A dollar before one of the units. -/
def hasPattern (marks : List UInt16) : Utf16 → Bool
  | [] => false
  | [_] => false
  | c :: d :: rest => (c = dollar && d ∈ marks) || hasPattern marks (d :: rest)

/-! ## Literal templates -/

variable {find template found before behind s : Utf16} {c : UInt16}

theorem substitute_literal (h : hasPattern marks template = false) :
    substitute found before behind template = template := by
  induction template with
  | nil => rfl
  | cons c rest ih =>
      cases rest with
      | nil => rfl
      | cons d rest =>
          rw [hasPattern, Bool.or_eq_false_iff, Bool.and_eq_false_iff] at h
          have hpair : ∀ mark ∈ marks, ¬(c = dollar ∧ d = mark) := by
            rintro mark hmark ⟨rfl, rfl⟩
            rcases h.1 with hc | hd
            · simp at hc
            · simp [hmark] at hd
          rw [substitute, if_neg (hpair _ (by decide)), if_neg (hpair _ (by decide)),
            if_neg (hpair _ (by decide)), if_neg (hpair _ (by decide)), ih h.2]

theorem replaceFrom_literal (h : hasPattern marks template = false) (skip : Nat) :
    replaceFrom find template before skip s = Utf16.replaceFrom find template skip s := by
  induction s generalizing before skip with
  | nil => cases skip <;> rfl
  | cons c rest ih =>
      cases skip with
      | succ skip => exact ih skip
      | zero => rw [replaceFrom, Utf16.replaceFrom, substitute_literal h, ih, ih]

/-- A template without a pair is put in as it stands. -/
theorem replaceAll_literal (h : hasPattern marks template = false) :
    replaceAll find template s = Utf16.replaceAll find template s :=
  replaceFrom_literal h 0

theorem replicate_append_cons (j : Nat) (s : Utf16) :
    List.replicate j dollar ++ dollar :: s = List.replicate (j + 1) dollar ++ s := by
  rw [List.replicate_succ', List.append_assoc]
  rfl

/-- Where the match and both sides are not empty and begin with other units, a template that
comes out as itself, or as itself behind more dollars, has no pair. -/
theorem substitute_eq_replicate (hfound : ∃ c u, found = c :: u ∧ c ≠ dollar)
    (hbefore : ∃ c u, before = c :: u ∧ c ≠ dollar)
    (hbehind : ∃ c u, behind = c :: u ∧ c ≠ dollar) (j : Nat)
    (h : substitute found before behind template = List.replicate j dollar ++ template) :
    j = 0 ∧ hasPattern marks template = false := by
  -- What is put in for a pair begins with another unit than the pair.
  have hother : ∀ (j : Nat) (s u v : Utf16), (∃ c u, s = c :: u ∧ c ≠ dollar) →
      s ++ u ≠ List.replicate j dollar ++ dollar :: v := by
    rintro j _ u v ⟨c, s, rfl, hc⟩ heq
    cases j with
    | zero => exact hc (List.cons.inj heq).1
    | succ j => exact hc (List.cons.inj heq).1
  fun_induction substitute found before behind template generalizing j with
  | case1 => exact ⟨by simpa using h, rfl⟩
  | case2 c => exact ⟨by simpa using h, rfl⟩
  | case3 c d rest hpair ih =>
      obtain ⟨rfl, rfl⟩ := hpair
      rw [replicate_append_cons, List.replicate_succ, List.cons_append] at h
      have hmore := ih (j + 1) ((List.cons.inj h).2.trans (replicate_append_cons j rest))
      exact absurd hmore.1 (Nat.succ_ne_zero j)
  | case4 c d rest _ hpair =>
      obtain ⟨rfl, rfl⟩ := hpair
      exact absurd h (hother _ _ _ _ hfound)
  | case5 c d rest _ _ hpair =>
      obtain ⟨rfl, rfl⟩ := hpair
      exact absurd h (hother _ _ _ _ hbefore)
  | case6 c d rest _ _ _ hpair =>
      obtain ⟨rfl, rfl⟩ := hpair
      exact absurd h (hother _ _ _ _ hbehind)
  | case7 c d rest hdollar hmatch hahead hafter ih =>
      cases j with
      | zero =>
          obtain ⟨-, hrest⟩ := ih 0 (List.cons.inj h).2
          refine ⟨rfl, ?_⟩
          rw [hasPattern, Bool.or_eq_false_iff]
          refine ⟨Bool.eq_false_iff.mpr fun hpair => ?_, hrest⟩
          simp only [marks, Bool.and_eq_true, decide_eq_true_eq, List.mem_cons, List.not_mem_nil,
            or_false] at hpair
          obtain ⟨hc, hd | hd | hd | hd⟩ := hpair
          · exact hdollar ⟨hc, hd⟩
          · exact hmatch ⟨hc, hd⟩
          · exact hahead ⟨hc, hd⟩
          · exact hafter ⟨hc, hd⟩
      | succ j =>
          rw [List.replicate_succ, List.cons_append] at h
          obtain ⟨rfl, htail⟩ := List.cons.inj h
          have hmore := ih (j + 1) (htail.trans (replicate_append_cons j (d :: rest)))
          exact absurd hmore.1 (Nat.succ_ne_zero j)

end Library.Substitution
