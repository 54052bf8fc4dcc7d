import AgentsCanCommunicate.AdapterSdk.ShellLines
import AgentsCanCommunicate.Library.Run

/-!
# The rounds of `stripHeredocs`

A round finds the first opener and takes it and its body away.  Every round that does not
return leaves less text, also where the opener goes beyond the end of its line, so the loop
ends (`Rounds.length_le`).

A round keeps the text before the opener that it found.  What it takes away may join that text
with what follows to a new opener, which the next round finds: in `<<<A<B` it is `<<B`.  The
text before the first opener is kept until this happens (`stripHeredocs_rounds`), and it does
not happen when that text ends with no beginning of an opener (`stripHeredocs_finished`).
-/

namespace Acc.AdapterSdk.ShellWrites

open Library Library.Text
open AdapterSdk.ShellLines (shift stripHeredocs_shift)

variable {command t next result x y : Text} {o first : Opener} {os : List Opener}

/-! ## Rounds -/

/-- A round that does not return, with the opener that it finds. -/
def Round (t : Text) (o : Opener) (next : Text) : Prop :=
  findOpener t = some o ∧ stripRound t = .inr next

abbrev Rounds : Text → List Opener → Text → Prop := Run Round

/-- The loop returns a text after some rounds. -/
def Returns (command : Text) (os : List Opener) (result : Text) : Prop :=
  ∃ t, Rounds command os t ∧ stripRound t = .inl result

/-- The opener stands behind the text that was before the first one. -/
def Behind (first : Opener) (o : Opener) : Prop := first.before.length ≤ o.before.length

theorem Round.exists_of_inr (h : stripRound t = .inr next) : ∃ o, Round t o next := by
  cases hfind : findOpener t with
  | none =>
      rw [stripRound, hfind] at h
      cases h
  | some o => exact ⟨o, hfind, h⟩

/-- What a round leaves begins with the text before its opener. -/
theorem Round.keeps (h : Round t o next) : o.before <+: next := by
  obtain ⟨hfind, hround⟩ := h
  rw [stripRound, hfind] at hround
  simp only at hround
  split at hround
  next => cases hround
  next =>
    cases hround
    exact (List.prefix_append o.before _).trans (List.prefix_append _ _)

theorem Rounds.length_le (hrun : Rounds command os t) : t.length + os.length ≤ command.length := by
  induction hrun with
  | nil => exact Nat.le_refl _
  | snoc _ h ih =>
      have hlt := stripRound_length h.2
      rw [List.length_append, List.length_singleton]
      omega

theorem Rounds.cons (h : Round command o next) (hrun : Rounds next os t) :
    Rounds command (o :: os) t :=
  Run.append (.snoc (.nil command) h) hrun

/-- The loop returns. -/
theorem returns_stripHeredocs (command : Text) : ∃ os, Returns command os (stripHeredocs command) := by
  cases hround : stripRound command with
  | inl result =>
      rw [stripHeredocs_of_inl hround]
      exact ⟨[], command, .nil command, hround⟩
  | inr next =>
      have hlt := stripRound_length hround
      obtain ⟨o, ho⟩ := Round.exists_of_inr hround
      obtain ⟨os, t, hrun, ht⟩ := returns_stripHeredocs next
      rw [stripHeredocs_of_inr hround]
      exact ⟨o :: os, t, Rounds.cons ho hrun, ht⟩
termination_by command.length

/-! ## The text before the first opener -/

theorem before_starts (hfind : findOpener t = some o) (hpre : first.before <+: t)
    (hbehind : Behind first o) : first.before <+: o.before := by
  have hsplit := (findOpener_eq_some hfind).1
  rw [hsplit] at hpre
  exact List.prefix_of_prefix_length_le hpre (List.prefix_append _ _) hbehind

theorem kept_round (hround : Round t o next) (hbehind : Behind first o)
    (hpre : first.before <+: t) : first.before <+: next :=
  (before_starts hround.1 hpre hbehind).trans hround.keeps

theorem kept_run (hfind : findOpener command = some first)
    (hrun : Run (Where Round fun _ o => Behind first o) command os t) : first.before <+: t := by
  refine hrun.invariant (I := fun t => first.before <+: t)
    (fun t o next hpre h => kept_round h.2 h.1 hpre) ?_
  rw [(findOpener_eq_some hfind).1]
  exact List.prefix_append _ _

theorem kept_return (hround : stripRound t = .inl result)
    (hbehind : ∀ o, findOpener t = some o → Behind first o) (hpre : first.before <+: t) :
    first.before <+: result := by
  cases hfind : findOpener t with
  | none =>
      rw [stripRound, hfind] at hround
      cases hround
      exact hpre
  | some o =>
      rw [stripRound, hfind] at hround
      simp only at hround
      split at hround
      next =>
        cases hround
        exact (before_starts hfind hpre (hbehind o hfind)).trans (List.prefix_append _ _)
      next => cases hround

/-! ## Beginnings of an opener -/

/-- The beginning of a word, which may be all of it. -/
def unfinishedWord (t : Text) : Bool := (t.head?).all isWordStart && t.all isWordChar

/-- The beginning of `(['"]?)([A-Za-z_][A-Za-z0-9_]*)\1` and not all of it. -/
def unfinishedQuotable : Text → Bool
  | [] => true
  | c :: t => isQuote c && unfinishedWord t

/-- The beginning of an opener and not all of it. -/
def unfinished : Text → Bool
  | ['<'] => true
  | '<' :: '<' :: t => unfinishedQuotable ((dropDash t).dropWhile isSpace)
  | _ => false

theorem dropDash_append (ht : t ≠ []) (x : Text) : dropDash (t ++ x) = dropDash t ++ x := by
  cases t with
  | nil => exact absurd rfl ht
  | cons c t =>
      rw [dropDash, dropDash, List.cons_append, List.head?_cons, List.head?_cons]
      split <;> rfl

theorem takeWhile_append_of_not_all {p : Char → Bool} (ht : t.all p = false) (x : Text) :
    (t ++ x).takeWhile p = t.takeWhile p := by
  rw [List.takeWhile_append, if_neg]
  intro hlength
  have hall := (List.takeWhile_prefix p).eq_of_length hlength
  rw [List.takeWhile_eq_self_iff, ← List.all_eq_true, ht] at hall
  cases hall

/-- A word that ends, or cannot begin, is the same with anything behind it. -/
theorem matchWord_append (ht : unfinishedWord t = false) (x : Text) :
    matchWord (t ++ x) = (matchWord t).map fun m => (m.1, m.2 ++ x) := by
  cases t with
  | nil => cases ht
  | cons c t =>
      rw [unfinishedWord, List.head?_cons, Option.all_some] at ht
      have hhead : (c :: t ++ x).head?.any isWordStart = isWordStart c := rfl
      have hself : (c :: t).head?.any isWordStart = isWordStart c := rfl
      rw [matchWord, matchWord, hhead, hself]
      cases hstart : isWordStart c with
      | false => rfl
      | true =>
          rw [hstart, Bool.true_and] at ht
          rw [takeWhile_append_of_not_all ht, dropWhile_append_of_not_all ht]
          rfl

theorem rest_ne_nil (ht : unfinishedWord t = false) {m : Text × Text} (h : matchWord t = some m) :
    m.2 ≠ [] := by
  rw [matchWord] at h
  split at h
  next hstart =>
    cases h
    intro hnil
    rw [dropWhile_eq_nil_iff] at hnil
    rw [unfinishedWord, hnil, Bool.and_true] at ht
    cases t with
    | nil => cases ht
    | cons c t => exact Bool.false_ne_true (ht.symm.trans hstart)
  next => cases h

/-- Whether a word begins is decided by its first character. -/
theorem isSome_matchWord (c : Char) (t : Text) : (matchWord (c :: t)).isSome = isWordStart c := by
  rw [matchWord, List.head?_cons, Option.any_some]
  cases isWordStart c <;> rfl

theorem isSome_matchQuotable (ht : unfinishedQuotable t = false) (x y : Text) :
    (matchQuotable (t ++ x)).isSome = (matchQuotable (t ++ y)).isSome := by
  cases t with
  | nil => cases ht
  | cons c t =>
      rw [unfinishedQuotable] at ht
      rw [List.cons_append, List.cons_append, matchQuotable, matchQuotable]
      cases hquote : isQuote c with
      | false =>
          simp only [Bool.false_eq_true, if_false]
          rw [isSome_matchWord, isSome_matchWord]
      | true =>
          rw [hquote, Bool.true_and] at ht
          simp only [if_true]
          rw [matchWord_append ht x, matchWord_append ht y]
          cases hword : matchWord t with
          | none => rfl
          | some m =>
              obtain ⟨d, rest, hrest⟩ := List.exists_cons_of_ne_nil (rest_ne_nil ht hword)
              simp only [Option.map_some, Option.bind_some, hrest, List.cons_append,
                List.head?_cons]
              by_cases hd : d = c <;> simp [hd]

/-- Whether an opener begins is decided by what is more than a beginning. -/
theorem isSome_matchOpener (hne : t ≠ []) (ht : unfinished t = false) (x y : Text) :
    (matchOpener (t ++ x)).isSome = (matchOpener (t ++ y)).isSome := by
  match t with
  | [] => exact absurd rfl hne
  | [c] =>
      have hc : c ≠ '<' := by
        rintro rfl
        cases ht
      simp [matchOpener, hc]
  | c :: d :: t =>
      by_cases hcd : c = '<' ∧ d = '<'
      · obtain ⟨rfl, rfl⟩ := hcd
        have hquotable : unfinishedQuotable ((dropDash t).dropWhile isSpace) = false := ht
        have hspaces : (dropDash t).all isSpace = false := by
          refine Bool.eq_false_of_not_eq_true fun hall => ?_
          rw [dropWhile_eq_nil_iff.mpr hall] at hquotable
          cases hquotable
        have htne : t ≠ [] := by
          rintro rfl
          cases hspaces
        rw [List.cons_append, List.cons_append, List.cons_append, List.cons_append,
          matchOpener_cons_cons, matchOpener_cons_cons, dropDash_append htne,
          dropDash_append htne, dropWhile_append_of_not_all hspaces,
          dropWhile_append_of_not_all hspaces]
        exact isSome_matchQuotable hquotable x y
      · have hnone : ∀ u : Text, matchOpener (c :: d :: u) = none := by
          intro u
          unfold matchOpener
          split
          next heq =>
            cases heq
            exact absurd ⟨rfl, rfl⟩ hcd
          next => rfl
        rw [List.cons_append, List.cons_append, List.cons_append, List.cons_append, hnone, hnone]

/-- No opener is found in a text that none begins in. -/
theorem findOpener_append (h : ∀ t, t <:+ x → t ≠ [] → matchOpener (t ++ y) = none) :
    findOpener (x ++ y) = (findOpener y).map (shift x) := by
  induction x with
  | nil => cases hfind : findOpener y <;> simp [hfind, shift]
  | cons c x ih =>
      have hrest := ih fun t ht hne => h t (ht.trans (List.suffix_cons c x)) hne
      have hmatch := h (c :: x) (List.suffix_refl _) (List.cons_ne_nil c x)
      rw [List.cons_append] at hmatch ⊢
      rw [findOpener, hmatch, hrest, Option.map_map]
      rfl

theorem matchOpener_before (hfind : findOpener command = some first) (ht : t <:+ first.before)
    (hne : t ≠ []) : matchOpener (t ++ first.suffix) = none := by
  induction command generalizing first with
  | nil => cases hfind
  | cons c command ih =>
      rw [findOpener] at hfind
      split at hfind
      next =>
        cases hfind
        exact absurd (List.suffix_nil.mp ht) hne
      next hmatch =>
        obtain ⟨o, ho, rfl⟩ := Option.map_eq_some_iff.mp hfind
        rcases List.suffix_cons_iff.mp ht with rfl | ht
        · rwa [(findOpener_eq_some ho).1] at hmatch
        · have hnone := ih ho ht
          exact hnone

/-- With no beginning of an opener at its end, the text before the first one is passed over. -/
theorem stripHeredocs_finished (hfind : findOpener command = some first)
    (hfinished : ∀ t, t <:+ first.before → unfinished t = false) :
    stripHeredocs command = first.before ++ stripHeredocs first.suffix := by
  have hpass : ∀ x, findOpener (first.before ++ x) = (findOpener x).map (shift first.before) := by
    intro x
    refine findOpener_append fun t ht hne => ?_
    have hsame := isSome_matchOpener hne (hfinished t ht) x first.suffix
    rw [matchOpener_before hfind ht hne] at hsame
    exact Option.not_isSome_iff_eq_none.mp (by rw [hsame]; exact Bool.false_ne_true)
  rw [(findOpener_eq_some hfind).1]
  exact stripHeredocs_shift hpass first.suffix

/-! ## The loop -/

/-- The loop ends, each round that does not return leaves less text, and the text before the
first opener is kept in every round and in what is returned as long as no opener is found that
begins in it.  None does when no beginning of an opener stands at its end. -/
theorem stripHeredocs_rounds (command : Text) :
    (∀ t next, stripRound t = .inr next → next.length < t.length) ∧
    (∀ os t, Rounds command os t → os.length ≤ command.length) ∧
    (∃ os, Returns command os (stripHeredocs command)) ∧
    ∀ first, findOpener command = some first →
      (∀ os t, Run (Where Round fun _ o => Behind first o) command os t →
        first.before <+: t ∧
          ((∀ o, findOpener t = some o → Behind first o) →
            ∀ result, stripRound t = .inl result → first.before <+: result)) ∧
      ((∀ t, t <:+ first.before → unfinished t = false) →
        stripHeredocs command = first.before ++ stripHeredocs first.suffix) := by
  refine ⟨fun t next h => stripRound_length h, fun os t hrun => ?_, returns_stripHeredocs command,
    fun first hfind => ⟨fun os t hrun => ?_, stripHeredocs_finished hfind⟩⟩
  · have hlength := Rounds.length_le hrun
    omega
  · have hpre := kept_run hfind hrun
    exact ⟨hpre, fun hbehind result hround => kept_return hround hbehind hpre⟩

/-- The first character stood before the first opener, and the second opener begins with it. -/
theorem stripHeredocs_joins : findOpener "<<<A<B\nA\nx".toList = some ⟨['<'], "<<A<B\nA\nx".toList, ['A']⟩ ∧
    ¬['<'] <+: stripHeredocs "<<<A<B\nA\nx".toList := by
  decide +kernel

end Acc.AdapterSdk.ShellWrites
