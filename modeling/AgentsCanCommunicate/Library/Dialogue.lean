import Mathlib.Data.List.Basic

/-!
# Programs that ask

A dialogue asks its surroundings one question after another and goes on with the answers.  It
ends with an answer of its own or with an error.

`Says` relates a dialogue to a transcript, the questions with the answers that were given, and to
the end that it comes to.  Nothing is known of the answers, so what holds of every transcript
holds whatever the surroundings do, also between two questions.

`Meets` says that every transcript of honest answers, after what was said before, ends as a
postcondition asks.  It is worked out question by question, and over two dialogues one after the
other by what the first one meets (`Meets.bind`).
-/

namespace Library

variable {Q : Type} {A : Q → Type} {ε α β : Type}

inductive Dialogue (Q : Type) (A : Q → Type) (ε α : Type) where
  | done (answer : α)
  | fail (error : ε)
  | ask (question : Q) (next : A question → Dialogue Q A ε α)

namespace Dialogue

def bind (x : Dialogue Q A ε α) (f : α → Dialogue Q A ε β) : Dialogue Q A ε β :=
  match x with
  | done a => f a
  | fail e => fail e
  | ask question next => ask question fun answer => (next answer).bind f

instance : Monad (Dialogue Q A ε) where
  pure := done
  bind := bind

@[simp] theorem pure_eq (a : α) : (pure a : Dialogue Q A ε α) = done a := rfl

@[simp] theorem done_bind (a : α) (f : α → Dialogue Q A ε β) : done a >>= f = f a := rfl

@[simp] theorem fail_bind (e : ε) (f : α → Dialogue Q A ε β) :
    (fail e : Dialogue Q A ε α) >>= f = fail e := rfl

@[simp] theorem ask_bind (question : Q) (next : A question → Dialogue Q A ε α)
    (f : α → Dialogue Q A ε β) :
    ask question next >>= f = ask question fun answer => next answer >>= f := rfl

theorem bind_done (x : Dialogue Q A ε α) : x >>= done = x := by
  induction x with
  | done a => rfl
  | fail e => rfl
  | ask question next ih => exact congrArg (ask question) (funext ih)

theorem bind_assoc {γ : Type} (x : Dialogue Q A ε α) (f : α → Dialogue Q A ε β)
    (g : β → Dialogue Q A ε γ) : x >>= f >>= g = x >>= fun a => f a >>= g := by
  induction x with
  | done a => rfl
  | fail e => rfl
  | ask question next ih => exact congrArg (ask question) (funext ih)

instance : LawfulMonad (Dialogue Q A ε) :=
  LawfulMonad.mk' (Dialogue Q A ε) bind_done (fun _ _ => rfl) bind_assoc

/-- A question, and its answer. -/
def put (question : Q) : Dialogue Q A ε (A question) := ask question done

def ofExcept : Except ε α → Dialogue Q A ε α
  | .ok a => done a
  | .error e => fail e

/-! ## Transcripts -/

abbrev Exchange (Q : Type) (A : Q → Type) := Σ question : Q, A question

abbrev Transcript (Q : Type) (A : Q → Type) := List (Exchange Q A)

/-- The dialogue ends so, when this was asked and answered. -/
def Says : Dialogue Q A ε α → Transcript Q A → Except ε α → Prop
  | done a, said, r => said = [] ∧ r = .ok a
  | fail e, said, r => said = [] ∧ r = .error e
  | ask question next, said, r =>
      ∃ answer rest, said = ⟨question, answer⟩ :: rest ∧ (next answer).Says rest r

/-- The end of a dialogue when the answers depend on what was said. -/
def hold (answers : Transcript Q A → (question : Q) → A question) :
    Dialogue Q A ε α → Transcript Q A → Transcript Q A × Except ε α
  | done a, _ => ([], .ok a)
  | fail e, _ => ([], .error e)
  | ask question next, said =>
      let exchange : Exchange Q A := ⟨question, answers said question⟩
      let later := (next exchange.2).hold answers (said ++ [exchange])
      (exchange :: later.1, later.2)

variable {said : Transcript Q A} {r : Except ε α} {a : α} {e : ε} {question : Q}

@[simp] theorem says_done : (done a : Dialogue Q A ε α).Says said r ↔ said = [] ∧ r = .ok a :=
  Iff.rfl

@[simp] theorem says_fail : (fail e : Dialogue Q A ε α).Says said r ↔ said = [] ∧ r = .error e :=
  Iff.rfl

theorem says_ask {next : A question → Dialogue Q A ε α} : (ask question next).Says said r ↔
    ∃ answer rest, said = ⟨question, answer⟩ :: rest ∧ (next answer).Says rest r :=
  Iff.rfl

@[simp] theorem says_put {r : Except ε (A question)} :
    (put question : Dialogue Q A ε (A question)).Says said r ↔
      ∃ answer, said = [⟨question, answer⟩] ∧ r = .ok answer := by
  simp only [put, says_ask, says_done]
  constructor
  · rintro ⟨answer, rest, rfl, rfl, rfl⟩
    exact ⟨answer, rfl, rfl⟩
  · rintro ⟨answer, rfl, rfl⟩
    exact ⟨answer, [], rfl, rfl, rfl⟩

@[simp] theorem says_ofExcept {x : Except ε α} :
    (ofExcept x : Dialogue Q A ε α).Says said r ↔ said = [] ∧ r = x := by
  cases x <;> exact Iff.rfl

/-- The first of two dialogues ends the whole with an error, or is gone on from. -/
theorem says_bind {x : Dialogue Q A ε α} {f : α → Dialogue Q A ε β} {r : Except ε β} :
    (x >>= f).Says said r ↔
      (∃ e, x.Says said (.error e) ∧ r = .error e) ∨
        ∃ a before after, said = before ++ after ∧ x.Says before (.ok a) ∧ (f a).Says after r := by
  induction x generalizing said with
  | done a => simp
  | fail e => simp
  | ask question next ih =>
      rw [ask_bind, says_ask]
      constructor
      · rintro ⟨answer, rest, rfl, h⟩
        rcases (ih answer).mp h with ⟨e, he, hr⟩ | ⟨a, before, after, rfl, hx, hf⟩
        · exact .inl ⟨e, ⟨answer, rest, rfl, he⟩, hr⟩
        · exact .inr ⟨a, ⟨question, answer⟩ :: before, after, rfl, ⟨answer, before, rfl, hx⟩, hf⟩
      · rintro (⟨e, ⟨answer, rest, rfl, he⟩, hr⟩ |
          ⟨a, before, after, rfl, ⟨answer, rest, rfl, hx⟩, hf⟩)
        · exact ⟨answer, rest, rfl, (ih answer).mpr (.inl ⟨e, he, hr⟩)⟩
        · exact ⟨answer, rest ++ after, rfl, (ih answer).mpr (.inr ⟨a, rest, after, rfl, hx, hf⟩)⟩

/-- Every way to answer gives a transcript. -/
theorem says_hold (answers : Transcript Q A → (question : Q) → A question)
    (x : Dialogue Q A ε α) (before : Transcript Q A) :
    x.Says (x.hold answers before).1 (x.hold answers before).2 := by
  induction x generalizing before with
  | done a => exact ⟨rfl, rfl⟩
  | fail e => exact ⟨rfl, rfl⟩
  | ask question next ih => exact ⟨_, _, rfl, ih _ _⟩

theorem mem_hold {answers : Transcript Q A → (question : Q) → A question}
    {x : Dialogue Q A ε α} {exchange : Exchange Q A} (h : exchange ∈ (x.hold answers said).1) :
    ∃ before, exchange = ⟨exchange.1, answers before exchange.1⟩ := by
  induction x generalizing said with
  | done a => cases h
  | fail e => cases h
  | ask question next ih =>
      rcases List.mem_cons.mp h with rfl | h
      · exact ⟨said, rfl⟩
      · exact ih _ h

/-! ## Postconditions -/

section

variable (H : Exchange Q A → Prop) (P : Except ε α → Transcript Q A → Prop)

/-- After this was said the dialogue ends as `P` asks, if the answers are as `H` asks. -/
def Meets : Dialogue Q A ε α → Transcript Q A → Prop
  | done a, said => P (.ok a) said
  | fail e, said => P (.error e) said
  | ask question next, said =>
      ∀ answer, H ⟨question, answer⟩ → (next answer).Meets (said ++ [⟨question, answer⟩])

end

variable {H : Exchange Q A → Prop} {P : Except ε α → Transcript Q A → Prop}
  {before : Transcript Q A}

@[simp] theorem meets_done : (done a).Meets H P before ↔ P (.ok a) before := Iff.rfl

@[simp] theorem meets_fail : (fail e).Meets H P before ↔ P (.error e) before := Iff.rfl

@[simp] theorem meets_ofExcept {x : Except ε α} : (ofExcept x).Meets H P before ↔ P x before := by
  cases x <;> exact Iff.rfl

theorem meets_put {P : Except ε (A question) → Transcript Q A → Prop} :
    (put question).Meets H P before ↔
      ∀ answer, H ⟨question, answer⟩ → P (.ok answer) (before ++ [⟨question, answer⟩]) :=
  Iff.rfl

theorem meets_iff {x : Dialogue Q A ε α} : x.Meets H P before ↔
    ∀ said r, (∀ exchange ∈ said, H exchange) → x.Says said r → P r (before ++ said) := by
  induction x generalizing before with
  | done a =>
      constructor
      · rintro h said r - ⟨rfl, rfl⟩
        rwa [List.append_nil]
      · intro h
        simpa using h [] (.ok a) (by simp) ⟨rfl, rfl⟩
  | fail e =>
      constructor
      · rintro h said r - ⟨rfl, rfl⟩
        rwa [List.append_nil]
      · intro h
        simpa using h [] (.error e) (by simp) ⟨rfl, rfl⟩
  | ask question next ih =>
      constructor
      · rintro h said r hsaid ⟨answer, rest, rfl, hrest⟩
        rw [List.forall_mem_cons] at hsaid
        simpa using (ih answer).mp (h answer hsaid.1) rest r hsaid.2 hrest
      · intro h answer hanswer
        refine (ih answer).mpr fun rest r hrest hsays => ?_
        simpa using h (⟨question, answer⟩ :: rest) r (List.forall_mem_cons.mpr ⟨hanswer, hrest⟩)
          ⟨answer, rest, rfl, hsays⟩

theorem Meets.mono {x : Dialogue Q A ε α} {P' : Except ε α → Transcript Q A → Prop}
    (h : x.Meets H P before) (hP : ∀ r said, P r said → P' r said) : x.Meets H P' before :=
  meets_iff.mpr fun said r hsaid hsays => hP r _ (meets_iff.mp h said r hsaid hsays)

/-- The second dialogue goes on from what the first one meets. -/
theorem Meets.bind {x : Dialogue Q A ε α} {f : α → Dialogue Q A ε β}
    {P' : Except ε β → Transcript Q A → Prop} (h : x.Meets H P before)
    (hok : ∀ a said, P (.ok a) said → (f a).Meets H P' said)
    (herror : ∀ e said, P (.error e) said → P' (.error e) said) : (x >>= f).Meets H P' before := by
  induction x generalizing before with
  | done a => exact hok a before h
  | fail e => exact herror e before h
  | ask question next ih => exact fun answer hanswer => ih answer (h answer hanswer)

/-! ## One dialogue for each of several values -/

/-- The dialogues one after the other, each with its transcript and its answer. -/
inductive Each (f : β → Dialogue Q A ε α) : List β → Transcript Q A → List α → Prop where
  | nil : Each f [] [] []
  | cons {b : β} {bs : List β} {a : α} {as : List α} {said rest : Transcript Q A} :
      (f b).Says said (.ok a) → Each f bs rest as → Each f (b :: bs) (said ++ rest) (a :: as)

/-- All of them answer, or the first that fails ends the whole. -/
theorem says_mapM {f : β → Dialogue Q A ε α} {bs : List β} {r : Except ε (List α)} :
    (bs.mapM f).Says said r ↔
      (∃ as, r = .ok as ∧ Each f bs said as) ∨
        ∃ done b left as before after e, bs = done ++ b :: left ∧ r = .error e ∧
          said = before ++ after ∧ Each f done before as ∧ (f b).Says after (.error e) := by
  induction bs generalizing said r with
  | nil =>
      constructor
      · rintro ⟨rfl, rfl⟩
        exact .inl ⟨[], rfl, .nil⟩
      · rintro (⟨as, rfl, h⟩ | ⟨done, b, left, as, before, after, e, h, -⟩)
        · cases h
          exact ⟨rfl, rfl⟩
        · simp at h
  | cons b bs ih =>
      rw [List.mapM_cons, says_bind]
      constructor
      · rintro (⟨e, he, rfl⟩ | ⟨a, before, after, rfl, ha, hrest⟩)
        · exact .inr ⟨[], b, bs, [], [], said, e, rfl, rfl, rfl, .nil, he⟩
        · rw [says_bind] at hrest
          rcases hrest with ⟨e, he, rfl⟩ | ⟨as, middle, last, rfl, has, hlast⟩
          · rcases ih.mp he with ⟨as, hok, -⟩ |
              ⟨done, b', left, as, m, l, e', rfl, hr, rfl, hdone, hb'⟩
            · cases hok
            · cases hr
              exact .inr ⟨b :: done, b', left, a :: as, before ++ m, l, e, rfl, rfl,
                by simp, .cons ha hdone, hb'⟩
          · obtain ⟨rfl, rfl⟩ := hlast
            rcases ih.mp has with ⟨as', hok, heach⟩ | ⟨_, _, _, _, _, _, _, _, hr, _⟩
            · cases hok
              exact .inl ⟨a :: as, rfl, by simpa using Each.cons ha heach⟩
            · cases hr
      · rintro (⟨as, rfl, h⟩ | ⟨done, b', left, as, before, after, e, hbs, rfl, rfl, hdone, hb'⟩)
        · cases h with
          | cons ha heach =>
              refine .inr ⟨_, _, _, rfl, ha, says_bind.mpr
                (.inr ⟨_, _, [], (List.append_nil _).symm,
                ih.mpr (.inl ⟨_, rfl, heach⟩), ⟨rfl, rfl⟩⟩)⟩
        · cases done with
          | nil =>
              cases hdone
              obtain ⟨rfl, rfl⟩ := List.cons.inj hbs
              exact .inl ⟨e, hb', rfl⟩
          | cons d done =>
              obtain ⟨rfl, rfl⟩ := List.cons.inj hbs
              cases hdone with
              | cons ha heach =>
                  refine .inr ⟨_, _, _, List.append_assoc _ _ _, ha, says_bind.mpr (.inl ⟨e, ih.mpr
                    (.inr ⟨_, _, _, _, _, _, e, rfl, rfl, rfl, heach, hb'⟩), rfl⟩)⟩

end Dialogue

end Library
