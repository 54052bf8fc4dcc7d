import AgentsCanCommunicate.Library.Run

/-!
# Programs of atomic steps

A process works on a state that it shares with others.  It goes on in atomic
steps: a step reads the state and an input from outside, changes the state and
decides how the process goes on.  Between two steps of one process the others do
any number of theirs.

A process is judged against two relations on a step.  The first is assumed of
every step of the system, and the second is what every process keeps to.
`Keeps` says that a process keeps to it from a state on, whatever steps of the
others come in between, and that its answer meets a postcondition.  What holds
of the state that a process last saw, and that the steps of others keep, may be
used at its next step.

A system starts processes, lets any of them take its next step, and may lose any
of them.  If what is started keeps to the second relation, every step of every
run does (`System.kept`), and what these steps keep holds in every state of a run
(`System.invariant`).
-/

namespace Library

variable {σ ι τ ε α β γ : Type}

inductive Process (σ ι τ ε α : Type) where
  | done (answer : α)
  | fail (error : ε)
  /-- One atomic step, with a tag that says what it is. -/
  | step (tag : τ) (effect : ι → σ → σ) (next : ι → σ → Process σ ι τ ε α)

namespace Process

def bind (x : Process σ ι τ ε α) (f : α → Process σ ι τ ε β) : Process σ ι τ ε β :=
  match x with
  | done a => f a
  | fail e => fail e
  | step tag effect next => step tag effect fun i s => (next i s).bind f

instance : Monad (Process σ ι τ ε) where
  pure := done
  bind := bind

@[simp] theorem pure_eq (a : α) : (pure a : Process σ ι τ ε α) = done a := rfl

@[simp] theorem done_bind (a : α) (f : α → Process σ ι τ ε β) : done a >>= f = f a := rfl

@[simp] theorem fail_bind (e : ε) (f : α → Process σ ι τ ε β) :
    (fail e : Process σ ι τ ε α) >>= f = fail e := rfl

@[simp] theorem step_bind (tag : τ) (effect : ι → σ → σ) (next : ι → σ → Process σ ι τ ε α)
    (f : α → Process σ ι τ ε β) :
    step tag effect next >>= f = step tag effect fun i s => next i s >>= f := rfl

/-- What was computed, or the error. -/
def ofExcept : Except ε α → Process σ ι τ ε α
  | .ok a => done a
  | .error e => fail e

@[simp] theorem ofExcept_ok (a : α) : (ofExcept (.ok a) : Process σ ι τ ε α) = done a := rfl

@[simp] theorem ofExcept_error (e : ε) :
    (ofExcept (.error e) : Process σ ι τ ε α) = fail e := rfl

/-- A step that only reads. -/
def look (tag : τ) (f : ι → σ → α) : Process σ ι τ ε α :=
  step tag (fun _ s => s) fun i s => done (f i s)

/-- A step that writes whole or fails and writes nothing. -/
def atomically (tag : τ) (f : ι → σ → Except ε (σ × α)) : Process σ ι τ ε α :=
  step tag (fun i s => ((f i s).map Prod.fst).toOption.getD s) fun i s =>
    ofExcept ((f i s).map Prod.snd)

/-! ## A process that runs alone -/

/-- The process to its end, when nothing comes in between and the input from
outside stays the same. -/
def alone (i : ι) : Process σ ι τ ε α → σ → σ × Except ε α
  | done a, s => (s, .ok a)
  | fail e, s => (s, .error e)
  | step _ effect next, s => (next i s).alone i (effect i s)

@[simp] theorem alone_done (i : ι) (a : α) (s : σ) :
    (done a : Process σ ι τ ε α).alone i s = (s, .ok a) := rfl

@[simp] theorem alone_fail (i : ι) (e : ε) (s : σ) :
    (fail e : Process σ ι τ ε α).alone i s = (s, .error e) := rfl

@[simp] theorem alone_look (i : ι) (tag : τ) (f : ι → σ → α) (s : σ) :
    (look tag f : Process σ ι τ ε α).alone i s = (s, .ok (f i s)) := rfl

@[simp] theorem alone_atomically (i : ι) (tag : τ) (f : ι → σ → Except ε (σ × α)) (s : σ) :
    (atomically tag f).alone i s = match f i s with
      | .ok (t, a) => (t, .ok a)
      | .error e => (s, .error e) := by
  simp only [atomically, alone]
  cases f i s with
  | ok done => rfl
  | error e => rfl

theorem alone_bind (i : ι) (x : Process σ ι τ ε α) (f : α → Process σ ι τ ε β) (s : σ) :
    (x >>= f).alone i s = match x.alone i s with
      | (s', .ok a) => (f a).alone i s'
      | (s', .error e) => (s', .error e) := by
  induction x generalizing s with
  | done a => rfl
  | fail e => rfl
  | step tag effect next ih => exact ih i s (effect i s)

/-! ## What a process keeps to -/

section

variable (A G : τ → σ → σ → Prop)

/-- Any number of steps of the system. -/
def Between : σ → σ → Prop :=
  Relation.ReflTransGen fun s s' => ∃ tag, A tag s s' ∧ G tag s s'

/-- Last seen at `s`, the process keeps to `G` as long as all steps meet `A`, and
what it answers meets `Q`. -/
def Keeps : Process σ ι τ ε α → σ → (α → σ → Prop) → Prop
  | done a, s, Q => Q a s
  | fail _, _, _ => True
  | step tag effect next, s, Q => ∀ s', Between A G s s' → ∀ i, A tag s' (effect i s') →
      G tag s' (effect i s') ∧ (next i s').Keeps (effect i s') Q

end

variable {A G : τ → σ → σ → Prop} {s s' : σ} {Q : α → σ → Prop}

theorem Between.trans {s₁ s₂ s₃ : σ} (h : Between A G s₁ s₂) (h' : Between A G s₂ s₃) :
    Between A G s₁ s₃ := Relation.ReflTransGen.trans h h'

/-- What every step keeps holds after any number of them. -/
theorem Between.invariant {I : σ → Prop} (h : Between A G s s')
    (hstep : ∀ tag t t', A tag t t' → G tag t t' → I t → I t') (hs : I s) : I s' := by
  induction h with
  | refl => exact hs
  | tail _ h ih =>
      obtain ⟨tag, hA, hG⟩ := h
      exact hstep tag _ _ hA hG ih

theorem Keeps.mono {R : α → σ → Prop} {x : Process σ ι τ ε α} (h : x.Keeps A G s Q)
    (himp : ∀ a t, Q a t → R a t) : x.Keeps A G s R := by
  induction x generalizing s with
  | done a => exact himp a s h
  | fail e => trivial
  | step tag effect next ih =>
      intro s' hs' i hA
      obtain ⟨hG, hnext⟩ := h s' hs' i hA
      exact ⟨hG, ih i s' hnext⟩

/-- Steps of others come before the next step of a process. -/
theorem Keeps.later {x : Process σ ι τ ε α} (h : x.Keeps A G s Q) (hs : Between A G s s')
    (hstable : ∀ a, Q a s → Q a s') : x.Keeps A G s' Q := by
  cases x with
  | done a => exact hstable a h
  | fail e => trivial
  | step tag effect next =>
      intro t ht
      exact h t (hs.trans ht)

theorem Keeps.bind {R : β → σ → Prop} {x : Process σ ι τ ε α} {f : α → Process σ ι τ ε β}
    (h : x.Keeps A G s fun a t => (f a).Keeps A G t R) : (x >>= f).Keeps A G s R := by
  induction x generalizing s with
  | done a => exact h
  | fail e => trivial
  | step tag effect next ih =>
      intro s' hs' i hA
      obtain ⟨hG, hnext⟩ := h s' hs' i hA
      exact ⟨hG, ih i s' hnext⟩

theorem Keeps.ofExcept {r : Except ε α} (h : ∀ a, r = .ok a → Q a s) :
    (Process.ofExcept r : Process σ ι τ ε α).Keeps A G s Q := by
  cases r with
  | ok a => exact h a rfl
  | error e => trivial

theorem Keeps.look {tag : τ} {f : ι → σ → α} (hidle : ∀ t, G tag t t)
    (h : ∀ t i, Between A G s t → Q (f i t) t) :
    (Process.look tag f : Process σ ι τ ε α).Keeps A G s Q :=
  fun t ht i _ => ⟨hidle t, h t i ht⟩

theorem Keeps.atomically {tag : τ} {f : ι → σ → Except ε (σ × α)} (hidle : ∀ t, G tag t t)
    (h : ∀ t i t' a, Between A G s t → f i t = .ok (t', a) → A tag t t' → G tag t t' ∧ Q a t') :
    (Process.atomically tag f : Process σ ι τ ε α).Keeps A G s Q := by
  intro t ht i hA
  cases hf : f i t with
  | ok r =>
      simp only [hf] at hA ⊢
      exact h t i r.1 r.2 ht hf hA
  | error e =>
      simp only [hf] at hA ⊢
      exact ⟨hidle t, trivial⟩

end Process

namespace Process

/-! ## What every step of a process does

What holds of each step in itself, whatever came in between, needs no
environment.  A process may be given wider tags, and then it keeps to both. -/

/-- Each step of the process is one of `P`. -/
def Always (P : τ → σ → σ → Prop) : Process σ ι τ ε α → Prop
  | done _ => True
  | fail _ => True
  | step tag effect next => ∀ i s, P tag s (effect i s) ∧ (next i s).Always P

variable {P : τ → σ → σ → Prop}

theorem Always.bind {x : Process σ ι τ ε α} {f : α → Process σ ι τ ε β} (hx : x.Always P)
    (hf : ∀ a, (f a).Always P) : (x >>= f).Always P := by
  induction x with
  | done a => exact hf a
  | fail e => trivial
  | step tag effect next ih =>
      intro i s
      obtain ⟨hP, hnext⟩ := hx i s
      exact ⟨hP, ih i s hnext⟩

theorem Always.ofExcept {r : Except ε α} :
    (Process.ofExcept r : Process σ ι τ ε α).Always P := by
  cases r <;> trivial

theorem Always.look {tag : τ} {f : ι → σ → α} (hidle : ∀ s, P tag s s) :
    (Process.look tag f : Process σ ι τ ε α).Always P :=
  fun _ s => ⟨hidle s, trivial⟩

theorem Always.atomically {tag : τ} {f : ι → σ → Except ε (σ × α)} (hidle : ∀ s, P tag s s)
    (h : ∀ i s s' a, f i s = .ok (s', a) → P tag s s') :
    (Process.atomically tag f : Process σ ι τ ε α).Always P := by
  intro i s
  cases hf : f i s with
  | ok r =>
      simp only [hf]
      exact ⟨h i s r.1 r.2 hf, trivial⟩
  | error e =>
      simp only [hf]
      exact ⟨hidle s, trivial⟩

/-- The same process under other tags. -/
def retag {τ' : Type} (g : τ → τ') : Process σ ι τ ε α → Process σ ι τ' ε α
  | done a => done a
  | fail e => fail e
  | step tag effect next => step (g tag) effect fun i s => (next i s).retag g

theorem Between.untag {τ' : Type} {p : τ' → τ} {A G : τ → σ → σ → Prop}
    {P : τ' → σ → σ → Prop} {s s' : σ}
    (h : Between (fun t => A (p t)) (fun t u u' => G (p t) u u' ∧ P t u u') s s') :
    Between A G s s' := by
  induction h with
  | refl => exact .refl
  | tail _ h ih =>
      obtain ⟨t, hA, hG, -⟩ := h
      exact ih.tail ⟨p t, hA, hG⟩

/-- A wider tag keeps what the process kept to, and says what its steps do. -/
theorem Keeps.retag {τ' : Type} {g : τ → τ'} {p : τ' → τ} {A G : τ → σ → σ → Prop}
    {P : τ' → σ → σ → Prop} (hp : ∀ t, p (g t) = t) {x : Process σ ι τ ε α} {s : σ}
    {Q : α → σ → Prop} (hx : x.Keeps A G s Q) (hP : x.Always fun t => P (g t)) :
    (x.retag g).Keeps (fun t => A (p t)) (fun t u u' => G (p t) u u' ∧ P t u u') s Q := by
  induction x generalizing s with
  | done a => exact hx
  | fail e => trivial
  | step tag effect next ih =>
      intro s' hs' i hA
      have hbetween : Between A G s s' := hs'.untag
      simp only [hp] at hA
      obtain ⟨hG, hnext⟩ := hx s' hbetween i hA
      obtain ⟨hstep, halways⟩ := hP i s'
      simp only [hp]
      exact ⟨⟨hG, hstep⟩, ih i s' hnext halways⟩

end Process

/-! ## Systems of processes -/

/-- A shared state and the processes under way, by number. -/
structure System (σ ι τ ε : Type) where
  shared : σ
  running : Nat → Option (Process σ ι τ ε Unit)

namespace System

/-- What is done in a system. -/
inductive Label (ρ ι : Type) where
  | start (n : Nat) (request : ρ)
  | act (n : Nat) (input : ι)
  /-- The process is lost. -/
  | lose (n : Nat)

variable {ρ : Type}

/-- Nothing is under way. -/
def idle (s : σ) : System σ ι τ ε := ⟨s, fun _ => none⟩

def setRunning (w : System σ ι τ ε) (n : Nat) (r : Option (Process σ ι τ ε Unit)) :
    System σ ι τ ε :=
  { w with running := Function.update w.running n r }

/-- What is started for a request is its process. -/
def step (calls : ρ → Process σ ι τ ε Unit) (w : System σ ι τ ε) :
    Label ρ ι → Option (System σ ι τ ε)
  | .start n request =>
      match w.running n with
      | none => some (w.setRunning n (some (calls request)))
      | some _ => none
  | .act n i =>
      match w.running n with
      | some (.step _ effect next) =>
          some (setRunning ⟨effect i w.shared, w.running⟩ n (some (next i w.shared)))
      | _ => none
  | .lose n => some (w.setRunning n none)

/-- The tag of the step that a process takes. -/
def tag (w : System σ ι τ ε) : Label ρ ι → Option τ
  | .act n _ =>
      match w.running n with
      | some (.step tag _ _) => some tag
      | _ => none
  | _ => none

/-- A step, of which `A` holds. -/
def Steps (calls : ρ → Process σ ι τ ε Unit) (A : τ → σ → σ → Prop) (w : System σ ι τ ε)
    (label : Label ρ ι) (w' : System σ ι τ ε) : Prop :=
  step calls w label = some w' ∧ ∀ t, w.tag label = some t → A t w.shared w'.shared

/-- Every process under way keeps to `G`. -/
def Kept (A G : τ → σ → σ → Prop) (w : System σ ι τ ε) : Prop :=
  ∀ n x, w.running n = some x → x.Keeps A G w.shared fun _ _ => True

/-- One step of a process, or nothing, as the shared state shows it. -/
def Moved (A G : τ → σ → σ → Prop) (s s' : σ) : Prop :=
  s' = s ∨ ∃ t, A t s s' ∧ G t s s'

variable {calls : ρ → Process σ ι τ ε Unit} {A G : τ → σ → σ → Prop} {I : σ → Prop}
  {w w' : System σ ι τ ε} {label : Label ρ ι}

theorem Kept.setRunning {s : σ} {n : Nat} {r : Option (Process σ ι τ ε Unit)}
    {running : Nat → Option (Process σ ι τ ε Unit)}
    (h : ∀ m x, running m = some x → x.Keeps A G s fun _ _ => True)
    (hr : ∀ x, r = some x → x.Keeps A G s fun _ _ => True) :
    Kept A G (System.setRunning ⟨s, running⟩ n r) := by
  intro m x hx
  simp only [System.setRunning] at hx
  by_cases hm : m = n
  · subst hm
    rw [Function.update_self] at hx
    exact hr x hx
  · rw [Function.update_of_ne hm] at hx
    exact h m x hx

/-- A step of a process is a step of the tag it has. -/
theorem step_act {n : Nat} {i : ι} (h : step calls w (.act n i) = some w') :
    ∃ t effect next, w.running n = some (.step t effect next) ∧
      w.tag (.act n i : Label ρ ι) = some t ∧
      w' = System.setRunning ⟨effect i w.shared, w.running⟩ n (some (next i w.shared)) := by
  rw [step] at h
  split at h
  next t effect next hrunning =>
    cases h
    exact ⟨t, effect, next, hrunning, by rw [System.tag, hrunning], rfl⟩
  next => cases h

/-- Only a step of a process touches the shared state. -/
theorem shared_of_tag_none (h : step calls w label = some w')
    (htag : w.tag label = none) : w'.shared = w.shared := by
  cases label with
  | start n request =>
      rw [step] at h
      split at h
      next =>
        cases h
        rfl
      next => cases h
  | act n i =>
      obtain ⟨t, _, _, _, htag', _⟩ := step_act h
      rw [htag] at htag'
      cases htag'
  | lose n =>
      cases h
      rfl

/-- What is done in order. -/
def perform (calls : ρ → Process σ ι τ ε Unit) (w : System σ ι τ ε)
    (labels : List (Label ρ ι)) : Option (System σ ι τ ε) :=
  labels.foldlM (step calls) w

/-- What was performed is a run, of which nothing is assumed. -/
theorem perform_trace {labels : List (Label ρ ι)} (h : perform calls w labels = some w') :
    ∃ visited, Trace (Steps calls fun _ _ _ => True) w visited w' := by
  suffices hfrom : ∀ (labels : List (Label ρ ι)) {u : System σ ι τ ε}
      {visited : List (System σ ι τ ε)}, Trace (Steps calls fun _ _ _ => True) w visited u →
      perform calls u labels = some w' →
      ∃ visited, Trace (Steps calls fun _ _ _ => True) w visited w' from hfrom labels .nil h
  intro labels
  induction labels with
  | nil =>
      intro u visited hrun hdone
      cases hdone
      exact ⟨visited, hrun⟩
  | cons label labels ih =>
      intro u visited hrun hdone
      rw [perform, List.foldlM_cons, Option.bind_eq_bind, Option.bind_eq_some_iff] at hdone
      obtain ⟨v, hstep, hdone⟩ := hdone
      exact ih (hrun.snoc label ⟨hstep, fun _ _ => trivial⟩) hdone

/-- What is started keeps to `G` where `I` holds. -/
def Sound (calls : ρ → Process σ ι τ ε Unit) (A G : τ → σ → σ → Prop) (I : σ → Prop) : Prop :=
  ∀ request s, I s → (calls request).Keeps A G s fun _ _ => True

theorem Kept.step (h : Kept A G w) (hcalls : Sound calls A G I) (hI : I w.shared)
    (hstep : Steps calls A w label w') : Kept A G w' ∧ Moved A G w.shared w'.shared := by
  obtain ⟨hstep, hA⟩ := hstep
  cases label with
  | start n request =>
      rw [System.step] at hstep
      split at hstep
      next =>
        cases hstep
        refine ⟨Kept.setRunning h fun x hx => ?_, Or.inl rfl⟩
        cases hx
        exact hcalls request _ hI
      next => cases hstep
  | act n i =>
      obtain ⟨t, effect, next, hrunning, htag, rfl⟩ := step_act hstep
      have hA := hA t htag
      obtain ⟨hG, hnext⟩ := h n _ hrunning w.shared .refl i hA
      refine ⟨Kept.setRunning (fun m x hx => ?_) fun x hx => ?_, Or.inr ⟨t, hA, hG⟩⟩
      · exact (h m x hx).later (.single ⟨t, hA, hG⟩) fun _ _ => trivial
      · cases hx
        exact hnext
  | lose n =>
      cases hstep
      refine ⟨Kept.setRunning h fun x hx => ?_, Or.inl rfl⟩
      cases hx

/-- The step that a process of a kept system takes is one of `G`. -/
theorem Kept.guarantee (h : Kept A G w) (hstep : Steps calls A w label w') {t : τ}
    (htag : w.tag label = some t) : G t w.shared w'.shared := by
  obtain ⟨hstep, hA⟩ := hstep
  cases label with
  | start n request => cases htag
  | act n i =>
      obtain ⟨t', effect, next, hrunning, htag', rfl⟩ := step_act hstep
      rw [htag] at htag'
      cases htag'
      exact (h n _ hrunning w.shared .refl i (hA t htag)).1
  | lose n => cases htag

theorem kept_idle (s : σ) : Kept (ι := ι) (ε := ε) A G (idle s) := by
  intro n x hx
  cases hx

theorem Moved.invariant {J : σ → Prop} {s s' : σ} (h : Moved A G s s')
    (hstep : ∀ t u u', A t u u' → G t u u' → J u → J u') (hs : J s) : J s' := by
  rcases h with rfl | ⟨t, hA, hG⟩
  · exact hs
  · exact hstep t _ _ hA hG hs

variable {s : σ} {visited : List (System σ ι τ ε)}

/-- In every run from an idle system all processes keep to `G`, and the shared
state moves by `G`. -/
theorem kept (hcalls : Sound calls A G I)
    (hI : ∀ t u u', A t u u' → G t u u' → I u → I u') (hs : I s)
    (hrun : Trace (Steps calls A) (idle s) visited w) :
    Kept A G w ∧ I w.shared ∧
      Trace (fun u (_ : Unit) u' => Moved A G u u') s (visited.map shared) w.shared := by
  induction hrun with
  | nil => exact ⟨kept_idle s, hs, .nil⟩
  | snoc _ _ hstep ih =>
      obtain ⟨hkept, hI', htrace⟩ := ih
      obtain ⟨hkept', hmoved⟩ := hkept.step hcalls hI' hstep
      refine ⟨hkept', hmoved.invariant hI hI', ?_⟩
      rw [List.map_append]
      exact htrace.snoc () hmoved

/-- What the steps of `G` keep holds in every run. -/
theorem invariant {J : σ → Prop} (hcalls : Sound calls A G I)
    (hI : ∀ t u u', A t u u' → G t u u' → I u → I u') (hs : I s)
    (hstep : ∀ t u u', A t u u' → G t u u' → J u → J u') (hJ : J s)
    (hrun : Trace (Steps calls A) (idle s) visited w) : J w.shared :=
  (kept hcalls hI hs hrun).2.2.invariant (fun _ _ _ hu hmoved => hmoved.invariant hstep hu) hJ

end System

end Library
