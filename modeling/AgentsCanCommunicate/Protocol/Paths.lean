import AgentsCanCommunicate.Library.Paths
import AgentsCanCommunicate.Protocol.Resources

/-!
# Paths of names

What the segments of a path say, and where `path.resolve` leads under POSIX.

`normalisePath` keeps the segments that say something.  They are the normal form
of the path, the steps up first, and so a normal path is read back as it was
written.
-/

namespace Acc

open Library (Move Climb walk climb)

/-- What a segment says to `path.resolve`. -/
def moveOf (segment : List Char) : Move (List Char) :=
  if segment = [] ∨ segment = ['.'] then .stay
  else if segment = ['.', '.'] then .up
  else .down segment

def posixMoves (path : List Char) : List (Move (List Char)) := (segments path).map moveOf

/-- `path.posix.resolve`, from the names of an absolute base. -/
def posixResolve (base : List (List Char)) (path : List Char) : List (List Char) :=
  walk (if path.head? = some '/' then [] else base) (posixMoves path)

/-- A name can stand in a directory. -/
def IsName (name : List Char) : Prop := moveOf name = .down name ∧ '/' ∉ name

/-- `names.join("/")`. -/
def joinNames (names : List (List Char)) : List Char := ['/'].intercalate names

variable {name : List Char} {names rest : List (List Char)} {value : List Char}

theorem moveOf_eq_down {segment name : List Char} (h : moveOf segment = .down name) :
    segment = name := by
  rw [moveOf] at h
  split at h
  · cases h
  · split at h
    · cases h
    · exact (Move.down.inj h)

theorem IsName.ne_nil (h : IsName name) : name ≠ [] := by
  rintro rfl
  cases h.1

theorem IsName.ne_up (h : IsName name) : name ≠ ['.', '.'] := by
  rintro rfl
  cases h.1

/-! ## Segments -/

theorem joinNames_segments (value : List Char) : joinNames (segments value) = value :=
  List.intercalate_splitOn '/'

theorem segments_joinNames (hnames : names ≠ []) (h : ∀ name ∈ names, '/' ∉ name) :
    segments (joinNames names) = names :=
  List.splitOn_intercalate '/' h hnames

theorem segments_append (first second : List Char) :
    segments (first ++ '/' :: second) = segments first ++ segments second :=
  List.splitOn_append_cons_self first second

theorem segments_ne_nil (value : List Char) : segments value ≠ [] := List.splitOn_ne_nil '/' value

theorem slash_notMem_segments : ∀ {value segment : List Char}, segment ∈ segments value →
    '/' ∉ segment
  | [], segment, h => by
      rw [segments, List.splitOn_nil, List.mem_singleton] at h
      rw [h]
      exact List.not_mem_nil
  | c :: value, segment, h => by
      rw [segments, List.splitOn_cons_eq_if_modifyHead] at h
      by_cases hc : c = '/'
      · rw [if_pos (beq_iff_eq.mpr hc)] at h
        rcases List.mem_cons.mp h with rfl | h
        · exact List.not_mem_nil
        · exact slash_notMem_segments h
      · rw [if_neg (by simpa using hc)] at h
        obtain ⟨first, others, hsplit⟩ := List.exists_cons_of_ne_nil (segments_ne_nil value)
        rw [show value.splitOn '/' = first :: others from hsplit, List.modifyHead_cons] at h
        have hfirst : '/' ∉ first :=
          @slash_notMem_segments value _ (hsplit ▸ List.mem_cons_self ..)
        rcases List.mem_cons.mp h with rfl | h
        · exact List.not_mem_cons_of_ne_of_not_mem (fun heq => hc heq.symm) hfirst
        · exact @slash_notMem_segments value _ (hsplit ▸ List.mem_cons_of_mem _ h)

theorem segments_inj {first second : List Char} (h : segments first = segments second) :
    first = second := by
  rw [← joinNames_segments first, h, joinNames_segments]

theorem joinNames_append (hnames : names ≠ []) (hrest : rest ≠ []) :
    joinNames (names ++ rest) = joinNames names ++ '/' :: joinNames rest := by
  induction names with
  | nil => exact absurd rfl hnames
  | cons name names ih =>
      cases names with
      | nil =>
          obtain ⟨first, others, rfl⟩ := List.exists_cons_of_ne_nil hrest
          simp [joinNames]
      | cons second names =>
          have hnext := ih (List.cons_ne_nil _ _)
          simp only [joinNames, List.cons_append, List.intercalate_cons_cons, List.append_assoc,
            List.nil_append] at hnext ⊢
          rw [hnext]

@[simp] theorem joinNames_singleton (name : List Char) : joinNames [name] = name :=
  List.intercalate_singleton

theorem joinNames_cons (hrest : rest ≠ []) :
    joinNames (name :: rest) = name ++ '/' :: joinNames rest := by
  rw [← List.singleton_append, joinNames_append (List.cons_ne_nil _ _) hrest, joinNames_singleton]

/-! ## Characters -/

theorem mem_joinNames {c : Char} (h : c ∈ joinNames names) :
    c = '/' ∨ ∃ name ∈ names, c ∈ name := by
  induction names with
  | nil => cases h
  | cons name names ih =>
      by_cases hrest : names = []
      · rw [hrest, joinNames_singleton] at h
        exact .inr ⟨name, List.mem_cons_self .., h⟩
      · rw [joinNames_cons hrest] at h
        rcases List.mem_append.mp h with h | h
        · exact .inr ⟨name, List.mem_cons_self .., h⟩
        · rcases List.mem_cons.mp h with rfl | h
          · exact .inl rfl
          · rcases ih h with rfl | ⟨other, hother, h⟩
            · exact .inl rfl
            · exact .inr ⟨other, List.mem_cons_of_mem _ hother, h⟩

theorem mem_joinNames_of_mem {c : Char} (hname : name ∈ names) (h : c ∈ name) :
    c ∈ joinNames names := by
  induction names with
  | nil => cases hname
  | cons first names ih =>
      by_cases hrest : names = []
      · rw [hrest, List.mem_singleton] at hname
        rw [hrest, joinNames_singleton, ← hname]
        exact h
      · rw [joinNames_cons hrest]
        rcases List.mem_cons.mp hname with rfl | hname
        · exact List.mem_append_left _ h
        · exact List.mem_append_right _ (List.mem_cons_of_mem _ (ih hname))

theorem mem_pushSegment {kept : List (List Char)} {segment : List Char}
    (h : name ∈ pushSegment kept segment) : name ∈ kept ∨ name = segment := by
  rw [pushSegment] at h
  split at h
  · exact .inl h
  · split at h
    · exact .inl (List.mem_of_mem_dropLast h)
    · exact (List.mem_append.mp h).imp_right List.mem_singleton.mp

theorem mem_foldl_pushSegment {kept path : List (List Char)}
    (h : name ∈ path.foldl pushSegment kept) : name ∈ kept ∨ name ∈ path := by
  induction path generalizing kept with
  | nil => exact .inl h
  | cons segment path ih =>
      rcases ih h with h | h
      · rcases mem_pushSegment h with h | rfl
        · exact .inl h
        · exact .inr (List.mem_cons_self ..)
      · exact .inr (List.mem_cons_of_mem _ h)

/-- Normalising brings in no character but the separator. -/
theorem mem_normalisePath {c : Char} (h : c ∈ normalisePath value) : c = '/' ∨ c ∈ value := by
  rcases mem_joinNames h with rfl | ⟨segment, hsegment, h⟩
  · exact .inl rfl
  · rcases mem_foldl_pushSegment hsegment with hnil | hsegment
    · cases hnil
    · rw [← joinNames_segments value]
      exact .inr (mem_joinNames_of_mem hsegment h)

/-! ## Directories -/

/-- A directory and what lies in it are told by the segments. -/
theorem under_iff {directory plain : List Char} :
    (plain = directory ∨ directory ++ ['/'] <+: plain) ↔ segments directory <+: segments plain := by
  constructor
  · rintro (rfl | ⟨rest, rfl⟩)
    · exact List.prefix_rfl
    · rw [List.append_assoc, List.singleton_append, segments_append]
      exact List.prefix_append _ _
  · rintro ⟨rest, hrest⟩
    rw [← joinNames_segments plain, ← hrest]
    by_cases hnil : rest = []
    · exact .inl (by rw [hnil, List.append_nil, joinNames_segments])
    · refine .inr ⟨joinNames rest, ?_⟩
      rw [joinNames_append (segments_ne_nil _) hnil, joinNames_segments, List.append_assoc,
        List.singleton_append]

/-! ## The normal form of a path -/

/-- The segments of a normal form. -/
def renderClimb (c : Climb (List Char)) : List (List Char) :=
  List.replicate c.ups ['.', '.'] ++ c.downs

/-- The names a path goes down to are names. -/
def Plain (c : Climb (List Char)) : Prop := ∀ name ∈ c.downs, IsName name

theorem plain_here : Plain Climb.here := fun _ hname => nomatch hname

theorem Plain.apply {c : Climb (List Char)} (h : Plain c) {segment : List Char}
    (hslash : '/' ∉ segment) : Plain (c.apply (moveOf segment)) := by
  cases hmove : moveOf segment with
  | stay => exact h
  | up =>
      rw [Climb.apply]
      split
      · rintro name ⟨⟩
      · exact fun name hname => h name (List.mem_of_mem_dropLast hname)
  | down name =>
      have heq := moveOf_eq_down hmove
      intro other hother
      rcases List.mem_append.mp hother with hother | hother
      · exact h other hother
      · rw [List.mem_singleton.mp hother, ← heq]
        exact ⟨heq ▸ hmove, hslash⟩

theorem Plain.foldl {c : Climb (List Char)} (h : Plain c) {path : List (List Char)}
    (hslash : ∀ segment ∈ path, '/' ∉ segment) : Plain ((path.map moveOf).foldl Climb.apply c) := by
  induction path generalizing c with
  | nil => exact h
  | cons segment path ih =>
      exact ih (h.apply (hslash segment (List.mem_cons_self ..)))
        fun other hother => hslash other (List.mem_cons_of_mem _ hother)

theorem plain_climb (value : List Char) : Plain (climb (posixMoves value)) :=
  plain_here.foldl fun _ h => slash_notMem_segments h

/-- `normalisePath` keeps one more segment as the normal form takes one more
move. -/
theorem pushSegment_renderClimb {c : Climb (List Char)} (h : Plain c) (segment : List Char) :
    pushSegment (renderClimb c) segment = renderClimb (c.apply (moveOf segment)) := by
  by_cases hstay : segment = [] ∨ segment = ['.']
  · rw [pushSegment, if_pos hstay, moveOf, if_pos hstay]
    rfl
  · by_cases hup : segment = ['.', '.']
    · rw [pushSegment, if_neg hstay, moveOf, if_neg hstay, if_pos hup, Climb.apply]
      by_cases hdowns : c.downs = []
      · have hlast : ¬(segment = ['.', '.'] ∧ renderClimb c ≠ [] ∧
            (renderClimb c).getLast? ≠ some ['.', '.']) := by
          rintro ⟨-, hne, hlast⟩
          rw [renderClimb, hdowns, List.append_nil] at hne hlast
          exact hlast (by rw [List.getLast?_replicate, if_neg (by simpa using hne)])
        rw [if_neg hlast, if_pos hdowns, renderClimb, renderClimb, hdowns, hup, List.append_nil,
          List.append_nil, List.replicate_succ']
      · have hlast : segment = ['.', '.'] ∧ renderClimb c ≠ [] ∧
            (renderClimb c).getLast? ≠ some ['.', '.'] := by
          refine ⟨hup, fun hnil => hdowns (List.append_eq_nil_iff.mp hnil).2, fun hlast => ?_⟩
          rw [renderClimb, List.getLast?_append_of_ne_nil _ hdowns] at hlast
          exact (h _ (List.mem_of_getLast? hlast)).ne_up rfl
        rw [if_pos hlast, if_neg hdowns, renderClimb, List.dropLast_append_of_ne_nil hdowns]
        rfl
    · have hlast : ¬(segment = ['.', '.'] ∧ renderClimb c ≠ [] ∧
          (renderClimb c).getLast? ≠ some ['.', '.']) := fun hboth => hup hboth.1
      rw [pushSegment, if_neg hstay, if_neg hlast, moveOf, if_neg hstay, if_neg hup, renderClimb,
        List.append_assoc]
      rfl

theorem foldl_pushSegment {c : Climb (List Char)} (h : Plain c) {path : List (List Char)}
    (hslash : ∀ segment ∈ path, '/' ∉ segment) :
    path.foldl pushSegment (renderClimb c)
      = renderClimb ((path.map moveOf).foldl Climb.apply c) := by
  induction path generalizing c with
  | nil => rfl
  | cons segment path ih =>
      rw [List.foldl_cons, pushSegment_renderClimb h, List.map_cons, List.foldl_cons]
      exact ih (h.apply (hslash segment (List.mem_cons_self ..)))
        fun other hother => hslash other (List.mem_cons_of_mem _ hother)

/-- A normalised path spells the normal form. -/
theorem normalisePath_eq (value : List Char) :
    normalisePath value = joinNames (renderClimb (climb (posixMoves value))) := by
  have hfold : (segments value).foldl pushSegment (renderClimb Climb.here)
      = renderClimb ((posixMoves value).foldl Climb.apply Climb.here) :=
    foldl_pushSegment plain_here fun _ h => slash_notMem_segments h
  exact congrArg joinNames hfold

theorem moveOf_renderClimb {c : Climb (List Char)} (h : Plain c) :
    climb ((renderClimb c).map moveOf) = c := by
  obtain ⟨ups, downs⟩ := c
  have hups : ∀ n m : Nat, ((List.replicate n ['.', '.']).map moveOf).foldl Climb.apply
      (⟨m, []⟩ : Climb (List Char)) = ⟨m + n, []⟩ := by
    intro n
    induction n with
    | zero => exact fun m => rfl
    | succ n ih =>
        intro m
        rw [List.replicate_succ, List.map_cons, List.foldl_cons, Nat.add_comm n, ← Nat.add_assoc]
        exact ih (m + 1)
  have hdowns : ∀ (downs before : List (List Char)), (∀ name ∈ downs, IsName name) →
      (downs.map moveOf).foldl Climb.apply (⟨ups, before⟩ : Climb (List Char))
        = ⟨ups, before ++ downs⟩ := by
    intro downs
    induction downs with
    | nil => exact fun before _ => by rw [List.append_nil]; rfl
    | cons name downs ih =>
        intro before hall
        rw [List.map_cons, List.foldl_cons, (hall name (List.mem_cons_self ..)).1]
        have hothers : ∀ other ∈ downs, IsName other := fun other hother =>
          hall other (List.mem_cons_of_mem _ hother)
        exact (ih (before ++ [name]) hothers).trans (by rw [List.append_assoc]; rfl)
  rw [climb, renderClimb, List.map_append, List.foldl_append]
  have hfirst := hups ups 0
  rw [Nat.zero_add] at hfirst
  rw [Climb.here, hfirst]
  exact hdowns downs [] h

theorem slash_notMem_renderClimb {c : Climb (List Char)} (h : Plain c) :
    ∀ name ∈ renderClimb c, '/' ∉ name := by
  intro name hname
  rcases List.mem_append.mp hname with hname | hname
  · rw [List.eq_of_mem_replicate hname]
    decide
  · exact (h name hname).2

theorem renderClimb_eq_nil {c : Climb (List Char)} : renderClimb c = [] ↔ c = Climb.here := by
  obtain ⟨ups, downs⟩ := c
  simp [renderClimb, Climb.here]

/-- The segments of a normalised path that says something. -/
theorem segments_normalisePath (h : climb (posixMoves value) ≠ Climb.here) :
    segments (normalisePath value) = renderClimb (climb (posixMoves value)) := by
  rw [normalisePath_eq]
  exact segments_joinNames (fun hnil => h (renderClimb_eq_nil.mp hnil))
    (slash_notMem_renderClimb (plain_climb value))

theorem normalisePath_eq_nil :
    normalisePath value = [] ↔ climb (posixMoves value) = Climb.here := by
  constructor
  · intro hnil
    by_contra hne
    have hsegments := segments_normalisePath hne
    rw [hnil, segments, List.splitOn_nil] at hsegments
    have hmoves := moveOf_renderClimb (plain_climb value)
    rw [← hsegments] at hmoves
    exact hne hmoves.symm
  · intro hhere
    rw [normalisePath_eq, hhere]
    rfl

/-- A normalised path has no leading separator. -/
theorem head?_normalisePath (value : List Char) : (normalisePath value).head? ≠ some '/' := by
  intro hhead
  obtain ⟨rest, hrest⟩ := List.head?_eq_some_iff.mp hhead
  have hhere : climb (posixMoves value) ≠ Climb.here := by
    intro hhere
    rw [normalisePath_eq_nil.mpr hhere] at hrest
    cases hrest
  have hsegments := segments_normalisePath hhere
  rw [hrest, ← List.nil_append ('/' :: rest), segments_append] at hsegments
  have hnil : ([] : List Char) ∈ renderClimb (climb (posixMoves value)) := by
    rw [← hsegments]
    exact List.mem_append_left _ (List.mem_singleton_self _)
  rcases List.mem_append.mp hnil with hnil | hnil
  · cases List.eq_of_mem_replicate hnil
  · exact (plain_climb value _ hnil).ne_nil rfl

/-- A leading separator says nothing. -/
theorem climb_slash (value : List Char) :
    climb (posixMoves ('/' :: value)) = climb (posixMoves value) := by
  rw [posixMoves, ← List.nil_append ('/' :: value), segments_append]
  rfl

/-- A normalised path has the normal form it spells. -/
theorem climb_normalisePath (value : List Char) :
    climb (posixMoves (normalisePath value)) = climb (posixMoves value) := by
  by_cases hhere : climb (posixMoves value) = Climb.here
  · rw [normalisePath_eq_nil.mpr hhere, hhere]
    rfl
  · rw [posixMoves, segments_normalisePath hhere, moveOf_renderClimb (plain_climb value)]

theorem normalisePath_inj {first second : List Char} :
    normalisePath first = normalisePath second ↔
      climb (posixMoves first) = climb (posixMoves second) := by
  constructor
  · intro h
    rw [← climb_normalisePath first, h, climb_normalisePath]
  · intro h
    rw [normalisePath_eq, h, ← normalisePath_eq]

end Acc
