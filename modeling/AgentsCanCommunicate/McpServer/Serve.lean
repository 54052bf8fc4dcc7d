import AgentsCanCommunicate.Library.Framing
import AgentsCanCommunicate.Library.Utf8
import AgentsCanCommunicate.McpServer.Protocol

/-!
# The serve loop

Each chunk is decoded by itself and put behind the text that is left, and every complete
line of it is worked off before the next chunk is read.  So the lines are those of the
decoded chunks put together (`serveLines_eq`), and they are the lines of the stream as
long as no chunk ends inside a character (`serveLines_eq_iff`).

A line is answered at once or not at all.  Which it is, and with which id, is told by
the line alone (`replies_spec`).
-/

namespace Acc.McpServer.Serve

open Library Protocol
open Library.Utf16 (ofString newline trim isSpace)
open Library.Utf8 (decode replacementUnit Clean Whole stream)

/-! ## Lines -/

/-- The text up to the first newline, and what is behind it. -/
def nextLine (buffer : Utf16) : Option (Utf16 × Utf16) :=
  if newline ∈ buffer then
    some (buffer.takeWhile (· ≠ newline), (buffer.dropWhile (· ≠ newline)).tail)
  else none

theorem nextLine_append {l : Utf16} (hl : newline ∉ l) (rest : Utf16) :
    nextLine (l ++ newline :: rest) = some (l, rest) := by
  have hall : ∀ c ∈ l, (decide (c ≠ newline)) = true := fun c hc =>
    decide_eq_true fun heq => hl (heq ▸ hc)
  rw [nextLine, if_pos (by simp), List.takeWhile_append_of_pos hall,
    List.dropWhile_append_of_pos hall]
  simp

/-- A line is what stands before the first newline. -/
theorem nextLine_eq_some {buffer l rest : Utf16} (h : nextLine buffer = some (l, rest)) :
    newline ∉ l ∧ buffer = l ++ newline :: rest := by
  unfold nextLine at h
  split at h
  next hmem =>
    obtain ⟨first, others, rfl, hfirst⟩ := List.eq_append_cons_of_mem hmem
    have hread := nextLine_append hfirst others
    rw [nextLine, if_pos hmem] at hread
    rw [hread] at h
    cases h
    exact ⟨hfirst, rfl⟩
  next => cases h

def lineFraming : Framing UInt16 Utf16 where
  next := nextLine
  shorter h := by
    obtain ⟨-, rfl⟩ := nextLine_eq_some h
    simp only [List.length_append, List.length_cons]
    omega
  stable h t := by
    obtain ⟨hl, rfl⟩ := nextLine_eq_some h
    rw [List.append_assoc, List.cons_append]
    exact nextLine_append hl _

/-- The lines that are worked off, as the chunks come in. -/
def serveLines (chunks : List (List UInt8)) : List Utf16 :=
  ((lineFraming.feedAll (chunks.map decode)).1.map trim).filter fun line => line ≠ []

/-- The lines of a text that are worked off. -/
def linesOf (text : Utf16) : List Utf16 :=
  ((lineFraming.drain text).1.map trim).filter fun line => line ≠ []

theorem serveLines_eq (chunks : List (List UInt8)) :
    serveLines chunks = linesOf (chunks.flatMap decode) := by
  rw [serveLines, lineFraming.feedAll_eq rfl, ← List.flatMap_def]
  rfl

theorem count_flatMap_lines (text : Utf16) :
    ((lineFraming.drain text).1.flatten).count replacementUnit +
      (lineFraming.drain text).2.count replacementUnit = text.count replacementUnit := by
  induction text using Framing.drain.induct lineFraming with
  | case1 text h =>
      rw [lineFraming.drain_of_none h]
      exact Nat.zero_add _
  | case2 text l rest h ih =>
      obtain ⟨-, htext⟩ := nextLine_eq_some h
      have hnewline : (newline :: rest).count replacementUnit = rest.count replacementUnit :=
        List.count_cons_of_ne (by decide)
      rw [lineFraming.drain_of_some h, List.flatten_cons, List.count_append, htext, List.count_append,
        hnewline, ← ih]
      exact Nat.add_assoc _ _ _

theorem count_linesOf (text : Utf16) :
    (linesOf text).flatten.count replacementUnit =
      (lineFraming.drain text).1.flatten.count replacementUnit := by
  rw [linesOf]
  induction (lineFraming.drain text).1 with
  | nil => rfl
  | cons l ls ih =>
      have htrim : (trim l).count replacementUnit = l.count replacementUnit :=
        Utf16.count_trim (by decide) l
      rw [List.map_cons, List.filter_cons, List.flatten_cons, List.count_append]
      split
      next => rw [List.flatten_cons, List.count_append, ih, htrim]
      next hempty =>
        have hnil : trim l = [] := by simpa using hempty
        rw [hnil] at htrim
        rw [ih, ← htrim]
        exact (Nat.zero_add _).symm

theorem drain_nil : lineFraming.drain [] = ([], []) := lineFraming.drain_of_none rfl

/-- Behind a newline at the end there is no line without one. -/
theorem drain_rest (text : Utf16) : (lineFraming.drain (text ++ [newline])).2 = [] := by
  have hnone := lineFraming.next_drain text
  have hline : newline ∉ (lineFraming.drain text).2 := by
    intro hmem
    have hsome : nextLine (lineFraming.drain text).2 = some _ := if_pos hmem
    have hnone' : nextLine (lineFraming.drain text).2 = none := hnone
    rw [hnone'] at hsome
    exact Option.some_ne_none _ hsome.symm
  rw [lineFraming.drain_append, lineFraming.drain_of_some (nextLine_append hline []),
    drain_nil]

theorem count_linesOf_of_newline {text : Utf16} (h : text = [] ∨ ∃ t, text = t ++ [newline]) :
    (linesOf text).flatten.count replacementUnit = text.count replacementUnit := by
  have htotal := count_flatMap_lines text
  have hrest : (lineFraming.drain text).2 = [] := by
    rcases h with rfl | ⟨t, rfl⟩
    · rw [drain_nil]
    · exact drain_rest t
  rw [hrest] at htotal
  rw [count_linesOf]
  exact htotal

/-! ## Cuts -/

variable {chunks : List (List UInt8)}

theorem count_serveLines {lines : List (List Char)} (h : chunks.flatten = stream lines) :
    (serveLines chunks).flatten.count replacementUnit =
      (chunks.flatMap decode).count replacementUnit := by
  rw [serveLines_eq]
  refine count_linesOf_of_newline ?_
  rcases Utf8.stream_cases lines with hnil | ⟨bytes, hbytes⟩
  · exact Or.inl (Utf8.flatMap_decode_nil (h.trans hnil))
  · exact Or.inr (Utf8.flatMap_decode_newline (h.trans hbytes))

/-- The lines are those of the stream exactly when no chunk ends inside a character. -/
theorem serveLines_eq_iff {lines : List (List Char)} (h : chunks.flatten = stream lines) :
    serveLines chunks = serveLines [chunks.flatten] ↔ Whole chunks := by
  have hclean : Clean none chunks.flatten := by
    rw [h]
    exact Utf8.clean_encode _
  constructor
  · intro heq
    by_contra hcut
    have hlt := Utf8.count_flatMap_decode hclean hcut
    have hcount := count_serveLines h
    have hcount' := @count_serveLines [chunks.flatten] lines (by simpa using h)
    rw [heq, hcount'] at hcount
    simp only [List.flatMap_singleton] at hcount
    omega
  · intro hwhole
    rw [serveLines_eq, serveLines_eq, Utf8.flatMap_decode_of_whole hwhole, List.flatMap_singleton]

/-! ## Answers -/

inductive Body where
  | result (value : JsonValue)
  | error (code : ℤ) (message : Utf16) (data : Option JsonValue)

structure Reply where
  id : JsonValue
  body : Body

/-- The id as it is written: JSON has no number that is too large for a double. -/
def Reply.writtenId (reply : Reply) : JsonValue :=
  match reply.id with
  | .infinity => .null
  | id => id

/-- What a line is read as. -/
inductive Reading where
  | parseError
  | invalid (id : JsonValue)
  | notification (method : Utf16)
  | badParams (id : JsonValue)
  | request (id message : JsonValue) (method : Utf16)

def isKey (id : JsonValue) : Bool := id.isString || id.isNumber

/-- The id, if it is a string or a number. -/
def idOf (message : JsonValue) : JsonValue := ((message.get "id").filter isKey).getD .null

/-- The id is undefined or null. -/
def lacksId (message : JsonValue) : Bool := (message.get "id").all JsonValue.isNull

def isVersion2 : Option JsonValue → Bool
  | some (.string version) => version = ofString "2.0"
  | _ => false

def readMessage (message : JsonValue) : Reading :=
  match message.get "method" with
  | some (.string method) =>
      if !message.isObject || !isVersion2 (message.get "jsonrpc") ||
          !(lacksId message || (message.get "id").any isKey) then .invalid (idOf message)
      else if lacksId message then .notification method
      else if (message.get "params").any fun params => !(params.isObject || params.isArray) then
        .badParams (idOf message)
      else .request (idOf message) message method
  | _ => .invalid (idOf message)

structure Config where
  parse : Utf16 → Option JsonValue
  server : Server

def read (config : Config) (line : Utf16) : Reading :=
  match config.parse line with
  | none => .parseError
  | some message => readMessage message

def bodyOf : Handled → Body
  | .result value => .result value
  | .unwritable error | .failed error =>
      .error (error.rpcCode.getD (-32603)) error.message error.rpcData

/-- A line: the phase and the calls of the handler after it, and the reply. -/
def serveLine (config : Config) (phase : Phase) (calls : ℕ) (line : Utf16) :
    Phase × ℕ × Option Reply :=
  match read config line with
  | .parseError => (phase, calls, some ⟨.null, .error (-32700) (ofString "parse error") none⟩)
  | .invalid id => (phase, calls, some ⟨id, .error (-32600) (ofString "invalid request") none⟩)
  | .notification method => (notify phase method, calls, none)
  | .badParams id => (phase, calls, some ⟨id, .error (-32602) (ofString "invalid params") none⟩)
  | .request id message method =>
      let (phase, calls, handled) := request config.server phase calls message method
      (phase, calls, some ⟨id, bodyOf handled⟩)

def serveFrom (config : Config) (phase : Phase) (calls : ℕ) : List Utf16 → List Reply
  | [] => []
  | line :: lines =>
      let next := serveLine config phase calls line
      next.2.2.toList ++ serveFrom config next.1 next.2.1 lines

def replies (config : Config) (lines : List Utf16) : List Reply :=
  serveFrom config .uninitialized 0 lines

/-- Everything but a valid notification is answered. -/
def isDue (config : Config) (line : Utf16) : Bool :=
  match read config line with
  | .notification _ => false
  | _ => true

/-- The id of a request. -/
def requestId (config : Config) (line : Utf16) : Option JsonValue :=
  match read config line with
  | .badParams id | .request id _ _ => some id
  | _ => none

/-- A reply to the line, with its id if it is a request. -/
def Answers (config : Config) (line : Utf16) (reply : Reply) : Prop :=
  ∀ id, requestId config line = some id → reply.writtenId = id

variable {config : Config} {phase : Phase} {calls : ℕ} {line : Utf16} {lines : List Utf16}

theorem writtenId_eq_iff (reply : Reply) : reply.writtenId = reply.id ↔ reply.id ≠ .infinity := by
  unfold Reply.writtenId
  cases hid : reply.id <;> simp

/-- A line is answered once or not at all. -/
theorem serveLine_reply (config : Config) (phase : Phase) (calls : ℕ) (line : Utf16) :
    (isDue config line = false ∧ requestId config line = none ∧
      (serveLine config phase calls line).2.2 = none) ∨
    isDue config line = true ∧ ∃ reply, (serveLine config phase calls line).2.2 = some reply ∧
      ∀ id, requestId config line = some id → reply.id = id := by
  unfold serveLine isDue requestId
  cases read config line with
  | parseError => exact Or.inr ⟨rfl, _, rfl, nofun⟩
  | invalid id => exact Or.inr ⟨rfl, _, rfl, nofun⟩
  | notification method => exact Or.inl ⟨rfl, rfl, rfl⟩
  | badParams id => exact Or.inr ⟨rfl, _, rfl, fun _ hid => Option.some.inj hid⟩
  | request id message method => exact Or.inr ⟨rfl, _, rfl, fun _ hid => Option.some.inj hid⟩

/-- Each line that is due is answered once, in order, and a request with its id unless that
is a number too large for a double. -/
theorem serveFrom_iff (config : Config) (phase : Phase) (calls : ℕ) (lines : List Utf16) :
    List.Forall₂ (Answers config) (lines.filter (isDue config)) (serveFrom config phase calls lines) ↔
      ∀ line ∈ lines, requestId config line ≠ some .infinity := by
  induction lines generalizing phase calls with
  | nil => simp [serveFrom]
  | cons line lines ih =>
      simp only [serveFrom, List.filter_cons, List.forall_mem_cons]
      rcases serveLine_reply config phase calls line with
        ⟨hdue, hnone, hreply⟩ | ⟨hdue, reply, hreply, hid⟩
      · rw [hdue, hreply, hnone]
        simpa using ih _ _
      · rw [hdue, hreply, if_pos rfl, Option.toList_some, List.singleton_append, List.forall₂_cons,
          ih]
        refine and_congr_left fun _ => ?_
        cases hrequest : requestId config line with
        | none => simp [Answers, hrequest]
        | some id =>
            have heq := hid id hrequest
            have hwritten := writtenId_eq_iff reply
            simp only [Answers, hrequest, Option.some.injEq, forall_eq', ne_eq]
            rw [← heq]
            exact hwritten

theorem replies_spec (config : Config) (lines : List Utf16) :
    List.Forall₂ (Answers config) (lines.filter (isDue config)) (replies config lines) ↔
      ∀ line ∈ lines, requestId config line ≠ some .infinity :=
  serveFrom_iff config .uninitialized 0 lines

end Acc.McpServer.Serve
