import AgentsCanCommunicate.AdapterAntigravity.Relay
import AgentsCanCommunicate.Library.Utf8

/-!
# A relay's connection in chunks

The handler adds up the bytes, decodes each chunk by itself and stops at the first line.
What it answers is told by what it read (`feed_outcome`).

A stream that comes at once is too large when all of it is, one that comes in chunks when
what came up to the first newline is.  With that and the cuts it is told when the chunks
make no difference (`readChunks_eq_iff`).
-/

namespace Acc.AdapterAntigravity.RelayChunks

open Relay
open Library (Utf16)
open Library.Utf16 (newline)
open Library.Utf8 (decode newlineByte state Clean Whole stream encode)

/-- What comes of a connection's chunks. -/
inductive Reading where
  | waiting
  | tooLarge
  | line (text : Utf16)
deriving DecidableEq

/-- The data handler, up to the first line. -/
def readChunks (decode : List UInt8 → Utf16) (bytes : ℕ) (buffer : Utf16) :
    List (List UInt8) → Reading
  | [] => .waiting
  | chunk :: chunks =>
      let bytes := bytes + chunk.length
      if maxEnvelopeBytes < bytes then .tooLarge
      else
        let buffer := buffer ++ decode chunk
        if newline ∈ buffer then .line (buffer.takeWhile fun c => c ≠ newline)
        else readChunks decode bytes buffer chunks

/-! ## Answers -/

/-- The log, the queue and whether the relay is gone, after this was read. -/
def outcome (config : Config) (text : Text) (s : State) (c : Nat) :
    Reading → List Entry × List Item × Bool
  | .waiting => (s.log, s.queue, s.crashed)
  | .tooLarge => (.answered c (.rejected "envelope_too_large") :: s.log, s.queue, s.crashed)
  | .line line =>
      match text.parse line with
      | none => (.answered c (.rejected "invalid_json") :: s.log, s.queue, s.crashed)
      | some envelope =>
          match validate config.nonce envelope with
          | .error () => (s.log, s.queue, true)
          | .ok (some reasonCode) => (.answered c (.rejected reasonCode) :: s.log, s.queue, s.crashed)
          | .ok none =>
              match envelope with
              | .object fields =>
                  if Fields.isPing fields then (.answered c .ping :: s.log, s.queue, s.crashed)
                  else (.queued (c, fields) :: s.log, s.queue ++ [(c, fields)], s.crashed)
              | _ => (s.log, s.queue, s.crashed)

/-- The chunks as they come.  Nothing happens any more when the relay is gone. -/
def feed (config : Config) (text : Text) (c : Nat) (s : State) (chunks : List (List UInt8)) : State :=
  chunks.foldl (fun s chunk => (perform config text s (.data c chunk)).getD s) s

/-- A connection that was read to its line, or a relay that is gone, stays as it is. -/
def Settled (s : State) (c : Nat) : Prop :=
  s.crashed = true ∨ ∃ connection, s.connections c = some connection ∧ connection.consumed = true

variable {config : Config} {text : Text} {s : State} {c : Nat} {chunks : List (List UInt8)}

theorem feed_settled (h : Settled s c) (chunks : List (List UInt8)) :
    feed config text c s chunks = s := by
  induction chunks with
  | nil => rfl
  | cons chunk chunks ih =>
      have hstep : (perform config text s (.data c chunk)).getD s = s := by
        rw [perform]
        rcases h with hcrashed | ⟨connection, hget, hconsumed⟩
        · split
          next => rfl
          next => rw [hcrashed, Bool.or_true, if_pos rfl, Option.getD_none]
        · rw [hget]
          simp only [hconsumed, if_true]
          split <;> rfl
      rw [feed, List.foldl_cons, hstep]
      exact ih

/-- What a connection that is there is answered is in the log, and the connection is as it was. -/
theorem answer_outcome (s : State) (c : Nat) (connection : Connection) (reply : Reply)
    (hthere : connection.destroyed = false) (hconsumed : connection.consumed = true) :
    let t := (s.setConnection c connection).answer c reply
    Settled t c ∧ (t.log, t.queue, t.crashed) = (.answered c reply :: s.log, s.queue, s.crashed) := by
  have hget : (s.setConnection c connection).connections c = some connection :=
    Function.update_self ..
  simp only [State.answer, hget, hthere, Bool.false_eq_true, if_false]
  exact ⟨Or.inr ⟨connection, hget, hconsumed⟩, rfl⟩

/-- A chunk that ends the reading: the connection is settled, and the outcome is this. -/
theorem receive_settles {buffer : Utf16} {bytes : ℕ} {chunk : List UInt8} {reading : Reading}
    (hread : readChunks text.decode bytes buffer [chunk] = reading) (hreading : reading ≠ .waiting) :
    let t := receive config text s c ⟨buffer, bytes, false, false⟩ chunk
    Settled t c ∧ (t.log, t.queue, t.crashed) = outcome config text s c reading := by
  simp only [readChunks] at hread
  split at hread
  next hlarge =>
    subst hread
    simp only [receive, if_pos hlarge]
    exact answer_outcome s c _ _ rfl rfl
  next hsmall =>
    split at hread
    next hline =>
      subst hread
      have henvelope : envelopeOf text (buffer ++ text.decode chunk) =
          some (text.parse ((buffer ++ text.decode chunk).takeWhile fun c => c ≠ newline)) := by
        rw [envelopeOf, if_pos (by simpa using hline)]
      simp only [receive, if_neg hsmall, henvelope, outcome]
      cases text.parse ((buffer ++ text.decode chunk).takeWhile fun c => c ≠ newline) with
      | none => exact answer_outcome s c _ _ rfl rfl
      | some envelope =>
          cases hvalid : validate config.nonce envelope with
          | error e =>
              simp only [hvalid]
              exact ⟨Or.inl rfl, rfl⟩
          | ok reason =>
              cases reason with
              | some reasonCode =>
                  simp only [hvalid]
                  exact answer_outcome s c _ _ rfl rfl
              | none =>
                  have hconsumed (connection : Connection) (h : connection.consumed = true) :
                      Settled (s.setConnection c connection) c :=
                    Or.inr ⟨connection, Function.update_self .., h⟩
                  cases envelope with
                  | object fields =>
                      cases hping : Fields.isPing fields with
                      | true =>
                          simp only [hvalid, hping, if_true]
                          exact answer_outcome s c _ _ rfl rfl
                      | false =>
                          simp only [hvalid, hping, Bool.false_eq_true, if_false]
                          exact ⟨hconsumed _ rfl, rfl⟩
                  | _ =>
                      simp only [hvalid]
                      exact ⟨hconsumed _ rfl, rfl⟩
    next => exact absurd hread.symm hreading

theorem readChunks_cons (decode : List UInt8 → Utf16) (bytes : ℕ) (buffer : Utf16)
    (chunk : List UInt8) (chunks : List (List UInt8)) :
    readChunks decode bytes buffer (chunk :: chunks) =
      if readChunks decode bytes buffer [chunk] = .waiting then
        readChunks decode (bytes + chunk.length) (buffer ++ decode chunk) chunks
      else readChunks decode bytes buffer [chunk] := by
  simp only [readChunks]
  split
  next => rfl
  next => split <;> rfl

/-- What the relay does with the chunks of a connection is told by what it reads of them. -/
theorem feed_outcome {buffer : Utf16} {bytes : ℕ} (hcrashed : s.crashed = false)
    (hget : s.connections c = some ⟨buffer, bytes, false, false⟩)
    (chunks : List (List UInt8)) :
    let t := feed config text c s chunks
    (t.log, t.queue, t.crashed) =
      outcome config text s c (readChunks text.decode bytes buffer chunks) := by
  induction chunks generalizing s buffer bytes with
  | nil => rfl
  | cons chunk chunks ih =>
      have hstep : (perform config text s (.data c chunk)).getD s =
          receive config text s c ⟨buffer, bytes, false, false⟩ chunk := by
        rw [perform, hget]
        simp only [hcrashed, Bool.or_self, Bool.false_eq_true, if_false, Option.getD_some]
      rw [readChunks_cons]
      simp only [feed, List.foldl_cons]
      rw [hstep]
      split
      next hwaiting =>
        have hreceive : receive config text s c ⟨buffer, bytes, false, false⟩ chunk =
            s.setConnection c ⟨buffer ++ text.decode chunk, bytes + chunk.length, false, false⟩ := by
          simp only [readChunks] at hwaiting
          split at hwaiting
          next => cases hwaiting
          next hsmall =>
            split at hwaiting
            next => cases hwaiting
            next hline =>
              have henvelope : envelopeOf text (buffer ++ text.decode chunk) = none := by
                rw [envelopeOf, if_neg (by simpa using hline)]
              simp only [receive, if_neg hsmall, henvelope]
        rw [hreceive]
        exact ih hcrashed (Function.update_self ..)
      next hread =>
        obtain ⟨hsettled, houtcome⟩ := @receive_settles config text s c _ _ _ _ rfl hread
        have hrest : feed config text c (receive config text s c ⟨buffer, bytes, false, false⟩ chunk)
            chunks = receive config text s c ⟨buffer, bytes, false, false⟩ chunk :=
          feed_settled hsettled chunks
        rw [feed] at hrest
        rw [hrest]
        exact houtcome

/-! ## Cuts -/

/-- The chunks up to the one with the first newline. -/
def opening : List (List UInt8) → List (List UInt8)
  | [] => []
  | chunk :: chunks => if newlineByte ∈ chunk then [chunk] else chunk :: opening chunks

theorem readChunks_eq {bytes : ℕ} {buffer : Utf16} (hbytes : bytes ≤ maxEnvelopeBytes)
    (hbuffer : newline ∉ buffer) (chunks : List (List UInt8)) :
    readChunks decode bytes buffer chunks =
      if maxEnvelopeBytes < bytes + (opening chunks).flatten.length then .tooLarge
      else if newlineByte ∈ chunks.flatten then
        .line ((buffer ++ (opening chunks).flatMap decode).takeWhile fun c => c ≠ newline)
      else .waiting := by
  induction chunks generalizing bytes buffer with
  | nil => simp [readChunks, opening, hbytes]
  | cons chunk chunks ih =>
      rw [readChunks, opening, List.flatten_cons]
      by_cases hmem : newlineByte ∈ chunk
      · have hline : newline ∈ buffer ++ decode chunk :=
          List.mem_append_right _ (Library.Utf8.newline_mem_decode_iff.mpr hmem)
        rw [if_pos hmem, List.flatten_singleton, List.flatMap_singleton,
          if_pos (List.mem_append_left _ hmem)]
        simp only [hline, if_true]
      · have hline : newline ∉ buffer ++ decode chunk := by
          rw [List.mem_append, not_or]
          exact ⟨hbuffer, fun h => hmem (Library.Utf8.newline_mem_decode_iff.mp h)⟩
        have hrest : newlineByte ∈ chunk ++ chunks.flatten ↔ newlineByte ∈ chunks.flatten := by
          rw [List.mem_append, or_iff_right hmem]
        simp only [if_neg hmem, hline, if_false, List.flatten_cons, List.flatMap_cons, hrest,
          List.length_append]
        by_cases hlarge : maxEnvelopeBytes < bytes + chunk.length
        · rw [if_pos hlarge, if_pos (by omega)]
        · rw [if_neg hlarge, ih (Nat.le_of_not_lt hlarge) hline, Nat.add_assoc, List.append_assoc]

/-- The parts of the chunks that a first newline is in. -/
theorem opening_parts (h : newlineByte ∈ chunks.flatten) :
    ∃ before a b rest, opening chunks = before ++ [a ++ newlineByte :: b] ∧
      newlineByte ∉ before.flatten ++ a ∧
      chunks.flatten = before.flatten ++ a ++ newlineByte :: rest := by
  induction chunks with
  | nil => cases h
  | cons chunk chunks ih =>
      rw [opening]
      by_cases hmem : newlineByte ∈ chunk
      · obtain ⟨a, b, rfl, ha⟩ := List.eq_append_cons_of_mem hmem
        refine ⟨[], a, b, b ++ chunks.flatten, if_pos hmem, ha, ?_⟩
        simp
      · have hrest : newlineByte ∈ chunks.flatten := by
          rw [List.flatten_cons, List.mem_append] at h
          exact h.resolve_left hmem
        obtain ⟨before, a, b, rest, hopening, hnone, hflatten⟩ := ih hrest
        refine ⟨chunk :: before, a, b, rest, ?_, ?_, ?_⟩
        · rw [if_neg hmem, hopening, List.cons_append]
        · rw [List.flatten_cons, List.append_assoc, List.mem_append, not_or]
          exact ⟨hmem, hnone⟩
        · rw [List.flatten_cons, hflatten, List.flatten_cons]
          simp

/-- What is read of chunks is read of the stream. -/
def Steady (chunks : List (List UInt8)) : Prop :=
  readChunks decode 0 [] chunks = readChunks decode 0 [] [chunks.flatten]

/-- What came up to the first newline is too large, or nothing is and no chunk before it ends
inside a character. -/
def Undisturbed (chunks : List (List UInt8)) : Prop :=
  maxEnvelopeBytes < (opening chunks).flatten.length ∨
    chunks.flatten.length ≤ maxEnvelopeBytes ∧
      ∀ k, k < (opening chunks).length → ∃ cs, ((opening chunks).take k).flatten = encode cs

theorem takeWhile_newline {t : Utf16} (ht : newline ∉ t) (rest : Utf16) :
    (t ++ newline :: rest).takeWhile (fun c => c ≠ newline) = t := by
  have hall : ∀ c ∈ t, (decide (c ≠ newline)) = true := fun c hc =>
    decide_eq_true fun heq => ht (heq ▸ hc)
  rw [List.takeWhile_append_of_pos hall]
  simp

theorem opening_length_le (chunks : List (List UInt8)) :
    (opening chunks).flatten.length ≤ chunks.flatten.length := by
  induction chunks with
  | nil => exact le_rfl
  | cons chunk chunks ih =>
      rw [opening, List.flatten_cons]
      split
      next => simp
      next =>
        rw [List.flatten_cons, List.length_append, List.length_append]
        omega

/-- The pieces of the first line are whole when the chunks that begin in it are. -/
theorem whole_pieces_iff {lines : List (List Char)} {before : List (List UInt8)} {a b rest : List UInt8}
    (h : chunks.flatten = stream lines) (hopening : opening chunks = before ++ [a ++ newlineByte :: b])
    (hflatten : chunks.flatten = before.flatten ++ a ++ newlineByte :: rest) :
    Whole (before ++ [a]) ↔
      ∀ k, k < (opening chunks).length → ∃ cs, ((opening chunks).take k).flatten = encode cs := by
  have hclean : Clean none (before.flatten ++ a) := by
    refine Library.Utf8.Clean.before_newline (b := rest) ?_
    rw [← hflatten, h]
    exact Library.Utf8.clean_stream lines
  have hlength : (opening chunks).length = before.length + 1 := by simp [hopening]
  have hinside (k : ℕ) (hk : k ≤ before.length) :
      state none ((before ++ [a]).take k).flatten = none ↔
        ∃ cs, ((opening chunks).take k).flatten = encode cs := by
    rw [hopening, List.take_append_of_le_length hk, List.take_append_of_le_length hk]
    refine @Library.Utf8.state_eq_none_iff _ (lines.flatMap (· ++ ['\n'])) ?_
    rw [← stream, ← h, hflatten]
    refine ⟨(before.drop k).flatten ++ a ++ newlineByte :: rest, ?_⟩
    rw [← List.append_assoc, ← List.append_assoc, ← List.flatten_append, List.take_append_drop]
  rw [hlength]
  constructor
  · exact fun hwhole k hk => (hinside k (Nat.le_of_lt_succ hk)).mp (hwhole k)
  · intro hcuts k
    rcases Nat.lt_or_ge k (before.length + 1) with hk | hk
    · exact (hinside k (Nat.le_of_lt_succ hk)).mpr (hcuts k hk)
    · rw [List.take_of_length_le (by simpa using hk), List.flatten_append, List.flatten_singleton]
      exact hclean.state_eq

theorem steady_iff {lines : List (List Char)} (h : chunks.flatten = stream lines) :
    Steady chunks ↔ Undisturbed chunks := by
  have hone : opening [chunks.flatten] = [chunks.flatten] := by
    rw [opening, opening, ite_self]
  rw [Steady, Undisturbed, readChunks_eq (Nat.zero_le _) List.not_mem_nil,
    readChunks_eq (Nat.zero_le _) List.not_mem_nil, hone]
  simp only [List.flatten_singleton, List.flatMap_singleton, List.nil_append, Nat.zero_add]
  have hle := opening_length_le chunks
  by_cases hline : newlineByte ∈ chunks.flatten
  · obtain ⟨before, a, b, rest, hopening, hnone, hflatten⟩ := opening_parts hline
    have hwhole := whole_pieces_iff h hopening hflatten
    have hpieces : (before ++ [a]).flatten = before.flatten ++ a := by simp
    have hclean : Clean none (before ++ [a]).flatten := by
      rw [hpieces]
      refine Library.Utf8.Clean.before_newline (b := rest) ?_
      rw [← hflatten, h]
      exact Library.Utf8.clean_stream lines
    -- the first line as the chunks give it, and as the stream does
    have hchunks : (opening chunks).flatMap decode =
        (before ++ [a]).flatMap decode ++ newline :: decode b := by
      simp [hopening, Library.Utf8.decode_newline]
    have hstream : decode chunks.flatten =
        decode (before ++ [a]).flatten ++ newline :: decode rest := by
      rw [hflatten, hpieces, Library.Utf8.decode_newline]
    have hnoline : newline ∉ (before ++ [a]).flatMap decode := by
      intro hmem
      obtain ⟨piece, hpiece, hmem⟩ := List.mem_flatMap.mp hmem
      refine hnone (hpieces ▸ List.mem_flatten.mpr ⟨piece, hpiece, ?_⟩)
      exact Library.Utf8.newline_mem_decode_iff.mp hmem
    have hnoline' : newline ∉ decode (before ++ [a]).flatten := fun hmem =>
      hnone (hpieces ▸ Library.Utf8.newline_mem_decode_iff.mp hmem)
    have hlines : ((opening chunks).flatMap decode).takeWhile (fun c => c ≠ newline) =
        (decode chunks.flatten).takeWhile (fun c => c ≠ newline) ↔ Whole (before ++ [a]) := by
      rw [hchunks, hstream, takeWhile_newline hnoline, takeWhile_newline hnoline']
      exact Library.Utf8.flatMap_decode_eq_iff hclean
    rw [if_pos hline, if_pos hline, ← hwhole, ← hlines]
    by_cases hopen : maxEnvelopeBytes < (opening chunks).flatten.length
    · rw [if_pos hopen, if_pos (by omega)]
      exact ⟨fun _ => Or.inl hopen, fun _ => rfl⟩
    · rw [if_neg hopen, or_iff_right hopen]
      by_cases hall : maxEnvelopeBytes < chunks.flatten.length
      · rw [if_pos hall]
        exact ⟨nofun, fun hsmall => absurd hsmall.1 (Nat.not_le.mpr hall)⟩
      · rw [if_neg hall, Reading.line.injEq]
        exact (and_iff_right (Nat.le_of_not_lt hall)).symm
  · have hnil : chunks.flatten = [] := by
      rcases Library.Utf8.stream_cases lines with hnil | ⟨bytes, hbytes⟩
      · exact h.trans hnil
      · rw [h, hbytes] at hline
        simp at hline
    have hopen : (opening chunks).flatten.length = 0 := by
      rw [hnil] at hle
      exact Nat.le_zero.mp hle
    rw [if_neg hline, if_neg hline, hopen, hnil]
    have hall (k : ℕ) : ∃ cs, ((opening chunks).take k).flatten = encode cs := by
      refine ⟨[], List.eq_nil_of_length_eq_zero (Nat.le_zero.mp ?_)⟩
      rw [← hopen]
      exact ((List.take_sublist k _).flatten).length_le
    simpa [maxEnvelopeBytes] using fun k _ => hall k

end Acc.AdapterAntigravity.RelayChunks
