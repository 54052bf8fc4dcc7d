import AgentsCanCommunicate.AdapterAntigravity.RelayChunks
import AgentsCanCommunicate.McpServer.Serve

/-!
# Servers of lines

The MCP server and the relay both decode chunk by chunk.  `lineServers_iff` says for which
chunks they read what they would read of the whole stream, and for which lines the server
answers as it is to.
-/

namespace Acc.McpServer.LineServers

open Library
open Library.Utf16 (ofString)
open Library.Utf8 (decode stream encode)
open Serve (Config serveLines replies isDue requestId Answers)
open AdapterAntigravity.RelayChunks (Steady Undisturbed)

variable {config : Config} {lines : List (List Char)} {chunks : List (List UInt8)}

/-- Both servers read the lines of the stream, and every line that is due is answered once, in
order and with its id. -/
structure Independent (config : Config) (chunks : List (List UInt8)) : Prop where
  serve : serveLines chunks = serveLines [chunks.flatten]
  relay : Steady chunks
  answers : List.Forall₂ (Answers config) ((serveLines chunks).filter (isDue config))
    (replies config (serveLines chunks))

/-- No chunk ends inside a character, the limit of the relay does not come between, and no
request has a number for its id that is too large for a double. -/
structure Harmless (config : Config) (chunks : List (List UInt8)) : Prop where
  cuts : ∀ k, ∃ cs, (chunks.take k).flatten = encode cs
  limit : Undisturbed chunks
  ids : ∀ line ∈ serveLines [chunks.flatten], requestId config line ≠ some .infinity

theorem lineServers_iff (config : Config) (h : chunks.flatten = stream lines) :
    Independent config chunks ↔ Harmless config chunks := by
  have hcuts := (Serve.serveLines_eq_iff h).trans (Utf8.whole_iff h)
  have hlimit := AdapterAntigravity.RelayChunks.steady_iff h
  constructor
  · rintro ⟨hserve, hrelay, hanswers⟩
    rw [hserve] at hanswers
    exact ⟨hcuts.mp hserve, hlimit.mp hrelay, (Serve.replies_spec config _).mp hanswers⟩
  · rintro ⟨hwhole, hundisturbed, hids⟩
    have hserve := hcuts.mpr hwhole
    refine ⟨hserve, hlimit.mpr hundisturbed, ?_⟩
    rw [hserve]
    exact (Serve.replies_spec config _).mpr hids

/-! ## A request in two chunks -/

/-- A server that knows one line. -/
def sampleConfig (text : List Char) (message : JsonValue) : Config where
  parse line := if line = text.flatMap Utf16.ofChar then some message else none
  server := ⟨.null, .null, fun _ _ => .result .null⟩

def ping (id : JsonValue) : JsonValue := .object [(ofString "jsonrpc", .string (ofString "2.0")),
  (ofString "id", id), (ofString "method", .string (ofString "ping"))]

def textBefore : List Char := "\x7b\"jsonrpc\":\"2.0\",\"id\":\"é".toList

def textBehind : List Char := "\",\"method\":\"ping\"\x7d".toList

def sampleLine : List Char := textBefore ++ textBehind

theorem requestId_sample (text : List Char) (id : JsonValue) (line : Utf16)
    (hid : Serve.isKey id = true) :
    requestId (sampleConfig text (ping id)) line =
      if line = text.flatMap Utf16.ofChar then some id else none := by
  have hping : Serve.readMessage (ping id) = .request id (ping id) (ofString "ping") := by
    cases id with
    | number value => rfl
    | infinity => rfl
    | string value => rfl
    | _ => cases hid
  simp only [requestId, Serve.read, sampleConfig]
  by_cases hline : line = text.flatMap Utf16.ofChar
  · simp only [if_pos hline, hping]
  · simp only [if_neg hline]

/-- Cut behind the é of its id, a request is read as it is in the stream. -/
theorem lineServers_iff_ping :
    Independent (sampleConfig sampleLine (ping (.string (ofString "é"))))
      [encode textBefore, encode (textBehind ++ ['\n'])] := by
  refine (@lineServers_iff [sampleLine] _ _ (by decide +kernel)).mpr ⟨fun k => ?_, ?_, ?_⟩
  · match k with
    | 0 => exact ⟨[], rfl⟩
    | 1 => exact ⟨textBefore, by simp⟩
    | k + 2 => exact ⟨textBefore ++ (textBehind ++ ['\n']), by simp [Utf8.encode_append]⟩
  · have hopening : AdapterAntigravity.RelayChunks.opening
        [encode textBefore, encode (textBehind ++ ['\n'])] =
        [encode textBefore, encode (textBehind ++ ['\n'])] := by decide +kernel
    refine Or.inr ⟨by decide +kernel, fun k hk => ?_⟩
    rw [hopening] at hk ⊢
    match k with
    | 0 => exact ⟨[], rfl⟩
    | 1 => exact ⟨textBefore, by simp⟩
    | k + 2 =>
        simp only [List.length_cons, List.length_nil] at hk
        omega
  · intro line _ hid
    rw [requestId_sample _ _ _ rfl] at hid
    split at hid <;> cases hid

/-- The bytes of the line, cut inside the é. -/
def cutChunks : List (List UInt8) :=
  [(encode (sampleLine ++ ['\n'])).take 24, (encode (sampleLine ++ ['\n'])).drop 24]

/-- A request with an id that no double holds. -/
def hugeLine : List Char := "\x7b\"jsonrpc\":\"2.0\",\"id\":1e999,\"method\":\"ping\"\x7d".toList

/-- Cut inside the é, the request is read as another, by either server.  And the reply to a
request whose id is 1e999 has none. -/
theorem lineServers_disturbed :
    (cutChunks.flatten = stream [sampleLine] ∧ serveLines cutChunks ≠ serveLines [cutChunks.flatten] ∧
      ¬Steady cutChunks) ∧
    [encode (hugeLine ++ ['\n'])].flatten = stream [hugeLine] ∧
      ¬List.Forall₂ (Answers (sampleConfig hugeLine (ping .infinity)))
        ((serveLines [encode (hugeLine ++ ['\n'])]).filter
          (isDue (sampleConfig hugeLine (ping .infinity))))
        (replies (sampleConfig hugeLine (ping .infinity))
          (serveLines [encode (hugeLine ++ ['\n'])])) := by
  have hserve : serveLines cutChunks ≠ serveLines [cutChunks.flatten] := by decide +kernel
  have hrelay : ¬Steady cutChunks := by
    rw [Steady]
    decide +kernel
  refine ⟨⟨by decide +kernel, hserve, hrelay⟩, by decide +kernel, fun hanswers => ?_⟩
  have hmem : hugeLine.flatMap Utf16.ofChar ∈ serveLines [encode (hugeLine ++ ['\n'])] := by
    decide +kernel
  refine (Serve.replies_spec _ _).mp hanswers _ hmem ?_
  rw [requestId_sample _ _ _ rfl, if_pos rfl]

end Acc.McpServer.LineServers
