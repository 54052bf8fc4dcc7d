import AgentsCanCommunicate.Library.Utf16

/-!
# Decoding bytes to strings

The decoder takes one byte after the other and remembers what a sequence still needs.
A byte that does not continue the sequence ends it with U+FFFD and is read afresh, and
so does the end of the bytes.

Pieces that are decoded one by one give the string of the whole exactly when none of
them ends inside a character (`flatMap_decode_eq_iff`).  Otherwise there are more U+FFFD in
what they give (`count_flatMap_decode`).
-/

namespace Library.Utf8

open Utf16

/-- What stands for bytes that are no character. -/
abbrev replacementUnit : UInt16 := 0xFFFD

/-- A sequence that has begun.  The next byte is to lie between two bounds, and `more`
bytes follow it.  What is read in the end is no ASCII character and no number that is too
large. -/
structure Pending where
  more : ℕ
  lower : UInt8
  upper : UInt8
  point : ℕ
  low : 0x80 ≤ lower.toNat
  high : upper.toNat ≤ 0xBF
  large : 0x80 ≤ (point * 64 + lower.toNat % 64) * 64 ^ more
  small : (point * 64 + upper.toNat % 64 + 1) * 64 ^ more ≤ 0x110000

/-- The first byte of a sequence. -/
def lead (b : UInt8) : Option Pending :=
  if h2 : 0xC2 ≤ b.toNat ∧ b.toNat ≤ 0xDF then
    some ⟨0, 0x80, 0xBF, b.toNat % 32, by decide, by decide, by simp; omega, by simp; omega⟩
  else if h3 : 0xE0 ≤ b.toNat ∧ b.toNat ≤ 0xEF then
    if he0 : b.toNat = 0xE0 then some ⟨1, 0xA0, 0xBF, 0, by decide, by decide, by decide, by decide⟩
    else if b.toNat = 0xED then
      some ⟨1, 0x80, 0x9F, 0xD, by decide, by decide, by decide, by decide⟩
    else some ⟨1, 0x80, 0xBF, b.toNat % 16, by decide, by decide, by simp; omega, by simp; omega⟩
  else if h4 : 0xF0 ≤ b.toNat ∧ b.toNat ≤ 0xF4 then
    if hf0 : b.toNat = 0xF0 then some ⟨2, 0x90, 0xBF, 0, by decide, by decide, by decide, by decide⟩
    else if hf4 : b.toNat = 0xF4 then
      some ⟨2, 0x80, 0x8F, 4, by decide, by decide, by decide, by decide⟩
    else some ⟨2, 0x80, 0xBF, b.toNat % 8, by decide, by decide, by simp; omega, by simp; omega⟩
  else none

/-- The units of a number below 0x110000. -/
def ofPoint (n : ℕ) : Utf16 :=
  if n < 0x10000 then [n.toUInt16]
  else [(0xD800 + (n - 0x10000) / 0x400).toUInt16, (0xDC00 + (n - 0x10000) % 0x400).toUInt16]

/-- A byte with no sequence before it. -/
def start (b : UInt8) : Utf16 × Option Pending :=
  if b.toNat < 0x80 then ([b.toUInt16], none)
  else
    match lead b with
    | some p => ([], some p)
    | none => ([replacementUnit], none)

def Pending.Takes (p : Pending) (b : UInt8) : Prop :=
  p.lower.toNat ≤ b.toNat ∧ b.toNat ≤ p.upper.toNat

instance (p : Pending) (b : UInt8) : Decidable (p.Takes b) := inferInstanceAs (Decidable (_ ∧ _))

/-- The sequence with one byte more, when there are others to come. -/
def Pending.extend (p : Pending) (b : UInt8) (m : ℕ) (hmore : p.more = m + 1) (h : p.Takes b) :
    Pending where
  more := m
  lower := 0x80
  upper := 0xBF
  point := p.point * 64 + b.toNat % 64
  low := by decide
  high := by decide
  large := by
    have hlarge := p.large
    have hlow := p.low
    have hhigh := p.high
    obtain ⟨hl, hu⟩ := h
    have hle : p.point * 64 + p.lower.toNat % 64 ≤ p.point * 64 + b.toNat % 64 := by omega
    rw [hmore, Nat.pow_succ'] at hlarge
    calc 0x80 ≤ (p.point * 64 + p.lower.toNat % 64) * (64 * 64 ^ m) := hlarge
      _ ≤ (p.point * 64 + b.toNat % 64) * (64 * 64 ^ m) := Nat.mul_le_mul_right _ hle
      _ = ((p.point * 64 + b.toNat % 64) * 64 + (0x80 : UInt8).toNat % 64) * 64 ^ m := by
        show _ = ((p.point * 64 + b.toNat % 64) * 64 + 0) * 64 ^ m
        ring
  small := by
    have hsmall := p.small
    have hlow := p.low
    have hhigh := p.high
    obtain ⟨hl, hu⟩ := h
    have hle : p.point * 64 + b.toNat % 64 + 1 ≤ p.point * 64 + p.upper.toNat % 64 + 1 := by omega
    rw [hmore, Nat.pow_succ'] at hsmall
    calc ((p.point * 64 + b.toNat % 64) * 64 + (0xBF : UInt8).toNat % 64 + 1) * 64 ^ m
        = (p.point * 64 + b.toNat % 64 + 1) * (64 * 64 ^ m) := by
          show ((p.point * 64 + b.toNat % 64) * 64 + 63 + 1) * 64 ^ m = _
          ring
      _ ≤ (p.point * 64 + p.upper.toNat % 64 + 1) * (64 * 64 ^ m) := Nat.mul_le_mul_right _ hle
      _ ≤ 0x110000 := hsmall

/-- The units a byte gives, and the sequence it leaves. -/
def step : Option Pending → UInt8 → Utf16 × Option Pending
  | none, b => start b
  | some p, b =>
      if h : p.Takes b then
        match hmore : p.more with
        | 0 => (ofPoint (p.point * 64 + b.toNat % 64), none)
        | m + 1 => ([], some (p.extend b m hmore h))
      else (replacementUnit :: (start b).1, (start b).2)

/-- A sequence that is not complete at the end. -/
def flush : Option Pending → Utf16
  | none => []
  | some _ => [replacementUnit]

def decodeFrom (s : Option Pending) : List UInt8 → Utf16
  | [] => flush s
  | b :: bytes => (step s b).1 ++ decodeFrom (step s b).2 bytes

def decode (bytes : List UInt8) : Utf16 := decodeFrom none bytes

/-- The sequence that is begun after some bytes. -/
def state (s : Option Pending) (bytes : List UInt8) : Option Pending :=
  bytes.foldl (fun s b => (step s b).2) s

/-- The units of some bytes, without an end. -/
def emitted (s : Option Pending) : List UInt8 → Utf16
  | [] => []
  | b :: bytes => (step s b).1 ++ emitted (step s b).2 bytes

variable {s : Option Pending} {a b bytes : List UInt8} {c : UInt8}

theorem decodeFrom_append (s : Option Pending) (a b : List UInt8) :
    decodeFrom s (a ++ b) = emitted s a ++ decodeFrom (state s a) b := by
  induction a generalizing s with
  | nil => rfl
  | cons c a ih => rw [List.cons_append, decodeFrom, ih, emitted, List.append_assoc]; rfl

theorem decodeFrom_eq (s : Option Pending) (a : List UInt8) :
    decodeFrom s a = emitted s a ++ flush (state s a) := by
  have happend := decodeFrom_append s a []
  rwa [List.append_nil] at happend

theorem state_append (s : Option Pending) (a b : List UInt8) :
    state s (a ++ b) = state (state s a) b := List.foldl_append

/-- Behind whole characters decoding begins afresh. -/
theorem decode_append (h : state none a = none) (b : List UInt8) :
    decode (a ++ b) = decode a ++ decode b := by
  rw [decode, decodeFrom_append, h, decode, decodeFrom_eq none a, h]
  simp [flush, decode]

/-! ## Newlines -/

/-- The byte of a newline. -/
abbrev newlineByte : UInt8 := 10

theorem start_newline : start newlineByte = ([newline], none) := rfl

theorem step_newline (s : Option Pending) :
    step s newlineByte = (flush s ++ [newline], none) := by
  cases s with
  | none => rfl
  | some p =>
      have hnot : ¬p.Takes newlineByte := fun h => absurd (p.low.trans h.1) (by decide)
      rw [step, dif_neg hnot]
      rfl

/-- A newline ends whatever has begun. -/
theorem decode_newline (a b : List UInt8) :
    decode (a ++ newlineByte :: b) = decode a ++ newline :: decode b := by
  rw [decode, decodeFrom_append, decodeFrom, step_newline, decode, decodeFrom_eq none a, decode]
  simp

theorem toUInt16_ne_newline (hc : c ≠ newlineByte) : c.toUInt16 ≠ newline := by
  intro h
  have hnat := congrArg UInt16.toNat h
  rw [UInt8.toNat_toUInt16] at hnat
  exact hc (UInt8.toNat_inj.mp hnat)

theorem newline_notMem_start (hc : c ≠ newlineByte) : newline ∉ (start c).1 := by
  unfold start
  split
  next => simpa using (toUInt16_ne_newline hc).symm
  next =>
    split
    next => exact List.not_mem_nil
    next => decide

/-- What a sequence stands for when it is complete. -/
theorem Pending.point_bounds {p : Pending} (hmore : p.more = 0) (h : p.Takes c) :
    0x80 ≤ p.point * 64 + c.toNat % 64 ∧ p.point * 64 + c.toNat % 64 < 0x110000 := by
  have hlarge := p.large
  have hsmall := p.small
  have hlow := p.low
  have hhigh := p.high
  obtain ⟨hl, hu⟩ := h
  rw [hmore, Nat.pow_zero, Nat.mul_one] at hlarge hsmall
  omega

theorem newline_notMem_ofPoint {n : ℕ} (hlow : 0x80 ≤ n) (hhigh : n < 0x110000) :
    newline ∉ ofPoint n := by
  have hunit {k : ℕ} (h : 0x80 ≤ k) (h' : k < 0x10000) : newline ≠ k.toUInt16 := by
    intro heq
    have hnat := congrArg UInt16.toNat heq
    rw [Nat.toUInt16_eq, UInt16.toNat_ofNat', Nat.mod_eq_of_lt h'] at hnat
    have hten : newline.toNat = 10 := rfl
    omega
  unfold ofPoint
  split
  next h => simpa using hunit hlow h
  next h =>
    rw [List.mem_cons, List.mem_singleton, not_or]
    exact ⟨hunit (by omega) (by omega), hunit (by omega) (by omega)⟩

theorem newline_notMem_step (hc : c ≠ newlineByte) : newline ∉ (step s c).1 := by
  cases s with
  | none => exact newline_notMem_start hc
  | some p =>
      rw [step]
      split
      next h =>
        split
        next hmore =>
          obtain ⟨hlow, hhigh⟩ := Pending.point_bounds hmore h
          exact newline_notMem_ofPoint hlow hhigh
        next => exact List.not_mem_nil
      next =>
        rw [List.mem_cons, not_or]
        exact ⟨by decide, newline_notMem_start hc⟩

/-- No other byte gives a newline. -/
theorem newline_notMem_decodeFrom (h : newlineByte ∉ bytes) : newline ∉ decodeFrom s bytes := by
  induction bytes generalizing s with
  | nil =>
      cases s with
      | none => exact List.not_mem_nil
      | some p =>
          show newline ∉ [replacementUnit]
          decide
  | cons c bytes ih =>
      rw [List.mem_cons, not_or] at h
      rw [decodeFrom, List.mem_append, not_or]
      exact ⟨newline_notMem_step fun heq => h.1 heq.symm, ih h.2⟩

/-! ## Pieces -/

theorem count_ofPoint_le (n : ℕ) : (ofPoint n).count replacementUnit ≤ 1 := by
  unfold ofPoint
  split
  next => exact List.count_le_length
  next =>
    have hlow : (0xDC00 + (n - 0x10000) % 0x400).toUInt16 ≠ replacementUnit := by
      intro heq
      have hnat := congrArg UInt16.toNat heq
      rw [Nat.toUInt16_eq, UInt16.toNat_ofNat', Nat.mod_eq_of_lt (by omega)] at hnat
      have hvalue : replacementUnit.toNat = 0xFFFD := rfl
      omega
    rw [List.count_cons, List.count_singleton, if_neg (by simpa using hlow)]
    split <;> omega

/-- A byte that continues a sequence begins none. -/
theorem start_of_takes {p : Pending} (h : p.Takes c) : start c = ([replacementUnit], none) := by
  have hlow := p.low.trans h.1
  have hhigh := h.2.trans p.high
  have hlead : lead c = none := by
    unfold lead
    rw [dif_neg (by omega), dif_neg (by omega), dif_neg (by omega)]
  rw [start, if_neg (by omega), hlead]

theorem count_decodeFrom_of_takes {p : Pending} (h : p.Takes c)
    (ih : ∀ p : Pending, (decodeFrom (some p) bytes).count replacementUnit ≤
      1 + (decode bytes).count replacementUnit) :
    (decodeFrom (some p) (c :: bytes)).count replacementUnit ≤
      (decode (c :: bytes)).count replacementUnit := by
  have hafresh : (decode (c :: bytes)).count replacementUnit =
      1 + (decode bytes).count replacementUnit := by
    rw [decode, decodeFrom, step, start_of_takes h, List.count_append, decode]
    rfl
  rw [hafresh, decodeFrom, step, dif_pos h]
  split
  next =>
    have hone := count_ofPoint_le (p.point * 64 + c.toNat % 64)
    rw [List.count_append]
    exact Nat.add_le_add_right hone _
  next => exact ih _

/-- To read on in a sequence gives no more U+FFFD than to end it and begin afresh. -/
theorem count_decodeFrom_le (s : Option Pending) (bytes : List UInt8) :
    (decodeFrom s bytes).count replacementUnit ≤
      (flush s).count replacementUnit + (decode bytes).count replacementUnit := by
  cases s with
  | none => exact Nat.le_add_left _ _
  | some p =>
      show _ ≤ 1 + _
      induction bytes generalizing p with
      | nil => exact le_rfl
      | cons c bytes ih =>
          by_cases h : p.Takes c
          · have hle := count_decodeFrom_of_takes h ih
            omega
          · rw [decodeFrom, step, dif_neg h, List.cons_append, List.count_cons_self, Nat.add_comm]
            exact le_rfl

/-- The byte is one that may come here. -/
def Accepts : Option Pending → UInt8 → Prop
  | none, b => b.toNat < 0x80 ∨ (lead b).isSome = true
  | some p, b => p.Takes b

/-- Bytes without an error in them, and without an unfinished sequence at the end. -/
def Clean : Option Pending → List UInt8 → Prop
  | s, [] => s = none
  | s, b :: bytes => Accepts s b ∧ Clean (step s b).2 bytes

theorem Clean.append_right (h : Clean s (a ++ b)) : Clean (state s a) b := by
  induction a generalizing s with
  | nil => exact h
  | cons c a ih => exact ih h.2

theorem Clean.append_left (h : Clean s (a ++ b)) (ha : state s a = none) : Clean s a := by
  induction a generalizing s with
  | nil => exact ha
  | cons c a ih => exact ⟨h.1, ih h.2 ha⟩

theorem Clean.state_eq (h : Clean s a) : state s a = none := by
  induction a generalizing s with
  | nil => exact h
  | cons c a ih => exact ih h.2

theorem Clean.append (ha : Clean s a) (hb : Clean none b) : Clean s (a ++ b) := by
  induction a generalizing s with
  | nil =>
      rw [show s = none from ha]
      exact hb
  | cons c a ih => exact ⟨ha.1, ih ha.2⟩

/-- In bytes without an error an end in the middle of a sequence costs one more. -/
theorem count_decodeFrom_lt {p : Pending} (h : Clean (some p) bytes) :
    (decodeFrom (some p) bytes).count replacementUnit <
      1 + (decode bytes).count replacementUnit := by
  cases bytes with
  | nil => cases h
  | cons c bytes =>
      have hle := count_decodeFrom_of_takes h.1 fun p => count_decodeFrom_le (some p) bytes
      omega

/-- No piece ends inside a sequence. -/
def Whole (pieces : List (List UInt8)) : Prop :=
  ∀ k, state none (pieces.take k).flatten = none

theorem whole_cons {pieces : List (List UInt8)} (ha : state none a = none) :
    Whole (a :: pieces) ↔ Whole pieces := by
  have hstep (k : ℕ) : state none ((a :: pieces).take (k + 1)).flatten =
      state none (pieces.take k).flatten := by
    rw [List.take_succ_cons, List.flatten_cons, state_append, ha]
  constructor
  · intro h k
    rw [← hstep]
    exact h (k + 1)
  · intro h k
    cases k with
    | zero => rfl
    | succ k =>
        rw [hstep]
        exact h k

theorem flatMap_decode_of_whole {pieces : List (List UInt8)} (h : Whole pieces) :
    pieces.flatMap decode = decode pieces.flatten := by
  induction pieces with
  | nil => rfl
  | cons a pieces ih =>
      have ha : state none a = none := by simpa using h 1
      rw [List.flatMap_cons, List.flatten_cons, decode_append ha, ih ((whole_cons ha).mp h)]

theorem decode_count_append (a b : List UInt8) :
    (decode (a ++ b)).count replacementUnit ≤
      (decode a).count replacementUnit + (decode b).count replacementUnit := by
  have hle := count_decodeFrom_le (state none a) b
  rw [decode, decodeFrom_append, decode, decodeFrom_eq none a, List.count_append, List.count_append]
  omega

theorem count_decode_le (pieces : List (List UInt8)) :
    (decode pieces.flatten).count replacementUnit ≤
      (pieces.flatMap decode).count replacementUnit := by
  induction pieces with
  | nil => exact le_rfl
  | cons a pieces ih =>
      have hle := decode_count_append a pieces.flatten
      rw [List.flatten_cons, List.flatMap_cons, List.count_append]
      omega

/-- A piece that ends inside a character leaves its trace. -/
theorem count_flatMap_decode {pieces : List (List UInt8)} (hclean : Clean none pieces.flatten)
    (h : ¬Whole pieces) :
    (decode pieces.flatten).count replacementUnit <
      (pieces.flatMap decode).count replacementUnit := by
  induction pieces with
  | nil =>
      refine absurd (fun k => ?_) h
      rw [List.take_nil]
      rfl
  | cons a pieces ih =>
      rw [List.flatten_cons] at hclean ⊢
      have hrest := hclean.append_right
      rw [List.flatMap_cons, List.count_append]
      cases ha : state none a with
      | none =>
          rw [ha] at hrest
          have hlt := ih hrest fun hwhole => h ((whole_cons ha).mpr hwhole)
          rw [decode_append ha, List.count_append]
          omega
      | some p =>
          rw [ha] at hrest
          have hlt := count_decodeFrom_lt hrest
          have hle := count_decode_le pieces
          have hflush : (flush (some p)).count replacementUnit = 1 := rfl
          rw [decode, decodeFrom_append, ha, decode, decodeFrom_eq none a, ha, List.count_append,
            List.count_append, hflush]
          omega

theorem flatMap_decode_eq_iff {pieces : List (List UInt8)} (hclean : Clean none pieces.flatten) :
    pieces.flatMap decode = decode pieces.flatten ↔ Whole pieces := by
  refine ⟨fun heq => ?_, flatMap_decode_of_whole⟩
  by_contra h
  have hlt := count_flatMap_decode hclean h
  rw [heq] at hlt
  exact lt_irrefl _ hlt

/-! ## Characters -/

/-- The bytes of some characters. -/
def encode (cs : List Char) : List UInt8 := cs.flatMap fun c => utf8 (ofChar c)

theorem lead_two (h : 0xC2 ≤ c.toNat ∧ c.toNat ≤ 0xDF) : ∃ p, lead c = some p ∧ p.more = 0 ∧
    p.point = c.toNat % 32 ∧ ∀ b, p.Takes b ↔ 0x80 ≤ b.toNat ∧ b.toNat ≤ 0xBF := by
  refine ⟨_, dif_pos h, rfl, rfl, fun b => Iff.rfl⟩

theorem lead_three (h : 0xE0 ≤ c.toNat ∧ c.toNat ≤ 0xEF) : ∃ p, lead c = some p ∧ p.more = 1 ∧
    p.point = c.toNat % 16 ∧ ∀ b, p.Takes b ↔ (if c.toNat = 0xE0 then 0xA0 else 0x80) ≤ b.toNat ∧
      b.toNat ≤ if c.toNat = 0xED then 0x9F else 0xBF := by
  unfold lead
  rw [dif_neg (by omega), dif_pos h]
  split
  next he0 =>
    rw [if_neg (by omega), he0]
    exact ⟨_, rfl, rfl, rfl, fun b => Iff.rfl⟩
  next he0 =>
    split
    next hed =>
      rw [hed]
      exact ⟨_, rfl, rfl, rfl, fun b => Iff.rfl⟩
    next => exact ⟨_, rfl, rfl, rfl, fun b => Iff.rfl⟩

theorem lead_four (h : 0xF0 ≤ c.toNat ∧ c.toNat ≤ 0xF4) : ∃ p, lead c = some p ∧ p.more = 2 ∧
    p.point = c.toNat % 8 ∧ ∀ b, p.Takes b ↔ (if c.toNat = 0xF0 then 0x90 else 0x80) ≤ b.toNat ∧
      b.toNat ≤ if c.toNat = 0xF4 then 0x8F else 0xBF := by
  unfold lead
  rw [dif_neg (by omega), dif_neg (by omega), dif_pos h]
  split
  next hf0 =>
    rw [if_neg (by omega), hf0]
    exact ⟨_, rfl, rfl, rfl, fun b => Iff.rfl⟩
  next hf0 =>
    split
    next hf4 =>
      rw [hf4]
      exact ⟨_, rfl, rfl, rfl, fun b => Iff.rfl⟩
    next => exact ⟨_, rfl, rfl, rfl, fun b => Iff.rfl⟩

theorem step_start {p : Pending} (h : lead c = some p) (hc : 0x80 ≤ c.toNat) :
    step none c = ([], some p) := by
  rw [step, start, if_neg (by omega), h]

theorem step_more {p : Pending} {m : ℕ} (hmore : p.more = m + 1) (h : p.Takes c) :
    ∃ q, step (some p) c = ([], some q) ∧ q.more = m ∧ q.point = p.point * 64 + c.toNat % 64 ∧
      ∀ b, q.Takes b ↔ 0x80 ≤ b.toNat ∧ b.toNat ≤ 0xBF := by
  rw [step, dif_pos h]
  split
  next hzero => omega
  next k hk =>
    obtain rfl : k = m := by omega
    exact ⟨_, rfl, rfl, rfl, fun b => Iff.rfl⟩

theorem step_last {p : Pending} (hmore : p.more = 0) (h : p.Takes c) :
    step (some p) c = (ofPoint (p.point * 64 + c.toNat % 64), none) := by
  rw [step, dif_pos h]
  split
  next => rfl
  next k hk => omega

/-- Bytes that are one character: they give its units, and no part of them is complete. -/
structure Single (bytes : List UInt8) (units : Utf16) : Prop where
  ne_nil : bytes ≠ []
  emitted : emitted none bytes = units
  clean : Clean none bytes
  inside : ∀ k, 0 < k → k < bytes.length → state none (bytes.take k) ≠ none

theorem toNat_trail (n : ℕ) : (trail n).toNat = 0x80 + n % 64 := by
  rw [trail, Nat.toUInt8_eq, UInt8.toNat_ofNat', Nat.mod_eq_of_lt (by omega)]

theorem toNat_toUInt8 {n : ℕ} (h : n < 256) : n.toUInt8.toNat = n := by
  rw [Nat.toUInt8_eq, UInt8.toNat_ofNat', Nat.mod_eq_of_lt h]

theorem single_two {n : ℕ} (hlow : 0x80 ≤ n) (hhigh : n < 0x800) : Single (two n) (ofPoint n) := by
  have hlead : (0xC0 + n / 0x40).toUInt8.toNat = 0xC0 + n / 0x40 := toNat_toUInt8 (by omega)
  obtain ⟨p, hp, hmore, hpoint, htakes⟩ :=
    lead_two (c := (0xC0 + n / 0x40).toUInt8) (by rw [hlead]; omega)
  have hstart := step_start hp (by rw [hlead]; omega)
  have htrail : p.Takes (trail n) := (htakes _).mpr (by rw [toNat_trail]; omega)
  have hlast := step_last hmore htrail
  have hn : p.point * 64 + (trail n).toNat % 64 = n := by
    rw [hpoint, hlead, toNat_trail]
    omega
  rw [hn] at hlast
  constructor
  case ne_nil => exact List.cons_ne_nil _ _
  case emitted => simp only [two, emitted, hstart, hlast, List.nil_append, List.append_nil]
  case clean =>
    refine ⟨Or.inr (by rw [hp]; rfl), ?_⟩
    rw [hstart]
    refine ⟨htrail, ?_⟩
    rw [hlast]
    rfl
  case inside =>
    intro k hpos hk
    obtain rfl : k = 1 := by
      simp only [two, List.length_cons, List.length_nil] at hk
      omega
    simp only [two, state, List.take_succ_cons, List.take_zero, List.foldl_cons, List.foldl_nil, hstart]
    exact Option.some_ne_none p

theorem single_three {n : ℕ} (hlow : 0x800 ≤ n) (hhigh : n < 0x10000)
    (hscalar : n < 0xD800 ∨ 0xDFFF < n) : Single (three n) (ofPoint n) := by
  have hlead : (0xE0 + n / 0x1000).toUInt8.toNat = 0xE0 + n / 0x1000 := toNat_toUInt8 (by omega)
  obtain ⟨p, hp, hmore, hpoint, htakes⟩ :=
    lead_three (c := (0xE0 + n / 0x1000).toUInt8) (by rw [hlead]; omega)
  have hstart := step_start hp (by rw [hlead]; omega)
  have htrail : p.Takes (trail (n / 0x40)) := by
    rw [htakes, hlead, toNat_trail]
    constructor <;> split <;> omega
  obtain ⟨q, hq, hqmore, hqpoint, hqtakes⟩ := step_more hmore htrail
  have htrail' : q.Takes (trail n) := (hqtakes _).mpr (by rw [toNat_trail]; omega)
  have hlast := step_last hqmore htrail'
  have hn : q.point * 64 + (trail n).toNat % 64 = n := by
    rw [hqpoint, hpoint, hlead, toNat_trail, toNat_trail]
    omega
  rw [hn] at hlast
  constructor
  case ne_nil => exact List.cons_ne_nil _ _
  case emitted => simp only [three, emitted, hstart, hq, hlast, List.nil_append, List.append_nil]
  case clean =>
    refine ⟨Or.inr (by rw [hp]; rfl), ?_⟩
    rw [hstart]
    refine ⟨htrail, ?_⟩
    rw [hq]
    refine ⟨htrail', ?_⟩
    rw [hlast]
    rfl
  case inside =>
    intro k hpos hk
    simp only [three, List.length_cons, List.length_nil] at hk
    obtain rfl | rfl : k = 1 ∨ k = 2 := by omega
    all_goals simp only [three, state, List.take_succ_cons, List.take_zero, List.foldl_cons,
      List.foldl_nil, hstart, hq]
    all_goals exact Option.some_ne_none _

theorem single_four {n : ℕ} (hlow : 0x10000 ≤ n) (hhigh : n < 0x110000) :
    Single (four n) (ofPoint n) := by
  have hlead : (0xF0 + n / 0x40000).toUInt8.toNat = 0xF0 + n / 0x40000 := toNat_toUInt8 (by omega)
  obtain ⟨p, hp, hmore, hpoint, htakes⟩ :=
    lead_four (c := (0xF0 + n / 0x40000).toUInt8) (by rw [hlead]; omega)
  have hstart := step_start hp (by rw [hlead]; omega)
  have htrail : p.Takes (trail (n / 0x1000)) := by
    rw [htakes, hlead, toNat_trail]
    constructor <;> split <;> omega
  obtain ⟨q, hq, hqmore, hqpoint, hqtakes⟩ := step_more hmore htrail
  have htrail' : q.Takes (trail (n / 0x40)) := (hqtakes _).mpr (by rw [toNat_trail]; omega)
  obtain ⟨r, hr, hrmore, hrpoint, hrtakes⟩ := step_more hqmore htrail'
  have htrail'' : r.Takes (trail n) := (hrtakes _).mpr (by rw [toNat_trail]; omega)
  have hlast := step_last hrmore htrail''
  have hn : r.point * 64 + (trail n).toNat % 64 = n := by
    rw [hrpoint, hqpoint, hpoint, hlead, toNat_trail, toNat_trail, toNat_trail]
    omega
  rw [hn] at hlast
  constructor
  case ne_nil => exact List.cons_ne_nil _ _
  case emitted =>
    simp only [four, emitted, hstart, hq, hr, hlast, List.nil_append, List.append_nil]
  case clean =>
    refine ⟨Or.inr (by rw [hp]; rfl), ?_⟩
    rw [hstart]
    refine ⟨htrail, ?_⟩
    rw [hq]
    refine ⟨htrail', ?_⟩
    rw [hr]
    refine ⟨htrail'', ?_⟩
    rw [hlast]
    rfl
  case inside =>
    intro k hpos hk
    simp only [four, List.length_cons, List.length_nil] at hk
    obtain rfl | rfl | rfl : k = 1 ∨ k = 2 ∨ k = 3 := by omega
    all_goals simp only [four, state, List.take_succ_cons, List.take_zero, List.foldl_cons,
      List.foldl_nil, hstart, hq, hr]
    all_goals exact Option.some_ne_none _

theorem toNat_toUInt16 {n : ℕ} (h : n < 0x10000) : n.toUInt16.toNat = n := by
  rw [Nat.toUInt16_eq, UInt16.toNat_ofNat', Nat.mod_eq_of_lt h]

theorem point_halves {n : ℕ} (hlow : 0x10000 ≤ n) (hhigh : n < 0x110000) :
    point (0xD800 + (n - 0x10000) / 0x400).toUInt16 (0xDC00 + (n - 0x10000) % 0x400).toUInt16 = n := by
  unfold point
  have h1 : (0xD800 + (n - 0x10000) / 0x400).toUInt16.toNat = 0xD800 + (n - 0x10000) / 0x400 :=
    toNat_toUInt16 (by omega)
  have h2 : (0xDC00 + (n - 0x10000) % 0x400).toUInt16.toNat = 0xDC00 + (n - 0x10000) % 0x400 :=
    toNat_toUInt16 (by omega)
  simp only [h1, h2, Nat.add_sub_cancel_left]
  omega

theorem single_char (c : Char) : Single (utf8 (ofChar c)) (ofChar c) := by
  have hvalid : c.toNat < 0xD800 ∨ 0xDFFF < c.toNat ∧ c.toNat < 0x110000 := c.valid
  have hpoint : ofChar c = ofPoint c.toNat := rfl
  by_cases hsmall : c.toNat < 0x10000
  · have hunits : ofChar c = [c.toNat.toUInt16] := if_pos hsmall
    have hnat := toNat_toUInt16 hsmall
    rw [hpoint] at hunits ⊢
    rw [hunits, utf8]
    by_cases hascii : c.toNat < 0x80
    · have hisAscii : isAscii c.toNat.toUInt16 = true := by
        simp only [isAscii, decide_eq_true_eq, UInt16.lt_iff_toNat_lt, hnat]
        exact hascii
      have hbyte : c.toNat.toUInt16.toUInt8.toNat = c.toNat := by
        rw [UInt16.toNat_toUInt8, hnat]
        omega
      have hstep : step none c.toNat.toUInt16.toUInt8 = ([c.toNat.toUInt16], none) := by
        rw [step, start, if_pos (by omega)]
        refine Prod.ext (congrArg (fun u => [u]) (UInt16.toNat_inj.mp ?_)) rfl
        rw [UInt8.toNat_toUInt16, hbyte, hnat]
      rw [unit_ascii hisAscii]
      constructor
      case ne_nil => exact List.cons_ne_nil _ _
      case emitted => simp only [emitted, hstep, List.append_nil]
      case clean =>
        refine ⟨Or.inl (by omega), ?_⟩
        rw [hstep]
        rfl
      case inside =>
        intro k hpos hk
        simp only [List.length_cons, List.length_nil] at hk
        omega
    · have hnotAscii : isAscii c.toNat.toUInt16 = false := by
        simp only [isAscii, decide_eq_false_iff_not, UInt16.lt_iff_toNat_lt, hnat]
        exact hascii
      by_cases htwo : c.toNat < 0x800
      · have hunit : unit c.toNat.toUInt16 = two c.toNat := by
          have hlt : c.toNat.toUInt16 < 0x800 := by
            rw [UInt16.lt_iff_toNat_lt, hnat]
            exact htwo
          rw [unit, hnotAscii, if_neg Bool.false_ne_true, if_pos hlt, hnat]
        rw [hunit, ← hunits]
        exact single_two (by omega) htwo
      · have hunit : unit c.toNat.toUInt16 = three c.toNat := by
          have hlt : ¬c.toNat.toUInt16 < 0x800 := by
            rw [UInt16.lt_iff_toNat_lt, hnat]
            exact htwo
          have hsurrogate : (isHigh c.toNat.toUInt16 || isLow c.toNat.toUInt16) = false := by
            simp only [isHigh, isLow, Bool.or_eq_false_iff, Bool.and_eq_false_iff,
              decide_eq_false_iff_not, UInt16.lt_iff_toNat_lt, UInt16.le_iff_toNat_le, hnat,
              UInt16.reduceToNat]
            omega
          rw [unit, hnotAscii, if_neg Bool.false_ne_true, if_neg hlt, hsurrogate,
            if_neg Bool.false_ne_true, hnat]
        rw [hunit, ← hunits]
        exact single_three (by omega) hsmall (by omega)
  · have hunits : ofChar c = [(0xD800 + (c.toNat - 0x10000) / 0x400).toUInt16,
        (0xDC00 + (c.toNat - 0x10000) % 0x400).toUInt16] := if_neg hsmall
    have hhigh := toNat_toUInt16 (n := 0xD800 + (c.toNat - 0x10000) / 0x400) (by omega)
    have hlow := toNat_toUInt16 (n := 0xDC00 + (c.toNat - 0x10000) % 0x400) (by omega)
    have hpair : (isHigh (0xD800 + (c.toNat - 0x10000) / 0x400).toUInt16 &&
        isLow (0xDC00 + (c.toNat - 0x10000) % 0x400).toUInt16) = true := by
      simp only [isHigh, isLow, Bool.and_eq_true, decide_eq_true_eq, UInt16.lt_iff_toNat_lt,
        UInt16.le_iff_toNat_le, hhigh, hlow, UInt16.reduceToNat]
      omega
    have hbytes : utf8 (ofChar c) = four c.toNat := by
      rw [hunits, utf8, if_pos hpair, point_halves (by omega) (by omega)]
      exact List.append_nil _
    rw [hbytes, hpoint]
    exact single_four (by omega) (by omega)

theorem clean_encode (cs : List Char) : Clean none (encode cs) := by
  induction cs with
  | nil => rfl
  | cons c cs ih => exact (single_char c).clean.append ih

theorem encode_append (cs ds : List Char) : encode (cs ++ ds) = encode cs ++ encode ds :=
  List.flatMap_append

/-- Decoding undoes encoding. -/
theorem decode_encode (cs : List Char) : decode (encode cs) = cs.flatMap ofChar := by
  induction cs with
  | nil => rfl
  | cons c cs ih =>
      have hc := single_char c
      have hdecode : decode (utf8 (ofChar c)) = ofChar c := by
        rw [decode, decodeFrom_eq, hc.emitted, hc.clean.state_eq]
        exact List.append_nil _
      rw [encode, List.flatMap_cons, decode_append hc.clean.state_eq, hdecode, List.flatMap_cons]
      exact congrArg _ ih

/-- No units of a character begin those of another one. -/
theorem ofChar_append_inj {c d : Char} {s t : Utf16} (h : ofChar c ++ s = ofChar d ++ t) :
    c = d ∧ s = t := by
  have hc : c.toNat < 0xD800 ∨ 0xDFFF < c.toNat ∧ c.toNat < 0x110000 := c.valid
  have hd : d.toNat < 0xD800 ∨ 0xDFFF < d.toNat ∧ d.toNat < 0x110000 := d.valid
  have hext : c.toNat = d.toNat → c = d := fun heq => Char.ext (UInt32.toNat_inj.mp heq)
  unfold ofChar at h
  split at h
  next hsmall =>
    split at h
    next hsmall' =>
      have hunit := congrArg UInt16.toNat (List.cons.inj h).1
      rw [toNat_toUInt16 hsmall, toNat_toUInt16 hsmall'] at hunit
      exact ⟨hext hunit, (List.cons.inj h).2⟩
    next hlarge =>
      have hunit := congrArg UInt16.toNat (List.cons.inj h).1
      rw [toNat_toUInt16 hsmall, toNat_toUInt16 (by omega)] at hunit
      omega
  next hlarge =>
    split at h
    next hsmall =>
      have hunit := congrArg UInt16.toNat (List.cons.inj h).1
      rw [toNat_toUInt16 hsmall, toNat_toUInt16 (by omega)] at hunit
      omega
    next hlarge' =>
      obtain ⟨hhigh, hrest⟩ := List.cons.inj h
      obtain ⟨hlow, htail⟩ := List.cons.inj hrest
      have hhigh := congrArg UInt16.toNat hhigh
      have hlow := congrArg UInt16.toNat hlow
      rw [toNat_toUInt16 (by omega), toNat_toUInt16 (by omega)] at hhigh hlow
      exact ⟨hext (by omega), htail⟩

theorem flatMap_ofChar_injective : Function.Injective fun cs : List Char => cs.flatMap ofChar := by
  have hne : ∀ c : Char, ofChar c ≠ [] := by
    intro c
    unfold ofChar
    split <;> exact List.cons_ne_nil _ _
  intro cs
  induction cs with
  | nil =>
      intro ds h
      cases ds with
      | nil => rfl
      | cons d ds => exact absurd (List.append_eq_nil_iff.mp h.symm).1 (hne d)
  | cons c cs ih =>
      intro ds h
      cases ds with
      | nil => exact absurd (List.append_eq_nil_iff.mp h).1 (hne c)
      | cons d ds =>
          obtain ⟨rfl, hrest⟩ := ofChar_append_inj h
          rw [ih hrest]

/-- Two texts have two encodings. -/
theorem encode_injective : Function.Injective encode := by
  intro cs ds h
  refine flatMap_ofChar_injective ?_
  have hdecode := congrArg decode h
  rwa [decode_encode, decode_encode] at hdecode

/-- Where no sequence is begun, the characters before are complete. -/
theorem state_eq_none_iff {cs : List Char} (h : a <+: encode cs) :
    state none a = none ↔ ∃ ds, a = encode ds := by
  constructor
  · intro hstate
    induction cs generalizing a with
    | nil => exact ⟨[], List.prefix_nil.mp h⟩
    | cons c cs ih =>
        have hc := single_char c
        rw [encode, List.flatMap_cons] at h
        rcases List.prefix_or_prefix_of_prefix h (List.prefix_append _ _) with hinside | hbehind
        · -- only the empty part and the whole of a character are complete
          rcases Nat.eq_zero_or_pos a.length with hzero | hpos
          · exact ⟨[], List.eq_nil_of_length_eq_zero hzero⟩
          · rcases hinside.length_le.lt_or_eq with hlt | heq
            · have hpart := hc.inside a.length hpos hlt
              rw [← List.prefix_iff_eq_take.mp hinside] at hpart
              exact absurd hstate hpart
            · exact ⟨[c], by simpa [encode] using hinside.eq_of_length heq⟩
        · obtain ⟨rest, rfl⟩ := hbehind
          rw [state_append, hc.clean.state_eq] at hstate
          obtain ⟨ds, rfl⟩ := ih ((List.prefix_append_right_inj _).mp h) hstate
          exact ⟨c :: ds, rfl⟩
  · rintro ⟨ds, rfl⟩
    exact (clean_encode ds).state_eq

/-! ## Lines -/

variable {pieces : List (List UInt8)}

/-- The bytes of some lines. -/
def stream (lines : List (List Char)) : List UInt8 := encode (lines.flatMap (· ++ ['\n']))

theorem clean_stream (lines : List (List Char)) : Clean none (stream lines) := clean_encode _

theorem stream_cases (lines : List (List Char)) :
    stream lines = [] ∨ ∃ bytes, stream lines = bytes ++ [newlineByte] := by
  rcases List.eq_nil_or_concat lines with rfl | ⟨before, last, rfl⟩
  · exact Or.inl rfl
  · refine Or.inr ⟨encode (before.flatMap (· ++ ['\n']) ++ last), ?_⟩
    have hnewline : encode ['\n'] = [newlineByte] := by decide
    rw [stream, List.concat_eq_append, List.flatMap_append, List.flatMap_singleton,
      ← List.append_assoc, encode_append, hnewline]

theorem flatMap_decode_nil (h : pieces.flatten = []) : pieces.flatMap decode = [] := by
  rw [List.flatMap_eq_nil_iff]
  intro piece hpiece
  rw [List.flatten_eq_nil_iff.mp h piece hpiece]
  rfl

/-- Where the bytes end with a newline, so does what the pieces give. -/
theorem flatMap_decode_newline {bytes : List UInt8} (h : pieces.flatten = bytes ++ [newlineByte]) :
    ∃ t, pieces.flatMap decode = t ++ [newline] := by
  induction pieces generalizing bytes with
  | nil => simp at h
  | cons piece pieces ih =>
      rcases List.eq_nil_or_concat pieces.flatten with hnil | ⟨before, last, hlast⟩
      · rw [List.flatten_cons, hnil, List.append_nil] at h
        refine ⟨decode bytes, ?_⟩
        rw [List.flatMap_cons, flatMap_decode_nil hnil, h, Utf8.decode_newline, List.append_nil]
        rfl
      · rw [List.flatten_cons, hlast, List.concat_eq_append, ← List.append_assoc] at h
        obtain ⟨-, hnewline⟩ := List.append_inj' h rfl
        obtain ⟨t, ht⟩ := ih (hlast.trans (by rw [List.concat_eq_append, hnewline]))
        exact ⟨decode piece ++ t, by rw [List.flatMap_cons, ht, List.append_assoc]⟩

/-- In bytes without an error a newline is a character of its own. -/
theorem Clean.before_newline (h : Clean none (a ++ newlineByte :: b)) : Clean none a := by
  refine h.append_left ?_
  cases hstate : state none a with
  | none => rfl
  | some p =>
      have hrest := h.append_right
      rw [hstate] at hrest
      exact absurd (p.low.trans hrest.1.1) (by decide)

theorem newline_mem_decode_iff : newline ∈ decode a ↔ newlineByte ∈ a := by
  constructor
  · exact fun hmem => by_contra fun hnot => newline_notMem_decodeFrom hnot hmem
  · intro hmem
    obtain ⟨before, behind, rfl, -⟩ := List.eq_append_cons_of_mem hmem
    rw [decode_newline]
    simp

/-- No piece ends inside a character. -/
theorem whole_iff {lines : List (List Char)} (h : pieces.flatten = stream lines) :
    Whole pieces ↔ ∀ k, ∃ cs, (pieces.take k).flatten = encode cs := by
  refine forall_congr' fun k => @state_eq_none_iff _ (lines.flatMap (· ++ ['\n'])) ?_
  rw [← stream, ← h]
  exact ⟨(pieces.drop k).flatten, by rw [← List.flatten_append, List.take_append_drop]⟩

end Library.Utf8
