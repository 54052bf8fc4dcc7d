import AgentsCanCommunicate.Library.Framing

/-!
# WebSocket frames

A frame begins with two bytes, which tell whether two or eight bytes of length follow
and whether four bytes of a key.  The decoder reads from a frame either all or nothing,
so it can stop at any byte and go on when more has come (`decodeChunks_eq`).

`Number` of a length is the length as long as that is below 2^53.
-/

namespace Acc.AdapterCodex.Frames

open Library

/-- The bytes that mask a payload. -/
structure Key where
  bytes : List UInt8
  four : bytes.length = 4

structure Frame where
  fin : Bool
  opcode : UInt8
  payload : List UInt8
deriving DecidableEq

/-- The last `k` bytes of a number, the highest first. -/
def bigEndian : ℕ → ℕ → List UInt8
  | 0, _ => []
  | k + 1, n => (n / 256 ^ k).toUInt8 :: bigEndian k (n % 256 ^ k)

def readBigEndian : List UInt8 → ℕ
  | [] => 0
  | b :: bytes => b.toNat * 256 ^ bytes.length + readBigEndian bytes

/-- The nearest double, ties to even. -/
def toNumber (n : ℕ) : ℕ :=
  if n < 2 ^ 53 then n
  else
    let unit := 2 ^ (n.log2 - 52)
    let low := n % unit
    if 2 * low < unit ∨ 2 * low = unit ∧ n / unit % 2 = 0 then n - low else n - low + unit

/-- The `index`-th byte is changed by the byte `index % 4` of the key. -/
def xorKey (key data : List UInt8) : List UInt8 :=
  data.mapIdx fun index b => b ^^^ key.getD (index % 4) 0

/-- The second byte of a frame and the length. -/
def lengthHeader (bit : UInt8) (length : ℕ) : List UInt8 :=
  if length < 126 then [bit ||| length.toUInt8]
  else if length < 65536 then [bit ||| 126, (length >>> 8).toUInt8, (length &&& 0xff).toUInt8]
  else (bit ||| 127) :: bigEndian 8 length

def encodeFrame (payload : List UInt8) (opcode : UInt8) : Option Key → List UInt8
  | none => (0x80 ||| opcode) :: lengthHeader 0 payload.length ++ payload
  | some key => (0x80 ||| opcode) :: lengthHeader 0x80 payload.length ++ key.bytes ++
      xorKey key.bytes payload

/-- The length, and what is behind it. -/
def readLength (short : UInt8) (after : List UInt8) : Option (ℕ × List UInt8) :=
  if short = 126 then
    if after.length < 2 then none else some (readBigEndian (after.take 2), after.drop 2)
  else if short = 127 then
    if after.length < 8 then none else some (toNumber (readBigEndian (after.take 8)), after.drop 8)
  else some (short.toNat, after)

/-- The key and the payload. -/
def readPayload (masked : Bool) (length : ℕ) (behind : List UInt8) :
    Option (List UInt8 × List UInt8) :=
  let skip := if masked then 4 else 0
  if behind.length < skip + length then none
  else
    let payload := (behind.drop skip).take length
    some (if masked then xorKey (behind.take 4) payload else payload, behind.drop (skip + length))

/-- One turn of the loop. -/
def nextFrame : List UInt8 → Option (Frame × List UInt8)
  | first :: second :: after =>
      (readLength (second &&& 0x7f) after).bind fun (length, behind) =>
        (readPayload (second &&& 0x80 != 0) length behind).map fun (payload, rest) =>
          (⟨first &&& 0x80 != 0, first &&& 0x0f, payload⟩, rest)
  | _ => none

/-! ## Reading goes on where it stopped -/

variable {s t after behind rest payload : List UInt8} {short opcode : UInt8} {masked : Bool}
  {length n k : ℕ} {f : Frame}

theorem readLength_stable (h : readLength short after = some (length, behind)) (t : List UInt8) :
    readLength short (after ++ t) = some (length, behind ++ t) := by
  unfold readLength at h ⊢
  have hpart {k : ℕ} (hk : ¬after.length < k) : ¬(after ++ t).length < k ∧
      (after ++ t).take k = after.take k ∧ (after ++ t).drop k = after.drop k ++ t := by
    have hle := Nat.le_of_not_lt hk
    refine ⟨?_, List.take_append_of_le_length hle, List.drop_append_of_le_length hle⟩
    rw [List.length_append]
    omega
  split at h
  next h126 =>
    split at h
    next => cases h
    next hlong =>
      cases h
      obtain ⟨hlong', htake, hdrop⟩ := hpart hlong
      rw [if_pos h126, if_neg hlong', htake, hdrop]
  next h126 =>
    split at h
    next h127 =>
      split at h
      next => cases h
      next hlong =>
        cases h
        obtain ⟨hlong', htake, hdrop⟩ := hpart hlong
        rw [if_neg h126, if_pos h127, if_neg hlong', htake, hdrop]
    next h127 =>
      cases h
      rw [if_neg h126, if_neg h127]

theorem readPayload_stable (h : readPayload masked length behind = some (payload, rest))
    (t : List UInt8) : readPayload masked length (behind ++ t) = some (payload, rest ++ t) := by
  unfold readPayload at h ⊢
  have hskip : masked = true → 4 ≤ if masked then 4 else 0 := by
    rintro rfl
    exact le_rfl
  generalize (if masked then 4 else 0) = skip at *
  simp only at h ⊢
  split at h
  next => cases h
  next hlong =>
    cases h
    have hle := Nat.le_of_not_lt hlong
    have hlong' : ¬(behind ++ t).length < skip + length := by
      rw [List.length_append]
      omega
    have hpayload : ((behind ++ t).drop skip).take length = (behind.drop skip).take length := by
      rw [List.drop_append_of_le_length (by omega), List.take_append_of_le_length]
      rw [List.length_drop]
      omega
    rw [if_neg hlong', hpayload, List.drop_append_of_le_length hle]
    cases masked with
    | false => rfl
    | true =>
        have hfour := hskip rfl
        rw [if_pos rfl, if_pos rfl, List.take_append_of_le_length (by omega)]

theorem readLength_length (h : readLength short after = some (length, behind)) :
    behind.length ≤ after.length := by
  unfold readLength at h
  split at h
  next => split at h <;> cases h; simp
  next =>
    split at h
    next => split at h <;> cases h; simp
    next => cases h; exact le_rfl

theorem readPayload_length (h : readPayload masked length behind = some (payload, rest)) :
    rest.length ≤ behind.length := by
  unfold readPayload at h
  generalize (if masked then 4 else 0) = skip at h
  simp only at h
  split at h
  next => cases h
  next => cases h; simp

/-- What a frame is read from. -/
theorem nextFrame_parts (h : nextFrame s = some (f, rest)) :
    ∃ first second after length behind payload, s = first :: second :: after ∧
      readLength (second &&& 0x7f) after = some (length, behind) ∧
      readPayload (second &&& 0x80 != 0) length behind = some (payload, rest) ∧
      f = ⟨first &&& 0x80 != 0, first &&& 0x0f, payload⟩ := by
  unfold nextFrame at h
  split at h
  next first second after =>
    obtain ⟨⟨length, behind⟩, hlength, h⟩ := Option.bind_eq_some_iff.mp h
    obtain ⟨⟨payload, rest'⟩, hpayload, heq⟩ := Option.map_eq_some_iff.mp h
    cases heq
    exact ⟨first, second, after, length, behind, payload, rfl, hlength, hpayload, rfl⟩
  next => cases h

theorem nextFrame_of {first second : UInt8}
    (hlength : readLength (second &&& 0x7f) after = some (length, behind))
    (hpayload : readPayload (second &&& 0x80 != 0) length behind = some (payload, rest)) :
    nextFrame (first :: second :: after) =
      some (⟨first &&& 0x80 != 0, first &&& 0x0f, payload⟩, rest) := by
  rw [nextFrame, hlength, Option.bind_some]
  simp only [hpayload, Option.map_some]

/-- `decodeFrames` reads frames this way. -/
def framing : Framing UInt8 Frame where
  next := nextFrame
  shorter h := by
    obtain ⟨first, second, after, length, behind, payload, rfl, hlength, hpayload, -⟩ :=
      nextFrame_parts h
    have hbehind := readLength_length hlength
    have hrest := readPayload_length hpayload
    simp only [List.length_cons]
    omega
  stable h t := by
    obtain ⟨first, second, after, length, behind, payload, rfl, hlength, hpayload, rfl⟩ :=
      nextFrame_parts h
    exact nextFrame_of (readLength_stable hlength t) (readPayload_stable hpayload t)

def decodeFrames (buffer : List UInt8) : List Frame × List UInt8 := framing.drain buffer

/-- The chunks as they come, each behind the rest. -/
def decodeChunks (chunks : List (List UInt8)) : List Frame × List UInt8 := framing.feedAll chunks

theorem decodeChunks_eq (chunks : List (List UInt8)) :
    decodeChunks chunks = decodeFrames chunks.flatten := framing.feedAll_eq rfl chunks

/-! ## Reading what was written -/

theorem bigEndian_length (k n : ℕ) : (bigEndian k n).length = k := by
  induction k generalizing n with
  | zero => rfl
  | succ k ih => rw [bigEndian, List.length_cons, ih]

theorem readBigEndian_bigEndian (h : n < 256 ^ k) : readBigEndian (bigEndian k n) = n := by
  induction k generalizing n with
  | zero =>
      have hzero : n = 0 := by simpa using h
      rw [hzero]
      rfl
  | succ k ih =>
      have hpos : 0 < 256 ^ k := Nat.pow_pos (by decide)
      have hbyte : n / 256 ^ k < 256 := by
        rw [Nat.div_lt_iff_lt_mul hpos, Nat.mul_comm, ← Nat.pow_succ]
        exact h
      have htop : (n / 256 ^ k).toUInt8.toNat = n / 256 ^ k := by
        rw [Nat.toUInt8_eq, UInt8.toNat_ofNat', Nat.mod_eq_of_lt hbyte]
      rw [bigEndian, readBigEndian, ih (Nat.mod_lt n hpos), bigEndian_length, htop]
      exact Nat.div_add_mod' n (256 ^ k)

theorem xorKey_xorKey (key data : List UInt8) : xorKey key (xorKey key data) = data := by
  refine List.ext_getElem (by simp [xorKey]) fun i h₁ h₂ => ?_
  simp [xorKey]

theorem xorKey_length (key data : List UInt8) : (xorKey key data).length = data.length := by
  simp [xorKey]

theorem toNumber_of_lt (h : n < 2 ^ 53) : toNumber n = n := if_pos h

/-- The second byte of a frame, apart. -/
theorem second_byte (bit : Bool) (h : n < 128) :
    ((if bit then 0x80 else 0) ||| n.toUInt8) &&& 0x7f = n.toUInt8 ∧
      (((if bit then 0x80 else 0) ||| n.toUInt8) &&& 0x80 != 0) = bit := by
  have hall : ∀ bit : Bool, ∀ n : Fin 128,
      ((if bit then 0x80 else 0) ||| n.val.toUInt8) &&& 0x7f = n.val.toUInt8 ∧
        (((if bit then 0x80 else 0) ||| n.val.toUInt8) &&& 0x80 != 0) = bit := by decide +kernel
  exact hall bit ⟨n, h⟩

theorem first_byte (h : opcode < 16) :
    (0x80 ||| opcode) &&& 0x80 != 0 ∧ (0x80 ||| opcode) &&& 0x0f = opcode := by
  have hall : ∀ n : Fin 16, (0x80 ||| n.val.toUInt8) &&& 0x80 != 0 ∧
      (0x80 ||| n.val.toUInt8) &&& 0x0f = n.val.toUInt8 := by decide +kernel
  have hopcode := hall ⟨opcode.toNat, UInt8.lt_iff_toNat_lt.mp h⟩
  simpa using hopcode

/-- The bytes of a length are read as the length, whatever is behind them. -/
theorem readLength_header (bit : Bool) (h : n < 2 ^ 53) :
    ∃ m extra, m < 128 ∧ lengthHeader (if bit then 0x80 else 0) n =
        ((if bit then 0x80 else 0) ||| m.toUInt8) :: extra ∧
      ∀ x, readLength m.toUInt8 (extra ++ x) = some (n, x) := by
  by_cases hshort : n < 126
  · have hbyte : n.toUInt8.toNat = n := by
      rw [Nat.toUInt8_eq, UInt8.toNat_ofNat']
      omega
    have hne (k : UInt8) (hk : 126 ≤ k.toNat) : n.toUInt8 ≠ k := by
      rintro rfl
      omega
    refine ⟨n, [], by omega, if_pos hshort, fun x => ?_⟩
    rw [readLength, if_neg (hne 126 (by decide)), if_neg (hne 127 (by decide)), hbyte]
    rfl
  · by_cases hmid : n < 65536
    · have htwo : [(n >>> 8).toUInt8, (n &&& 0xff).toUInt8] = bigEndian 2 n := by
        have hhigh : n >>> 8 = n / 256 ^ 1 := Nat.shiftRight_eq_div_pow n 8
        have hlow : n &&& 0xff = n % 256 ^ 1 / 256 ^ 0 := by
          rw [Nat.pow_zero, Nat.div_one]
          exact Nat.and_two_pow_sub_one_eq_mod n 8
        rw [hhigh, hlow]
        rfl
      have hread : readBigEndian (bigEndian 2 n) = n := readBigEndian_bigEndian (by omega)
      refine ⟨126, bigEndian 2 n, by decide, ?_, fun x => ?_⟩
      · rw [lengthHeader, if_neg hshort, if_pos hmid, htwo]
        rfl
      · have hlength := bigEndian_length 2 n
        have hlong : ¬(bigEndian 2 n ++ x).length < 2 := by
          rw [List.length_append]
          omega
        rw [readLength, if_pos (by decide), if_neg hlong, List.take_left' hlength,
          List.drop_left' hlength, hread]
    · have hread : readBigEndian (bigEndian 8 n) = n := readBigEndian_bigEndian (by omega)
      refine ⟨127, bigEndian 8 n, by decide, ?_, fun x => ?_⟩
      · rw [lengthHeader, if_neg hshort, if_neg hmid]
        rfl
      · have hlength := bigEndian_length 8 n
        rw [readLength, if_neg (by decide), if_pos (by decide), if_neg (by simp [hlength]),
          List.take_left' hlength, List.drop_left' hlength, hread, toNumber_of_lt h]

/-- What stands behind the length of a frame. -/
def body (payload : List UInt8) : Option Key → List UInt8
  | none => payload
  | some key => key.bytes ++ xorKey key.bytes payload

theorem readPayload_body (payload : List UInt8) (mask : Option Key) (t : List UInt8) :
    readPayload mask.isSome payload.length (body payload mask ++ t) = some (payload, t) := by
  cases mask with
  | none =>
      have hlong : ¬(payload ++ t).length < payload.length := by simp
      simp only [readPayload, body, Option.isSome_none, Bool.false_eq_true, if_false, Nat.zero_add,
        if_neg hlong, List.drop_zero, List.take_left, List.drop_left]
  | some key =>
      have hlong : ¬(key.bytes ++ xorKey key.bytes payload ++ t).length < 4 + payload.length := by
        simp [key.four, xorKey_length]
      have hskip : (key.bytes ++ xorKey key.bytes payload).length = 4 + payload.length := by
        simp [key.four, xorKey_length]
      have hbehind : (key.bytes ++ (xorKey key.bytes payload ++ t)).drop 4 =
          xorKey key.bytes payload ++ t := List.drop_left' key.four
      have hmasked : (xorKey key.bytes payload ++ t).take payload.length =
          xorKey key.bytes payload := List.take_left' (xorKey_length _ _)
      have hkey : (key.bytes ++ (xorKey key.bytes payload ++ t)).take 4 = key.bytes :=
        List.take_left' key.four
      simp only [readPayload, body, Option.isSome_some, if_true, if_neg hlong,
        List.drop_left' hskip]
      rw [List.append_assoc, hbehind, hmasked, hkey, xorKey_xorKey]

/-- A frame to be written. -/
structure Outgoing where
  payload : List UInt8
  opcode : UInt8
  mask : Option Key

def Outgoing.encode (out : Outgoing) : List UInt8 := encodeFrame out.payload out.opcode out.mask

/-- What is read of it. -/
def Outgoing.frame (out : Outgoing) : Frame := ⟨true, out.opcode, out.payload⟩

/-- A length that a number can hold, and an opcode of four bits. -/
structure Outgoing.Valid (out : Outgoing) : Prop where
  length : out.payload.length < 2 ^ 53
  opcode : out.opcode < 16

theorem nextFrame_encode {out : Outgoing} (h : out.Valid) (t : List UInt8) :
    nextFrame (out.encode ++ t) = some (out.frame, t) := by
  obtain ⟨m, extra, hm, hheader, hread⟩ := readLength_header out.mask.isSome h.length
  obtain ⟨hshort, hbit⟩ := second_byte out.mask.isSome hm
  obtain ⟨hfin, hopcode⟩ := first_byte h.opcode
  have hencode : out.encode = (0x80 ||| out.opcode) ::
      ((if out.mask.isSome then 0x80 else 0) ||| m.toUInt8) :: (extra ++ body out.payload out.mask) := by
    rw [Outgoing.encode, ← List.cons_append, ← hheader]
    cases out.mask with
    | none => rfl
    | some key => exact List.append_assoc ..
  rw [hencode, List.cons_append, List.cons_append, List.append_assoc]
  rw [nextFrame_of (by rw [hshort]; exact hread _) (by rw [hbit]; exact readPayload_body ..), hfin,
    hopcode]
  rfl

/-- What was written is read back, and the chunks it comes in make no difference. -/
theorem decodeFrames_spec :
    (∀ outs : List Outgoing, (∀ out ∈ outs, out.Valid) →
      decodeFrames (outs.flatMap Outgoing.encode) = (outs.map Outgoing.frame, [])) ∧
    ∀ chunks : List (List UInt8), decodeChunks chunks = decodeFrames chunks.flatten :=
  ⟨fun _ houts => framing.drain_flatMap (fun out hout t => nextFrame_encode (houts out hout) t) rfl,
    decodeChunks_eq⟩

/-- A masked text and a pong, cut in the key. -/
theorem decodeFrames_spec_two : decodeChunks
    [[0x81, 0x82, 1, 2], [3, 4, 104 ^^^ 1, 105 ^^^ 2, 0x8A], [0]] =
      ([⟨true, 1, [104, 105]⟩, ⟨true, 10, []⟩], []) := by
  rw [decodeFrames_spec.2]
  exact decodeFrames_spec.1 [⟨[104, 105], 1, some ⟨[1, 2, 3, 4], rfl⟩⟩, ⟨[], 10, none⟩]
    (by
      intro out hout
      simp only [List.mem_cons, List.not_mem_nil, or_false] at hout
      rcases hout with rfl | rfl
      · exact ⟨by decide, by decide⟩
      · exact ⟨by decide, by decide⟩)

end Acc.AdapterCodex.Frames
