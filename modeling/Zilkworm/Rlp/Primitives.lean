/-
# RLP primitives

`core/rlp/encode.{hpp,cpp}` and `core/rlp/decode.{hpp,cpp}`: headers, byte strings,
unsigned integers, fixed arrays and booleans.  A `ByteView&` that a decoder advances is
passed in and returned; `Leftover` says whether bytes may remain behind the item.

The decoders accept only the canonical spelling.  Each has one theorem that says so,
`Canonical (decode…) (encode…)`, and everything built from them (`Rlp.Lists`, the block
and transaction types) uses those theorems and never unfolds a decoder again.
-/
import Zilkworm.Lib.Codec

namespace Zilkworm.Rlp

open List Lib

variable (n : ℕ) (mode : Leftover) (src : Bytes)

variable {w : ℕ} {rest : Bytes}

/-- `DecodingError` of `core/common/decoding_result.hpp`. -/
inductive DecodingError where
  | overflow | leadingZero | inputTooShort | inputTooLong | nonCanonicalSize
  | unexpectedLength | unexpectedString | unexpectedList | unexpectedListElements
  | invalidVInSignature | unsupportedTransactionType | invalidFieldset
  | unexpectedEip2718Serialization
  deriving Repr, DecidableEq

/-- Whether bytes may follow the decoded item. -/
inductive Leftover where
  | prohibit | allow
  deriving Repr, DecidableEq

/-- `rlp::Header`. -/
structure Header where
  list : Bool := false
  payloadLength : ℕ := 0
  deriving Repr, DecidableEq

/-- `kEmptyStringCode`. -/
def kEmptyStringCode : UInt8 := 0x80

/-- `kEmptyListCode`. -/
def kEmptyListCode : UInt8 := 0xC0

/-- A byte string of a fixed length (`evmc::bytes32`, `evmc::address`, the header nonce). -/
abbrev FixedBytes := { b : Bytes // b.length = n }

/-- The all-zero string. -/
def FixedBytes.zero : FixedBytes n := ⟨replicate n 0, length_replicate⟩

/-- `memcpy` of `n` bytes out of a view (zero bytes stand for what a short view lacks; every
caller has checked the length). -/
def FixedBytes.load (b : Bytes) : FixedBytes n :=
  ⟨(b ++ replicate n 0).take n, by simp⟩

theorem FixedBytes.load_val {n : ℕ} {b : Bytes} (h : n ≤ b.length) :
    (FixedBytes.load n b).val = b.take n := by
  simp [FixedBytes.load, take_append_of_le_length h]

@[simp] theorem FixedBytes.load_self {n : ℕ} (v : FixedBytes n) : FixedBytes.load n v.val = v :=
  Subtype.ext ((FixedBytes.load_val v.2.ge).trans (take_of_length_le v.2.le))

/-! ## Encoding -/

/-- `encode_header`. -/
def encodeHeader (h : Header) : Bytes :=
  if h.payloadLength < 56 then
    [UInt8.ofNat ((if h.list then 0xC0 else 0x80) + h.payloadLength)]
  else
    let lenBe := toBigCompact h.payloadLength
    UInt8.ofNat ((if h.list then 0xF7 else 0xB7) + lenBe.length) :: lenBe

/-- `encode(Bytes&, ByteView)`. -/
def encodeBytes (s : Bytes) : Bytes :=
  match s with
  | [b] => if b < kEmptyStringCode then [b] else encodeHeader ⟨false, 1⟩ ++ [b]
  | _ => encodeHeader ⟨false, s.length⟩ ++ s

/-- A string of any length but one has a header. -/
theorem encodeBytes_eq_header {s : Bytes} (h : s.length ≠ 1) :
    encodeBytes s = encodeHeader ⟨false, s.length⟩ ++ s := by
  unfold encodeBytes
  split
  · exact absurd rfl h
  · rfl

/-- `encode(Bytes&, const T&)` for an unsigned integer `T`. -/
def encodeUint {w : ℕ} (n : BitVec w) : Bytes :=
  if n.toNat = 0 then [kEmptyStringCode]
  else if n.toNat < 0x80 then [UInt8.ofNat n.toNat]
  else
    let be := toBigCompact n.toNat
    encodeHeader ⟨false, be.length⟩ ++ be

/-- `encode(Bytes&, bool)`. -/
def encodeBool (x : Bool) : Bytes := [if x then 1 else kEmptyStringCode]

/-- `length_of_length`. -/
def lengthOfLength (payloadLength : ℕ) : ℕ :=
  if payloadLength < 56 then 1 else 1 + (toBigCompact payloadLength).length

/-- `length(ByteView)`. -/
def lengthBytes (s : Bytes) : ℕ :=
  match s with
  | [b] => if b < kEmptyStringCode then 1 else 1 + lengthOfLength 1
  | _ => s.length + lengthOfLength s.length

/-- `length(const T&)` for an unsigned integer `T`. -/
def lengthUint {w : ℕ} (n : BitVec w) : ℕ :=
  if n.toNat < 0x80 then 1
  else
    let nBytes := (toBigCompact n.toNat).length
    nBytes + lengthOfLength nBytes

theorem encodeHeader_length (h : Header) :
    (encodeHeader h).length = lengthOfLength h.payloadLength := by
  unfold encodeHeader lengthOfLength
  split <;> simp [Nat.add_comm]

theorem encodeBytes_length (s : Bytes) : (encodeBytes s).length = lengthBytes s := by
  unfold encodeBytes lengthBytes
  split
  · split <;> simp [encodeHeader_length, Nat.add_comm]
  · simp [encodeHeader_length, Nat.add_comm]

theorem encodeUint_length (n : BitVec w) : (encodeUint n).length = lengthUint n := by
  unfold encodeUint lengthUint
  by_cases h0 : n.toNat = 0
  · simp [h0]
  · by_cases h1 : n.toNat < 0x80 <;> simp [h0, h1, encodeHeader_length, Nat.add_comm]

theorem encodeHeader_ne_nil (h : Header) : encodeHeader h ≠ [] := by
  unfold encodeHeader
  split <;> simp

theorem encodeUint_ne_nil (n : BitVec w) : encodeUint n ≠ [] := by
  unfold encodeUint
  split_ifs
  · simp
  · simp
  · exact append_ne_nil_of_left_ne_nil (encodeHeader_ne_nil _) _

theorem length_le_encodeBytes (s : Bytes) : s.length ≤ (encodeBytes s).length := by
  unfold encodeBytes
  split
  · split <;> simp
  · rw [length_append]
    exact Nat.le_add_left _ _

@[simp] theorem encodeBool_length (x : Bool) : (encodeBool x).length = 1 := rfl

/-! ## Decoding -/

/-- `endian::from_big_compact` into a `w`-bit unsigned integer. -/
def fromBigCompact (w : ℕ) (data : Bytes) : Except DecodingError (BitVec w) :=
  if w / 8 < data.length then .error .overflow
  else match data with
    | [] => .ok 0
    | b :: _ => if b = 0 then .error .leadingZero else .ok (BitVec.ofNat w (beNat data))

/-- The length bytes of a long header (the same in both of `decode_header`'s long branches). -/
def decodeLength (lenOfLen : ℕ) (src : Bytes) : Except DecodingError (ℕ × Bytes) := do
  rejectIf (src.length < lenOfLen) .inputTooShort
  let len ← fromBigCompact 64 (src.take lenOfLen)
  let src := src.drop lenOfLen
  rejectIf (len.toNat < 56) .nonCanonicalSize
  rejectIf (src.length < len.toNat) .inputTooShort
  return (len.toNat, src)

/-- The single-byte rule: a one-byte string below `0x80` has no header. -/
def checkSingleByte (payloadLength : ℕ) (src : Bytes) : Except DecodingError Unit :=
  if payloadLength = 1 then
    match src with
    | [] => .error .inputTooShort
    | c :: _ => rejectIf (c < kEmptyStringCode) .nonCanonicalSize
  else .ok ()

/-- The header at the first byte `b` of `src`, `rest` behind it. -/
def decodeHeaderByte (b : UInt8) (src rest : Bytes) : Except DecodingError (Header × Bytes) :=
  if b < 0x80 then .ok (⟨false, 1⟩, src)
  else if b < 0xB8 then do
    checkSingleByte (b.toNat - 0x80) rest
    return (⟨false, b.toNat - 0x80⟩, rest)
  else if b < 0xC0 then do
    let (len, rest) ← decodeLength (b.toNat - 0xB7) rest
    return (⟨false, len⟩, rest)
  else if b < 0xF8 then .ok (⟨true, b.toNat - 0xC0⟩, rest)
  else do
    let (len, rest) ← decodeLength (b.toNat - 0xF7) rest
    return (⟨true, len⟩, rest)

/-- `decode_header`: consumes a header, unless the item is a single byte below `0x80`. -/
def decodeHeader : Except DecodingError (Header × Bytes) :=
  match src with
  | [] => .error .inputTooShort
  | b :: rest => do
    let (h, src) ← decodeHeaderByte b (b :: rest) rest
    rejectIf (src.length < h.payloadLength) .inputTooShort
    return (h, src)

/-- The `Leftover` check behind an item. -/
def checkLeftover : Except DecodingError Unit :=
  rejectIf (mode ≠ .allow ∧ src ≠ []) .inputTooLong

/-- `decode(ByteView&, ByteView&)`: a byte string. -/
def decodeBytes : Except DecodingError (Bytes × Bytes) := do
  let (h, src) ← decodeHeader src
  rejectIf (h.list = true) .unexpectedList
  checkLeftover mode (src.drop h.payloadLength)
  return (src.take h.payloadLength, src.drop h.payloadLength)

/-- `decode(ByteView&, T&)` for a `w`-bit unsigned integer. -/
def decodeUint (w : ℕ) (mode : Leftover) (src : Bytes) :
    Except DecodingError (BitVec w × Bytes) := do
  let (h, src) ← decodeHeader src
  rejectIf (h.list = true) .unexpectedList
  let n ← fromBigCompact w (src.take h.payloadLength)
  checkLeftover mode (src.drop h.payloadLength)
  return (n, src.drop h.payloadLength)

/-- `decode(ByteView&, std::span<uint8_t, N>)`. -/
def decodeArray :
    Except DecodingError (FixedBytes n × Bytes) := do
  let (h, src) ← decodeHeader src
  rejectIf (h.list = true) .unexpectedList
  rejectIf (h.payloadLength ≠ n) .unexpectedLength
  checkLeftover mode (src.drop n)
  return (FixedBytes.load n src, src.drop n)

/-- `decode(ByteView&, bool&)`. -/
def decodeBool : Except DecodingError (Bool × Bytes) := do
  let (i, src) ← decodeUint 64 mode src
  rejectIf (1 < i.toNat) .overflow
  return (decide (i.toNat = 1), src)

/-! ## Canonicity -/

theorem fromBigCompact_toBigCompact {data : Bytes} {n : BitVec w}
    (h : fromBigCompact w data = .ok n) : toBigCompact n.toNat = data := by
  unfold fromBigCompact at h
  split at h
  · cases h
  case isFalse hlen =>
    cases data with
    | nil => cases h; simp [toBigCompact, leDigits]
    | cons b bs =>
      simp only at h
      split at h
      · cases h
      case isFalse hb =>
        cases h
        have hlt : beNat (b :: bs) < 2 ^ w := by
          calc beNat (b :: bs) < 256 ^ (b :: bs).length := beNat_lt _
            _ = 2 ^ (8 * (b :: bs).length) := by rw [Nat.pow_mul]
            _ ≤ 2 ^ w := Nat.pow_le_pow_right (by decide) (by omega)
        rw [BitVec.toNat_ofNat, Nat.mod_eq_of_lt hlt]
        exact toBigCompact_beNat (by simpa using hb)

/-- The long form of a header, read back. -/
theorem decodeLength_spec {k len : ℕ} {src : Bytes} (h : decodeLength k src = .ok (len, rest)) :
    56 ≤ len ∧ len ≤ rest.length ∧ src = toBigCompact len ++ rest ∧
      (toBigCompact len).length = k := by
  simp only [decodeLength, bind_eq_ok, rejectIf_eq_ok, pure_eq_ok, Prod.mk.injEq] at h
  obtain ⟨-, hk, n, hn, -, h56, -, hlen, rfl, rfl⟩ := h
  have hc := fromBigCompact_toBigCompact hn
  refine ⟨by omega, by omega, ?_, ?_⟩
  · rw [hc, take_append_drop]
  · rw [hc, length_take]; omega

/-- A header byte is the sum of its code and its offset. -/
theorem ofNat_add_sub {b : UInt8} {k : ℕ} (h : k ≤ b.toNat) : UInt8.ofNat (k + (b.toNat - k)) = b := by
  rw [Nat.add_sub_cancel' h, UInt8.ofNat_toNat]

/-- **`decode_header` accepts canonical headers only.**  Either the item is a single byte
below `0x80`, left in place, or the bytes consumed are the header's encoding and a one-byte
payload is at least `0x80`; the payload lies inside the input. -/
theorem decodeHeader_spec {src : Bytes} {h : Header} (hd : decodeHeader src = .ok (h, rest)) :
    h.payloadLength ≤ rest.length ∧
      ((h = ⟨false, 1⟩ ∧ rest = src ∧ ∃ b bs, src = b :: bs ∧ b < kEmptyStringCode) ∨
        (src = encodeHeader h ++ rest ∧
          (h.list = false → h.payloadLength = 1 →
            ∃ c cs, rest = c :: cs ∧ ¬ c < kEmptyStringCode))) := by
  cases src with
  | nil => cases hd
  | cons b bs =>
    simp only [decodeHeader, bind_eq_ok, rejectIf_eq_ok, pure_eq_ok, Prod.mk.injEq] at hd
    obtain ⟨⟨h', rest'⟩, hb, -, hlen, rfl, rfl⟩ := hd
    refine ⟨by simpa using hlen, ?_⟩
    unfold decodeHeaderByte at hb
    split at hb
    case isTrue h80 =>
      cases hb
      exact .inl ⟨rfl, rfl, b, bs, rfl, h80⟩
    case isFalse h80 =>
    have h80' : 0x80 ≤ b.toNat := by
      have := UInt8.lt_iff_toNat_lt.not.mp h80; simpa using this
    refine .inr ?_
    split at hb
    case isTrue hB8 =>
      -- short string: the payload length is below 56, so the header is one byte
      have hB8' : b.toNat < 0xB8 := by simpa using UInt8.lt_iff_toNat_lt.mp hB8
      simp only [bind_eq_ok, pure_eq_ok, Prod.mk.injEq] at hb
      obtain ⟨_, hs, rfl, rfl⟩ := hb
      refine ⟨?_, fun _ h1 => ?_⟩
      · rw [encodeHeader, if_pos (by simp only; omega)]
        simp only [Bool.false_eq_true, if_false]
        rw [ofNat_add_sub h80']; rfl
      · simp only at h1
        unfold checkSingleByte at hs
        rw [if_pos h1] at hs
        cases bs with
        | nil => cases hs
        | cons c cs => exact ⟨c, cs, rfl, by simpa using hs⟩
    case isFalse hB8 =>
    have hB8' : 0xB8 ≤ b.toNat := by
      have := UInt8.lt_iff_toNat_lt.not.mp hB8; simpa using this
    split at hb
    case isTrue hC0 =>
      simp only [bind_eq_ok, pure_eq_ok, Prod.mk.injEq] at hb
      obtain ⟨⟨len, r⟩, hl, rfl, rfl⟩ := hb
      obtain ⟨h56, -, rfl, hk⟩ := decodeLength_spec hl
      refine ⟨?_, fun _ h1 => by simp only at h1; omega⟩
      rw [encodeHeader, if_neg (by simp only; omega)]
      simp only [Bool.false_eq_true, if_false, hk]
      rw [ofNat_add_sub (by omega)]; rfl
    case isFalse hC0 =>
    have hC0' : 0xC0 ≤ b.toNat := by
      have := UInt8.lt_iff_toNat_lt.not.mp hC0; simpa using this
    split at hb
    case isTrue hF8 =>
      have hF8' : b.toNat < 0xF8 := by simpa using UInt8.lt_iff_toNat_lt.mp hF8
      cases hb
      refine ⟨?_, fun hf => by simp at hf⟩
      rw [encodeHeader, if_pos (by simp only; omega)]
      simp only [if_true]
      rw [ofNat_add_sub hC0']; rfl
    case isFalse hF8 =>
      have hF8' : 0xF8 ≤ b.toNat := by
        have := UInt8.lt_iff_toNat_lt.not.mp hF8; simpa using this
      simp only [bind_eq_ok, pure_eq_ok, Prod.mk.injEq] at hb
      obtain ⟨⟨len, r⟩, hl, rfl, rfl⟩ := hb
      obtain ⟨h56, -, rfl, hk⟩ := decodeLength_spec hl
      refine ⟨?_, fun hf => by simp at hf⟩
      rw [encodeHeader, if_neg (by simp only; omega)]
      simp only [if_true, hk]
      rw [ofNat_add_sub (by omega)]; rfl

/-- The payload of a string item, header and all, is the encoding of that payload. -/
theorem decodeHeader_string {src : Bytes} {h : Header} (hd : decodeHeader src = .ok (h, rest))
    (hl : h.list = false) :
    src = encodeBytes (rest.take h.payloadLength) ++ rest.drop h.payloadLength := by
  obtain ⟨hlen, ⟨rfl, rfl, b, bs, rfl, hb⟩ | ⟨hsrc, h1⟩⟩ := decodeHeader_spec hd
  · simp [encodeBytes, hb]
  · rcases h with ⟨list, n⟩
    simp only at hl hlen h1 hsrc ⊢
    subst hl
    by_cases hn : n = 1
    · obtain ⟨c, cs, rfl, hc⟩ := h1 rfl hn
      subst hn
      simpa [encodeBytes, hc] using hsrc
    · have hlt : (rest.take n).length = n := by rw [length_take]; omega
      rw [encodeBytes_eq_header (by rwa [hlt]), hlt, append_assoc, take_append_drop]
      exact hsrc

/-- An unsigned integer is encoded as the byte string of its compact big-endian form. -/
theorem encodeUint_eq (n : BitVec w) : encodeUint n = encodeBytes (toBigCompact n.toNat) := by
  unfold encodeUint
  by_cases h0 : n.toNat = 0
  · simp [h0, toBigCompact, leDigits, encodeBytes, encodeHeader, kEmptyStringCode]
  · by_cases h1 : n.toNat < 0x80
    · have hc : toBigCompact n.toNat = [UInt8.ofNat n.toNat] := toBigCompact_byte (by omega) (by omega)
      have hlt : UInt8.ofNat n.toNat < kEmptyStringCode := by
        rw [UInt8.lt_iff_toNat_lt, toNat_ofNat_byte (by omega)]
        exact h1
      simp [h0, h1, hc, encodeBytes, hlt]
    · simp only [h0, h1, if_false]
      unfold encodeBytes
      split
      · rename_i b hb
        have hv := beNat_toBigCompact n.toNat
        rw [hb] at hv
        have hb' : ¬ b < kEmptyStringCode := by
          rw [UInt8.lt_iff_toNat_lt]
          simp only [beNat, reverse_singleton, leNat] at hv
          simp only [kEmptyStringCode]
          simp
          omega
        simp [hb, hb']
      · rfl

theorem decodeBytes_canonical : Canonical (decodeBytes mode) encodeBytes := by
  intro src v rest h
  simp only [decodeBytes, bind_eq_ok, rejectIf_eq_ok, pure_eq_ok, Prod.mk.injEq,
    Prod.exists] at h
  obtain ⟨hd, r, hh, -, hl, -, -, rfl, rfl⟩ := h
  exact decodeHeader_string hh (by simpa using hl)

theorem decodeUint_canonical (w : ℕ) (mode : Leftover) :
    Canonical (decodeUint w mode) encodeUint := by
  intro src v rest h
  simp only [decodeUint, bind_eq_ok, rejectIf_eq_ok, pure_eq_ok, Prod.mk.injEq,
    Prod.exists] at h
  obtain ⟨hd, r, hh, -, hl, n, hn, -, -, rfl, rfl⟩ := h
  rw [encodeUint_eq, fromBigCompact_toBigCompact hn]
  exact decodeHeader_string hh (by simpa using hl)

theorem decodeArray_canonical :
    Canonical (decodeArray n mode) (fun v => encodeBytes v.val) := by
  intro src v rest h
  simp only [decodeArray, bind_eq_ok, rejectIf_eq_ok, pure_eq_ok, Prod.mk.injEq,
    Prod.exists] at h
  obtain ⟨hd, r, hh, -, hl, -, hn, -, -, rfl, rfl⟩ := h
  obtain rfl : hd.payloadLength = n := by simpa using hn
  show src = encodeBytes _ ++ _
  rw [FixedBytes.load_val (decodeHeader_spec hh).1]
  exact decodeHeader_string hh (by simpa using hl)

theorem decodeBool_canonical : Canonical (decodeBool mode) encodeBool := by
  intro src v rest h
  simp only [decodeBool, bind_eq_ok, rejectIf_eq_ok, pure_eq_ok, Prod.mk.injEq,
    Prod.exists] at h
  obtain ⟨i, r, hi, -, hle, rfl, rfl⟩ := h
  rw [decodeUint_canonical 64 mode hi]
  rcases (by omega : i.toNat = 0 ∨ i.toNat = 1) with h0 | h1
  · simp [encodeUint, encodeBool, h0]
  · simp [encodeUint, encodeBool, h1]

end Zilkworm.Rlp
