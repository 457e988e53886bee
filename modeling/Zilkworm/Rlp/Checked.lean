/-
# The decoders read inside their view

A view is a pointer and a size, and `operator[]`, `remove_prefix` and `memcpy` do not check it.
Here every such access is checked: one that leaves the view is a *fault*, which is no error the
decoder could return.  The decoders of `core/rlp/decode.cpp` and `decode.hpp` written with checked
accesses never fault, and return what the plain ones return.
-/
import Zilkworm.Rlp.Primitives

namespace Zilkworm.Rlp

open Lib

variable {α β : Type} (mode : Leftover) (src : Bytes)

/-- A computation that reads from a view: it faults, returns an error or a value. -/
abbrev CheckedReads (α : Type) := ExceptT DecodingError Option α

/-- A computation that reads nothing. -/
def CheckedReads.ofExcept (x : Except DecodingError α) : CheckedReads α := ExceptT.mk (some x)

/-- An access outside the view. -/
def CheckedReads.fault : CheckedReads α := ExceptT.mk none

@[simp] theorem CheckedReads.ofExcept_pure (a : α) :
    CheckedReads.ofExcept (pure a) = (pure a : CheckedReads α) := rfl

/-- A computation whose parts do not fault does not fault. -/
theorem CheckedReads.bind_ofExcept {x : Except DecodingError α} {f : α → CheckedReads β}
    {g : α → Except DecodingError β}
    (h : ∀ a, x = .ok a → f a = CheckedReads.ofExcept (g a)) :
    (CheckedReads.ofExcept x >>= f) = CheckedReads.ofExcept (x >>= g) := by
  cases x with
  | error e => rfl
  | ok a => exact h a rfl

/-- `from[0]`. -/
def frontByte : Bytes → CheckedReads UInt8
  | [] => .fault
  | b :: _ => pure b

/-- `from.remove_prefix(n)`. -/
def removePrefix (n : ℕ) (src : Bytes) : CheckedReads Bytes :=
  if n ≤ src.length then pure (src.drop n) else .fault

/-- `std::memcpy(to, from.data(), n)`. -/
def copyFront (n : ℕ) (src : Bytes) : CheckedReads (FixedBytes n) :=
  if n ≤ src.length then pure (FixedBytes.load n src) else .fault

/-- `endian::from_big_compact`; behind the check of the first byte exactly `data` is read. -/
def fromBigCompactChecked (w : ℕ) (data : Bytes) : CheckedReads (BitVec w) :=
  if w / 8 < data.length then .ofExcept (.error .overflow)
  else if data = [] then pure 0
  else do
    let b ← frontByte data
    if b = 0 then .ofExcept (.error .leadingZero) else pure (BitVec.ofNat w (beNat data))

/-- The length bytes of a long header. -/
def decodeLengthChecked (lenOfLen : ℕ) (src : Bytes) : CheckedReads (ℕ × Bytes) := do
  CheckedReads.ofExcept (rejectIf (src.length < lenOfLen) .inputTooShort)
  let len ← fromBigCompactChecked 64 (src.take lenOfLen)
  let src ← removePrefix lenOfLen src
  CheckedReads.ofExcept (rejectIf (len.toNat < 56) .nonCanonicalSize)
  CheckedReads.ofExcept (rejectIf (src.length < len.toNat) .inputTooShort)
  return (len.toNat, src)

/-- The single-byte rule. -/
def checkSingleByteChecked (payloadLength : ℕ) (src : Bytes) : CheckedReads Unit :=
  if payloadLength = 1 then do
    CheckedReads.ofExcept (rejectIf (src = []) .inputTooShort)
    let c ← frontByte src
    CheckedReads.ofExcept (rejectIf (c < kEmptyStringCode) .nonCanonicalSize)
  else pure ()

/-- The header at the first byte `b` of `src`. -/
def decodeHeaderByteChecked (b : UInt8) (src : Bytes) : CheckedReads (Header × Bytes) :=
  if b < 0x80 then pure (⟨false, 1⟩, src)
  else if b < 0xB8 then do
    let src ← removePrefix 1 src
    checkSingleByteChecked (b.toNat - 0x80) src
    return (⟨false, b.toNat - 0x80⟩, src)
  else if b < 0xC0 then do
    let src ← removePrefix 1 src
    let (len, src) ← decodeLengthChecked (b.toNat - 0xB7) src
    return (⟨false, len⟩, src)
  else if b < 0xF8 then do
    let src ← removePrefix 1 src
    return (⟨true, b.toNat - 0xC0⟩, src)
  else do
    let src ← removePrefix 1 src
    let (len, src) ← decodeLengthChecked (b.toNat - 0xF7) src
    return (⟨true, len⟩, src)

/-- `decode_header`. -/
def decodeHeaderChecked : CheckedReads (Header × Bytes) := do
  CheckedReads.ofExcept (rejectIf (src = []) .inputTooShort)
  let b ← frontByte src
  let (h, src) ← decodeHeaderByteChecked b src
  CheckedReads.ofExcept (rejectIf (src.length < h.payloadLength) .inputTooShort)
  return (h, src)

/-- `decode(ByteView&, ByteView&)`. -/
def decodeBytesChecked : CheckedReads (Bytes × Bytes) := do
  let (h, src) ← decodeHeaderChecked src
  CheckedReads.ofExcept (rejectIf (h.list = true) .unexpectedList)
  let to_ := src.take h.payloadLength
  let src ← removePrefix h.payloadLength src
  CheckedReads.ofExcept (checkLeftover mode src)
  return (to_, src)

/-- `decode(ByteView&, T&)`. -/
def decodeUintChecked (w : ℕ) (mode : Leftover) (src : Bytes) : CheckedReads (BitVec w × Bytes) := do
  let (h, src) ← decodeHeaderChecked src
  CheckedReads.ofExcept (rejectIf (h.list = true) .unexpectedList)
  let n ← fromBigCompactChecked w (src.take h.payloadLength)
  let src ← removePrefix h.payloadLength src
  CheckedReads.ofExcept (checkLeftover mode src)
  return (n, src)

/-- `decode(ByteView&, std::span<uint8_t, N>)`. -/
def decodeArrayChecked (n : ℕ) (mode : Leftover) (src : Bytes) :
    CheckedReads (FixedBytes n × Bytes) := do
  let (h, src) ← decodeHeaderChecked src
  CheckedReads.ofExcept (rejectIf (h.list = true) .unexpectedList)
  CheckedReads.ofExcept (rejectIf (h.payloadLength ≠ n) .unexpectedLength)
  let to_ ← copyFront n src
  let src ← removePrefix n src
  CheckedReads.ofExcept (checkLeftover mode src)
  return (to_, src)

/-- `decode(ByteView&, bool&)`. -/
def decodeBoolChecked : CheckedReads (Bool × Bytes) := do
  let (i, src) ← decodeUintChecked 64 mode src
  CheckedReads.ofExcept (rejectIf (1 < i.toNat) .overflow)
  return (decide (i.toNat = 1), src)

/-! ## No fault -/

theorem removePrefix_eq {n : ℕ} {src : Bytes} (h : n ≤ src.length) :
    removePrefix n src = pure (src.drop n) :=
  if_pos h

theorem fromBigCompactChecked_eq (w : ℕ) (data : Bytes) :
    fromBigCompactChecked w data = .ofExcept (fromBigCompact w data) := by
  unfold fromBigCompactChecked fromBigCompact
  split
  · rfl
  · cases data with
    | nil => rfl
    | cons b bs =>
      show (if b = 0 then _ else _) = CheckedReads.ofExcept (if b = 0 then _ else _)
      split <;> rfl

theorem decodeLengthChecked_eq (lenOfLen : ℕ) (src : Bytes) :
    decodeLengthChecked lenOfLen src = .ofExcept (decodeLength lenOfLen src) := by
  unfold decodeLengthChecked decodeLength
  refine CheckedReads.bind_ofExcept fun _ hlen => ?_
  rw [rejectIf_eq_ok, Nat.not_lt] at hlen
  rw [fromBigCompactChecked_eq]
  refine CheckedReads.bind_ofExcept fun len _ => ?_
  rw [removePrefix_eq hlen, pure_bind]
  exact CheckedReads.bind_ofExcept fun _ _ => CheckedReads.bind_ofExcept fun _ _ => rfl

theorem checkSingleByteChecked_eq (payloadLength : ℕ) (src : Bytes) :
    checkSingleByteChecked payloadLength src = .ofExcept (checkSingleByte payloadLength src) := by
  unfold checkSingleByteChecked checkSingleByte
  split
  · cases src <;> rfl
  · rfl

theorem decodeHeaderByteChecked_eq (b : UInt8) (rest : Bytes) :
    decodeHeaderByteChecked b (b :: rest) = .ofExcept (decodeHeaderByte b (b :: rest) rest) := by
  have hfront : removePrefix 1 (b :: rest) = pure rest := removePrefix_eq (Nat.le_add_left 1 _)
  simp only [decodeHeaderByteChecked, decodeHeaderByte, hfront, pure_bind, decodeLengthChecked_eq,
    checkSingleByteChecked_eq]
  split_ifs
  · rfl
  · exact CheckedReads.bind_ofExcept fun _ _ => rfl
  · exact CheckedReads.bind_ofExcept fun _ _ => rfl
  · rfl
  · exact CheckedReads.bind_ofExcept fun _ _ => rfl

theorem decodeHeaderChecked_eq : decodeHeaderChecked src = .ofExcept (decodeHeader src) := by
  cases src with
  | nil => rfl
  | cons b rest =>
    show (decodeHeaderByteChecked b (b :: rest) >>= _) =
        CheckedReads.ofExcept (decodeHeaderByte b (b :: rest) rest >>= _)
    rw [decodeHeaderByteChecked_eq]
    exact CheckedReads.bind_ofExcept fun _ _ => CheckedReads.bind_ofExcept fun _ _ => rfl

theorem decodeBytesChecked_eq :
    decodeBytesChecked mode src = .ofExcept (decodeBytes mode src) := by
  unfold decodeBytesChecked decodeBytes
  rw [decodeHeaderChecked_eq]
  refine CheckedReads.bind_ofExcept fun ⟨h, view⟩ hd => CheckedReads.bind_ofExcept fun _ _ => ?_
  dsimp only
  rw [removePrefix_eq (decodeHeader_spec hd).1, pure_bind]
  exact CheckedReads.bind_ofExcept fun _ _ => rfl

theorem decodeUintChecked_eq (w : ℕ) (mode : Leftover) (src : Bytes) :
    decodeUintChecked w mode src = .ofExcept (decodeUint w mode src) := by
  unfold decodeUintChecked decodeUint
  rw [decodeHeaderChecked_eq]
  refine CheckedReads.bind_ofExcept fun ⟨h, view⟩ hd => CheckedReads.bind_ofExcept fun _ _ => ?_
  rw [fromBigCompactChecked_eq]
  refine CheckedReads.bind_ofExcept fun _ _ => ?_
  rw [removePrefix_eq (decodeHeader_spec hd).1, pure_bind]
  exact CheckedReads.bind_ofExcept fun _ _ => rfl

theorem decodeArrayChecked_eq (n : ℕ) (mode : Leftover) (src : Bytes) :
    decodeArrayChecked n mode src = .ofExcept (decodeArray n mode src) := by
  unfold decodeArrayChecked decodeArray
  rw [decodeHeaderChecked_eq]
  refine CheckedReads.bind_ofExcept fun ⟨h, view⟩ hd => CheckedReads.bind_ofExcept fun _ _ =>
    CheckedReads.bind_ofExcept fun _ hn => ?_
  have hlen : n ≤ view.length := by
    rw [rejectIf_eq_ok, not_ne_iff] at hn
    exact hn ▸ (decodeHeader_spec hd).1
  rw [copyFront, if_pos hlen, pure_bind, removePrefix_eq hlen, pure_bind]
  exact CheckedReads.bind_ofExcept fun _ _ => rfl

theorem decodeBoolChecked_eq :
    decodeBoolChecked mode src = .ofExcept (decodeBool mode src) := by
  unfold decodeBoolChecked decodeBool
  rw [decodeUintChecked_eq]
  exact CheckedReads.bind_ofExcept fun _ _ => CheckedReads.bind_ofExcept fun _ _ => rfl

end Zilkworm.Rlp
