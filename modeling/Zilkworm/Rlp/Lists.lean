/-
# RLP lists

`core/rlp/encode_vector.hpp` and `core/rlp/decode_vector.hpp`: a list of items of one
type, and a list with a fixed sequence of items of various types.  The encoder writes a
header from the `length` functions and the items behind it; the decoder of a fixed list
reads its items from the whole view and compares what is left with what the header said
would be left.
-/
import Zilkworm.Rlp.Primitives

namespace Zilkworm.Rlp

open List Lib

variable {α : Type}

/-- A list item with the given payload. -/
def encodeList (payload : Bytes) : Bytes := encodeHeader ⟨true, payload.length⟩ ++ payload

theorem encodeList_length (payload : Bytes) :
    (encodeList payload).length = lengthOfLength payload.length + payload.length := by
  simp [encodeList, encodeHeader_length]

/-- `length_items` of a vector, `len` being the item's `length`. -/
def lengthItems (len : α → ℕ) (v : List α) : ℕ := (v.map len).sum

/-- `length` of a vector. -/
def lengthVector (len : α → ℕ) (v : List α) : ℕ :=
  lengthOfLength (lengthItems len v) + lengthItems len v

/-- `encode` of a vector: the header comes from `length_items`, the items follow. -/
def encodeVector (len : α → ℕ) (enc : α → Bytes) (v : List α) : Bytes :=
  encodeHeader ⟨true, lengthItems len v⟩ ++ v.flatMap enc

theorem lengthItems_eq {len : α → ℕ} {enc : α → Bytes} (h : ∀ x, (enc x).length = len x)
    (v : List α) : lengthItems len v = (v.flatMap enc).length := by
  simp [lengthItems, length_flatMap, funext h]

theorem encodeVector_eq {len : α → ℕ} {enc : α → Bytes} (h : ∀ x, (enc x).length = len x)
    (v : List α) : encodeVector len enc v = encodeList (v.flatMap enc) := by
  rw [encodeVector, lengthItems_eq h, encodeList]

theorem encodeVector_length {len : α → ℕ} {enc : α → Bytes} (h : ∀ x, (enc x).length = len x)
    (v : List α) : (encodeVector len enc v).length = lengthVector len v := by
  rw [encodeVector_eq h, encodeList_length, lengthVector, lengthItems_eq h]

/-- `decode(ByteView&, std::vector<T>&)`; `dec` decodes one item, with leftover allowed. -/
def decodeVector (dec : Decoder DecodingError α) (mode : Leftover) (src : Bytes) :
    Except DecodingError (List α × Bytes) := do
  let (h, src) ← decodeHeader src
  rejectIf (h.list = false) .unexpectedString
  let payload := src.take h.payloadLength
  let v ← decodeAll dec .inputTooShort payload.length payload
  checkLeftover mode (src.drop h.payloadLength)
  return (v, src.drop h.payloadLength)

/-- `decode(ByteView&, Leftover, args...)`: a list with a fixed sequence of items, which
`items` reads in order.  The items are read from the whole view; that they end where the
list does is checked afterwards. -/
def decodeFixed (items : Decoder DecodingError α) (mode : Leftover) (src : Bytes) :
    Except DecodingError (α × Bytes) := do
  let (h, src) ← decodeHeader src
  rejectIf (h.list = false) .unexpectedString
  let leftover := src.length - h.payloadLength
  rejectIf (mode ≠ .allow ∧ leftover ≠ 0) .inputTooLong
  let (v, src) ← items src
  rejectIf (src.length ≠ leftover) .unexpectedListElements
  return (v, src)

/-- A list header is followed by its payload. -/
theorem decodeHeader_list {src rest : Bytes} {h : Header}
    (hd : decodeHeader src = .ok (h, rest)) (hl : h.list = true) :
    h.payloadLength ≤ rest.length ∧ src = encodeHeader ⟨true, h.payloadLength⟩ ++ rest := by
  obtain ⟨hlen, ⟨rfl, -⟩ | ⟨hsrc, -⟩⟩ := decodeHeader_spec hd
  · cases hl
  · rcases h with ⟨list, n⟩
    obtain rfl : list = true := hl
    exact ⟨hlen, hsrc⟩

/-- Reading exactly the payload leaves what the header said would be left. -/
theorem payload_of_leftover {n : ℕ} {rest payload left : Bytes} (hn : n ≤ rest.length)
    (hr : rest = payload ++ left) (hl : left.length = rest.length - n) : n = payload.length := by
  have := congrArg List.length hr
  simp only [length_append] at this
  omega

theorem decodeVector_canonical {dec : Decoder DecodingError α} {enc : α → Bytes}
    (h : Canonical dec enc) (mode : Leftover) :
    Canonical (decodeVector dec mode) (fun v => encodeList (v.flatMap enc)) := by
  intro src v rest hd
  simp only [decodeVector, bind_eq_ok, rejectIf_eq_ok, pure_eq_ok, Prod.mk.injEq,
    Prod.exists] at hd
  obtain ⟨hh, r, hhd, -, hl, vs, hvs, -, -, rfl, rfl⟩ := hd
  obtain ⟨hlen, hsrc⟩ := decodeHeader_list hhd (by simpa using hl)
  have hp := decodeAll_canonical h hvs
  show src = encodeList (vs.flatMap enc) ++ _
  rw [encodeList, ← hp, length_take, Nat.min_eq_left hlen, append_assoc,
    take_append_drop]
  exact hsrc

theorem decodeFixed_canonical {items : Decoder DecodingError α} {enc : α → Bytes}
    (h : Canonical items enc) (mode : Leftover) :
    Canonical (decodeFixed items mode) (fun v => encodeList (enc v)) := by
  intro src v rest hd
  simp only [decodeFixed, bind_eq_ok, rejectIf_eq_ok, pure_eq_ok, Prod.mk.injEq,
    Prod.exists] at hd
  obtain ⟨hh, r, hhd, -, hl, -, -, w, s, hw, -, hs, rfl, rfl⟩ := hd
  obtain ⟨hlen, hsrc⟩ := decodeHeader_list hhd (by simpa using hl)
  have hr := h hw
  have hn := payload_of_leftover hlen hr (by simpa using hs)
  show src = encodeList (enc w) ++ s
  rw [encodeList, ← hn, append_assoc, ← hr]
  exact hsrc

end Zilkworm.Rlp
