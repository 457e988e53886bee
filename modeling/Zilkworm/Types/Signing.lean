/-
# Hash and signing payload

`Transaction::hash`, `signing_payload` and `sender`, and `UnsignedTransaction::encode_for_signing`.
A decoded transaction is hashed over the bytes it was read from, and signed over its own unsigned
items behind a list header that is written by hand.  Both are the bytes the encoders would write,
because the decoder accepts nothing else. Keccak and the recovery of the signer are outside the
repository and are arguments.
-/
import Zilkworm.Types.TransactionCodec

namespace Zilkworm.Types

open List Lib Rlp

variable {t t' : Transaction} {mode : Leftover} {rest : Bytes}

namespace Transaction

/-- The chain id that EIP-155 appends to the items of a legacy transaction. -/
def eip155 (t : Transaction) : Option U256 := if t.type = .legacy then t.chainId else none

/-- The payload length `header(const UnsignedTransaction&)` computes. -/
def headerForSigning (t : Transaction) : ℕ :=
  t.headerBase + (match t.eip155 with | some id => lengthUint id + 2 | none => 0)

/-- `encode_for_signing`. -/
def encodeForSigning (t : Transaction) : Bytes :=
  if t.type = .legacy then
    encodeHeader ⟨true, t.headerForSigning⟩ ++ t.legacyEncodeBase ++
      (match t.chainId with
        | some id => encodeUint id ++ encodeUint (0 : BitVec 32) ++ encodeUint (0 : BitVec 32)
        | none => [])
  else t.eip2718EncodeForSigning t.headerForSigning false

/-- `for (size_t n{payload}; n != 0; n >>= 8) ++length_bytes`; the number itself is fuel enough. -/
def lengthBytesLoop : (fuel n : ℕ) → ℕ
  | 0, _ => 0
  | fuel + 1, n => if n = 0 then 0 else lengthBytesLoop fuel (n >>> 8) + 1

/-- The list header `signing_payload` writes. -/
def listHeaderByHand (payload : ℕ) : Bytes :=
  let lengthBytes := if 56 ≤ payload then lengthBytesLoop payload payload else 0
  if payload < 56 then [UInt8.ofNat (0xC0 + payload)]
  else
    UInt8.ofNat (0xf7 + lengthBytes) ::
      (range lengthBytes).reverse.map fun i => UInt8.ofNat (payload >>> (8 * i))

/-- `signing_payload`. -/
def signingPayload (t : Transaction) : Bytes :=
  if t.rlpUnsigned = [] then t.encodeForSigning
  else
    let payload :=
      t.rlpUnsigned.length + (match t.eip155 with | some id => lengthUint id + 2 | none => 0)
    (if t.type ≠ .legacy then [t.type.toByte] else []) ++ listHeaderByHand payload ++ t.rlpUnsigned ++
      (match t.eip155 with | some id => encodeUint id ++
        [kEmptyStringCode, kEmptyStringCode] | none => [])

/-- `hash`, when it is not kept yet. -/
def hash (keccak256 : Bytes → Bytes32) (t : Transaction) : Bytes32 :=
  if t.rlpEncoded ≠ [] then keccak256 t.rlpEncoded else keccak256 (t.encode false)

/-- `sender`, when it is not recovered yet; `recoverAddress` is `silkworm_recover_address`. -/
def sender (keccak256 : Bytes → Bytes32) (recoverAddress : Bytes32 → Bytes → Bool → Option Address)
    (t : Transaction) : Option Address :=
  recoverAddress (keccak256 t.signingPayload)
    ((Bytes32.ofNat t.r.toNat).val ++ (Bytes32.ofNat t.s.toNat).val) t.oddYParity

end Transaction

/-! ## The header written by hand -/

theorem lengthBytesLoop_eq (fuel n : ℕ) :
    Transaction.lengthBytesLoop fuel n = (leDigits fuel n).length := by
  induction fuel generalizing n with
  | zero => rfl
  | succ fuel ih =>
    rw [Transaction.lengthBytesLoop, leDigits]
    split
    · rfl
    · rw [ih, Nat.shiftRight_eq_div_pow, length_cons]

theorem leDigits_eq_map {fuel n : ℕ} :
    leDigits fuel n = (range (leDigits fuel n).length).map fun i => UInt8.ofNat (n >>> (8 * i)) := by
  induction fuel generalizing n with
  | zero => rfl
  | succ fuel ih =>
    rw [leDigits]
    split
    · rfl
    · rw [length_cons, range_succ_eq_map, map_cons, map_map]
      conv_lhs => rw [ih]
      refine congrArg₂ List.cons rfl (map_congr_left fun i _ => ?_)
      rw [Function.comp_apply, Nat.shiftRight_eq_div_pow, Nat.shiftRight_eq_div_pow,
        Nat.div_div_eq_div_mul,
        Nat.succ_eq_add_one, Nat.mul_add, Nat.pow_add, Nat.mul_comm (2 ^ (8 * i))]

theorem listHeaderByHand_eq (payload : ℕ) :
    Transaction.listHeaderByHand payload = encodeHeader ⟨true, payload⟩ := by
  unfold Transaction.listHeaderByHand encodeHeader
  by_cases h : payload < 56
  · simp only [h, if_true]
  · have hbytes : (range (leDigits payload payload).length).reverse.map
        (fun i => UInt8.ofNat (payload >>> (8 * i))) = toBigCompact payload := by
      rw [map_reverse, ← leDigits_eq_map]
      rfl
    simp only [h, if_false, if_true, Nat.not_lt.mp h, lengthBytesLoop_eq, hbytes]
    rw [toBigCompact, length_reverse]

/-! ## Decoded transactions -/

/-- The items in front of the signature. -/
def Transaction.unsignedItems (t : Transaction) : Bytes :=
  if t.type = .legacy then t.legacyEncodeBase else t.eip2718Items

/-- `header_base` counts the unsigned items. -/
theorem Transaction.unsignedItems_length (hs : t.type ≠ .system) :
    t.unsignedItems.length = t.headerBase := by
  by_cases hl : t.type = .legacy
  · rw [unsignedItems, if_pos hl]
    have hlen := Transaction.legacyItems_length hl
    simp only [Transaction.legacyItems, Transaction.header, length_append, encodeUint_length, hl, ne_eq,
      not_true_eq_false, if_false] at hlen
    omega
  · have hlen := Transaction.typed_items_length hl hs
    simp only [Transaction.header, encodeUint_length, ne_eq, hl, not_false_eq_true, if_true] at hlen
    rw [unsignedItems, if_neg hl]
    omega

/-- A transaction whose views, if any, show its own encoding. -/
structure Transaction.ViewsAgree (t : Transaction) : Prop where
  encoded : t.rlpEncoded = [] ∨ t.rlpEncoded = t.encode false
  unsigned : t.rlpUnsigned = [] ∨ t.rlpUnsigned = t.unsignedItems

/-- The signing payload does not depend on the view. -/
theorem Transaction.ViewsAgree.signingPayload_eq (h : t.ViewsAgree) (hs : t.type ≠ .system) :
    t.signingPayload = t.encodeForSigning := by
  rw [signingPayload]
  rcases h.unsigned with hnil | hview
  · rw [if_pos hnil]
  · by_cases hnil : t.rlpUnsigned = []
    · rw [if_pos hnil]
    · rw [if_neg hnil]
      simp only [listHeaderByHand_eq]
      rw [hview, unsignedItems_length hs]
      by_cases hl : t.type = .legacy
      · rw [encodeForSigning, if_pos hl, headerForSigning,
          unsignedItems, if_pos hl, if_neg (not_ne_iff.mpr hl)]
        simp only [eip155, if_pos hl]
        cases t.chainId with
        | none => rfl
        | some id => exact congrArg (_ ++ ·) (append_assoc (encodeUint id) [kEmptyStringCode] [kEmptyStringCode]).symm
      · rw [encodeForSigning, if_neg hl, headerForSigning, unsignedItems, if_neg hl, if_pos hl,
          eip2718EncodeForSigning]
        simp [eip155, hl]

theorem Transaction.ViewsAgree.hash_eq (h : t.ViewsAgree) (keccak256 : Bytes → Bytes32) :
    t.hash keccak256 = t.reset.hash keccak256 := by
  show (if t.rlpEncoded ≠ [] then keccak256 t.rlpEncoded else keccak256 (t.encode false)) =
      keccak256 (t.encode false)
  rcases h.encoded with hnil | hview
  · rw [if_neg (not_ne_iff.mpr hnil)]
  · split
    · rw [hview]
    · rfl

theorem Transaction.ViewsAgree.sender_eq (h : t.ViewsAgree) (hs : t.type ≠ .system)
    (keccak256 : Bytes → Bytes32) (recoverAddress : Bytes32 → Bytes → Bool → Option Address) :
    t.sender keccak256 recoverAddress = t.reset.sender keccak256 recoverAddress := by
  have hreset : t.reset.signingPayload = t.encodeForSigning := if_pos rfl
  rw [sender, sender, h.signingPayload_eq hs, hreset]
  rfl

/-- The type byte of a serialized transaction is in front of its list. -/
def rawTyped (src : Bytes) : Bool :=
  match src with | [] => false | b :: _ => 0 < b && b < kEmptyStringCode

theorem Transaction.typedList_length (hl : t.type ≠ .legacy) (hs : t.type ≠ .system) :
    t.typedList.length = lengthOfLength t.header + t.header := by
  have hlen := Transaction.typed_items_length hl hs
  simp only [typedList, length_append, encodeHeader_length, encodeBool_length]
  omega

/-- A typed transaction is wrapped as the byte string of its plain form. -/
theorem Transaction.encode_wrapped (hl : t.type ≠ .legacy) (hs : t.type ≠ .system) :
    t.encode true = encodeBytes (t.encode false) := by
  have hplain := Transaction.encode_typed hl
  have hlen : (t.encode false).length = lengthOfLength t.header + t.header + 1 := by
    rw [hplain, length_cons, typedList_length hl hs]
  have hwrapped : t.encode true = encodeHeader ⟨false, lengthOfLength t.header + t.header + 1⟩ ++
      t.encode false := by
    simp [Transaction.encode, hl, eip2718EncodeForSigning]
  have hne : t.typedList ≠ [] := by
    intro hnil
    have := congrArg List.length hnil
    rw [typedList_length hl hs, ← encodeHeader_length ⟨true, t.header⟩] at this
    exact absurd (length_eq_zero_iff.mp (Nat.eq_zero_of_add_eq_zero_right this)) (encodeHeader_ne_nil _)
  rw [hwrapped, ← hlen, hplain]
  rcases hlist : t.typedList with _ | ⟨c, cs⟩
  · exact absurd hlist hne
  · rfl

theorem decodeWrapped_spec {whole typed : Bytes} {h : Header}
    (hd : decodeHeader whole = .ok (h, typed)) (hl : h.list = false)
    (hdec : decodeWrapped t mode h typed = .ok (t', rest)) :
    t'.type ≠ .legacy ∧ t'.type ≠ .system ∧ whole = t'.encode true ++ rest ∧
      t'.rlpEncoded = t'.encode false ∧
      t'.rlpUnsigned = t'.eip2718Items := by
  have hstring := decodeHeader_string hd hl
  have hlen := (decodeHeader_spec hd).1
  unfold decodeWrapped at hdec
  rcases hview : typed.take h.payloadLength with _ | ⟨b, view⟩
  · rw [hview] at hdec
    cases hdec
  rw [hview] at hdec hstring
  simp only [bind_eq_ok, rejectIf_eq_ok, pure_eq_ok, Prod.mk.injEq, Prod.exists, not_ne_iff] at hdec
  obtain ⟨type, htype, t₁, items, sig, left, hdec, -, rfl, -, -, rfl, rfl⟩ := hdec
  obtain ⟨hb, hlegacy, hsystem⟩ := typedOfByte_ok htype
  obtain ⟨ht, -, hsrc, hitems, -⟩ := eip2718Decode_spec hdec hlegacy hsystem
  have hl' : t₁.type ≠ .legacy := by
    rw [ht]
    exact hlegacy
  have hs' : t₁.type ≠ .system := by
    rw [ht]
    exact hsystem
  have hplain : b :: view = t₁.encode false := by
    rw [Transaction.encode_typed hl', hsrc, append_nil, ht]
    exact congrArg (· :: _) hb.symm
  refine ⟨hl', hs', ?_, hplain, ?_⟩
  · show whole = t₁.encode true ++ typed.drop h.payloadLength
    rw [Transaction.encode_wrapped hl' hs', ← hplain]
    exact hstring
  · show items.take (items.length - sig.length) = t₁.eip2718Items
    rw [hitems]
    simp

/-- **A legacy or string-wrapped transaction is read from its own encoding.** -/
theorem decodeTransaction_wrapped {wrapping : Eip2718Wrapping} {src : Bytes}
    (h : decodeTransaction t wrapping mode src = .ok (t', rest)) (hraw : rawTyped src = false) :
    t'.type ≠ .system ∧ src = t'.encode true ++ rest ∧ t'.rlpEncoded = t'.encode false ∧
      t'.rlpUnsigned = t'.unsignedItems := by
  cases src with
  | nil => cases h
  | cons b bs =>
    have htyped : ¬ (0 < b ∧ b < kEmptyStringCode) := by simpa [rawTyped] using hraw
    simp only [decodeTransaction, if_neg htyped, bind_eq_ok, Prod.exists] at h
    obtain ⟨hd, view, hhd, h⟩ := h
    split at h
    case isTrue hl =>
      obtain ⟨ht, henc, hrlp, hunsigned, -⟩ := decodeLegacy_spec hhd hl h
      rw [Transaction.unsignedItems, if_pos ht]
      refine ⟨by simp [ht], ?_, hrlp, hunsigned⟩
      rw [Transaction.encode_legacy ht] at henc ⊢
      exact henc
    case isFalse hl =>
      simp only [bind_eq_ok, rejectIf_eq_ok] at h
      obtain ⟨-, -, h⟩ := h
      obtain ⟨hlegacy, hsystem, henc, hrlp, hunsigned⟩ := decodeWrapped_spec hhd (by simpa using hl) h
      rw [Transaction.unsignedItems, if_neg hlegacy]
      exact ⟨hsystem, henc, hrlp, hunsigned⟩

/-- The views of a decoded transaction are those of its encoding. -/
theorem Transaction.ViewsAgree.of_decode {wrapping : Eip2718Wrapping} {src : Bytes}
    (h : decodeTransaction t wrapping mode src = .ok (t', rest)) (hraw : rawTyped src = false) :
    t'.ViewsAgree :=
  have hw := decodeTransaction_wrapped h hraw
  ⟨.inr hw.2.2.1, .inr hw.2.2.2⟩

end Zilkworm.Types
