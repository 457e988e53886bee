/-
# What decoding a block costs

The decoders of a block with a meter: `to.emplace_back()` in the loop of a list asks for room
for an item, and a byte string (`extra_data`, a transaction's `data`) is copied.  Nothing else
they do asks for memory.  Every round of a loop consumes a byte, so a block's decoding is paid
for by the block's own bytes, at a rate that depends on the sizes of the item types only; what
a length inside it claims to be there is never allocated before it is seen.
-/
import Zilkworm.Lib.Meter
import Zilkworm.Types.Block
import Zilkworm.Types.TransactionCodec

namespace Zilkworm.Types

open List Lib Lib.Metered Rlp

variable {size : ℕ} {rest : Bytes} {h : Header}

/-- `sizeof` of the types that are held in vectors, which the compiler chooses; the defaults are
those of a 64-bit host. -/
structure ElementSizes where
  byteView : ℕ := 16
  engineRecord : ℕ := 56
  bytes32 : ℕ := 32
  accessListEntry : ℕ := 48
  authorization : ℕ := 136
  transaction : ℕ := 552
  blockHeader : ℕ := 808
  withdrawal : ℕ := 48
  byteView_lt : byteView < 2 ^ 31 := by decide

/-- What one byte of a block's encoding pays for. -/
def ElementSizes.rate (sz : ElementSizes) : ℕ :=
  4 * (sz.bytes32 + sz.accessListEntry + sz.authorization + sz.transaction + sz.blockHeader +
    sz.withdrawal) + 8

/-! ## The decoders -/

section Metered

variable {α : Type} (sz : ElementSizes) (t : Transaction) (mode : Leftover) (src : Bytes)

/-- `decodeVector`; an item takes `size` bytes. -/
def decodeVectorM (size : ℕ) (dec : MeteredDecoder DecodingError α) (mode : Leftover) :
    MeteredDecoder DecodingError (List α) := fun src => do
  let (h, src) ← lift (decodeHeader src)
  lift (rejectIf (h.list = false) .unexpectedString)
  let payload := src.take h.payloadLength
  let v ← meteredAll dec size .inputTooShort payload.length payload
  lift (checkLeftover mode (src.drop h.payloadLength))
  return (v, src.drop h.payloadLength)

/-- `decodeAccessListEntry`. -/
def decodeAccessListEntryM : MeteredDecoder DecodingError AccessListEntry :=
  fun src => do
  let (h, src) ← lift (decodeHeader src)
  lift (rejectIf (h.list = false) .unexpectedString)
  let leftover := src.length - h.payloadLength
  lift (rejectIf (mode ≠ .allow ∧ leftover ≠ 0) .inputTooLong)
  let (account, src) ← lift (decodeArray 20 .allow src)
  let (storageKeys, src) ←
    decodeVectorM sz.bytes32 (fun src => lift (decodeArray 32 .allow src)) .allow src
  lift (rejectIf (src.length ≠ leftover) .unexpectedListElements)
  return (⟨account, storageKeys⟩, src)

/-- `decodeBlobItems`. -/
def decodeBlobItemsM (type : TransactionType) : MeteredDecoder DecodingError (U256 × List Bytes32) :=
  fun src =>
  if type ≠ .blob then lift (.ok ((0, []), src))
  else do
    let (maxFeePerBlobGas, src) ← lift (decodeUint 256 .allow src)
    let (hashes, src) ←
      decodeVectorM sz.bytes32 (fun src => lift (decodeArray 32 .allow src)) .allow src
    return ((maxFeePerBlobGas, hashes), src)

/-- `decodeAuthorizations`. -/
def decodeAuthorizationsM (type : TransactionType) (old : List Authorization) :
    MeteredDecoder DecodingError (List Authorization) := fun src =>
  if type = .setCode then
    decodeVectorM sz.authorization (fun src => lift (decodeAuthorization .allow src)) .allow src
  else lift (.ok (old, src))

/-- `eip2718Decode`; the views at which the items and the signature start come with the
transaction. -/
def eip2718DecodeM : MeteredDecoder DecodingError (Transaction × Bytes × Bytes) :=
  fun src => do
  let (h, items) ← lift (decodeHeader src)
  lift (rejectIf (h.list = false) .unexpectedString)
  let (chainId, src) ← lift (decodeUint 256 .allow items)
  let (nonce, src) ← lift (decodeUint 64 .allow src)
  let (maxPriorityFeePerGas, src) ← lift (decodeUint 256 .allow src)
  let (maxFeePerGas, src) ← lift (decodeMaxFee t.type maxPriorityFeePerGas src)
  let (gasLimit, src) ← lift (decodeUint 64 .allow src)
  let (to_, src) ← lift (decodeTo src)
  let (value, src) ← lift (decodeUint 256 .allow src)
  let (data, src) ← copying (decodeBytes .allow) src
  let (accessList, src) ← decodeVectorM sz.accessListEntry (decodeAccessListEntryM sz .allow) .allow src
  let (blob, src) ← decodeBlobItemsM sz t.type src
  let (authorizations, sig) ← decodeAuthorizationsM sz t.type t.authorizations src
  let (oddYParity, src) ← lift (decodeBool .allow sig)
  let (r, src) ← lift (decodeUint 256 .allow src)
  let (s, src) ← lift (decodeUint 256 .allow src)
  lift (rejectIf (items.length - src.length ≠ h.payloadLength) .unexpectedListElements)
  return (({ t with
    chainId := some chainId, nonce := nonce, maxPriorityFeePerGas := maxPriorityFeePerGas,
    maxFeePerGas := maxFeePerGas, gasLimit := gasLimit, to_ := to_, value := value, data := data,
    accessList := accessList, maxFeePerBlobGas := blob.1, blobVersionedHashes := blob.2,
    authorizations := authorizations, oddYParity := oddYParity, r := r, s := s }, items, sig), src)

/-- `decodeWrapped`. -/
def decodeWrappedM (h : Header) (typed : Bytes) :
    Metered DecodingError (Transaction × Bytes) :=
  match typed.take h.payloadLength with
  | [] => lift (.error .inputTooShort)
  | b :: view => do
    let type ← lift (typedOfByte b)
    let ((t, items, sig), left) ← eip2718DecodeM sz { t with type := type } view
    lift (rejectIf (left ≠ []) .unexpectedListElements)
    let rest := typed.drop h.payloadLength
    lift (checkLeftover mode rest)
    return ({ t with
      rlpEncoded := typed.take h.payloadLength,
      rlpUnsigned := items.take (items.length - sig.length) }, rest)

/-- `decodeTransaction` of a transaction inside a block: a typed one is wrapped into a string. -/
def decodeTransactionM : MeteredDecoder DecodingError Transaction :=
  fun src =>
  match src with
  | [] => lift (.error .inputTooShort)
  | b :: rest =>
    if 0 < b ∧ b < kEmptyStringCode then lift (.error .unexpectedEip2718Serialization)
    else do
      let (h, view) ← lift (decodeHeader (b :: rest))
      if h.list then copying (decodeLegacy t.reset mode (b :: rest) h) view
      else decodeWrappedM sz t.reset mode h view

/-- `decodeOptional`. -/
def decodeOptionalM (leftover : ℕ) (dec : MeteredDecoder DecodingError α) :
    MeteredDecoder DecodingError (Option α) := fun src =>
  if leftover < src.length then do
    let (v, src) ← dec src
    return (some v, src)
  else lift (.ok (none, src))

/-- `decodeBlock`. -/
def decodeBlockM : MeteredDecoder DecodingError Block := fun src => do
  let (h, src) ← lift (decodeHeader src)
  lift (rejectIf (h.list = false) .unexpectedString)
  let leftover := src.length - h.payloadLength
  lift (rejectIf (mode ≠ .allow ∧ leftover ≠ 0) .inputTooLong)
  let (header, src) ← copying (decodeBlockHeader .allow) src
  let (transactions, src) ← decodeVectorM sz.transaction (decodeTransactionM sz {} .allow) .allow src
  let (ommers, src) ← decodeVectorM sz.blockHeader (copying (decodeBlockHeader .allow)) .allow src
  let (withdrawals, src) ←
    decodeOptionalM leftover
      (decodeVectorM sz.withdrawal (fun src => lift (decodeWithdrawal .allow src)) .allow) src
  lift (rejectIf (src.length ≠ leftover) .unexpectedListElements)
  return (⟨header, transactions, ommers, withdrawals⟩, src)

end Metered

/-! ## Without the meter -/

section Erasure

variable {α : Type} (sz : ElementSizes) (t : Transaction) (mode : Leftover) (src : Bytes)

/-- Metering a vector's decoder does not change what it decodes. -/
theorem decodeVectorM_result {dec : MeteredDecoder DecodingError α}
    {plain : Decoder DecodingError α} (h : ∀ src, (dec src).result = plain src) (mode : Leftover)
    (src : Bytes) : (decodeVectorM size dec mode src).result = decodeVector plain mode src := by
  refine bind_result_of rfl ?_
  rintro ⟨hd, src⟩
  refine bind_result_of rfl fun _ => ?_
  refine bind_result_of (meteredAll_result h _ _ _ _) fun v => ?_
  exact bind_result_of rfl fun _ => rfl

theorem decodeHashesM_result :
    (decodeVectorM sz.bytes32 (fun src => lift (decodeArray 32 .allow src)) .allow src).result =
      decodeVector (decodeArray 32 .allow) .allow src :=
  decodeVectorM_result (fun _ => rfl) _ _

theorem decodeAccessListEntryM_result :
    (decodeAccessListEntryM sz mode src).result = decodeAccessListEntry mode src := by
  unfold decodeAccessListEntryM decodeAccessListEntry decodeFixed
  refine bind_result_of rfl ?_
  rintro ⟨hd, src⟩
  refine bind_result_of rfl fun _ => bind_result_of rfl fun _ => ?_
  simp only [bind_result, lift_result, decodeHashesM_result]
  rcases decodeArray 20 .allow src with e | ⟨account, src⟩
  · rfl
  · simp only [bind, Except.bind]
    rcases decodeVector (decodeArray 32 .allow) .allow src with e | ⟨keys, src⟩ <;> rfl

theorem decodeBlobItemsM_result (type : TransactionType) (src : Bytes) :
    (decodeBlobItemsM sz type src).result = decodeBlobItems type src := by
  unfold decodeBlobItemsM decodeBlobItems
  split
  · rfl
  · refine bind_result_of rfl ?_
    rintro ⟨fee, src⟩
    exact bind_result_of (decodeHashesM_result sz src) fun _ => rfl

theorem decodeAuthorizationsM_result (type : TransactionType) (old : List Authorization) (src : Bytes) :
    (decodeAuthorizationsM sz type old src).result = decodeAuthorizations type old src := by
  unfold decodeAuthorizationsM decodeAuthorizations
  split
  · exact decodeVectorM_result (fun _ => rfl) _ _
  · rfl

theorem eip2718DecodeM_result :
    (eip2718DecodeM sz t src).result =
      (eip2718Decode t src).map fun p => ((p.1, p.2.1, p.2.2.1), p.2.2.2) := by
  have hmap : ∀ {β γ δ : Type} {x : Except DecodingError β} {f : β → Except DecodingError γ}
      (g : γ → δ), (x >>= f).map g = x >>= fun a => (f a).map g := by
    rintro _ _ _ (_ | _) _ _ <;> rfl
  unfold eip2718DecodeM eip2718Decode
  -- each reading step on the left is the same step on the right
  have step : ∀ {β γ δ : Type} {m : Metered DecodingError β} {f : β → Metered DecodingError δ}
      {x : Except DecodingError β} {g : β → Except DecodingError γ} {q : γ → δ},
      m.result = x → (∀ a, (f a).result = (g a).map q) → (m >>= f).result = (x >>= g).map q := by
    intro _ _ _ m f x g q hm hf
    rw [hmap]
    exact bind_result_of hm hf
  refine step rfl ?_; rintro ⟨h, items⟩
  refine step rfl fun _ => ?_
  refine step rfl ?_; rintro ⟨chainId, src⟩
  refine step rfl ?_; rintro ⟨nonce, src⟩
  refine step rfl ?_; rintro ⟨priority, src⟩
  refine step rfl ?_; rintro ⟨fee, src⟩
  refine step rfl ?_; rintro ⟨gas, src⟩
  refine step rfl ?_; rintro ⟨to_, src⟩
  refine step rfl ?_; rintro ⟨value, src⟩
  refine step rfl ?_; rintro ⟨data, src⟩
  refine step (decodeVectorM_result (decodeAccessListEntryM_result sz .allow) _ _) ?_
  rintro ⟨accessList, src⟩
  refine step (decodeBlobItemsM_result sz _ _) ?_; rintro ⟨blob, src⟩
  refine step (decodeAuthorizationsM_result sz _ _ _) ?_; rintro ⟨auths, sig⟩
  refine step rfl ?_; rintro ⟨parity, src⟩
  refine step rfl ?_; rintro ⟨r, src⟩
  refine step rfl ?_; rintro ⟨s, src⟩
  exact step rfl fun _ => rfl

theorem decodeWrappedM_result (h : Header) (typed : Bytes) :
    (decodeWrappedM sz t mode h typed).result = decodeWrapped t mode h typed := by
  unfold decodeWrappedM decodeWrapped
  rcases typed.take h.payloadLength with _ | ⟨b, view⟩
  · rfl
  · refine bind_result_of rfl fun type => ?_
    rw [bind_result, eip2718DecodeM_result]
    rcases eip2718Decode _ _ with e | ⟨t', items, sig, left⟩
    · rfl
    · exact bind_result_of rfl fun _ => bind_result_of rfl fun _ => rfl

/-- The metered decoder of a transaction decodes what `decode_transaction` does. -/
theorem decodeTransactionM_result :
    (decodeTransactionM sz t mode src).result = decodeTransaction t .string mode src := by
  unfold decodeTransactionM decodeTransaction
  cases src with
  | nil => rfl
  | cons b rest =>
    dsimp only
    split
    · rfl
    · refine bind_result_of rfl ?_
      rintro ⟨h, view⟩
      dsimp only
      split
      · rfl
      · exact decodeWrappedM_result sz _ _ _ _

theorem decodeOptionalM_result {dec : MeteredDecoder DecodingError α} {plain : Decoder DecodingError α}
    (h : ∀ src, (dec src).result = plain src) (leftover : ℕ) (src : Bytes) :
    (decodeOptionalM leftover dec src).result = decodeOptional leftover plain src := by
  unfold decodeOptionalM decodeOptional
  split
  · exact bind_result_of (h src) fun _ => rfl
  · rfl

/-- **The metered decoder is the decoder.** -/
theorem decodeBlockM_result :
    (decodeBlockM sz mode src).result = decodeBlock mode src := by
  unfold decodeBlockM decodeBlock
  refine bind_result_of rfl ?_
  rintro ⟨h, src⟩
  refine bind_result_of rfl fun _ => bind_result_of rfl fun _ => ?_
  refine bind_result_of rfl ?_
  rintro ⟨header, src⟩
  refine bind_result_of (decodeVectorM_result (decodeTransactionM_result sz {} .allow) _ _) ?_
  rintro ⟨transactions, src⟩
  refine bind_result_of (decodeVectorM_result (fun _ => rfl) _ _) ?_
  rintro ⟨ommers, src⟩
  refine bind_result_of
    (decodeOptionalM_result (fun src => decodeVectorM_result (fun _ => rfl) _ src) _ _) ?_
  rintro ⟨withdrawals, src⟩
  exact bind_result_of rfl fun _ => rfl

end Erasure

/-! ## Every item consumes a byte -/

section Consuming

variable {α : Type} (t : Transaction) (mode : Leftover) (src : Bytes)

theorem decodeHeader_shrinking : Shrinking decodeHeader := by
  intro src h rest hd
  obtain ⟨-, ⟨-, rfl, -⟩ | ⟨hsrc, -⟩⟩ := decodeHeader_spec hd
  · exact le_rfl
  · rw [hsrc, length_append]
    exact Nat.le_add_left _ _

/-- Past an item there is less than before it. -/
theorem decodeHeader_skip {src : Bytes} (hd : decodeHeader src = .ok (h, rest)) :
    rest.length - h.payloadLength < src.length := by
  obtain ⟨hlen, ⟨rfl, rfl, b, bs, rfl, -⟩ | ⟨hsrc, -⟩⟩ := decodeHeader_spec hd
  · simp
  · have hpos : 0 < (encodeHeader h).length := by
      rw [encodeHeader_length]
      unfold lengthOfLength
      split <;> omega
    have := congrArg List.length hsrc
    rw [length_append] at this
    omega

/-- A decoder that ends where the item in front of it does consumes a byte. -/
theorem consuming_of_header {dec : Decoder DecodingError α}
    (h : ∀ {src v rest}, dec src = .ok (v, rest) →
      ∃ hd r, decodeHeader src = .ok (hd, r) ∧ rest.length = r.length - hd.payloadLength) :
    Consuming dec := by
  intro src v rest hdec
  obtain ⟨hd, r, hhd, hrest⟩ := h hdec
  rw [hrest]
  exact decodeHeader_skip hhd

theorem decodeFixed_consuming (items : Decoder DecodingError α) (mode : Leftover) :
    Consuming (decodeFixed items mode) := by
  refine consuming_of_header fun {src v rest} hd => ?_
  simp only [decodeFixed, bind_eq_ok, rejectIf_eq_ok, pure_eq_ok, Prod.mk.injEq, Prod.exists] at hd
  obtain ⟨h, r, hhd, -, -, -, -, _, _, -, -, hlen, -, rfl⟩ := hd
  exact ⟨h, r, hhd, by simpa using hlen⟩

theorem decodeArray_consuming (n : ℕ) (mode : Leftover) : Consuming (decodeArray n mode) := by
  refine consuming_of_header fun {src v rest} hd => ?_
  simp only [decodeArray, bind_eq_ok, rejectIf_eq_ok, pure_eq_ok, Prod.mk.injEq, Prod.exists] at hd
  obtain ⟨h, r, hhd, -, -, -, hn, -, -, -, rfl⟩ := hd
  obtain rfl : h.payloadLength = n := by simpa using hn
  exact ⟨h, r, hhd, by simp⟩

theorem decodeBlockHeader_consuming : Consuming (decodeBlockHeader mode) := by
  refine consuming_of_header fun {src v rest} hd => ?_
  unfold decodeBlockHeader at hd
  obtain ⟨⟨h, r⟩, hhd, hd⟩ := bind_eq_ok.mp hd
  obtain ⟨-, -, hd⟩ := bind_eq_ok.mp hd
  obtain ⟨-, -, hd⟩ := bind_eq_ok.mp hd
  refine ⟨h, r, hhd, ?_⟩
  -- the fields in between do not matter: the list's end is checked behind them
  iterate 21 obtain ⟨⟨_, _⟩, -, hd⟩ := bind_eq_ok.mp hd
  obtain ⟨_, hlen, hd⟩ := bind_eq_ok.mp hd
  obtain ⟨-, rfl⟩ := Prod.mk.inj (pure_eq_ok.mp hd)
  simpa using hlen

/-- A legacy transaction takes its payload and leaves the rest. -/
theorem decodeLegacy_length {t t' : Transaction} {mode : Leftover} {whole items : Bytes}
    (hd : decodeLegacy t mode whole h items = .ok (t', rest)) :
    rest.length = items.length - h.payloadLength := by
  simp only [decodeLegacy, bind_eq_ok, rejectIf_eq_ok, pure_eq_ok, Prod.mk.injEq, Prod.exists] at hd
  obtain ⟨-, -, _, _, _, -, -, hlen, -, rfl⟩ := hd
  simpa using hlen

/-- A wrapped typed transaction takes its payload and leaves the rest. -/
theorem decodeWrapped_length {t t' : Transaction} {mode : Leftover} {typed : Bytes}
    (hd : decodeWrapped t mode h typed = .ok (t', rest)) :
    rest.length = typed.length - h.payloadLength := by
  unfold decodeWrapped at hd
  split at hd
  · cases hd
  · simp only [bind_eq_ok, rejectIf_eq_ok, pure_eq_ok, Prod.mk.injEq, Prod.exists] at hd
    obtain ⟨-, -, _, _, _, _, -, -, -, -, -, -, rfl⟩ := hd
    simp

/-- An accepted transaction takes at least a byte, so a list has no more of them than bytes. -/
theorem decodeTransaction_consuming :
    Consuming (decodeTransaction t .string mode) := by
  refine consuming_of_header fun {src v rest} hd => ?_
  unfold decodeTransaction at hd
  cases src with
  | nil => cases hd
  | cons b bs =>
    dsimp only at hd
    split at hd
    · cases hd
    · obtain ⟨⟨h, view⟩, hhd, hd⟩ := bind_eq_ok.mp hd
      refine ⟨h, view, hhd, ?_⟩
      dsimp only at hd
      split at hd
      · exact decodeLegacy_length hd
      · obtain ⟨-, -, hd⟩ := bind_eq_ok.mp hd
        exact decodeWrapped_length hd

end Consuming

/-! ## Decoding is paid for -/

section Frugal

variable {α : Type} (sz : ElementSizes) (t : Transaction) (mode : Leftover) (src : Bytes)

/-- **A vector costs in proportion to its bytes**: each element takes a byte, and the storage
doubles. -/
theorem decodeVectorM_frugal {k : ℕ} {dec : MeteredDecoder DecodingError α}
    {plain : Decoder DecodingError α} (hplain : ∀ src, (dec src).result = plain src)
    (hc : Consuming plain) (h : Frugal k dec) (mode : Leftover) :
    Frugal (k + 4 * size + 1) (decodeVectorM size dec mode) := by
  intro src
  refine .bind (.lift decodeHeader_shrinking src) fun hd rest hhd => ?_
  have hlen : hd.payloadLength ≤ rest.length := (decodeHeader_spec hhd).1
  refine .check _ fun _ _ => ?_
  -- the loop is paid out of the payload, and what is behind the payload stays
  have hloop : (meteredAll dec size .inputTooShort (rest.take hd.payloadLength).length
      (rest.take hd.payloadLength)).cost ≤ (k + 4 * size + 1) * (rest.take hd.payloadLength).length :=
    meteredAll_cost hplain hc h _ _ _
  have hsplit : rest.length =
      (rest.take hd.payloadLength).length + (rest.drop hd.payloadLength).length := by
    rw [length_take, length_drop]
    omega
  show Metered.Within _ rest.length _
  rw [hsplit]
  exact .spend hloop fun v _ => .check _ fun _ _ => .pure v le_rfl

theorem decodeUint_shrinking (w : ℕ) : Shrinking (decodeUint w .allow) :=
  (decodeUint_canonical w .allow).shrinking

/-- A list of items that ask for no memory of their own. -/
theorem decodeItemsM_frugal {dec : Decoder DecodingError α} (hc : Consuming dec) (mode : Leftover) :
    Frugal (4 * size + 1) (decodeVectorM size (fun src => lift (dec src)) mode) := by
  have hitem : Frugal 0 fun src => lift (dec src) := fun src => .lift hc.shrinking src
  have h : Frugal (0 + 4 * size + 1) (decodeVectorM size (fun src => lift (dec src)) mode) :=
    decodeVectorM_frugal (fun _ => rfl) hc hitem mode
  rwa [Nat.zero_add] at h

theorem decodeHashesM_frugal : Frugal (4 * sz.bytes32 + 1)
    (decodeVectorM sz.bytes32 (fun src => lift (decodeArray 32 .allow src)) .allow) :=
  decodeItemsM_frugal (decodeArray_consuming 32 .allow) .allow

theorem decodeAccessListEntryM_frugal :
    Frugal (4 * sz.bytes32 + 1) (decodeAccessListEntryM sz mode) := by
  intro src
  refine .bind (.lift decodeHeader_shrinking src) fun hd src _ => ?_
  refine .check _ fun _ _ => .check _ fun _ _ => ?_
  refine .bind (.lift (decodeArray_consuming 20 .allow).shrinking src) fun account src _ => ?_
  refine .bind (decodeHashesM_frugal sz src) fun keys src _ => ?_
  exact .check _ fun _ _ => .pure _ le_rfl

theorem decodeMaxFee_shrinking (type : TransactionType) (p : U256) :
    Shrinking (decodeMaxFee type p) := by
  intro src v rest hd
  unfold decodeMaxFee at hd
  split at hd
  · obtain ⟨-, rfl⟩ := Prod.mk.inj (Except.ok.inj hd)
    exact le_rfl
  · exact decodeUint_shrinking 256 hd

theorem decodeBlobItemsM_frugal (type : TransactionType) :
    Frugal (4 * sz.bytes32 + 1) (decodeBlobItemsM sz type) := by
  intro src
  unfold decodeBlobItemsM
  split
  · exact .pure _ le_rfl
  · refine .bind (.lift (decodeUint_shrinking 256) src) fun fee src _ => ?_
    exact .bind (decodeHashesM_frugal sz src) fun _ _ _ => .pure _ le_rfl

theorem decodeAuthorizationsM_frugal (type : TransactionType) (old : List Authorization) :
    Frugal (4 * sz.authorization + 1) (decodeAuthorizationsM sz type old) := by
  intro src
  unfold decodeAuthorizationsM
  split
  · exact decodeItemsM_frugal (decodeFixed_consuming _ .allow) .allow src
  · exact .pure _ le_rfl

/-- What a byte of a typed transaction pays for. -/
def ElementSizes.transactionRate (sz : ElementSizes) : ℕ :=
  4 * (sz.bytes32 + sz.accessListEntry + sz.authorization) + 2

theorem eip2718DecodeM_frugal : Frugal sz.transactionRate (eip2718DecodeM sz t) := by
  have huint : ∀ (w : ℕ) (src : Bytes),
      (lift (decodeUint w .allow src)).Within sz.transactionRate src.length :=
    fun w src => .lift (decodeUint_shrinking w) src
  have hlist : Frugal sz.transactionRate
      (decodeVectorM sz.accessListEntry (decodeAccessListEntryM sz .allow) .allow) :=
    (decodeVectorM_frugal (decodeAccessListEntryM_result sz .allow) (decodeFixed_consuming _ .allow)
      (decodeAccessListEntryM_frugal sz .allow) .allow).mono
      (by unfold ElementSizes.transactionRate; omega)
  intro src
  refine .bind (.lift decodeHeader_shrinking src) fun hd items _ => .check _ fun _ _ => ?_
  refine .bind (huint _ _) fun chainId src _ => .bind (huint _ _) fun nonce src _ => ?_
  refine .bind (huint _ _) fun priority src _ => ?_
  refine .bind (.lift (decodeMaxFee_shrinking _ _) _) fun fee src _ => ?_
  refine .bind (huint _ _) fun gas src _ => .bind (.lift decodeTo_canonical.shrinking _)
    fun to_ src _ => ?_
  refine .bind (huint _ _) fun value src _ => ?_
  refine .bind ((Frugal.copying (decodeBytes_canonical .allow).shrinking src).mono
    (by unfold ElementSizes.transactionRate; omega)) fun data src _ => ?_
  refine .bind (hlist src) fun accessList src _ => ?_
  refine .bind ((decodeBlobItemsM_frugal sz _ src).mono
    (by unfold ElementSizes.transactionRate; omega)) fun blob src _ => ?_
  refine .bind ((decodeAuthorizationsM_frugal sz _ _ src).mono
    (by unfold ElementSizes.transactionRate; omega)) fun auths sig _ => ?_
  refine .bind (.lift (decodeBool_canonical .allow).shrinking _) fun parity src _ => ?_
  refine .bind (huint _ _) fun r src _ => .bind (huint _ _) fun s src _ => ?_
  exact .check _ fun _ _ => .pure _ le_rfl

theorem decodeWrappedM_within (h : Header) (typed : Bytes) :
    (decodeWrappedM sz t mode h typed).Within sz.transactionRate typed.length := by
  unfold decodeWrappedM
  split
  · exact .error _
  · rename_i b view hview
    refine .check _ fun type _ => ?_
    have hsplit : (typed.take h.payloadLength).length + (typed.drop h.payloadLength).length =
        typed.length := by rw [← length_append, take_append_drop]
    rw [hview, length_cons] at hsplit
    refine Metered.Within.widen ?_ (show view.length + (typed.drop h.payloadLength).length ≤ _ by omega)
    refine .spend (eip2718DecodeM_frugal sz _ view).total fun v _ => ?_
    exact .check _ fun _ _ => .check _ fun _ _ => .pure _ le_rfl

/-- **A transaction is decoded at a cost in proportion to its bytes.** -/
theorem decodeTransactionM_frugal :
    Frugal sz.transactionRate (decodeTransactionM sz t mode) := by
  intro src
  unfold decodeTransactionM
  cases src with
  | nil => exact .error _
  | cons b rest =>
    dsimp only
    split
    · exact .error _
    · refine .bind (.lift decodeHeader_shrinking _) fun h view _ => ?_
      dsimp only
      split
      · refine (Frugal.copying ?_ view).mono (by unfold ElementSizes.transactionRate; omega)
        intro src v rest hd
        rw [decodeLegacy_length hd]
        exact Nat.sub_le _ _
      · exact decodeWrappedM_within sz _ _ h view

/-- **A block's decoding is paid for by the block**: `rate` for each of its bytes, whether it
succeeds or fails. -/
theorem decodeBlockM_frugal : Frugal sz.rate (decodeBlockM sz mode) := by
  have htxs : Frugal sz.rate (decodeVectorM sz.transaction (decodeTransactionM sz {} .allow) .allow) :=
    (decodeVectorM_frugal (decodeTransactionM_result sz {} .allow)
      (decodeTransaction_consuming {} .allow)
      (decodeTransactionM_frugal sz {} .allow) .allow).mono
      (by unfold ElementSizes.transactionRate ElementSizes.rate; omega)
  have hcopy : Frugal 1 (copying (decodeBlockHeader .allow)) :=
    .copying (decodeBlockHeader_consuming .allow).shrinking
  have hommers :
      Frugal sz.rate (decodeVectorM sz.blockHeader (copying (decodeBlockHeader .allow)) .allow) :=
    (decodeVectorM_frugal (fun _ => rfl) (decodeBlockHeader_consuming .allow) hcopy .allow).mono
      (by unfold ElementSizes.rate; omega)
  have hws : Frugal sz.rate
      (decodeVectorM sz.withdrawal (fun src => lift (decodeWithdrawal .allow src)) .allow) :=
    Frugal.mono (decodeItemsM_frugal (decodeFixed_consuming _ .allow) .allow)
      (by unfold ElementSizes.rate; omega)
  intro src
  refine .bind (.lift decodeHeader_shrinking src) fun hd src _ => ?_
  refine .check _ fun _ _ => .check _ fun _ _ => ?_
  refine .bind ((hcopy src).mono (by unfold ElementSizes.rate; omega)) fun header src _ => ?_
  refine .bind (htxs src) fun txs src _ => .bind (hommers src) fun ommers src _ => ?_
  refine .bind ?_ fun ws src _ => .check _ fun _ _ => .pure _ le_rfl
  unfold decodeOptionalM
  split
  · exact .bind (hws src) fun _ _ _ => .pure _ le_rfl
  · exact .pure _ le_rfl

end Frugal

end Zilkworm.Types
