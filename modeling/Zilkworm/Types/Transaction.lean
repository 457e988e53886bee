/-
# Transactions

`core/types/transaction.{hpp,cpp}` and `y_parity_and_chain_id.cpp`: the transaction
record, its encoders and `decode_transaction` with its three wrapping modes.

A decoder writes into a target that may hold an earlier transaction, so the target is an
argument.  A pointer into the view (`items`, `sig`) is the view that starts there; the
cached views `rlp_encoded` and `rlp_unsigned` are kept as the bytes they show.  The
`sender`, hash and calldata caches are left out: they hold no decoded data.
-/
import Zilkworm.Rlp.Lists

namespace Zilkworm.Types

open Lib Rlp

variable (type : TransactionType) (t : Transaction) (src : Bytes) (mode : Leftover)

/-- `evmc::bytes32`. -/
abbrev Bytes32 := FixedBytes 32

/-- `evmc::address`. -/
abbrev Address := FixedBytes 20

instance : LawfulBEq Address := inferInstance

/-- `uint64_t`. -/
abbrev U64 := BitVec 64

/-- `intx::uint256`. -/
abbrev U256 := BitVec 256

/-- The zero hash, `evmc::bytes32{}`. -/
def zeroBytes32 : Bytes32 := FixedBytes.zero 32

/-- The 32 bytes of a number, most significant first. -/
def Bytes32.ofNat (n : ℕ) : Bytes32 := ⟨(toLe 32 n).reverse, by simp⟩

/-- The zero address, `evmc::address{}`. -/
def zeroAddress : Address := FixedBytes.zero 20

/-- `AccessListEntry` (EIP-2930). -/
structure AccessListEntry where
  account : Address
  storageKeys : List Bytes32
  deriving DecidableEq

/-- `Authorization` (EIP-7702). -/
structure Authorization where
  chainId : U256
  address : Address
  nonce : U64
  yParity : BitVec 8
  r : U256
  s : U256
  deriving DecidableEq

/-- `TransactionType`. -/
inductive TransactionType where
  | legacy | accessList | dynamicFee | blob | setCode | system
  deriving Repr, DecidableEq

/-- The enumerator's value. -/
def TransactionType.toByte : TransactionType → UInt8
  | .legacy => 0
  | .accessList => 1
  | .dynamicFee => 2
  | .blob => 3
  | .setCode => 4
  | .system => 0xff

/-- The cast of a type byte together with the check `eip2718_decode` opens with. -/
def typedOfByte (b : UInt8) : Except DecodingError TransactionType :=
  if b = 1 then .ok .accessList
  else if b = 2 then .ok .dynamicFee
  else if b = 3 then .ok .blob
  else if b = 4 then .ok .setCode
  else .error .unsupportedTransactionType

/-- `Transaction`, with the fields of `UnsignedTransaction`. -/
structure Transaction where
  type : TransactionType := .legacy
  chainId : Option U256 := none
  nonce : U64 := 0
  maxPriorityFeePerGas : U256 := 0
  maxFeePerGas : U256 := 0
  gasLimit : U64 := 0
  to_ : Option Address := none
  value : U256 := 0
  data : Bytes := []
  accessList : List AccessListEntry := []
  maxFeePerBlobGas : U256 := 0
  blobVersionedHashes : List Bytes32 := []
  authorizations : List Authorization := []
  oddYParity : Bool := false
  r : U256 := 0
  s : U256 := 0
  rlpEncoded : Bytes := []
  rlpUnsigned : Bytes := []
  deriving DecidableEq

/-- `Transaction::reset`, as far as the cached views go. -/
def Transaction.reset : Transaction := { t with rlpEncoded := [], rlpUnsigned := [] }

/-! ## EIP-155 -/

/-- `y_parity_and_chain_id_to_v`. -/
def yParityAndChainIdToV (odd : Bool) (chainId : Option U256) : U256 :=
  match chainId with
  | some id => id * 2 + 35 + (if odd then 1 else 0)
  | none => if odd then 28 else 27

/-- `v_to_y_parity_and_chain_id`. -/
def vToYParityAndChainId (v : U256) : Option (Bool × Option U256) :=
  if v = 27 ∨ v = 28 then some (decide (v = 28), none)
  else if v.toNat < 35 then none
  else
    let w := v - 35
    some (decide (w.toNat % 2 = 1), some (w >>> 1))

/-- `Transaction::v`. -/
def Transaction.v : U256 := yParityAndChainIdToV t.oddYParity t.chainId

/-- `Transaction::set_v`. -/
def Transaction.setV (v : U256) : Option Transaction :=
  (vToYParityAndChainId v).map fun (odd, chainId) =>
    { t with oddYParity := odd, chainId := chainId }.reset

/-- The two directions of EIP-155 are inverse. -/
theorem yParityAndChainIdToV_of_v {v : U256} {odd : Bool} {chainId : Option U256}
    (h : vToYParityAndChainId v = some (odd, chainId)) : yParityAndChainIdToV odd chainId = v := by
  unfold vToYParityAndChainId at h
  split at h
  case isTrue hv =>
    cases h
    rcases hv with rfl | rfl <;> rfl
  case isFalse hv =>
    split at h
    · cases h
    case isFalse h35 =>
      simp only [Option.some.injEq, Prod.mk.injEq] at h
      obtain ⟨rfl, rfl⟩ := h
      apply BitVec.eq_of_toNat_eq
      have hv := v.isLt
      have hw : (v - 35).toNat = v.toNat - 35 := by
        simp only [BitVec.ofNat_eq_ofNat, BitVec.toNat_sub, BitVec.toNat_ofNat]
        omega
      generalize v - 35 = w at hw ⊢
      by_cases hodd : w.toNat % 2 = 1
      · simp only [yParityAndChainIdToV, hodd, decide_true, if_true, BitVec.toNat_add,
          BitVec.toNat_mul, BitVec.toNat_ushiftRight, Nat.shiftRight_eq_div_pow,
          BitVec.ofNat_eq_ofNat, BitVec.toNat_ofNat]
        omega
      · simp only [yParityAndChainIdToV, hodd, decide_false, Bool.false_eq_true, if_false,
          BitVec.toNat_add, BitVec.toNat_mul, BitVec.toNat_ushiftRight,
          Nat.shiftRight_eq_div_pow, BitVec.ofNat_eq_ofNat, BitVec.toNat_ofNat]
        omega

/-! ## Encoding -/

/-- `encode` of a fixed-size byte array. -/
def encodeFixed {n : ℕ} (v : FixedBytes n) : Bytes := encodeBytes v.val

/-- `length` of a fixed-size byte array. -/
def lengthFixed {n : ℕ} (v : FixedBytes n) : ℕ := lengthBytes v.val

/-- The payload length `header(const AccessListEntry&)` computes. -/
def AccessListEntry.header (e : AccessListEntry) : ℕ :=
  20 + 1 + lengthVector lengthFixed e.storageKeys

/-- `length(const AccessListEntry&)`. -/
def AccessListEntry.length (e : AccessListEntry) : ℕ := lengthOfLength e.header + e.header

/-- `encode(Bytes&, const AccessListEntry&)`. -/
def AccessListEntry.encode (e : AccessListEntry) : Bytes :=
  encodeHeader ⟨true, e.header⟩ ++ encodeFixed e.account ++
    encodeVector lengthFixed encodeFixed e.storageKeys

/-- The payload length `header(const Authorization&)` computes. -/
def Authorization.header (a : Authorization) : ℕ :=
  lengthUint a.chainId + (20 + 1) + lengthUint a.nonce + lengthUint a.yParity + lengthUint a.r +
    lengthUint a.s

/-- `length(const Authorization&)`. -/
def Authorization.length (a : Authorization) : ℕ := lengthOfLength a.header + a.header

/-- `encode(Bytes&, const Authorization&)`. -/
def Authorization.encode (a : Authorization) : Bytes :=
  encodeHeader ⟨true, a.header⟩ ++ encodeUint a.chainId ++ encodeFixed a.address ++
    encodeUint a.nonce ++ encodeUint a.yParity ++ encodeUint a.r ++ encodeUint a.s

/-- The recipient: its address, or the empty string for a contract creation. -/
def encodeTo (to_ : Option Address) : Bytes :=
  match to_ with
  | some a => encodeFixed a
  | none => [kEmptyStringCode]

/-- The payload length `header_base(const UnsignedTransaction&)` computes. -/
def Transaction.headerBase : ℕ :=
  (if t.type ≠ .legacy then lengthUint (t.chainId.getD 0) else 0) +
  lengthUint t.nonce +
  (if t.type = .dynamicFee ∨ t.type = .blob ∨ t.type = .setCode then
    lengthUint t.maxPriorityFeePerGas else 0) +
  lengthUint t.maxFeePerGas +
  lengthUint t.gasLimit +
  (if t.to_.isSome then 20 + 1 else 1) +
  lengthUint t.value +
  lengthBytes t.data +
  (if t.type ≠ .legacy then
    lengthVector AccessListEntry.length t.accessList +
    (if t.type = .blob then
      lengthUint t.maxFeePerBlobGas + lengthVector lengthFixed t.blobVersionedHashes else 0) +
    (if t.type = .setCode then lengthVector Authorization.length t.authorizations else 0)
  else 0)

/-- The payload length `header(const Transaction&)` computes. -/
def Transaction.header : ℕ :=
  t.headerBase + (if t.type ≠ .legacy then 1 else lengthUint t.v) + lengthUint t.r + lengthUint t.s

/-- `length(const Transaction&, bool)`. -/
def Transaction.length (wrapEip2718IntoString : Bool) : ℕ :=
  let rlpLen := lengthOfLength t.header + t.header
  if t.type ≠ .legacy ∧ wrapEip2718IntoString then lengthOfLength (rlpLen + 1) + rlpLen + 1
  else rlpLen

/-- `legacy_encode_base`. -/
def Transaction.legacyEncodeBase : Bytes :=
  encodeUint t.nonce ++ encodeUint t.maxFeePerGas ++ encodeUint t.gasLimit ++ encodeTo t.to_ ++
    encodeUint t.value ++ encodeBytes t.data

/-- The list items `eip2718_encode_for_signing` writes behind its header. -/
def Transaction.eip2718Items : Bytes :=
  encodeUint (t.chainId.getD 0) ++ encodeUint t.nonce ++
  (if t.type ≠ .accessList then encodeUint t.maxPriorityFeePerGas else []) ++
  encodeUint t.maxFeePerGas ++ encodeUint t.gasLimit ++ encodeTo t.to_ ++ encodeUint t.value ++
  encodeBytes t.data ++ encodeVector AccessListEntry.length AccessListEntry.encode t.accessList ++
  (if t.type = .blob then
    encodeUint t.maxFeePerBlobGas ++ encodeVector lengthFixed encodeFixed t.blobVersionedHashes
  else []) ++
  (if t.type = .setCode then
    encodeVector Authorization.length Authorization.encode t.authorizations else [])

/-- `eip2718_encode_for_signing` with the payload length `h`. -/
def Transaction.eip2718EncodeForSigning (h : ℕ) (wrap : Bool) : Bytes :=
  (if wrap then encodeHeader ⟨false, lengthOfLength h + h + 1⟩ else []) ++
    t.type.toByte :: (encodeHeader ⟨true, h⟩ ++ t.eip2718Items)

/-- `encode(Bytes&, const Transaction&, bool)`. -/
def Transaction.encode (wrapEip2718IntoString : Bool) : Bytes :=
  if t.type = .legacy then
    encodeHeader ⟨true, t.header⟩ ++ t.legacyEncodeBase ++ encodeUint t.v ++ encodeUint t.r ++
      encodeUint t.s
  else
    t.eip2718EncodeForSigning t.header wrapEip2718IntoString ++ encodeBool t.oddYParity ++
      encodeUint t.r ++ encodeUint t.s

/-! ## Decoding -/

/-- `decode(ByteView&, AccessListEntry&)`. -/
def decodeAccessListEntry : Decoder DecodingError AccessListEntry :=
  decodeFixed (fun src => do
    let (account, src) ← decodeArray 20 .allow src
    let (storageKeys, src) ← decodeVector (decodeArray 32 .allow) .allow src
    return (⟨account, storageKeys⟩, src)) mode

/-- `decode(ByteView&, Authorization&)`. -/
def decodeAuthorization : Decoder DecodingError Authorization :=
  decodeFixed (fun src => do
    let (chainId, src) ← decodeUint 256 .allow src
    let (address, src) ← decodeArray 20 .allow src
    let (nonce, src) ← decodeUint 64 .allow src
    let (yParity, src) ← decodeUint 8 .allow src
    let (r, src) ← decodeUint 256 .allow src
    let (s, src) ← decodeUint 256 .allow src
    return (⟨chainId, address, nonce, yParity, r, s⟩, src)) mode

/-- The recipient, which is peeked: the empty string, or an address. -/
def decodeTo : Except DecodingError (Option Address × Bytes) :=
  match src with
  | [] => .error .inputTooShort
  | b :: rest =>
    if b = kEmptyStringCode then .ok (none, rest)
    else do
      let (a, rest) ← decodeArray 20 .allow (b :: rest)
      return (some a, rest)

/-- `legacy_decode_items`; also returns the view at which the signature starts. -/
def legacyDecodeItems :
    Except DecodingError (Transaction × Bytes × Bytes) := do
  let (nonce, src) ← decodeUint 64 .allow src
  let (maxPriorityFeePerGas, src) ← decodeUint 256 .allow src
  let (gasLimit, src) ← decodeUint 64 .allow src
  let (to_, src) ← decodeTo src
  let (value, src) ← decodeUint 256 .allow src
  let (data, sig) ← decodeBytes .allow src
  let (v, src) ← decodeUint 256 .allow sig
  let t := { t with
    nonce := nonce, maxPriorityFeePerGas := maxPriorityFeePerGas,
    maxFeePerGas := maxPriorityFeePerGas, gasLimit := gasLimit, to_ := to_, value := value,
    data := data }
  match t.setV v with
  | none => .error .invalidVInSignature
  | some t => do
    let (r, src) ← decodeUint 256 .allow src
    let (s, src) ← decodeUint 256 .allow src
    return ({ t with r := r, s := s }, sig, src)

/-- The fee cap, which an access-list transaction shares with its priority fee. -/
def decodeMaxFee (maxPriorityFeePerGas : U256) (src : Bytes) :
    Except DecodingError (U256 × Bytes) :=
  if type = .accessList then .ok (maxPriorityFeePerGas, src) else decodeUint 256 .allow src

/-- The two blob items, empty for every other type. -/
def decodeBlobItems :
    Except DecodingError ((U256 × List Bytes32) × Bytes) :=
  if type ≠ .blob then .ok ((0, []), src)
  else do
    let (maxFeePerBlobGas, src) ← decodeUint 256 .allow src
    let (hashes, src) ← decodeVector (decodeArray 32 .allow) .allow src
    return ((maxFeePerBlobGas, hashes), src)

/-- The authorization list of a set-code transaction; any other type leaves the target's. -/
def decodeAuthorizations (old : List Authorization) (src : Bytes) :
    Except DecodingError (List Authorization × Bytes) :=
  if type = .setCode then decodeVector (decodeAuthorization .allow) .allow src else .ok (old, src)

/-- `eip2718_decode` for a supported type; also returns the views at which the list items and
the signature start. -/
def eip2718Decode :
    Except DecodingError (Transaction × Bytes × Bytes × Bytes) := do
  let (h, items) ← decodeHeader src
  rejectIf (h.list = false) .unexpectedString
  let (chainId, src) ← decodeUint 256 .allow items
  let (nonce, src) ← decodeUint 64 .allow src
  let (maxPriorityFeePerGas, src) ← decodeUint 256 .allow src
  let (maxFeePerGas, src) ← decodeMaxFee t.type maxPriorityFeePerGas src
  let (gasLimit, src) ← decodeUint 64 .allow src
  let (to_, src) ← decodeTo src
  let (value, src) ← decodeUint 256 .allow src
  let (data, src) ← decodeBytes .allow src
  let (accessList, src) ← decodeVector (decodeAccessListEntry .allow) .allow src
  let (blob, src) ← decodeBlobItems t.type src
  let (authorizations, sig) ← decodeAuthorizations t.type t.authorizations src
  let (oddYParity, src) ← decodeBool .allow sig
  let (r, src) ← decodeUint 256 .allow src
  let (s, src) ← decodeUint 256 .allow src
  rejectIf (items.length - src.length ≠ h.payloadLength) .unexpectedListElements
  return ({ t with
    chainId := some chainId, nonce := nonce, maxPriorityFeePerGas := maxPriorityFeePerGas,
    maxFeePerGas := maxFeePerGas, gasLimit := gasLimit, to_ := to_, value := value, data := data,
    accessList := accessList, maxFeePerBlobGas := blob.1, blobVersionedHashes := blob.2,
    authorizations := authorizations, oddYParity := oddYParity, r := r, s := s },
    items, sig, src)

/-- `Eip2718Wrapping`. -/
inductive Eip2718Wrapping where
  | none | string | both
  deriving Repr, DecidableEq

/-- `decode_transaction`'s legacy branch, behind the list header `h`; `whole` is the view the
call started with. -/
def decodeLegacy (whole : Bytes) (h : Header) (items : Bytes) :
    Except DecodingError (Transaction × Bytes) := do
  let t := { t with
    type := .legacy, accessList := [], maxFeePerBlobGas := 0, blobVersionedHashes := [] }
  let leftover := items.length - h.payloadLength
  rejectIf (mode ≠ .allow ∧ leftover ≠ 0) .inputTooLong
  let (t, sig, rest) ← legacyDecodeItems t items
  rejectIf (rest.length ≠ leftover) .unexpectedListElements
  return ({ t with
    rlpEncoded := whole.take (whole.length - rest.length),
    rlpUnsigned := items.take (items.length - sig.length) }, rest)

/-- `decode_transaction`'s string-wrapped branch, behind the string header `h`. -/
def decodeWrapped (h : Header) (typed : Bytes) :
    Except DecodingError (Transaction × Bytes) :=
  match typed.take h.payloadLength with
  | [] => .error .inputTooShort
  | b :: view => do
    let type ← typedOfByte b
    let (t, items, sig, left) ← eip2718Decode { t with type := type } view
    rejectIf (left ≠ []) .unexpectedListElements
    let rest := typed.drop h.payloadLength
    checkLeftover mode rest
    return ({ t with
      rlpEncoded := typed.take h.payloadLength,
      rlpUnsigned := items.take (items.length - sig.length) }, rest)

/-- `decode_transaction`: the transaction read over the target `t`, and the bytes left.

The raw branch hands over to `eip2718_decode` and returns what that leaves; neither the
`Leftover` mode nor the cached views are looked at there. -/
def decodeTransaction (wrapping : Eip2718Wrapping) (mode : Leftover)
    (src : Bytes) : Except DecodingError (Transaction × Bytes) := do
  let t := t.reset
  match src with
  | [] => .error .inputTooShort
  | b :: rest =>
    if 0 < b ∧ b < kEmptyStringCode then do
      rejectIf (wrapping = .string) .unexpectedEip2718Serialization
      let type ← typedOfByte b
      let (t, _, _, rest) ← eip2718Decode { t with type := type } rest
      return (t, rest)
    else do
      let (h, view) ← decodeHeader (b :: rest)
      if h.list then decodeLegacy t mode (b :: rest) h view
      else do
        rejectIf (wrapping = .none) .unexpectedEip2718Serialization
        decodeWrapped t mode h view

end Zilkworm.Types
