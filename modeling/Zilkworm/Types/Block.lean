/-
# Blocks

`core/types/block.{hpp,cpp}` and `core/types/withdrawal.{hpp,cpp}`: the header with its
optional fields, the block, their RLP encoders and decoders.  The header's hash is the
keccak of its encoding; keccak itself is outside the repository and is an argument.
-/
import Zilkworm.Types.Transaction

namespace Zilkworm.Types

open Lib Rlp

/-- `Withdrawal`; the amount is in Gwei. -/
structure Withdrawal where
  index : U64
  validatorIndex : U64
  address : Address
  amount : U64
  deriving DecidableEq

/-- `BlockHeader`. -/
structure BlockHeader where
  parentHash : Bytes32 := zeroBytes32
  ommersHash : Bytes32 := zeroBytes32
  beneficiary : Address := zeroAddress
  stateRoot : Bytes32 := zeroBytes32
  transactionsRoot : Bytes32 := zeroBytes32
  receiptsRoot : Bytes32 := zeroBytes32
  logsBloom : FixedBytes 256 := FixedBytes.zero 256
  difficulty : U256 := 0
  number : U64 := 0
  gasLimit : U64 := 0
  gasUsed : U64 := 0
  timestamp : U64 := 0
  extraData : Bytes := []
  prevRandao : Bytes32 := zeroBytes32
  nonce : FixedBytes 8 := FixedBytes.zero 8
  baseFeePerGas : Option U256 := none
  withdrawalsRoot : Option Bytes32 := none
  blobGasUsed : Option U64 := none
  excessBlobGas : Option U64 := none
  parentBeaconBlockRoot : Option Bytes32 := none
  requestsHash : Option Bytes32 := none
  blockAccessListHash : Option Bytes32 := none
  slotNumber : Option U64 := none
  deriving DecidableEq

/-- `Block`, a `BlockBody` with its header. -/
structure Block where
  header : BlockHeader := {}
  transactions : List Transaction := []
  ommers : List BlockHeader := []
  withdrawals : Option (List Withdrawal) := none
  deriving DecidableEq

/-! ## Encoding -/

/-- An optional field: nothing when it is absent. -/
def encodeOptional {α : Type} (enc : α → Bytes) (v : Option α) : Bytes := (v.map enc).getD []

/-- The length of an optional field. -/
def lengthOptional {α : Type} (len : α → ℕ) (v : Option α) : ℕ := (v.map len).getD 0

/-- The payload length `rlp_header(const BlockHeader&)` computes (not for sealing). -/
def BlockHeader.rlpHeader (h : BlockHeader) : ℕ :=
  (32 + 1) + (32 + 1) + (20 + 1) + (32 + 1) + (32 + 1) + (32 + 1) + (256 + lengthOfLength 256) +
  lengthUint h.difficulty + lengthUint h.number + lengthUint h.gasLimit + lengthUint h.gasUsed +
  lengthUint h.timestamp + lengthBytes h.extraData + (32 + 1) + (8 + 1) +
  lengthOptional lengthUint h.baseFeePerGas +
  lengthOptional (fun _ => 32 + 1) h.withdrawalsRoot +
  lengthOptional lengthUint h.blobGasUsed +
  lengthOptional lengthUint h.excessBlobGas +
  lengthOptional (fun _ => 32 + 1) h.parentBeaconBlockRoot +
  lengthOptional (fun _ => 32 + 1) h.requestsHash +
  lengthOptional (fun _ => 32 + 1) h.blockAccessListHash +
  lengthOptional lengthUint h.slotNumber

/-- `encode(Bytes&, const BlockHeader&)`. -/
def BlockHeader.encode (h : BlockHeader) : Bytes :=
  encodeHeader ⟨true, h.rlpHeader⟩ ++
  encodeFixed h.parentHash ++ encodeFixed h.ommersHash ++ encodeFixed h.beneficiary ++
  encodeFixed h.stateRoot ++ encodeFixed h.transactionsRoot ++ encodeFixed h.receiptsRoot ++
  encodeFixed h.logsBloom ++ encodeUint h.difficulty ++ encodeUint h.number ++
  encodeUint h.gasLimit ++ encodeUint h.gasUsed ++ encodeUint h.timestamp ++
  encodeBytes h.extraData ++ encodeFixed h.prevRandao ++ encodeFixed h.nonce ++
  encodeOptional encodeUint h.baseFeePerGas ++
  encodeOptional encodeFixed h.withdrawalsRoot ++
  encodeOptional encodeUint h.blobGasUsed ++
  encodeOptional encodeUint h.excessBlobGas ++
  encodeOptional encodeFixed h.parentBeaconBlockRoot ++
  encodeOptional encodeFixed h.requestsHash ++
  encodeOptional encodeFixed h.blockAccessListHash ++
  encodeOptional encodeUint h.slotNumber

/-- `BlockHeader::hash`. -/
def BlockHeader.hash (keccak256 : Bytes → Bytes32) (h : BlockHeader) : Bytes32 := keccak256 h.encode

/-- The payload length `header(const Withdrawal&)` computes. -/
def Withdrawal.header (w : Withdrawal) : ℕ :=
  lengthUint w.index + lengthUint w.validatorIndex + lengthFixed w.address + lengthUint w.amount

/-- `encode(Bytes&, const Withdrawal&)`. -/
def Withdrawal.encode (w : Withdrawal) : Bytes :=
  encodeHeader ⟨true, w.header⟩ ++ encodeUint w.index ++ encodeUint w.validatorIndex ++
    encodeFixed w.address ++ encodeUint w.amount

/-! ## Lengths -/

/-- `length(const BlockHeader&)`. -/
def BlockHeader.length (h : BlockHeader) : ℕ := lengthOfLength h.rlpHeader + h.rlpHeader

/-- `length(const Withdrawal&)`. -/
def Withdrawal.length (w : Withdrawal) : ℕ := lengthOfLength w.header + w.header

/-- The payload length `rlp_header(const Block&)` computes. -/
def Block.rlpHeader (b : Block) : ℕ :=
  lengthVector (fun t => t.length true) b.transactions + lengthVector BlockHeader.length b.ommers +
    lengthOptional (lengthVector Withdrawal.length) b.withdrawals + b.header.length

/-- `length(const Block&)`. -/
def Block.length (b : Block) : ℕ := lengthOfLength b.rlpHeader + b.rlpHeader

/-! ## Decoding -/

/-- `decode(ByteView&, Withdrawal&)`. -/
def decodeWithdrawal (mode : Leftover) : Decoder DecodingError Withdrawal :=
  decodeFixed (fun src => do
    let (index, src) ← decodeUint 64 .allow src
    let (validatorIndex, src) ← decodeUint 64 .allow src
    let (address, src) ← decodeArray 20 .allow src
    let (amount, src) ← decodeUint 64 .allow src
    return (⟨index, validatorIndex, address, amount⟩, src)) mode

/-- An optional trailing field: present while the view is longer than what follows the list. -/
def decodeOptional {α : Type} (leftover : ℕ) (dec : Decoder DecodingError α) (src : Bytes) :
    Except DecodingError (Option α × Bytes) :=
  if leftover < src.length then do
    let (v, src) ← dec src
    return (some v, src)
  else .ok (none, src)

/-- The three blob fields, which come together. -/
def decodeBlobFields (src : Bytes) : Except DecodingError ((U64 × U64 × Bytes32) × Bytes) := do
  let (blobGasUsed, src) ← decodeUint 64 .allow src
  let (excessBlobGas, src) ← decodeUint 64 .allow src
  let (parentBeaconBlockRoot, src) ← decodeArray 32 .allow src
  return ((blobGasUsed, excessBlobGas, parentBeaconBlockRoot), src)

/-- `decode(ByteView&, BlockHeader&)`. -/
def decodeBlockHeader (mode : Leftover) (src : Bytes) :
    Except DecodingError (BlockHeader × Bytes) := do
  let (h, src) ← decodeHeader src
  rejectIf (h.list = false) .unexpectedString
  let leftover := src.length - h.payloadLength
  rejectIf (mode ≠ .allow ∧ leftover ≠ 0) .inputTooLong
  let (parentHash, src) ← decodeArray 32 .allow src
  let (ommersHash, src) ← decodeArray 32 .allow src
  let (beneficiary, src) ← decodeArray 20 .allow src
  let (stateRoot, src) ← decodeArray 32 .allow src
  let (transactionsRoot, src) ← decodeArray 32 .allow src
  let (receiptsRoot, src) ← decodeArray 32 .allow src
  let (logsBloom, src) ← decodeArray 256 .allow src
  let (difficulty, src) ← decodeUint 256 .allow src
  let (number, src) ← decodeUint 64 .allow src
  let (gasLimit, src) ← decodeUint 64 .allow src
  let (gasUsed, src) ← decodeUint 64 .allow src
  let (timestamp, src) ← decodeUint 64 .allow src
  let (extraData, src) ← decodeBytes .allow src
  let (prevRandao, src) ← decodeArray 32 .allow src
  let (nonce, src) ← decodeArray 8 .allow src
  let (baseFeePerGas, src) ← decodeOptional leftover (decodeUint 256 .allow) src
  let (withdrawalsRoot, src) ← decodeOptional leftover (decodeArray 32 .allow) src
  let (blob, src) ← decodeOptional leftover decodeBlobFields src
  let (requestsHash, src) ← decodeOptional leftover (decodeArray 32 .allow) src
  let (blockAccessListHash, src) ← decodeOptional leftover (decodeArray 32 .allow) src
  let (slotNumber, src) ← decodeOptional leftover (decodeUint 64 .allow) src
  rejectIf (src.length ≠ leftover) .unexpectedListElements
  return ({
    parentHash := parentHash, ommersHash := ommersHash, beneficiary := beneficiary,
    stateRoot := stateRoot, transactionsRoot := transactionsRoot, receiptsRoot := receiptsRoot,
    logsBloom := logsBloom, difficulty := difficulty, number := number, gasLimit := gasLimit,
    gasUsed := gasUsed, timestamp := timestamp, extraData := extraData, prevRandao := prevRandao,
    nonce := nonce, baseFeePerGas := baseFeePerGas, withdrawalsRoot := withdrawalsRoot,
    blobGasUsed := blob.map (·.1), excessBlobGas := blob.map (·.2.1),
    parentBeaconBlockRoot := blob.map (·.2.2), requestsHash := requestsHash,
    blockAccessListHash := blockAccessListHash, slotNumber := slotNumber }, src)

/-- `decode(ByteView&, Block&)`. -/
def decodeBlock (mode : Leftover) (src : Bytes) : Except DecodingError (Block × Bytes) := do
  let (h, src) ← decodeHeader src
  rejectIf (h.list = false) .unexpectedString
  let leftover := src.length - h.payloadLength
  rejectIf (mode ≠ .allow ∧ leftover ≠ 0) .inputTooLong
  let (header, src) ← decodeBlockHeader .allow src
  let (transactions, src) ← decodeVector (decodeTransaction {} .string .allow) .allow src
  let (ommers, src) ← decodeVector (decodeBlockHeader .allow) .allow src
  let (withdrawals, src) ←
    decodeOptional leftover (decodeVector (decodeWithdrawal .allow) .allow) src
  rejectIf (src.length ≠ leftover) .unexpectedListElements
  return (⟨header, transactions, ommers, withdrawals⟩, src)

end Zilkworm.Types
