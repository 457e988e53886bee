/-
# The payload of a stateless input

`core/state_zz/slib_payload.{hpp,cpp}`: the `NewPayloadRequest` decoded into its fields, its hash
tree root, and the block it describes.
-/
import Zilkworm.Ssz.Read
import Zilkworm.Ssz.Merkle
import Zilkworm.Execution.Receipts

namespace Zilkworm.Slib

open Lib Rlp Zilkworm.Types State Execution Protocol

/-- `kRequestFixed`. -/
def kRequestFixed : ℕ := 44

/-- `kRequestOffsets`. -/
def kRequestOffsets : List ℕ := [0, 4, 40]

/-- `kBeaconRootAt`. -/
def kBeaconRootAt : ℕ := 8

/-- `kPayloadFixed`. -/
def kPayloadFixed : ℕ := 540

/-- `kPayloadOffsets`: of the extra data, the transactions, the withdrawals and the block access
list. -/
def kPayloadOffsets : List ℕ := [436, 504, 508, 528]

/-- `kMaxExtraDataBytes` of the payload. -/
def kMaxExtraDataBytes : ℕ := 32

/-- `kWithdrawalSize`. -/
def kWithdrawalSize : ℕ := 44

/-- `kRequestsFixed`. -/
def kRequestsFixed : ℕ := 20

/-- `kRequestsOffsets`. -/
def kRequestsOffsets : List ℕ := [0, 4, 8, 12, 16]

/-- The request types, in the order of their lists. -/
def requestTypes : List FlatRequestType :=
  [.deposit, .withdrawal, .consolidation, .builderDeposit, .builderExit]

/-- `kRequestItemSize`. -/
def kRequestItemSize : FlatRequestType → ℕ
  | .deposit => 192
  | .withdrawal => 76
  | .consolidation => 116
  | .builderDeposit => 184
  | .builderExit => 68

/-- `kMaxTransactionBytes`. -/
def kMaxTransactionBytes : ℕ := 2 ^ 23

/-- `kMaxTransactions`. -/
def kMaxTransactions : ℕ := 2 ^ 16

/-- `SlibPayload`. -/
structure SlibPayload where
  parentHash : Bytes32
  feeRecipient : Address
  stateRoot : Bytes32
  receiptsRoot : Bytes32
  logsBloom : FixedBytes 256
  prevRandao : Bytes32
  blockNumber : U64
  gasLimit : U64
  gasUsed : U64
  timestamp : U64
  extraData : Bytes
  /-- Little-endian. -/
  baseFeePerGas : Bytes32
  blockHash : Bytes32
  transactions : List Bytes
  withdrawals : List Withdrawal
  blobGasUsed : U64
  excessBlobGas : U64
  blockAccessList : Bytes
  slotNumber : U64
  versionedHashes : Bytes
  parentBeaconBlockRoot : Bytes32
  executionRequests : FlatRequestType → Bytes

/-- `bytes32_at`. -/
def bytes32At (v : Bytes) (off : ℕ) : Bytes32 := FixedBytes.load 32 (slice v off 32)

/-- `rd_u64` as a machine word. -/
def rdU64 (v : Bytes) (off : ℕ) : U64 := BitVec.ofNat 64 (u64At v off)

/-- A withdrawal of the payload. -/
def readWithdrawal (w : Bytes) : Withdrawal where
  index := rdU64 w 0
  validatorIndex := rdU64 w 8
  address := FixedBytes.load 20 (slice w 16 20)
  amount := rdU64 w 36

/-- The request lists, each a whole number of items. -/
def readRequests (requests : Bytes) : Option (FlatRequestType → Bytes) := do
  let f ← Ssz.splitVariable requests kRequestsFixed kRequestsOffsets
  let lists : FlatRequestType → Bytes := fun t => f.getD t.toNat []
  if requestTypes.all fun t => (lists t).length % kRequestItemSize t = 0 then return lists else none

/-- `decode_slib_payload`. -/
def decodeSlibPayload (request : Bytes) : Option SlibPayload := do
  let f ← Ssz.splitVariable request kRequestFixed kRequestOffsets
  let payload := f.getD 0 []
  let versionedHashes := f.getD 1 []
  if versionedHashes.length % 32 ≠ 0 then none
  let g ← Ssz.splitVariable payload kPayloadFixed kPayloadOffsets
  let extraData := g.getD 0 []
  if kMaxExtraDataBytes < extraData.length then none
  let transactions ← Ssz.decodeByteLists (g.getD 1 []) kMaxTransactionBytes kMaxTransactions
  let withdrawals ← Ssz.splitFixedItems (g.getD 2 []) kWithdrawalSize
  let executionRequests ← readRequests (f.getD 2 [])
  return {
    parentHash := bytes32At payload 0
    feeRecipient := FixedBytes.load 20 (slice payload 32 20)
    stateRoot := bytes32At payload 52
    receiptsRoot := bytes32At payload 84
    logsBloom := FixedBytes.load 256 (slice payload 116 256)
    prevRandao := bytes32At payload 372
    blockNumber := rdU64 payload 404
    gasLimit := rdU64 payload 412
    gasUsed := rdU64 payload 420
    timestamp := rdU64 payload 428
    extraData := extraData
    baseFeePerGas := bytes32At payload 440
    blockHash := bytes32At payload 472
    transactions := transactions
    withdrawals := withdrawals.map readWithdrawal
    blobGasUsed := rdU64 payload 512
    excessBlobGas := rdU64 payload 520
    blockAccessList := g.getD 3 []
    slotNumber := rdU64 payload 532
    versionedHashes := versionedHashes
    parentBeaconBlockRoot := bytes32At request kBeaconRootAt
    executionRequests := executionRequests }

/-! ## The hash tree root -/

section

variable (sha256 : Bytes → Bytes32)

/-- `root_fixed`. -/
def rootFixed (v : Bytes) (off len : ℕ) : Bytes32 := Ssz.rootBytesFixed sha256 (slice v off len)

/-- `withdrawal_root`. -/
def withdrawalRoot (w : Withdrawal) : Bytes32 :=
  Ssz.rootContainer sha256 [Ssz.rootU64 w.index, Ssz.rootU64 w.validatorIndex,
    Ssz.rootBytesFixed sha256 w.address.val, Ssz.rootU64 w.amount]

/-- `request_root`. -/
def requestRoot (type : FlatRequestType) (item : Bytes) : Bytes32 :=
  let fixed := rootFixed sha256 item
  let word off := Ssz.rootU64 (rdU64 item off)
  Ssz.rootContainer sha256 (match type with
    | .deposit => [fixed 0 48, fixed 48 32, word 80, fixed 88 96, word 184]
    | .withdrawal => [fixed 0 20, fixed 20 48, word 68]
    | .consolidation => [fixed 0 20, fixed 20 48, fixed 68 48]
    | .builderDeposit => [fixed 0 48, fixed 48 32, word 80, fixed 88 96]
    | .builderExit => [fixed 0 20, fixed 20 48])

/-- The root of the requests of one type. -/
def requestListRoot (type : FlatRequestType) (list : Bytes) : Bytes32 :=
  let size := kRequestItemSize type
  Ssz.rootProgressiveList sha256 ((List.range (list.length / size)).map fun i =>
    requestRoot sha256 type (slice list (i * size) size))

/-- The root of the execution payload. -/
def executionPayloadRoot (p : SlibPayload) : Bytes32 :=
  let bytes32 (v : Bytes32) := Ssz.rootBytesFixed sha256 v.val
  Ssz.rootProgressiveContainer sha256
    [bytes32 p.parentHash, Ssz.rootBytesFixed sha256 p.feeRecipient.val, bytes32 p.stateRoot,
     bytes32 p.receiptsRoot, Ssz.rootBytesFixed sha256 p.logsBloom.val, bytes32 p.prevRandao,
     Ssz.rootU64 p.blockNumber, Ssz.rootU64 p.gasLimit, Ssz.rootU64 p.gasUsed, Ssz.rootU64 p.timestamp,
     Ssz.rootByteList sha256 p.extraData kMaxExtraDataBytes, bytes32 p.baseFeePerGas,
     bytes32 p.blockHash,
     Ssz.rootProgressiveList sha256 (p.transactions.map (Ssz.rootProgressiveBytes sha256)),
     Ssz.rootProgressiveList sha256 (p.withdrawals.map (withdrawalRoot sha256)),
     Ssz.rootU64 p.blobGasUsed, Ssz.rootU64 p.excessBlobGas,
     Ssz.rootProgressiveBytes sha256 p.blockAccessList, Ssz.rootU64 p.slotNumber]

/-- `slib_payload_root`. -/
def slibPayloadRoot (p : SlibPayload) : Bytes32 :=
  Ssz.rootContainer sha256
    [executionPayloadRoot sha256 p,
     Ssz.rootProgressiveList sha256 (Ssz.pack p.versionedHashes),
     Ssz.rootBytesFixed sha256 p.parentBeaconBlockRoot.val,
     Ssz.rootProgressiveContainer sha256
       (requestTypes.map fun t => requestListRoot sha256 t (p.executionRequests t))]

end

/-! ## The block -/

/-- The transactions of the payload, decoded; bytes left behind one are not looked at. -/
def payloadTransactions (p : SlibPayload) : Option (List Transaction) :=
  p.transactions.mapM fun tx =>
    (decodeTransaction {} .none .prohibit tx).toOption.map (·.1)

/-- The requests of the payload as the requests hash takes them. -/
def payloadRequests (p : SlibPayload) : FlatRequests :=
  requestTypes.foldl (fun (rs : FlatRequests) t =>
    if p.executionRequests t = [] then rs else rs.addRequest t (p.executionRequests t)) fun _ => []

/-- The header `slib_payload_block` derives, for a body. -/
def payloadHeader (keccak256 sha256 : Bytes → Bytes32) (p : SlibPayload) (body : Block) :
    BlockHeader where
  parentHash := p.parentHash
  ommersHash := kEmptyListHash
  beneficiary := p.feeRecipient
  stateRoot := p.stateRoot
  transactionsRoot := computeTransactionRoot keccak256 body
  receiptsRoot := p.receiptsRoot
  logsBloom := p.logsBloom
  difficulty := 0
  number := p.blockNumber
  gasLimit := p.gasLimit
  gasUsed := p.gasUsed
  timestamp := p.timestamp
  extraData := p.extraData
  prevRandao := p.prevRandao
  nonce := FixedBytes.zero 8
  baseFeePerGas := some (BitVec.ofNat 256 (leNat p.baseFeePerGas.val))
  withdrawalsRoot := computeWithdrawalsRoot keccak256 body
  blobGasUsed := some p.blobGasUsed
  excessBlobGas := some p.excessBlobGas
  parentBeaconBlockRoot := some p.parentBeaconBlockRoot
  requestsHash := some ((payloadRequests p).calculateSha256 sha256)
  blockAccessListHash := some (keccak256 p.blockAccessList)
  slotNumber := some p.slotNumber

/-- `slib_payload_block`. -/
def slibPayloadBlock (keccak256 sha256 : Bytes → Bytes32) (p : SlibPayload) : Option Block := do
  let transactions ← payloadTransactions p
  let body : Block := { transactions := transactions, withdrawals := some p.withdrawals }
  return { body with header := payloadHeader keccak256 sha256 p body }

end Zilkworm.Slib
