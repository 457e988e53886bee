/-
# Receipts and requests

`core/types/{log,bloom,receipt,eip_7685_requests}.cpp`: the bloom of a receipt's logs, the
receipt's encoding, and the requests of EIP-7685 with the deposits read off the logs.  The
source writes a receipt's bytes through a buffer of the computed size; the model builds the
same list.
-/
import Zilkworm.Protocol.RuleSet

namespace Zilkworm.Execution

open Lib Rlp Zilkworm.Types State Chain Protocol

/-- `Log`. -/
structure Log where
  address : Address
  topics : List Bytes32
  data : Bytes
  deriving DecidableEq

/-- `Bloom`. -/
abbrev Bloom := FixedBytes 256

/-- `Receipt`. -/
structure Receipt where
  type : TransactionType := .legacy
  success : Bool := false
  cumulativeGasUsed : U64 := 0
  bloom : Bloom := FixedBytes.zero 256
  logs : List Log := []
  deriving DecidableEq

/-- Sets bit `bit` of a bloom, counted from the end. -/
def setBloomBit (bit : ℕ) (bloom : Bloom) : Bloom :=
  ⟨bloom.val.set (255 - bit / 8) (bloom.val.getD (255 - bit / 8) 0 ||| UInt8.ofNat (2 ^ (bit % 8))), by
    simp [bloom.2]⟩

/-- `m3_2048`: three bits of a hash. -/
def m3_2048 (keccak256 : Bytes → Bytes32) (bloom : Bloom) (x : Bytes) : Bloom :=
  let hash := (keccak256 x).val
  [0, 2, 4].foldl (fun b i =>
    setBloomBit (((hash.getD (i + 1) 0).toNat + (hash.getD i 0).toNat * 256) % 2048) b) bloom

/-- `logs_bloom`. -/
def logsBloom (keccak256 : Bytes → Bytes32) (logs : List Log) : Bloom :=
  logs.foldl (fun b l => l.topics.foldl (fun b t => m3_2048 keccak256 b t.val)
    (m3_2048 keccak256 b l.address.val)) (FixedBytes.zero 256)

/-- `join`. -/
def joinBloom (sum addend : Bloom) : Bloom :=
  ⟨sum.val.zipWith (· ||| ·) addend.val, by simp [sum.2, addend.2]⟩

/-- `encode(Bytes&, const Log&)`. -/
def Log.encode (l : Log) : Bytes :=
  encodeList (encodeFixed l.address ++ encodeList (l.topics.flatMap fun t => encodeFixed t) ++
    encodeBytes l.data)

/-- `encode(Bytes&, const Receipt&)`. -/
def Receipt.encode (r : Receipt) : Bytes :=
  (if r.type ≠ .legacy then [r.type.toByte] else []) ++
    encodeList (encodeBool r.success ++ encodeUint r.cumulativeGasUsed ++ encodeFixed r.bloom ++
      encodeList (r.logs.flatMap Log.encode))

/-! ## Requests -/

/-- `FlatRequestType`. -/
inductive FlatRequestType where
  | deposit | withdrawal | consolidation | builderDeposit | builderExit
  deriving DecidableEq, Repr

/-- The enumerator's value. -/
def FlatRequestType.toNat : FlatRequestType → ℕ
  | .deposit => 0
  | .withdrawal => 1
  | .consolidation => 2
  | .builderDeposit => 3
  | .builderExit => 4

/-- `FlatRequests`: the data of each type, joined. -/
abbrev FlatRequests := FlatRequestType → Bytes

/-- `add_request`. -/
def FlatRequests.addRequest (rs : FlatRequests) (type : FlatRequestType) (data : Bytes) :
    FlatRequests :=
  fun t => if t = type then rs t ++ data else rs t

/-- A 32-byte word of the log as a 32-bit size. -/
def readWordAsSize (data : Bytes) (pos : ℕ) : Option ℕ :=
  let v := beNat (slice data pos 32)
  if 2 ^ 32 - 1 < v then none else some v

/-- The fields of a deposit log: where the length word of each stands, and its size. -/
def depositFields : List (ℕ × ℕ) := [(160, 48), (256, 32), (320, 8), (384, 96), (512, 8)]

/-- `extract_deposit`. -/
def extractDeposit (data : Bytes) : Option Bytes :=
  if data.length ≠ 576 then none
  else if (List.range 5).map (fun i => readWordAsSize data (i * 32)) ≠
      depositFields.map (fun f => some f.1) then none
  else if depositFields.all fun f => readWordAsSize data f.1 = some f.2 then
    some (depositFields.flatMap fun f => slice data (f.1 + 32) f.2)
  else none

/-- `kDepositContractAddress`. -/
def kDepositContractAddress : Address := addressOfNat 0x00000000219ab540356cbb839cbe05303d7705fa

/-- `kDepositEventSignatureHash`. -/
def kDepositEventSignatureHash : Bytes32 :=
  Bytes32.ofNat 0x649bbc62d0e31342afea4e5cd82d4049e7e1ee912fc0889aa790803be39038c5

/-- `extract_deposits_from_logs`; `none` when a deposit log is malformed. -/
def FlatRequests.extractDepositsFromLogs (rs : FlatRequests) (logs : List Log) :
    Option FlatRequests :=
  logs.foldlM (fun rs l =>
    if l.address = kDepositContractAddress ∧ l.topics.head? = some kDepositEventSignatureHash then
      (extractDeposit l.data).map (rs.addRequest .deposit)
    else some rs) rs

/-- `calculate_sha256`: the hash of the hashes of the non-empty requests. -/
def FlatRequests.calculateSha256 (sha256 : Bytes → Bytes32) (rs : FlatRequests) : Bytes32 :=
  sha256 ([FlatRequestType.deposit, .withdrawal, .consolidation, .builderDeposit,
    .builderExit].flatMap fun t =>
      if rs t = [] then [] else (sha256 (UInt8.ofNat t.toNat :: rs t)).val)

end Zilkworm.Execution
